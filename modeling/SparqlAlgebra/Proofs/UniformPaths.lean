import SparqlAlgebra.Proofs.PathNodes
import SparqlAlgebra.Proofs.UniformOperators

/-!
# Uniform paths

Paths are followed in the same way over alike views. For all but the closures this
holds step by step. A search along a closure takes its fuel from the size of the
dataset, which alike views may disagree about; what is outside of the active graph
counts for the fuel, but it is never found. Both searches have fuel for every term
that they can find, so both empty their queues, and the fuel does not matter.

* `Lasts` is what a search keeps: it has found different terms out of a list of
  nodes, and has fuel for those of them that it has not found yet;
* `Relation.search_runsAlike`: two searches whose fuel lasts run alike;
* `Path.relation_uniform` is the induction over paths.
-/

namespace SparqlAlgebra

open Eval

/-! ## Searches -/

/-- A search has found different ones out of some nodes, its queue holds nodes
only, and its fuel lasts for the queue and for all nodes that are not found. -/
structure Lasts (nodes queue found : List Term) (fuel : Nat) : Prop where
  nodup : found.Nodup
  within : found ⊆ nodes
  queued : queue ⊆ nodes
  fuel_le : nodes.length + queue.length ≤ fuel + found.length

namespace Lasts

variable {nodes queue found new : List Term} {t : Term} {fuel : Nat}

/-- Without fuel there is nothing left to look at. -/
theorem queue_eq_nil (h : Lasts nodes queue found 0) : queue = [] := by
  have hlength := List.Nodup.length_le_of_subset h.nodup h.within
  have hfuel := h.fuel_le
  exact List.length_eq_zero_iff.mp (by omega)

/-- What is new to the search moves from what is not found to the queue. -/
theorem step (h : Lasts nodes (t :: queue) found (fuel + 1)) (hnodup : new.Nodup)
    (hnodes : new ⊆ nodes) (hnew : ∀ u ∈ new, u ∉ found) :
    Lasts nodes (queue ++ new) (found ++ new) fuel := by
  refine ⟨List.nodup_append.mpr ⟨h.nodup, hnodup, ?_⟩, List.append_subset.mpr ⟨h.within, hnodes⟩,
    List.append_subset.mpr ⟨(List.cons_subset.mp h.queued).2, hnodes⟩, ?_⟩
  · rintro u hu w hw rfl
    exact hnew u hw hu
  · have hfuel := h.fuel_le
    simp only [List.length_append, List.length_cons] at hfuel ⊢
    omega

end Lasts

namespace Relation

/-- The relation does the same over alike views, for all ends. -/
def Uniform (L : Likeness) (r : Relation) : Prop := ∀ s o, (r s o).Uniform L

variable {L : Likeness} {r q : Relation} {c : Context} {v' : DatasetView}

/-- The fuel of the two searches may differ. -/
theorem search_runsAlike (hv : L.Alike c.environment c.view v')
    {step : Term → Eval (List Term)} {nodes : List Term}
    (hstep : ∀ t ∈ nodes, (step t).RunsAlike L c v' (step t))
    (hnext : ∀ t ∈ nodes, (step t).Ensures c fun next => next.Nodup ∧ next ⊆ nodes)
    {fuel fuel' : Nat} {queue reached : List Term} (h : Lasts nodes queue reached fuel)
    (h' : Lasts nodes queue reached fuel') :
    (search step fuel queue reached).RunsAlike L c v'
      (search step fuel' queue reached) := by
  induction fuel generalizing fuel' queue reached with
  | zero =>
    -- the first search has ended, and so has the second one, whatever fuel it has
    cases h.queue_eq_nil
    cases fuel' <;> exact .pure _
  | succ fuel ih =>
    cases queue with
    | nil => cases fuel' <;> exact .pure _
    | cons t queue =>
      cases fuel' with
      | zero => cases h'.queue_eq_nil
      | succ fuel' =>
        have ht : t ∈ nodes := h.queued List.mem_cons_self
        -- both look at the same term and queue the same new ones
        refine (Eval.Uniform.tick c v' hv).bind fun _ =>
          (hstep t ht).bind_of (hnext t ht) fun next hnext => ?_
        have hnodup := hnext.1.filter (!reached.contains ·)
        have hnodes : next.filter (!reached.contains ·) ⊆ nodes := fun u hu =>
          hnext.2 (List.mem_of_mem_filter hu)
        have hnew : ∀ u ∈ next.filter (!reached.contains ·), u ∉ reached := fun u hu => by
          simpa using (List.mem_filter.mp hu).2
        exact ih (h.step hnodup hnodes hnew) (h'.step hnodup hnodes hnew)

/-! ## Edges -/

theorem bindingsOf_uniform (bind : Triple → Option Binding) (ts : List Triple) :
    (bindingsOf bind ts).Uniform L := by
  induction ts with
  | nil => exact .pure _
  | cons t rest ih => exact Eval.Uniform.tick.bind fun _ => ih.bind fun _ => .pure _

theorem edges_uniform (predicate : Iri) : (edges predicate).Uniform L := fun _ _ =>
  (Eval.Uniform.triples _ _ _).bind fun _ => bindingsOf_uniform _ _

theorem edgesOutside_uniform (excluded : List Iri) : (edgesOutside excluded).Uniform L := by
  intro s o
  unfold edgesOutside
  split
  · exact .pure _
  · exact (Eval.Uniform.triples _ _ _).bind fun _ => bindingsOf_uniform _ _

theorem backEdgesOutside_uniform (excluded : List Iri) :
    (backEdgesOutside excluded).Uniform L := by
  intro s o
  unfold backEdgesOutside
  split
  · exact .pure _
  · exact (Eval.Uniform.triples _ _ _).bind fun _ => bindingsOf_uniform _ _

/-! ## Combinations -/

theorem Uniform.swap (h : r.Uniform L) : r.swap.Uniform L := fun s o => h o s

theorem Uniform.either (hr : r.Uniform L) (hq : q.Uniform L) : (r.either q).Uniform L :=
  fun s o => (hr s o).bind fun _ => (hq s o).bind fun _ => .pure _

theorem continueAll_uniform {f : Binding → Eval (List Binding)} (hf : ∀ b, (f b).Uniform L)
    (bs : List Binding) : (continueAll f bs).Uniform L := by
  induction bs with
  | nil => exact .pure _
  | cons b rest ih => exact (hf b).bind fun _ => ih.bind fun _ => .pure _

theorem Uniform.sequence (hr : r.Uniform L) (hq : q.Uniform L) :
    (r.sequence q).Uniform L := by
  refine fun s o => Eval.Uniform.freshVar.bind fun middle => (hr s _).bind fun lefts =>
    continueAll_uniform (fun left => ?_) lefts
  unfold continueWith
  split
  · exact .pure _
  · exact (hq _ _).bind fun _ => .pure _

theorem zeroLength_uniform : zeroLength.Uniform L := by
  intro s o
  unfold zeroLength
  split
  · exact .pure _
  · exact .pure _
  · exact .pure _
  · exact Eval.Uniform.nodes.bind fun _ => .pure _

theorem Uniform.reflexive (h : r.Uniform L) : r.reflexive.Uniform L := fun s o =>
  (zeroLength_uniform s o).bind fun _ => (h s o).bind fun _ => .pure _

theorem Uniform.power (h : r.Uniform L) (n : Nat) : (r.power n).Uniform L := by
  induction n with
  | zero => exact h
  | succ n ih => exact ih.sequence h

theorem Uniform.times (h : r.Uniform L) : ∀ n, (r.times n).Uniform L
  | 0 => zeroLength_uniform
  | n + 1 => h.power n

/-! ## Closures -/

/-- A search finds its start and the nodes of the active graph at most. -/
theorem reachable_uniform (h : r.Uniform L) (hr : r.FindsNodes) (start : Term)
    (reflexive : Bool) : (reachable r start reflexive).Uniform L := by
  refine Eval.Uniform.freshVar.bind fun next => .read_bind fun c v' hv => ?_
  have hlasts (bound : Nat) (hbound : c.view.factNodes.length ≤ bound) :
      Lasts (start :: c.view.factNodes) [start] (if reflexive then [start] else [])
        (bound + 2) := by
    refine ⟨?_, ?_, List.cons_subset_cons _ (List.nil_subset _), ?_⟩
    · cases reflexive <;> simp
    · cases reflexive <;> simp
    · simp only [List.length_cons, List.length_nil]
      omega
  obtain ⟨hbound, hbound'⟩ := L.bounded hv
  refine search_runsAlike hv
    (fun t _ => ((h _ _).bind fun _ => .pure _) c v' hv)
    (fun t ht => (next_ensures hr t next).mono fun found hfound => ⟨hfound.1, fun u hu => ?_⟩)
    (hlasts _ hbound) (hlasts _ hbound')
  rcases hfound.2 u hu with rfl | hu
  · exact ht
  · exact List.mem_cons_of_mem _ hu

theorem starts_uniform (h : r.Uniform L) (reflexive : Bool) :
    (starts r reflexive).Uniform L := by
  cases reflexive with
  | true => exact .nodes
  | false =>
    exact Eval.Uniform.freshVar.bind fun _ => Eval.Uniform.freshVar.bind fun _ =>
      (h _ _).bind fun _ => .pure _

theorem closureFrom_uniform {reach : Term → Eval (List Term)}
    (h : ∀ t, (reach t).Uniform L) (v w : Var) (starts : List Term) :
    (closureFrom reach v w starts).Uniform L := by
  induction starts with
  | nil => exact .pure _
  | cons start rest ih => exact (h start).bind fun _ => ih.bind fun _ => .pure _

theorem Uniform.closure (h : r.Uniform L) (hr : r.FindsNodes) (reflexive : Bool) :
    (r.closure reflexive).Uniform L := by
  intro s o
  unfold Relation.closure
  split
  · exact (reachable_uniform h hr _ _).bind fun _ => .pure _
  · exact (reachable_uniform h hr _ _).bind fun _ => .pure _
  · exact (reachable_uniform h.swap hr.swap _ _).bind fun _ => .pure _
  · exact (starts_uniform h _).bind fun _ =>
      closureFrom_uniform (fun t => reachable_uniform h hr t _) _ _ _

end Relation

variable {L : Likeness}

/-- Paths do the same over alike views. -/
theorem Path.relation_uniform : ∀ path : Path, path.relation.Uniform L
  | .property p false => Relation.edges_uniform p
  | .property p true => (Relation.edges_uniform p).swap
  | .inverse inner => inner.relation_uniform.swap
  | .sequence p q => p.relation_uniform.sequence q.relation_uniform
  | .alternative p q => p.relation_uniform.either q.relation_uniform
  | .zeroOrOne inner => inner.relation_uniform.reflexive
  | .zeroOrMore inner | .oneOrMore inner =>
    inner.relation_uniform.closure inner.relation_findsNodes _
  | .negatedSet forward backward =>
    (Relation.edgesOutside_uniform forward).either
      (Relation.backEdgesOutside_uniform backward)
  | .fixedLength inner n => inner.relation_uniform.times n

theorem PathSearch.relation_uniform (search : PathSearch) : search.relation.Uniform L := by
  cases search with
  | zeroLength => exact Relation.zeroLength_uniform
  | zeroOrMore p => exact Path.relation_uniform _
  | oneOrMore p => exact Path.relation_uniform _
  | negatedSet forward backward => exact Path.relation_uniform _

theorem Step.matchPath_uniform (s : Position) (path : Path) (o : Position) (b : Binding) :
    (matchPath s path o b).Uniform L := by
  have hsolutions : (path.solutions (s.substitute b) (o.substitute b)).Uniform L :=
    (path.relation_uniform _ _).bind fun _ => .pure _
  exact hsolutions.bind fun _ => .pure _

theorem Plan.pathSearch_uniform (s : Position) (search : PathSearch) (o : Position) :
    (Plan.pathSearch s search o).Uniform L := by
  refine leaf_uniform _ (.read_bind fun c v' hv => ?_)
  exact ((search.relation_uniform _ _).bind fun _ => joinSeed_uniform _) c v' hv

end SparqlAlgebra
