import SparqlAlgebra.Proofs.Links
import Mathlib.Logic.Relation

/-!
# Breadth-first search

A search along the closure of a path looks at every term once, in the order in
which terms are found. `Searched` is what each of its steps keeps: what is
reached, what is still to be looked at, and that nothing else is missing.

* `Searched.step`: looking at a term keeps it;
* `Searched.search`: the search has enough fuel to empty its queue, as every
  node enters it once and so may the start;
* `Searched.mem_iff`: then it has found exactly what is reached.
-/

namespace SparqlAlgebra

/-- What a search from a start has found: `reached` is what is known to be
reached, and the queue is what is still to be looked at. -/
structure Searched (r : Term → Term → Prop) (nodes : List Term) (start : Term)
    (reflexive : Bool) (queue reached : List Term) : Prop where
  nodup : reached.Nodup
  within : ∀ t ∈ reached, t ∈ nodes
  queued : ∀ t ∈ queue, t = start ∨ t ∈ reached
  start_mem : reflexive = true → start ∈ reached
  sound : ∀ t ∈ reached,
    (reflexive = true ∧ start = t) ∨ Relation.TransGen r start t
  /-- What is not looked at any more has no unknown successors. -/
  settled : ∀ t, t = start ∨ t ∈ reached → t ∈ queue ∨ ∀ u, r t u → u ∈ reached

namespace Searched

variable {r : Term → Term → Prop} {nodes : List Term} {start t : Term}
  {reflexive : Bool} {queue reached : List Term}

/-- Before it begins, a search has to look at its start. -/
theorem initial (hstart : start ∈ nodes) :
    Searched r nodes start reflexive [start]
      (if reflexive then [start] else []) := by
  cases reflexive with
  | true =>
    refine ⟨by simp, ?_, ?_, fun _ => List.mem_singleton_self _, ?_, ?_⟩
    · intro t ht
      rw [List.mem_singleton.mp ht]
      exact hstart
    · exact fun t ht => .inl (List.mem_singleton.mp ht)
    · exact fun t ht => .inl ⟨rfl, (List.mem_singleton.mp ht).symm⟩
    · intro t ht
      simp_all
  | false =>
    refine ⟨List.nodup_nil, fun _ ht => absurd ht List.not_mem_nil, ?_, ?_, ?_, ?_⟩
    · exact fun t ht => .inl (List.mem_singleton.mp ht)
    · exact fun h => Bool.noConfusion h
    · exact fun _ ht => absurd ht List.not_mem_nil
    · intro t ht
      simp_all

/-- Looking at a term makes its unknown successors known and queues them. -/
theorem step {next : List Term} (h : Searched r nodes start reflexive (t :: queue) reached)
    (hstart : start ∈ nodes) (hnodes : ∀ s ∈ nodes, ∀ u, r s u → u ∈ nodes)
    (hnodup : next.Nodup) (hnext : ∀ u, u ∈ next ↔ r t u) :
    let new := next.filter (!reached.contains ·)
    Searched r nodes start reflexive (queue ++ new) (reached ++ new) := by
  intro new
  have hnew (u : Term) : u ∈ new ↔ r t u ∧ u ∉ reached := by
    simp [new, List.mem_filter, hnext]
  have ht := h.queued t List.mem_cons_self
  have htnodes : t ∈ nodes := by
    rcases ht with rfl | ht
    · exact hstart
    · exact h.within t ht
  refine ⟨?_, ?_, ?_, ?_, ?_, ?_⟩
  · refine List.nodup_append.mpr ⟨h.nodup, hnodup.filter _, ?_⟩
    rintro u hu w hw rfl
    exact ((hnew u).mp hw).2 hu
  · intro u hu
    rcases List.mem_append.mp hu with hu | hu
    · exact h.within u hu
    · exact hnodes t htnodes u ((hnew u).mp hu).1
  · intro u hu
    rcases List.mem_append.mp hu with hu | hu
    · exact (h.queued u (List.mem_cons_of_mem _ hu)).imp_right (List.mem_append_left _)
    · exact .inr (List.mem_append_right _ hu)
  · exact fun hr => List.mem_append_left _ (h.start_mem hr)
  · intro u hu
    rcases List.mem_append.mp hu with hu | hu
    · exact h.sound u hu
    · -- the way to a new term leads through the term that is looked at
      have hru := ((hnew u).mp hu).1
      rcases ht with rfl | ht
      · exact .inr (.single hru)
      · rcases h.sound t ht with ⟨-, rfl⟩ | hpath
        · exact .inr (.single hru)
        · exact .inr (hpath.tail hru)
  · intro s hs
    have hsuccessors (u : Term) (hu : r t u) : u ∈ reached ++ new := by
      by_cases hmem : u ∈ reached
      · exact List.mem_append_left _ hmem
      · exact List.mem_append_right _ ((hnew u).mpr ⟨hu, hmem⟩)
    have hold : s = start ∨ s ∈ reached →
        s ∈ queue ++ new ∨ ∀ u, r s u → u ∈ reached ++ new := by
      intro hs
      rcases h.settled s hs with hq | hs
      · rcases List.mem_cons.mp hq with rfl | hq
        · exact .inr hsuccessors
        · exact .inl (List.mem_append_left _ hq)
      · exact .inr fun u hu => List.mem_append_left _ (hs u hu)
    rcases hs with hs | hs
    · exact hold (.inl hs)
    · rcases List.mem_append.mp hs with hs | hs
      · exact hold (.inr hs)
      · exact .inl (List.mem_append_right _ hs)

/-- A search that has looked at everything has found what is reached. -/
theorem mem_iff (h : Searched r nodes start reflexive [] reached) :
    t ∈ reached ↔ (reflexive = true ∧ start = t) ∨ Relation.TransGen r start t := by
  refine ⟨h.sound t, ?_⟩
  have hsuccessors : ∀ s, s = start ∨ s ∈ reached → ∀ u, r s u → u ∈ reached := fun s hs =>
    (h.settled s hs).resolve_left List.not_mem_nil
  rintro (⟨hr, rfl⟩ | hpath)
  · exact h.start_mem hr
  · induction hpath with
    | single hr => exact hsuccessors start (.inl rfl) _ hr
    | tail _ hr ih => exact hsuccessors _ (.inr ih) _ hr

/-- A search looks at everything. Each step takes one term from the queue, and
what it adds to the queue is new to what is reached, which are nodes. -/
theorem search {next : Term → List Term} (hstart : start ∈ nodes)
    (hnodes : ∀ s ∈ nodes, ∀ u, r s u → u ∈ nodes) (hnodup : ∀ s, (next s).Nodup)
    (hnext : ∀ s ∈ nodes, ∀ u, u ∈ next s ↔ r s u) (fuel : Nat)
    (h : Searched r nodes start reflexive queue reached)
    (hfuel : nodes.length + queue.length ≤ fuel + reached.length) :
    Searched r nodes start reflexive [] (Links.search next fuel queue reached) := by
  induction fuel generalizing queue reached with
  | zero =>
    have hlength := List.Nodup.length_le_of_subset h.nodup h.within
    have hqueue : queue = [] := List.length_eq_zero_iff.mp (by omega)
    rw [hqueue] at h ⊢
    exact h
  | succ fuel ih =>
    cases queue with
    | nil => exact h
    | cons t queue =>
      have ht : t ∈ nodes := by
        rcases h.queued t List.mem_cons_self with rfl | ht
        · exact hstart
        · exact h.within t ht
      refine ih (h.step hstart hnodes (hnodup t) (hnext t ht)) ?_
      simp only [List.length_append, List.length_cons] at hfuel ⊢
      omega

end Searched

end SparqlAlgebra
