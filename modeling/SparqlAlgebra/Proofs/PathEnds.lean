import SparqlAlgebra.Proofs.Ensures
import SparqlAlgebra.Proofs.PathLinks

/-!
# The ends of paths

Evaluating a path makes variables for its inner nodes, but whatever it yields
binds variables of its two ends only. This needs neither that reading succeeds
nor that the made variables are new.

* `Relation.BindsEnds` and how the combinations of relations keep it;
* `Path.relation_bindsEnds` is the induction over paths.
-/

namespace SparqlAlgebra

open Eval

namespace Relation

/-- Whatever the relation yields binds variables of its ends only. -/
def BindsEnds (r : Relation) : Prop :=
  ∀ c s o, (r s o).Ensures c (∀ row ∈ ·, row.vars ⊆ Position.vars [s, o])

variable {r q : Relation} {c : Context}

theorem bindingsOf_ensures (bind : Triple → Option Binding) (ts : List Triple) :
    (bindingsOf bind ts).Ensures c (∀ row ∈ ·, ∃ t, bind t = some row) := by
  induction ts with
  | nil => exact .pure fun _ hrow => absurd hrow List.not_mem_nil
  | cons t rest ih =>
    refine .after fun _ => ih.bind fun found hfound => .pure fun row hrow => ?_
    rcases List.mem_append.mp hrow with hrow | hrow
    · exact ⟨t, Option.mem_toList.mp hrow⟩
    · exact hfound row hrow

theorem vars_of_unify {s o : Position} {a b : Term} {row : Binding}
    (h : unify s o a b = some row) : row.vars ⊆ Position.vars [s, o] := by
  rw [unify_eq] at h
  split at h
  · cases h
    exact Position.vars_bindEnds s o (a, b)
  · cases h

/-- Triples bind the ends only, whichever of them are read. -/
theorem scan_ensures {s o : Position} {bind : Triple → Option Binding}
    (h : ∀ t row, bind t = some row → row.vars ⊆ Position.vars [s, o])
    (x : Eval (List Triple)) :
    (x >>= bindingsOf bind).Ensures c (∀ row ∈ ·, row.vars ⊆ Position.vars [s, o]) :=
  .after fun ts => (bindingsOf_ensures bind ts).mono fun _ hrows row hrow =>
    let ⟨t, ht⟩ := hrows row hrow
    h t row ht

theorem edges_bindsEnds (predicate : Iri) : (edges predicate).BindsEnds := fun _ _ _ =>
  scan_ensures (fun _ _ => vars_of_unify) _

theorem edgesOutside_bindsEnds (excluded : List Iri) :
    (edgesOutside excluded).BindsEnds := by
  intro c s o
  unfold edgesOutside
  split
  · exact .pure fun _ hrow => absurd hrow List.not_mem_nil
  · refine scan_ensures (fun t row h => ?_) _
    split at h
    · cases h
    · exact vars_of_unify h

theorem backEdgesOutside_bindsEnds (excluded : List Iri) :
    (backEdgesOutside excluded).BindsEnds := by
  intro c s o
  unfold backEdgesOutside
  split
  · exact .pure fun _ hrow => absurd hrow List.not_mem_nil
  · refine scan_ensures (fun t row h => ?_) _
    split at h
    · cases h
    · exact vars_of_unify h

theorem BindsEnds.swap (h : r.BindsEnds) : r.swap.BindsEnds := by
  intro c s o
  refine (h c o s).mono fun rows hrows row hrow v hv => ?_
  have hv := Position.mem_vars.mp (hrows row hrow hv)
  rw [Position.mem_vars]
  simpa [or_comm] using hv

theorem BindsEnds.either (hr : r.BindsEnds) (hq : q.BindsEnds) :
    (r.either q).BindsEnds := by
  intro c s o
  refine (hr c s o).bind fun rows hrows => (hq c s o).bind fun rows' hrows' => .pure ?_
  exact List.forall_mem_append.mpr ⟨hrows, hrows'⟩

theorem continueAll_ensures {P : Binding → Prop} {f : Binding → Eval (List Binding)}
    (hf : ∀ b, (f b).Ensures c (∀ row ∈ ·, P row)) (bs : List Binding) :
    (continueAll f bs).Ensures c (∀ row ∈ ·, P row) := by
  induction bs with
  | nil => exact .pure fun _ hrow => absurd hrow List.not_mem_nil
  | cons b rest ih =>
    refine (hf b).bind fun found hfound => ih.bind fun more hmore => .pure ?_
    exact List.forall_mem_append.mpr ⟨hfound, hmore⟩

/-- The solutions of a sequence are restricted to the ends. -/
theorem sequence_bindsEnds (r q : Relation) : (r.sequence q).BindsEnds := by
  intro c s o
  refine .after fun middle => .after fun lefts => continueAll_ensures (fun left => ?_) lefts
  unfold continueWith
  split
  · exact .pure fun _ hrow => absurd hrow List.not_mem_nil
  · refine .after fun found => .pure fun row hrow v hv => ?_
    obtain ⟨whole, -, rfl⟩ := List.mem_map.mp hrow
    exact (Binding.mem_vars_project.mp hv).1

/-- What is bound to an end is bound to one of its variables. -/
theorem vars_insert_subset {ps : List Position} {v : Var} {t : Term} {b : Binding}
    (hv : .var v ∈ ps) (hb : b.vars ⊆ Position.vars ps) :
    (b.insert v t).vars ⊆ Position.vars ps := by
  intro w hw
  rcases Binding.mem_vars_insert.mp hw with rfl | hw
  · exact Position.mem_vars.mpr hv
  · exact hb hw

theorem zeroLength_bindsEnds : zeroLength.BindsEnds := by
  have hempty (ps : List Position) : Binding.empty.vars ⊆ Position.vars ps :=
    List.nil_subset _
  intro c s o
  cases s with
  | term t =>
    cases o with
    | term u =>
      refine .pure fun row hrow => ?_
      split at hrow
      · rw [List.mem_singleton.mp hrow]
        exact hempty _
      · cases hrow
    | var v =>
      refine .pure fun row hrow => ?_
      rw [List.mem_singleton.mp hrow]
      exact vars_insert_subset (by simp) (hempty _)
  | var v =>
    cases o with
    | term t =>
      refine .pure fun row hrow => ?_
      rw [List.mem_singleton.mp hrow]
      exact vars_insert_subset (by simp) (hempty _)
    | var w =>
      refine .after fun nodes => .pure fun row hrow => ?_
      obtain ⟨t, -, rfl⟩ := List.mem_map.mp hrow
      exact vars_insert_subset (by simp) (vars_insert_subset (by simp) (hempty _))

theorem BindsEnds.reflexive (h : r.BindsEnds) : r.reflexive.BindsEnds := by
  intro c s o
  refine (zeroLength_bindsEnds c s o).bind fun same hsame =>
    (h c s o).bind fun rows hrows => .pure fun row hrow => ?_
  exact (List.mem_append.mp (mem_dedup.mp hrow)).elim (hsame row) (hrows row)

theorem BindsEnds.times (h : r.BindsEnds) : ∀ n, (r.times n).BindsEnds
  | 0 => zeroLength_bindsEnds
  | 1 => h
  | _ + 2 => sequence_bindsEnds _ _

/-- The pairs of a closure are bound to the ends, however they are found. -/
theorem closure_bindsEnds (r : Relation) (reflexive : Bool) :
    (r.closure reflexive).BindsEnds := by
  have hempty (ps : List Position) : Binding.empty.vars ⊆ Position.vars ps :=
    List.nil_subset _
  have hpairs (v w : Var) (start : Term) (reached : List Term) :
      ∀ row ∈ pairsFrom v w start reached,
        row.vars ⊆ Position.vars [.var v, .var w] := by
    intro row hrow
    unfold pairsFrom at hrow
    split at hrow
    · split at hrow
      · rw [List.mem_singleton.mp hrow]
        exact vars_insert_subset (by simp) (hempty _)
      · cases hrow
    · obtain ⟨t, -, rfl⟩ := List.mem_map.mp hrow
      exact vars_insert_subset (by simp) (vars_insert_subset (by simp) (hempty _))
  intro c s o
  cases s with
  | term start =>
    cases o with
    | term stop =>
      refine .after fun reached => .pure fun row hrow => ?_
      split at hrow
      · rw [List.mem_singleton.mp hrow]
        exact hempty _
      · cases hrow
    | var v =>
      refine .after fun reached => .pure fun row hrow => ?_
      obtain ⟨t, -, rfl⟩ := List.mem_map.mp hrow
      exact vars_insert_subset (by simp) (hempty _)
  | var v =>
    cases o with
    | term stop =>
      refine .after fun reached => .pure fun row hrow => ?_
      obtain ⟨t, -, rfl⟩ := List.mem_map.mp hrow
      exact vars_insert_subset (by simp) (hempty _)
    | var w =>
      -- which starts there are does not matter, as one search is made for each
      refine .after fun starts => ?_
      induction starts with
      | nil => exact .pure fun _ hrow => absurd hrow List.not_mem_nil
      | cons start rest ih =>
        refine .after fun reached => ih.bind fun rows hrows => .pure ?_
        exact List.forall_mem_append.mpr ⟨hpairs v w start reached, hrows⟩

end Relation

/-- A path binds variables of its ends only. -/
theorem Path.relation_bindsEnds : ∀ path : Path, path.relation.BindsEnds
  | .property p false => Relation.edges_bindsEnds p
  | .property p true => (Relation.edges_bindsEnds p).swap
  | .inverse inner => inner.relation_bindsEnds.swap
  | .sequence _ _ => Relation.sequence_bindsEnds _ _
  | .alternative p q => p.relation_bindsEnds.either q.relation_bindsEnds
  | .zeroOrOne inner => inner.relation_bindsEnds.reflexive
  | .zeroOrMore _ | .oneOrMore _ => Relation.closure_bindsEnds _ _
  | .negatedSet forward backward =>
    (Relation.edgesOutside_bindsEnds forward).either
      (Relation.backEdgesOutside_bindsEnds backward)
  | .fixedLength inner n => inner.relation_bindsEnds.times n

theorem PathSearch.relation_bindsEnds (search : PathSearch) : search.relation.BindsEnds := by
  cases search with
  | zeroLength => exact Relation.zeroLength_bindsEnds
  | zeroOrMore p => exact Path.relation_bindsEnds _
  | oneOrMore p => exact Path.relation_bindsEnds _
  | negatedSet forward backward => exact Path.relation_bindsEnds _

end SparqlAlgebra
