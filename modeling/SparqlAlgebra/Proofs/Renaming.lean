import SparqlAlgebra.Proofs.PathLinks
import Mathlib.Logic.Equiv.Basic
import Mathlib.Algebra.Group.End

/-!
# Other names for variables

A permutation of all variables gives the variables of a binding, of a position or of a
list of solutions other names. Every operation commutes with it.

* `Binding.rename` and `Binding.get?_rename`: a binding under other names has the same
  terms;
* `Binding.merge?_rename` and others: operations on bindings;
* `Position.rename`: positions, and what they are unified with.
-/

namespace SparqlAlgebra

variable (ρ : Equiv.Perm Var)

namespace Binding

/-- The binding with other names for its variables. -/
def rename (b : Binding) : Binding := .ofEntries (b.entries.map fun e => (ρ e.1, e.2))

theorem get?_rename (b : Binding) (v : Var) : (b.rename ρ).get? v = b.get? (ρ.symm v) := by
  have hdifferent : (b.entries.map fun e => (ρ e.1, e.2)).Pairwise fun x y => x.1 ≠ y.1 := by
    rw [List.pairwise_map]
    exact b.entries_different.imp fun hne heq => hne (ρ.injective heq)
  have htest (e : Entry) : ρ e.1 = v ↔ e.1 = ρ.symm v := (Equiv.eq_symm_apply ρ).symm
  unfold rename ofEntries
  rw [get?_foldl_insert _ hdifferent, get?_empty, Option.or_none, List.find?_map, Option.map_map]
  simp only [Function.comp_def, htest]
  rfl

@[simp] theorem get?_rename_apply (b : Binding) (v : Var) :
    (b.rename ρ).get? (ρ v) = b.get? v := by
  rw [get?_rename, Equiv.symm_apply_apply]

theorem rename_one (b : Binding) : b.rename 1 = b := by
  apply ext_get?
  intro v
  rw [get?_rename]
  rfl

theorem rename_injective : Function.Injective (rename ρ) := by
  intro a b h
  apply ext_get?
  intro v
  rw [← get?_rename_apply ρ a, ← get?_rename_apply ρ b, h]

/-- Only the names of its own variables matter. -/
theorem rename_congr {σ : Equiv.Perm Var} {b : Binding} (h : ∀ v ∈ b.vars, ρ v = σ v) :
    b.rename ρ = b.rename σ := by
  unfold rename
  congr 1
  apply List.map_congr_left
  intro e he
  rw [h e.1 (List.mem_map.mpr ⟨e, he, rfl⟩)]

theorem rename_empty : empty.rename ρ = empty := rfl

theorem rename_insert (b : Binding) (v : Var) (t : Term) :
    (b.insert v t).rename ρ = (b.rename ρ).insert (ρ v) t := by
  apply ext_get?
  intro w
  rw [get?_rename, get?_insert, get?_insert, get?_rename]
  by_cases h : w = ρ v
  · simp [h]
  · have hne : ρ.symm w ≠ v := fun heq => h (by rw [← heq, Equiv.apply_symm_apply])
    simp [h, hne]

theorem rename_project (b : Binding) (vs : List Var) :
    (b.project vs).rename ρ = (b.rename ρ).project (vs.map ρ) := by
  apply ext_get?
  intro w
  have hmem : w ∈ vs.map ρ ↔ ρ.symm w ∈ vs := by
    rw [List.mem_map]
    constructor
    · rintro ⟨v, hv, rfl⟩
      rwa [Equiv.symm_apply_apply]
    · intro h
      exact ⟨_, h, ρ.apply_symm_apply w⟩
  rw [get?_rename, get?_project, get?_project, get?_rename]
  simp only [hmem]

theorem isCompatible_rename (a b : Binding) :
    (a.rename ρ).isCompatible (b.rename ρ) = a.isCompatible b := by
  rw [Bool.eq_iff_iff, isCompatible_iff, isCompatible_iff]
  constructor
  · intro h v s t hs ht
    apply h (ρ v) s t
    · rwa [get?_rename_apply]
    · rwa [get?_rename_apply]
  · intro h v s t hs ht
    rw [get?_rename] at hs ht
    exact h _ s t hs ht

theorem merge?_rename (a b : Binding) :
    (a.rename ρ).merge? (b.rename ρ) = (a.merge? b).map (rename ρ) := by
  cases hab : a.merge? b with
  | none =>
    have hcompatible : a.isCompatible b = false := by
      cases h : a.isCompatible b with
      | false => rfl
      | true => simp [merge?, h] at hab
    simp [merge?, isCompatible_rename, hcompatible]
  | some m =>
    have hcompatible : a.isCompatible b = true := by
      by_contra h
      simp [merge?, h] at hab
    obtain ⟨m', hm'⟩ : ∃ m', (a.rename ρ).merge? (b.rename ρ) = some m' :=
      ⟨_, if_pos (by rw [isCompatible_rename, hcompatible])⟩
    rw [hm', Option.map_some, Option.some.injEq]
    apply ext_get?
    intro v
    rw [get?_of_merge? hm', get?_rename, get?_rename, get?_rename, get?_of_merge? hab]

/-- Merges of one binding with many. -/
theorem filterMap_merge?_rename (b : Binding) (bs : List Binding) :
    (bs.map (rename ρ)).filterMap (b.rename ρ).merge? =
      (bs.filterMap b.merge?).map (rename ρ) := by
  rw [List.filterMap_map, List.map_filterMap]
  apply List.filterMap_congr
  intro c _
  exact merge?_rename ρ b c

end Binding

namespace Position

/-- The position with another name for its variable. -/
def rename : Position → Position
  | term t => term t
  | var v => var (ρ v)

theorem rename_one (p : Position) : p.rename 1 = p := by
  cases p with
  | term t => rfl
  | var v => rfl

@[simp] theorem toTerm?_rename (p : Position) : (p.rename ρ).toTerm? = p.toTerm? := by
  cases p with
  | term t => rfl
  | var v => rfl

theorem substitute_rename (p : Position) (b : Binding) :
    (p.rename ρ).substitute (b.rename ρ) = (p.substitute b).rename ρ := by
  cases p with
  | term t => rfl
  | var v =>
    simp only [substitute, rename, resolve, Binding.get?_rename_apply]
    cases b.get? v with
    | none => rfl
    | some t => rfl

theorem vars_rename (ps : List Position) : vars (ps.map (rename ρ)) = (vars ps).map ρ := by
  have hvars : (ps.map (rename ρ)).filterMap toVar? = (ps.filterMap toVar?).map ρ := by
    rw [List.filterMap_map, List.map_filterMap]
    apply List.filterMap_congr
    intro p _
    cases p with
    | term t => rfl
    | var v => rfl
  rw [vars, hvars]
  exact Relation.dedup_map ρ fun v _ w _ h => ρ.injective h

/-- Names matter for the variables of the positions only. -/
theorem rename_congr {σ : Equiv.Perm Var} {p : Position} (h : ∀ v, p = var v → ρ v = σ v) :
    p.rename ρ = p.rename σ := by
  cases p with
  | term t => rfl
  | var v => exact congrArg var (h v rfl)

end Position

namespace Relation

theorem unifyPosition_rename (p : Position) (t : Term) (b : Binding) :
    unifyPosition (p.rename ρ) t (b.rename ρ) =
      (unifyPosition p t b).map (Binding.rename ρ) := by
  cases p with
  | term u =>
    simp only [unifyPosition, Position.rename]
    split
    · rfl
    · rfl
  | var v =>
    simp only [unifyPosition, Position.rename, Binding.get?_rename_apply]
    cases b.get? v with
    | none => rw [Option.map_some, Binding.rename_insert]
    | some u =>
      dsimp only
      split
      · rfl
      · rfl

/-- Triples are bound to the ends under their other names. -/
theorem unify_rename (s o : Position) (a b : Term) :
    unify (s.rename ρ) (o.rename ρ) a b = (unify s o a b).map (Binding.rename ρ) := by
  have hs := unifyPosition_rename ρ s a .empty
  rw [Binding.rename_empty] at hs
  unfold unify
  rw [hs]
  cases unifyPosition s a .empty with
  | none => rfl
  | some c => exact unifyPosition_rename ρ o b c

end Relation

end SparqlAlgebra
