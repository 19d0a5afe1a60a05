import SparqlAlgebra.Proofs.Rows

/-!
# Merging bindings

A binding is within another one if all its values are values of the other one. With this
order, a merge is the least binding that has the values of both.

* `Binding.merge?_eq_some_iff` is that description of merges;
* merging is commutative and associative, as far as it is defined.
-/

namespace SparqlAlgebra

namespace Binding

variable {a b c d : Binding} {v : Var} {t : Term}

/-- Every value of the first binding is one of the second. -/
def IsWithin (a b : Binding) : Prop := ∀ v t, a.get? v = some t → b.get? v = some t

theorem IsWithin.refl (a : Binding) : a.IsWithin a := fun _ _ h => h

theorem IsWithin.trans (h : a.IsWithin b) (h' : b.IsWithin c) : a.IsWithin c :=
  fun v t hv => h' v t (h v t hv)

theorem empty_isWithin (b : Binding) : empty.IsWithin b := fun v t h => by simp at h

theorem mem_vars_iff : v ∈ b.vars ↔ ∃ t, b.get? v = some t := by
  rw [mem_vars, contains, Option.isSome_iff_exists]

theorem IsWithin.vars_subset (h : a.IsWithin b) : a.vars ⊆ b.vars := fun v hv => by
  obtain ⟨t, ht⟩ := mem_vars_iff.mp hv
  exact mem_vars_iff.mpr ⟨t, h v t ht⟩

/-- A binding with the same values and no further variables is the same. -/
theorem IsWithin.eq_of_vars (h : a.IsWithin b) (hvars : b.vars ⊆ a.vars) : a = b := by
  refine ext_get? fun v => ?_
  cases hb : b.get? v with
  | some t =>
    obtain ⟨u, hu⟩ := mem_vars_iff.mp (hvars (mem_vars_iff.mpr ⟨t, hb⟩))
    rw [hu, ← hb, h v u hu]
  | none =>
    cases ha : a.get? v with
    | none => rfl
    | some u =>
      have hbu := h v u ha
      rw [hb] at hbu
      cases hbu

theorem isWithin_insert (h : b.get? v = none) : b.IsWithin (b.insert v t) := by
  intro w u hw
  rw [get?_insert, if_neg, hw]
  rintro rfl
  rw [h] at hw
  cases hw

theorem insert_isWithin (h : b.IsWithin c) (hv : c.get? v = some t) :
    (b.insert v t).IsWithin c := by
  intro w u hw
  rw [get?_insert] at hw
  split at hw
  · rename_i hwv
    rw [hwv, hv, hw]
  · exact h w u hw

theorem project_isWithin (b : Binding) (vs : List Var) : (b.project vs).IsWithin b := by
  intro v t hv
  rw [get?_project] at hv
  split at hv
  · exact hv
  · cases hv

theorem isWithin_of_merge? (h : a.merge? b = some c) : a.IsWithin c ∧ b.IsWithin c := by
  have hcompatible : a.isCompatible b = true := by
    unfold merge? at h
    split at h
    · assumption
    · cases h
  refine ⟨fun v t hv => ?_, fun v t hv => ?_⟩
  · rw [get?_of_merge? h, hv, Option.some_or]
  · rw [get?_of_merge? h, hv]
    cases ha : a.get? v with
    | none => rfl
    | some s => rw [Option.some_or, isCompatible_iff.mp hcompatible v s t ha hv]

/-- Bindings within a third one can be merged. -/
theorem exists_merge? (ha : a.IsWithin c) (hb : b.IsWithin c) :
    ∃ m, a.merge? b = some m := by
  have hcompatible : a.isCompatible b = true := isCompatible_iff.mpr fun v s t hs ht =>
    Option.some.inj ((ha v s hs).symm.trans (hb v t ht))
  exact ⟨_, if_pos hcompatible⟩

/-- Bindings that cannot be merged are part of none that can. -/
theorem merge?_eq_none_of_isWithin (ha : a.IsWithin c) (hb : b.IsWithin d)
    (h : a.merge? b = none) : c.merge? d = none := by
  cases hcd : c.merge? d with
  | none => rfl
  | some m =>
    obtain ⟨hc, hd⟩ := isWithin_of_merge? hcd
    obtain ⟨k, hk⟩ := exists_merge? (ha.trans hc) (hb.trans hd)
    rw [h] at hk
    cases hk

theorem merge?_isWithin (h : a.merge? b = some c) (ha : a.IsWithin d)
    (hb : b.IsWithin d) : c.IsWithin d := by
  intro v t hv
  rw [get?_of_merge? h, Option.or_eq_some_iff] at hv
  exact hv.elim (ha v t) fun hv => hb v t hv.2

/-- A merge is the least binding that has the values of both. -/
theorem merge?_eq_some_iff :
    a.merge? b = some c ↔ a.IsWithin c ∧ b.IsWithin c ∧ c.vars ⊆ a.vars ++ b.vars := by
  constructor
  · intro h
    obtain ⟨ha, hb⟩ := isWithin_of_merge? h
    exact ⟨ha, hb, fun v hv => List.mem_append.mpr ((mem_vars_of_merge? h).mp hv)⟩
  · rintro ⟨ha, hb, hvars⟩
    obtain ⟨m, hm⟩ := exists_merge? ha hb
    have hwithin := merge?_isWithin hm ha hb
    rw [hm, hwithin.eq_of_vars fun v hv =>
      (mem_vars_of_merge? hm).mpr (List.mem_append.mp (hvars hv))]

/-! ## Laws -/

/-- The order of two merges does not matter. -/
theorem merge?_swap (a b c : Binding) :
    (a.merge? b).bind (·.merge? c) = (a.merge? c).bind (·.merge? b) := by
  have hswap {b c d : Binding} (h : (a.merge? b).bind (·.merge? c) = some d) :
      (a.merge? c).bind (·.merge? b) = some d := by
    obtain ⟨m, hm, hd⟩ := Option.bind_eq_some_iff.mp h
    obtain ⟨ham, hbm, hmvars⟩ := merge?_eq_some_iff.mp hm
    obtain ⟨hmd, hcd, hdvars⟩ := merge?_eq_some_iff.mp hd
    obtain ⟨k, hk⟩ := exists_merge? (ham.trans hmd) hcd
    refine Option.bind_eq_some_iff.mpr ⟨k, hk, merge?_eq_some_iff.mpr
      ⟨merge?_isWithin hk (ham.trans hmd) hcd, hbm.trans hmd, fun v hv => ?_⟩⟩
    rw [List.mem_append, mem_vars_of_merge? hk]
    rcases List.mem_append.mp (hdvars hv) with hv | hv
    · exact (List.mem_append.mp (hmvars hv)).imp_left .inl
    · exact .inl (.inr hv)
  refine Option.ext fun d => ⟨hswap, hswap⟩

theorem merge?_comm (a b : Binding) : a.merge? b = b.merge? a := by
  have hcomm {a b c : Binding} (h : a.merge? b = some c) : b.merge? a = some c := by
    obtain ⟨ha, hb, hvars⟩ := merge?_eq_some_iff.mp h
    refine merge?_eq_some_iff.mpr ⟨hb, ha, fun v hv => ?_⟩
    exact List.mem_append.mpr (List.mem_append.mp (hvars hv)).symm
  exact Option.ext fun c => ⟨hcomm, hcomm⟩

theorem merge?_assoc (a b c : Binding) :
    (a.merge? b).bind (·.merge? c) = (b.merge? c).bind a.merge? :=
  calc
    _ = (b.merge? a).bind (·.merge? c) := by rw [merge?_comm]
    _ = (b.merge? c).bind (·.merge? a) := merge?_swap b a c
    _ = _ := congrArg _ (funext fun m => merge?_comm m a)

/-- A binding merges with two bindings as it does with their merge. -/
theorem merge?_both (a b c : Binding) :
    ((a.merge? b).bind fun x => (a.merge? c).bind x.merge?) = (b.merge? c).bind a.merge? := by
  refine Option.ext fun d => ?_
  constructor
  · intro h
    obtain ⟨x, hx, h⟩ := Option.bind_eq_some_iff.mp h
    obtain ⟨y, hy, hd⟩ := Option.bind_eq_some_iff.mp h
    obtain ⟨hax, hbx, hxvars⟩ := merge?_eq_some_iff.mp hx
    obtain ⟨hay, hcy, hyvars⟩ := merge?_eq_some_iff.mp hy
    obtain ⟨hxd, hyd, hdvars⟩ := merge?_eq_some_iff.mp hd
    obtain ⟨m, hm⟩ := exists_merge? (hbx.trans hxd) (hcy.trans hyd)
    have hmd := merge?_isWithin hm (hbx.trans hxd) (hcy.trans hyd)
    refine Option.bind_eq_some_iff.mpr ⟨m, hm, merge?_eq_some_iff.mpr
      ⟨hax.trans hxd, hmd, fun v hv => ?_⟩⟩
    rw [List.mem_append, mem_vars_of_merge? hm]
    rcases List.mem_append.mp (hdvars hv) with hv | hv
    · exact (List.mem_append.mp (hxvars hv)).imp_right .inl
    · exact (List.mem_append.mp (hyvars hv)).imp_right .inr
  · intro h
    obtain ⟨m, hm, hd⟩ := Option.bind_eq_some_iff.mp h
    obtain ⟨hbm, hcm, hmvars⟩ := merge?_eq_some_iff.mp hm
    obtain ⟨had, hmd, hdvars⟩ := merge?_eq_some_iff.mp hd
    obtain ⟨x, hx⟩ := exists_merge? had (hbm.trans hmd)
    obtain ⟨y, hy⟩ := exists_merge? had (hcm.trans hmd)
    refine Option.bind_eq_some_iff.mpr ⟨x, hx, Option.bind_eq_some_iff.mpr ⟨y, hy,
      merge?_eq_some_iff.mpr ⟨merge?_isWithin hx had (hbm.trans hmd),
        merge?_isWithin hy had (hcm.trans hmd), fun v hv => ?_⟩⟩⟩
    rw [List.mem_append, mem_vars_of_merge? hx, mem_vars_of_merge? hy]
    rcases List.mem_append.mp (hdvars hv) with hv | hv
    · exact .inl (.inl hv)
    · rcases List.mem_append.mp (hmvars hv) with hv | hv
      · exact .inl (.inr hv)
      · exact .inr (.inr hv)

/-- Rows that are merged with a binding are compatible with it. -/
theorem any_filterMap_merge? (b : Binding) (rows : List Binding) :
    (rows.filterMap b.merge?).any (·.isCompatible b) = rows.any (·.isCompatible b) := by
  rw [List.any_filterMap]
  refine List.any_congr rfl fun row => ?_
  rw [merge?_comm]
  by_cases hcompatible : row.isCompatible b = true
  · have hmerge : row.merge? b = some _ := if_pos hcompatible
    have hwithin := (isWithin_of_merge? hmerge).2
    rw [hmerge, hcompatible]
    exact isCompatible_iff.mpr fun v s t hs ht => Option.some.inj (hs.symm.trans (hwithin v t ht))
  · have hmerge : row.merge? b = none := if_neg hcompatible
    rw [hmerge, Bool.eq_false_iff.mpr hcompatible]

end Binding

end SparqlAlgebra
