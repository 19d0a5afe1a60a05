import SparqlAlgebra.Proofs.PlainExpressions
import SparqlAlgebra.Proofs.Rows
import Mathlib.Data.List.Forall2

/-!
# Rows under two seeds

A pattern is evaluated from two seeds that give the same values to some variables. Row by
row, the solutions of both evaluations give the same values to these variables. Beyond
them a row has the values of the seed it comes from, or no values at all.

* `Binding.Paired` says this of two rows. Which of both is the case for the rows of a
  pattern is its `SeedUse`;
* `Binding.Paired.merge?`: paired rows have paired merges, or none of them has one;
* `Binding.Paired.eq_iff`: if the rows are all of one kind, equal rows are paired with
  equal rows, so that the same rows are taken for duplicates.
-/

namespace SparqlAlgebra

/-! ## Rows -/

/-- Whether the rows of a pattern have the values of the seed: all of them, none, or some
of them have. -/
inductive SeedUse where
  | carried
  | dropped
  | mixed
deriving DecidableEq

namespace SeedUse

/-- The use of the seed by the merges of rows. -/
def merge : SeedUse → SeedUse → SeedUse
  | .carried, _ | _, .carried => .carried
  | .dropped, .dropped => .dropped
  | _, _ => .mixed

/-- The use of the seed by rows of two kinds. -/
def either (u w : SeedUse) : SeedUse := if u = w then u else .mixed

variable {u w : SeedUse}

theorem merge_ne_dropped (h : u ≠ .dropped ∨ w ≠ .dropped) : u.merge w ≠ .dropped := by
  cases u <;> cases w <;> simp_all [merge]

theorem merge_ne_carried (hu : u ≠ .carried) (hw : w ≠ .carried) : u.merge w ≠ .carried := by
  cases u <;> cases w <;> simp_all [merge]

theorem either_eq (u w : SeedUse) : u.either w = u ∨ u.either w = .mixed := by
  unfold either
  split
  · exact .inl rfl
  · exact .inr rfl

theorem either_comm (u w : SeedUse) : u.either w = w.either u := by
  cases u <;> cases w <;> rfl

end SeedUse

namespace Binding

variable {vs : List Var} {s s' a b l l' r r' : Binding} {u w : SeedUse} {v : Var}

/-- Beyond the variables the bindings are equal. -/
def EqBeyond (vs : List Var) (a b : Binding) : Prop := ∀ v ∉ vs, a.get? v = b.get? v

theorem eqBeyond_empty (h : a.vars ⊆ vs) : a.EqBeyond vs .empty := by
  intro v hv
  have hnot : ¬ a.contains v = true := fun hc => hv (h (mem_vars.mpr hc))
  simpa [contains] using hnot

theorem EqBeyond.insert (h : a.EqBeyond vs b) (hv : v ∈ vs) (t : Term) :
    (a.insert v t).EqBeyond vs b := by
  intro w hw
  have hne : w ≠ v := fun heq => hw (heq ▸ hv)
  rw [get?_insert, if_neg hne]
  exact h w hw

theorem AgreeOn.symm (h : a.AgreeOn vs b) : b.AgreeOn vs a := fun v hv => (h v hv).symm

theorem AgreeOn.mem_vars_iff (h : a.AgreeOn vs b) (hv : v ∈ vs) : v ∈ a.vars ↔ v ∈ b.vars := by
  rw [mem_vars, mem_vars, contains, contains, h v hv]

theorem AgreeOn.insert (h : a.AgreeOn vs b) (v : Var) (t : Term) :
    (a.insert v t).AgreeOn vs (b.insert v t) := by
  intro w hw
  rw [get?_insert, get?_insert, h w hw]

theorem AgreeOn.erase (h : a.AgreeOn vs b) (v : Var) :
    (a.erase v).AgreeOn vs (b.erase v) := by
  intro w hw
  rw [get?_erase, get?_erase, h w hw]

theorem AgreeOn.project_eq {ws : List Var} (h : a.AgreeOn vs b) (hws : ws ⊆ vs) :
    a.project ws = b.project ws := by
  refine ext_get? fun v => ?_
  rw [get?_project, get?_project]
  split
  · rename_i hv
    exact h v (hws hv)
  · rfl

/-- Two rows of evaluations from two seeds. -/
inductive Paired (vs : List Var) (s s' : Binding) (u : SeedUse) (r r' : Binding) : Prop
  | carried (hu : u ≠ .dropped) (hagree : r.AgreeOn vs r') (h : r.EqBeyond vs s)
    (h' : r'.EqBeyond vs s')
  | dropped (hu : u ≠ .carried) (hagree : r.AgreeOn vs r') (h : r.EqBeyond vs .empty)
    (h' : r'.EqBeyond vs .empty)

namespace Paired

theorem agreeOn (h : Paired vs s s' u r r') : r.AgreeOn vs r' := by
  cases h with
  | carried _ hagree _ _ => exact hagree
  | dropped _ hagree _ _ => exact hagree

theorem symm (h : Paired vs s s' u r r') : Paired vs s' s u r' r := by
  cases h with
  | carried hu hagree h h' => exact .carried hu hagree.symm h' h
  | dropped hu hagree h h' => exact .dropped hu hagree.symm h' h

theorem mixed (h : Paired vs s s' u r r') : Paired vs s s' .mixed r r' := by
  cases h with
  | carried _ hagree h h' => exact .carried (by decide) hagree h h'
  | dropped _ hagree h h' => exact .dropped (by decide) hagree h h'

theorem either_left (h : Paired vs s s' u r r') (w : SeedUse) :
    Paired vs s s' (u.either w) r r' := by
  rcases u.either_eq w with heq | heq
  · rw [heq]
    exact h
  · rw [heq]
    exact h.mixed

theorem either_right (h : Paired vs s s' w r r') (u : SeedUse) :
    Paired vs s s' (u.either w) r r' := by
  rw [SeedUse.either_comm]
  exact h.either_left u

/-- The seeds themselves. -/
theorem seeds (h : s.AgreeOn vs s') : Paired vs s s' .carried s s' :=
  .carried (by decide) h (fun _ _ => rfl) fun _ _ => rfl

/-- A row that binds the given variables only, in both evaluations. -/
theorem of_vars (h : r.vars ⊆ vs) : Paired vs s s' .dropped r r :=
  .dropped (by decide) (fun _ _ => rfl) (eqBeyond_empty h) (eqBeyond_empty h)

theorem insert (h : Paired vs s s' u r r') (hv : v ∈ vs) (t : Term) :
    Paired vs s s' u (r.insert v t) (r'.insert v t) := by
  cases h with
  | carried hu hagree h h' =>
    exact .carried hu (hagree.insert v t) (h.insert hv t) (h'.insert hv t)
  | dropped hu hagree h h' =>
    exact .dropped hu (hagree.insert v t) (h.insert hv t) (h'.insert hv t)

/-- A variable of both seeds may be hidden from a pattern. -/
theorem of_erase (h : Paired vs (s.erase v) (s'.erase v) u r r') (hv : v ∈ vs) :
    Paired vs s s' u r r' := by
  have hshow {a b : Binding} (h : a.EqBeyond vs (b.erase v)) : a.EqBeyond vs b := by
    intro w hw
    have hne : w ≠ v := fun heq => hw (heq ▸ hv)
    rw [h w hw, get?_erase, if_neg hne]
  cases h with
  | carried hu hagree h h' => exact .carried hu hagree (hshow h) (hshow h')
  | dropped hu hagree h h' => exact .dropped hu hagree h h'

/-- Beyond the variables no two rows of one evaluation disagree. -/
theorem agree_beyond (hl : Paired vs s s' u l l') (hr : Paired vs s s' w r r') (hv : v ∉ vs)
    {x y : Term} (hx : l.get? v = some x) (hy : r.get? v = some y) : x = y := by
  have hempty {a : Binding} {t : Term} (h : a.EqBeyond vs .empty) (ht : a.get? v = some t) :
      False := by
    rw [h v hv, get?_empty] at ht
    cases ht
  cases hl with
  | dropped _ _ hl _ => exact (hempty hl hx).elim
  | carried _ _ hl _ =>
    cases hr with
    | dropped _ _ hr _ => exact (hempty hr hy).elim
    | carried _ _ hr _ =>
      rw [hl v hv, ← hr v hv, hy] at hx
      exact (Option.some.inj hx).symm

theorem isCompatible_of (hl : Paired vs s s' u l l') (hr : Paired vs s s' w r r')
    (h : l.isCompatible r = true) : l'.isCompatible r' = true := by
  rw [isCompatible_iff] at h ⊢
  intro v x y hx hy
  by_cases hv : v ∈ vs
  · rw [← hl.agreeOn v hv] at hx
    rw [← hr.agreeOn v hv] at hy
    exact h v x y hx hy
  · exact hl.symm.agree_beyond hr.symm hv hx hy

theorem isCompatible_eq (hl : Paired vs s s' u l l') (hr : Paired vs s s' w r r') :
    l.isCompatible r = l'.isCompatible r' :=
  Bool.eq_iff_iff.mpr ⟨hl.isCompatible_of hr, hl.symm.isCompatible_of hr.symm⟩

theorem merge? (hl : Paired vs s s' u l l') (hr : Paired vs s s' w r r') :
    Option.Rel (Paired vs s s' (u.merge w)) (l.merge? r) (l'.merge? r') := by
  have hcompatible := hl.isCompatible_eq hr
  cases hc : l.isCompatible r with
  | false =>
    rw [hc] at hcompatible
    rw [Binding.merge?, Binding.merge?, hc, ← hcompatible]
    exact .none
  | true =>
    rw [hc] at hcompatible
    obtain ⟨m, hm⟩ : ∃ m, l.merge? r = some m := ⟨_, if_pos hc⟩
    obtain ⟨m', hm'⟩ : ∃ m', l'.merge? r' = some m' := ⟨_, if_pos hcompatible.symm⟩
    rw [hm, hm']
    refine .some ?_
    have hagree : m.AgreeOn vs m' := fun v hv => by
      rw [get?_of_merge? hm, get?_of_merge? hm', hl.agreeOn v hv, hr.agreeOn v hv]
    have hbeyond {a b c x y z : Binding} (hc : a.merge? b = some c) (ha : a.EqBeyond vs x)
        (hb : b.EqBeyond vs y) (hz : ∀ v, (x.get? v).or (y.get? v) = z.get? v) :
        c.EqBeyond vs z := fun v hv => by
      rw [get?_of_merge? hc, ha v hv, hb v hv, hz]
    -- the values of the seed are there if one of both rows has them
    cases hl with
    | carried hu _ hl hl' =>
      have huse : u.merge w ≠ .dropped := SeedUse.merge_ne_dropped (.inl hu)
      cases hr with
      | carried _ _ hr hr' =>
        exact .carried huse hagree (hbeyond hm hl hr fun v => Option.or_self)
          (hbeyond hm' hl' hr' fun v => Option.or_self)
      | dropped _ _ hr hr' =>
        exact .carried huse hagree (hbeyond hm hl hr fun v => Option.or_none)
          (hbeyond hm' hl' hr' fun v => Option.or_none)
    | dropped hu _ hl hl' =>
      cases hr with
      | carried hw _ hr hr' =>
        exact .carried (SeedUse.merge_ne_dropped (.inr hw)) hagree
          (hbeyond hm hl hr fun v => Option.none_or) (hbeyond hm' hl' hr' fun v => Option.none_or)
      | dropped hw _ hr hr' =>
        exact .dropped (SeedUse.merge_ne_carried hu hw) hagree
          (hbeyond hm hl hr fun v => Option.or_self) (hbeyond hm' hl' hr' fun v => Option.or_self)

theorem eq_of_eq (hu : u ≠ .mixed) (hl : Paired vs s s' u l l') (hr : Paired vs s s' u r r')
    (h : l = r) : l' = r' := by
  subst h
  refine ext_get? fun v => ?_
  by_cases hv : v ∈ vs
  · rw [← hl.agreeOn v hv, hr.agreeOn v hv]
  · -- both rows are of the only kind there is
    cases hl with
    | carried hc _ _ hl =>
      cases hr with
      | carried _ _ _ hr => rw [hl v hv, hr v hv]
      | dropped hd _ _ _ => cases u <;> simp_all
    | dropped hd _ _ hl =>
      cases hr with
      | carried hc _ _ _ => cases u <;> simp_all
      | dropped _ _ _ hr => rw [hl v hv, hr v hv]

/-- If the rows are all of one kind, equal rows are paired with equal rows. -/
theorem eq_iff (hu : u ≠ .mixed) (hl : Paired vs s s' u l l') (hr : Paired vs s s' u r r') :
    l = r ↔ l' = r' :=
  ⟨hl.eq_of_eq hu hr, hl.symm.eq_of_eq hu hr.symm⟩

end Paired

end Binding

open List (Forall₂)

/-! ## Lists of rows -/

/-- Elements that are equal on both sides or on none are dropped together. -/
theorem forall₂_dedup {α β : Type} [DecidableEq α] [DecidableEq β] {R : α → β → Prop}
    (hR : ∀ x x' y y', R x x' → R y y' → (x = y ↔ x' = y')) {xs : List α} {ys : List β}
    (h : Forall₂ R xs ys) : Forall₂ R (dedup xs) (dedup ys) := by
  induction h with
  | nil => exact .nil
  | cons hx _ ih =>
    refine .cons hx (List.rel_filter (fun y y' hy => ?_) ih)
    show decide _ = true ↔ decide _ = true
    rw [decide_eq_true_iff, decide_eq_true_iff]
    exact not_congr (hR _ _ _ _ hy hx)

theorem forall₂_drop {α β : Type} {R : α → β → Prop} (n : Nat) {xs : List α} {ys : List β}
    (h : Forall₂ R xs ys) : Forall₂ R (xs.drop n) (ys.drop n) := by
  induction n generalizing xs ys with
  | zero => exact h
  | succ n ih =>
    cases h with
    | nil => exact .nil
    | cons _ h => exact ih h

theorem forall₂_sliceRows {α β : Type} {R : α → β → Prop} (offset : Nat) (limit : Option Nat)
    {xs : List α} {ys : List β} (h : Forall₂ R xs ys) :
    Forall₂ R (Solutions.sliceRows offset limit xs) (Solutions.sliceRows offset limit ys) := by
  cases limit with
  | none => exact forall₂_drop offset h
  | some n => exact List.forall₂_take n (forall₂_drop offset h)

theorem exists_of_forall₂ {α β : Type} {R : α → β → Prop} {xs : List α} {ys : List β}
    (h : Forall₂ R xs ys) : ∀ y ∈ ys, ∃ x ∈ xs, R x y := by
  induction h with
  | nil => exact fun _ hy => absurd hy List.not_mem_nil
  | cons hxy _ ih =>
    refine List.forall_mem_cons.mpr ⟨⟨_, List.mem_cons_self, hxy⟩, fun y hy => ?_⟩
    obtain ⟨x, hx, hxy⟩ := ih y hy
    exact ⟨x, List.mem_cons_of_mem _ hx, hxy⟩

theorem forall₂_same {α : Type} {R : α → α → Prop} {xs : List α} (h : ∀ x ∈ xs, R x x) :
    Forall₂ R xs xs := List.forall₂_same.mpr h

end SparqlAlgebra
