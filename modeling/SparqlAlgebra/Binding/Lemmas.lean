import SparqlAlgebra.Binding

/-!
# Bindings as maps

What each operation on bindings does to the map from variables to terms, which
`get?` shows.

* `ext_get?`: bindings that agree on every variable are equal;
* `get?_insert`, `get?_filter`: an insertion changes one variable, a selection
  keeps the values of the variables that it keeps;
* `isCompatible_iff`, `get?_of_merge?`: compatible bindings do not disagree, and
  the merge of two bindings has the values of both.
-/

namespace SparqlAlgebra

namespace Binding

/-! ## Entries -/

theorem var_lt_irrefl (v : Var) : ¬ v < v := String.lt_irrefl v.name

/-- An entry shows the value of its variable. -/
theorem get?_eq_some_iff {b : Binding} {v : Var} {t : Term} :
    b.get? v = some t ↔ (v, t) ∈ b.entries := by
  obtain ⟨entries, sorted⟩ := b
  unfold get?
  induction entries with
  | nil => simp
  | cons e rest ih =>
    have hs := List.pairwise_cons.mp sorted
    have ih := ih hs.2
    by_cases h : e.1 = v
    · subst h
      have hrest : ∀ u, (e.1, u) ∉ rest := fun u hu =>
        var_lt_irrefl _ (hs.1 (e.1, u) hu)
      have hpair : (e.1, t) = e ↔ e.2 = t :=
        ⟨fun he => (congrArg Prod.snd he).symm, fun he => he ▸ rfl⟩
      simp [hrest, hpair]
    · have hne : ¬ (v, t) = e := fun he => h (he ▸ rfl)
      rw [List.find?_cons_of_neg (by simpa using h), List.mem_cons]
      simp only [hne, false_or]
      exact ih

/-- Bindings that agree on every variable are equal. -/
theorem ext_get? {a b : Binding} (h : ∀ v, a.get? v = b.get? v) : a = b := by
  refine ext_entries ?_
  have hmem : ∀ e, e ∈ a.entries ↔ e ∈ b.entries := fun (v, t) => by
    rw [← get?_eq_some_iff, ← get?_eq_some_iff, h v]
  have hnodup : ∀ c : Binding, c.entries.Nodup := fun c => by
    refine List.Pairwise.imp ?_ c.sorted
    intro x y hlt he
    exact var_lt_irrefl y.1 (he ▸ hlt)
  refine List.Perm.eq_of_pairwise (fun x y _ _ hxy hyx => ?_) a.sorted b.sorted
    ((List.perm_ext_iff_of_nodup (hnodup a) (hnodup b)).mpr hmem)
  exact absurd (String.lt_trans hxy hyx) (String.lt_irrefl _)

theorem mem_vars {b : Binding} {v : Var} :
    v ∈ b.vars ↔ b.contains v = true := by
  simp only [vars, List.mem_map, contains, Option.isSome_iff_exists,
    get?_eq_some_iff]
  constructor
  · rintro ⟨e, he, rfl⟩
    exact ⟨e.2, he⟩
  · rintro ⟨t, ht⟩
    exact ⟨(v, t), ht, rfl⟩

/-! ## Operations -/

@[simp] theorem get?_empty (v : Var) : empty.get? v = none := rfl

private theorem find?_insertEntry (v w : Var) (t : Term) (entries : List Entry) :
    ((insertEntry v t entries).find? fun e => e.1 = w).map (·.2) =
      if w = v then some t else (entries.find? fun e => e.1 = w).map (·.2) := by
  induction entries with
  | nil =>
    by_cases h : w = v
    · simp [insertEntry, h]
    · simp [insertEntry, h, Ne.symm h]
  | cons e rest ih =>
    unfold insertEntry
    split
    · by_cases h : w = v
      · simp [h]
      · simp [List.find?_cons, h, Ne.symm h]
    · split
      · rename_i heq
        by_cases h : w = v
        · simp [h]
        · have hne : ¬ e.1 = w := fun he => h (he ▸ heq.symm)
          simp [h, Ne.symm h, hne]
      · rename_i hne
        by_cases hw : e.1 = w
        · have : ¬ w = v := fun hv => hne (hv ▸ hw.symm)
          simp [hw, this]
        · simpa [List.find?_cons, hw] using ih

@[simp] theorem get?_insert (b : Binding) (v w : Var) (t : Term) :
    (b.insert v t).get? w = if w = v then some t else b.get? w :=
  find?_insertEntry v w t b.entries

@[simp] theorem get?_filter (b : Binding) (keep : Var → Bool) (v : Var) :
    (b.filter keep).get? v = if keep v then b.get? v else none := by
  refine Option.ext fun t => ?_
  rw [get?_eq_some_iff, filter, List.mem_filter]
  by_cases h : keep v = true
  · simp [h, get?_eq_some_iff]
  · simp [h]

@[simp] theorem get?_erase (b : Binding) (v w : Var) :
    (b.erase v).get? w = if w = v then none else b.get? w := by
  by_cases h : w = v <;> simp [erase, h]

@[simp] theorem get?_project (b : Binding) (vs : List Var) (v : Var) :
    (b.project vs).get? v = if v ∈ vs then b.get? v else none := by
  by_cases h : v ∈ vs <;> simp [project, h]

/-! ## Two bindings -/

/-- Compatible bindings do not disagree on a variable. -/
theorem isCompatible_iff {a b : Binding} :
    a.isCompatible b = true ↔
      ∀ v s t, a.get? v = some s → b.get? v = some t → s = t := by
  simp only [isCompatible, List.all_eq_true]
  constructor
  · intro h v s t hs ht
    have := h (v, s) (get?_eq_some_iff.mp hs)
    simp only [ht, decide_eq_true_eq] at this
    exact this.symm
  · intro h e he
    have hs : a.get? e.1 = some e.2 := get?_eq_some_iff.mpr he
    cases ht : b.get? e.1 with
    | none => rfl
    | some t => simpa using (h e.1 e.2 t hs ht).symm

theorem sharesVariable_iff {a b : Binding} :
    a.sharesVariable b = true ↔
      ∃ v, a.contains v = true ∧ b.contains v = true := by
  simp only [sharesVariable, List.any_eq_true]
  constructor
  · rintro ⟨e, he, hb⟩
    exact ⟨e.1, mem_vars.mp (List.mem_map.mpr ⟨e, he, rfl⟩), hb⟩
  · rintro ⟨v, ha, hb⟩
    obtain ⟨e, he, rfl⟩ := List.mem_map.mp (mem_vars.mpr ha)
    exact ⟨e, he, hb⟩

/-- Entries of different variables are bound one after the other. -/
theorem get?_foldl_insert (entries : List Entry)
    (different : entries.Pairwise fun x y => x.1 ≠ y.1) (a : Binding) (v : Var) :
    (entries.foldl (fun c e => c.insert e.1 e.2) a).get? v =
      ((entries.find? fun e => e.1 = v).map (·.2)).or (a.get? v) := by
  induction entries generalizing a with
  | nil => rfl
  | cons e rest ih =>
    have hs := List.pairwise_cons.mp different
    rw [List.foldl_cons, ih hs.2, get?_insert]
    by_cases h : v = e.1
    · subst h
      have hnone : (rest.find? fun x => x.1 = e.1) = none :=
        List.find?_eq_none.mpr fun x hx hxe => hs.1 x hx (of_decide_eq_true hxe).symm
      simp [hnone]
    · have hne : ¬ e.1 = v := fun he => h he.symm
      simp [h, hne]

/-- The entries of a binding are of different variables. -/
theorem entries_different (b : Binding) : b.entries.Pairwise fun x y => x.1 ≠ y.1 := by
  refine List.Pairwise.imp ?_ b.sorted
  intro x y hlt heq
  exact var_lt_irrefl y.1 (heq ▸ hlt)

/-- A merge has the values of both bindings. -/
theorem get?_of_merge? {a b c : Binding} (h : a.merge? b = some c) (v : Var) :
    c.get? v = (a.get? v).or (b.get? v) := by
  unfold merge? at h
  split at h
  · rename_i hab
    simp only [Option.some.injEq] at h
    subst h
    rw [get?_foldl_insert b.entries b.entries_different a v]
    have hagree := fun s t => isCompatible_iff.mp hab v s t
    change (b.get? v).or (a.get? v) = _
    cases ha : a.get? v with
    | none => simp
    | some s =>
      cases hb : b.get? v with
      | none => simp
      | some t => simp [hagree s t ha hb]
  · cases h

end Binding

end SparqlAlgebra
