import SparqlAlgebra.Binding.Entries
import SparqlAlgebra.Proofs.Merging

/-!
# Lists of entries as finite maps

Operations on lists of entries look variables up by halving and walk along two lists at
once. On ascending entries they do what the operations on bindings do, and leave ascending
entries behind, so that every list that they build stands for a map from variables to terms.

* `Entries.position_cases`: where a search ends among ascending entries;
* `Entries.insert_eq`, `Entries.erase_eq`, `Entries.merge?_eq`: each operation on entries is
  the operation on bindings;
* `Built` follows entries, binding and map through the same operations, and
  `Built.isFiniteMap` says what holds of two lists that were built in any way.
-/

namespace SparqlAlgebra

namespace Entries

open Binding (var_lt_irrefl var_lt_trans var_lt_of_not)

variable {es ls rs : List Entry} {v : Var}

/-! ## Searching -/

theorem lt_of_getElem? (h : EntriesSorted es) {i j : Nat} {x y : Entry} (hij : i < j)
    (hx : es[i]? = some x) (hy : es[j]? = some y) : x.1 < y.1 := by
  obtain ⟨hi, rfl⟩ := List.getElem?_eq_some_iff.mp hx
  obtain ⟨hj, rfl⟩ := List.getElem?_eq_some_iff.mp hy
  exact List.pairwise_iff_getElem.mp h i j hi hj hij

/-- If the window begins at an entry that is not greater than the variable, or with the
list, and whatever is behind it is greater, then this also holds of the window of one entry
that is left in the end. -/
theorem narrow_spec (h : EntriesSorted es) (base size : Nat) (hsize : 0 < size)
    (hfits : base + size ≤ es.length)
    (hbefore : 0 < base → ∀ e, es[base]? = some e → ¬ v < e.1)
    (hbehind : ∀ i, base + size ≤ i → ∀ e, es[i]? = some e → v < e.1) :
    narrow es v base size < es.length ∧
      (0 < narrow es v base size → ∀ e, es[narrow es v base size]? = some e → ¬ v < e.1) ∧
      ∀ i, narrow es v base size < i → ∀ e, es[i]? = some e → v < e.1 := by
  induction base, size using narrow.induct es v with
  | case1 base size hone =>
    rw [narrow, if_pos hone]
    exact ⟨by omega, hbefore, fun i hi => hbehind i (by omega)⟩
  | case2 base size hmore hgreater ih =>
    rw [narrow, if_neg hmore, if_pos hgreater]
    refine ih (by omega) (by omega) hbefore fun i hi e he => ?_
    -- the middle entry is greater, and so are the entries behind it
    obtain ⟨middle, hmiddle, hlt⟩ := (Option.any_eq_true _ _).mp hgreater
    have hlt : v < middle.1 := of_decide_eq_true hlt
    rcases Nat.lt_or_ge (base + size / 2) i with hi | hle
    · exact var_lt_trans hlt (lt_of_getElem? h hi hmiddle he)
    · obtain rfl : base + size / 2 = i := by omega
      rw [hmiddle] at he
      exact Option.some.inj he ▸ hlt
  | case3 base size hmore hgreater ih =>
    rw [narrow, if_neg hmore, if_neg hgreater]
    refine ih (by omega) (by omega) (fun _ e he hlt => ?_) fun i hi => hbehind i (by omega)
    exact hgreater (by rw [he]; exact decide_eq_true hlt)

/-- The entry that is left in the end is not greater than the variable, unless it is the
first one, and all entries behind it are greater. -/
theorem narrow_splits (h : EntriesSorted es) (hne : es ≠ []) (v : Var) :
    ∃ ls e rs, es = ls ++ e :: rs ∧ narrow es v 0 es.length = ls.length ∧
      (ls ≠ [] → ¬ v < e.1) ∧ ∀ x ∈ rs, v < x.1 := by
  obtain ⟨hlt, hbefore, hbehind⟩ := narrow_spec (v := v) h 0 es.length
    (List.length_pos_iff.mpr hne) (by omega) (by omega) fun i hi e he => by
      rw [List.getElem?_eq_none (by omega)] at he
      cases he
  generalize narrow es v 0 es.length = base at hlt hbefore hbehind
  refine ⟨es.take base, es[base], es.drop (base + 1), by simp, ?_, fun htake => ?_, ?_⟩
  · rw [List.length_take, Nat.min_eq_left (Nat.le_of_lt hlt)]
  · have hpos : 0 < base := Nat.pos_of_ne_zero fun hzero => htake (by rw [hzero, List.take_zero])
    exact hbefore hpos _ (List.getElem?_eq_getElem hlt)
  · intro x hx
    obtain ⟨i, hi⟩ := List.mem_iff_getElem?.mp hx
    rw [List.getElem?_drop] at hi
    exact hbehind _ (by omega) x hi

/-- A search ends at the entry of the variable, or between the lesser and the greater
entries. -/
theorem position_cases (h : EntriesSorted es) (v : Var) :
    (∃ ls t rs, es = ls ++ (v, t) :: rs ∧ position es v = .found ls.length) ∨
      ∃ ls rs, es = ls ++ rs ∧ position es v = .gap ls.length ∧
        (∀ e ∈ ls, e.1 < v) ∧ ∀ e ∈ rs, v < e.1 := by
  by_cases hne : es = []
  · subst hne
    exact .inr ⟨[], [], rfl, by rw [position, narrow]; rfl, by simp, by simp⟩
  · obtain ⟨ls, e, rs, hes, hbase, hbefore, hbehind⟩ := narrow_splits h hne v
    have hat : es[ls.length]? = some e := by simp [hes]
    have hposition : position es v = if e.1 = v then .found ls.length
        else if e.1 < v then .gap (ls.length + 1) else .gap ls.length := by
      rw [position, hbase]
      simp only [hat]
    have hlesser : ∀ x ∈ ls, x.1 < e.1 := fun x hx =>
      (List.pairwise_append.mp (hes ▸ h)).2.2 x hx e (List.mem_cons_self ..)
    by_cases heq : e.1 = v
    · rw [if_pos heq] at hposition
      exact .inl ⟨ls, e.2, rs, heq ▸ hes, hposition⟩
    · rw [if_neg heq] at hposition
      refine .inr ?_
      by_cases hlt : e.1 < v
      · rw [if_pos hlt] at hposition
        refine ⟨ls ++ [e], rs, by simp [hes], by simp [hposition], fun x hx => ?_, hbehind⟩
        rcases List.mem_append.mp hx with hx | hx
        · exact var_lt_trans (hlesser x hx) hlt
        · rw [List.mem_singleton.mp hx]
          exact hlt
      · rw [if_neg hlt] at hposition
        have hv : v < e.1 := var_lt_of_not hlt heq
        have hls : ls = [] := by
          by_contra hls
          exact hbefore hls hv
        subst hls
        refine ⟨[], es, rfl, hposition, by simp, fun x hx => ?_⟩
        rw [hes, List.nil_append, List.mem_cons] at hx
        rcases hx with rfl | hx
        · exact hv
        · exact hbehind x hx

theorem ne_of_gap (hless : ∀ e ∈ ls, e.1 < v) (hgreater : ∀ e ∈ rs, v < e.1) :
    ∀ e ∈ ls ++ rs, e.1 ≠ v := by
  intro e he heq
  rcases List.mem_append.mp he with he | he
  · exact var_lt_irrefl v (heq ▸ hless e he)
  · exact var_lt_irrefl v (heq ▸ hgreater e he)

/-- Among ascending entries the entries around one of them are lesser and greater. -/
theorem lt_around {t : Term} (h : EntriesSorted (ls ++ (v, t) :: rs)) :
    (∀ e ∈ ls, e.1 < v) ∧ ∀ e ∈ rs, v < e.1 := by
  obtain ⟨-, hright, hcross⟩ := List.pairwise_append.mp h
  exact ⟨fun e he => hcross e he (v, t) (List.mem_cons_self ..),
    (List.pairwise_cons.mp hright).1⟩

/-! ## Operations on one list -/

variable (b : Binding)

/-- The terms of a binding are found by searching. -/
theorem get?_eq (v : Var) : get? b.entries v = b.get? v := by
  rcases position_cases b.sorted v with ⟨ls, t, rs, hes, hposition⟩ |
    ⟨ls, rs, hes, hposition, hless, hgreater⟩
  · have hmem : (v, t) ∈ b.entries := by simp [hes]
    have hat : b.entries[ls.length]? = some (v, t) := by simp [hes]
    rw [Binding.get?_eq_some_iff.mpr hmem]
    simp [get?, hposition, hat]
  · have hnone : b.get? v = none := by
      refine Option.eq_none_iff_forall_ne_some.mpr fun t ht => ?_
      have hmem : (v, t) ∈ ls ++ rs := hes ▸ Binding.get?_eq_some_iff.mp ht
      exact ne_of_gap hless hgreater _ hmem rfl
    simp [get?, hposition, hnone]

theorem contains_eq (v : Var) : contains b.entries v = b.contains v := by
  rw [Binding.contains, ← get?_eq]
  rcases position_cases b.sorted v with ⟨ls, t, rs, hes, hposition⟩ |
    ⟨ls, rs, hes, hposition, -, -⟩
  · have hat : b.entries[ls.length]? = some (v, t) := by simp [hes]
    simp [contains, get?, hposition, hat]
  · simp [contains, get?, hposition]

/-- Lesser entries stay where they are. -/
theorem insertEntry_append (t : Term) (h : ∀ e ∈ ls, e.1 < v) :
    Binding.insertEntry v t (ls ++ rs) = ls ++ Binding.insertEntry v t rs := by
  induction ls with
  | nil => rfl
  | cons e ls ih =>
    have he : e.1 < v := h e (List.mem_cons_self ..)
    have hlt : ¬ v < e.1 := fun hlt => var_lt_irrefl v (var_lt_trans hlt he)
    have hne : ¬ v = e.1 := fun heq => var_lt_irrefl v (by rw [← heq] at he; exact he)
    rw [List.cons_append, Binding.insertEntry, if_neg hlt, if_neg hne,
      ih fun x hx => h x (List.mem_cons_of_mem _ hx)]
    rfl

/-- An entry comes before greater ones. -/
theorem insertEntry_of_greater (t : Term) (h : ∀ e ∈ rs, v < e.1) :
    Binding.insertEntry v t rs = (v, t) :: rs := by
  cases rs with
  | nil => rfl
  | cons e rs => rw [Binding.insertEntry, if_pos (h e (List.mem_cons_self ..))]

theorem insertIdx_between (ls rs : List Entry) (e : Entry) :
    (ls ++ rs).insertIdx ls.length e = ls ++ e :: rs := by
  induction ls with
  | nil => rfl
  | cons l ls ih => simp [ih]

theorem insert_eq (v : Var) (t : Term) :
    insert b.entries v t = (b.get? v, (b.insert v t).entries) := by
  rw [← get?_eq]
  show _ = (_, Binding.insertEntry v t b.entries)
  rcases position_cases b.sorted v with ⟨ls, u, rs, hes, hposition⟩ |
    ⟨ls, rs, hes, hposition, hless, hgreater⟩
  · have hless := (lt_around (hes ▸ b.sorted)).1
    have hentry : Binding.insertEntry v t ((v, u) :: rs) = (v, t) :: rs := by
      rw [Binding.insertEntry, if_neg (var_lt_irrefl v), if_pos rfl]
    have hmodify : b.entries.modify ls.length (fun e => (e.1, t)) = ls ++ (v, t) :: rs := by
      simp [hes, List.modify_eq_take_cons_drop]
    simp only [insert, get?, hposition]
    rw [hmodify, hes, insertEntry_append t hless, hentry]
  · simp only [insert, get?, hposition]
    rw [hes, insertIdx_between, insertEntry_append t hless, insertEntry_of_greater t hgreater]

theorem erase_eq (v : Var) : erase b.entries v = (b.get? v, (b.erase v).entries) := by
  rw [← get?_eq]
  show _ = (_, b.entries.filter fun e => e.1 ≠ v)
  have hkeep : ∀ {ls rs : List Entry}, (∀ e ∈ ls, e.1 < v) → (∀ e ∈ rs, v < e.1) →
      ((ls ++ rs).filter fun e => e.1 ≠ v) = ls ++ rs := fun hless hgreater =>
    List.filter_eq_self.mpr fun e he => decide_eq_true (ne_of_gap hless hgreater e he)
  rcases position_cases b.sorted v with ⟨ls, t, rs, hes, hposition⟩ |
    ⟨ls, rs, hes, hposition, hless, hgreater⟩
  · obtain ⟨hless, hgreater⟩ := lt_around (hes ▸ b.sorted)
    have herase : b.entries.eraseIdx ls.length = ls ++ rs := by
      simp [hes, List.eraseIdx_append_of_length_le]
    have hfilter : (b.entries.filter fun e => e.1 ≠ v) = ls ++ rs := by
      rw [hes, List.filter_append, List.filter_cons_of_neg (by simp), ← List.filter_append,
        hkeep hless hgreater]
    simp only [erase, get?, hposition]
    rw [herase, hfilter]
  · simp only [erase, get?, hposition]
    rw [hes, hkeep hless hgreater]

theorem extend_eq (v : Var) (t : Term) : extend b.entries v t = (b.insert v t).entries := by
  rw [extend, insert_eq]

theorem collect_eq (given : List Entry) : collect given = (Binding.ofEntries given).entries := by
  have hfold : ∀ b : Binding, given.foldl (fun es e => (insert es e.1 e.2).2) b.entries =
      (given.foldl (fun b e => b.insert e.1 e.2) b).entries := by
    induction given with
    | nil => intro b; rfl
    | cons e rest ih =>
      intro b
      rw [List.foldl_cons, List.foldl_cons, insert_eq]
      exact ih (b.insert e.1 e.2)
  exact hfold .empty

/-! ## Operations on two lists -/

/-- What a walk along two lists yields: all entries in ascending order, or nothing if a
variable has two terms. -/
def IsUnion (ls rs : List Entry) : Option (List Entry) → Prop
  | some es => EntriesSorted es ∧ ∀ e, e ∈ es ↔ e ∈ ls ∨ e ∈ rs
  | none => ∃ l ∈ ls, ∃ r ∈ rs, l.1 = r.1 ∧ l.2 ≠ r.2

theorem IsUnion.swap {o : Option (List Entry)} (h : IsUnion ls rs o) : IsUnion rs ls o := by
  cases o with
  | some es => exact ⟨h.1, fun e => (h.2 e).trans or_comm⟩
  | none =>
    obtain ⟨l, hl, r, hr, hvar, hterm⟩ := h
    exact ⟨r, hr, l, hl, hvar.symm, Ne.symm hterm⟩

/-- A walk passes an entry that is less than all others. -/
theorem IsUnion.cons {x : Entry} (hl : ∀ e ∈ ls, x.1 < e.1) (hr : ∀ e ∈ rs, x.1 < e.1)
    {o : Option (List Entry)} (h : IsUnion ls rs o) :
    IsUnion (x :: ls) rs (o.map (x :: ·)) := by
  cases o with
  | some es =>
    obtain ⟨hsorted, hmem⟩ := h
    refine ⟨List.pairwise_cons.mpr ⟨fun e he => ?_, hsorted⟩, fun e => ?_⟩
    · exact ((hmem e).mp he).elim (hl e) (hr e)
    · rw [List.mem_cons, List.mem_cons, hmem e, or_assoc]
  | none =>
    obtain ⟨l, hl, hrest⟩ := h
    exact ⟨l, List.mem_cons_of_mem _ hl, hrest⟩

/-- A walk passes an entry that both lists begin with. -/
theorem IsUnion.cons_both {x : Entry} (hl : ∀ e ∈ ls, x.1 < e.1) (hr : ∀ e ∈ rs, x.1 < e.1)
    {o : Option (List Entry)} (h : IsUnion ls rs o) :
    IsUnion (x :: ls) (x :: rs) (o.map (x :: ·)) := by
  have h := h.cons hl hr
  cases o with
  | some es =>
    refine ⟨h.1, fun e => ?_⟩
    rw [h.2 e, List.mem_cons, List.mem_cons]
    tauto
  | none =>
    obtain ⟨l, hl, r, hr, hrest⟩ := h
    exact ⟨l, hl, r, List.mem_cons_of_mem _ hr, hrest⟩

/-- All entries of an ascending list are greater than what its first entry is greater
than. -/
theorem lt_of_mem_cons {x y : Entry} (h : EntriesSorted (y :: rs)) (hxy : x.1 < y.1) :
    ∀ e ∈ y :: rs, x.1 < e.1 := by
  intro e he
  rcases List.mem_cons.mp he with rfl | he
  · exact hxy
  · exact var_lt_trans hxy ((List.pairwise_cons.mp h).1 e he)

theorem eq_of_not_lt {x y : Entry} (hxy : ¬ x.1 < y.1) (hyx : ¬ y.1 < x.1) : x.1 = y.1 := by
  by_contra hne
  exact hyx (var_lt_of_not hxy hne)

/-- The walk follows the order of the entries, so that no entry is passed by before its
partner in the other list can be met. -/
theorem walk_isUnion (hl : EntriesSorted ls) (hr : EntriesSorted rs) :
    IsUnion ls rs (walk ls rs) := by
  induction ls, rs using walk.induct with
  | case1 rs =>
    rw [walk]
    exact ⟨hr, fun e => by simp⟩
  | case2 ls hne =>
    have hwalk : walk ls [] = some ls := by cases ls <;> simp [walk]
    rw [hwalk]
    exact ⟨hl, fun e => by simp⟩
  | case3 l ls r rs hlt ih =>
    obtain ⟨hfirst, hrest⟩ := List.pairwise_cons.mp hl
    rw [walk, if_pos hlt]
    exact (ih hrest hr).cons hfirst (lt_of_mem_cons hr hlt)
  | case4 l ls r rs hlt hgt ih =>
    obtain ⟨hfirst, hrest⟩ := List.pairwise_cons.mp hr
    rw [walk, if_neg hlt, if_pos hgt]
    exact ((ih hl hrest).swap.cons hfirst (lt_of_mem_cons hl hgt)).swap
  | case5 l ls r rs hlt hgt hterm ih =>
    obtain ⟨hleft, hls⟩ := List.pairwise_cons.mp hl
    obtain ⟨hright, hrs⟩ := List.pairwise_cons.mp hr
    obtain rfl : l = r := Prod.ext (eq_of_not_lt hlt hgt) hterm
    rw [walk, if_neg hlt, if_neg hgt, if_pos rfl]
    exact (ih hls hrs).cons_both hleft hright
  | case6 l ls r rs hlt hgt hterm =>
    rw [walk, if_neg hlt, if_neg hgt, if_neg hterm]
    exact ⟨l, List.mem_cons_self .., r, List.mem_cons_self .., eq_of_not_lt hlt hgt, hterm⟩

variable (a b : Binding)

theorem walk_eq : walk a.entries b.entries = (a.merge? b).map (·.entries) := by
  have hunion := walk_isUnion a.sorted b.sorted
  cases hwalk : walk a.entries b.entries with
  | some es =>
    rw [hwalk] at hunion
    obtain ⟨hsorted, hmem⟩ := hunion
    let c : Binding := ⟨es, hsorted⟩
    have hwithin : ∀ {d : Binding}, (∀ e ∈ d.entries, e ∈ es) → d.IsWithin c := fun h v t hv =>
      Binding.get?_eq_some_iff.mpr (h (v, t) (Binding.get?_eq_some_iff.mp hv))
    have hvars : c.vars ⊆ a.vars ++ b.vars := by
      rw [Binding.vars, Binding.vars, Binding.vars, ← List.map_append]
      refine List.map_subset _ fun e he => List.mem_append.mpr ((hmem e).mp he)
    have hmerge : a.merge? b = some c := Binding.merge?_eq_some_iff.mpr
      ⟨hwithin fun e he => (hmem e).mpr (.inl he), hwithin fun e he => (hmem e).mpr (.inr he),
        hvars⟩
    rw [hmerge]
    rfl
  | none =>
    rw [hwalk] at hunion
    obtain ⟨l, hl, r, hr, hvar, hterm⟩ := hunion
    have hmerge : a.merge? b = none := by
      refine if_neg fun hcompatible => hterm ?_
      exact Binding.isCompatible_iff.mp hcompatible l.1 l.2 r.2
        (Binding.get?_eq_some_iff.mpr hl) (Binding.get?_eq_some_iff.mpr (hvar ▸ hr))
    rw [hmerge]
    rfl

theorem isCompatible_eq : isCompatible a.entries b.entries = a.isCompatible b := by
  rw [isCompatible, walk_eq, Binding.merge?]
  by_cases h : a.isCompatible b = true <;> simp [h]

theorem merge?_eq : merge? a.entries b.entries = (a.merge? b).map (·.entries) := by
  unfold merge?
  by_cases hb : b.entries.isEmpty = true
  · have hb' : b = .empty := Binding.ext_entries (List.isEmpty_iff.mp hb)
    rw [if_pos hb, hb', Binding.merge?_empty]
    rfl
  · by_cases ha : a.entries.isEmpty = true
    · have ha' : a = .empty := Binding.ext_entries (List.isEmpty_iff.mp ha)
      rw [if_neg hb, if_pos ha, ha', Binding.empty_merge?]
      rfl
    · rw [if_neg hb, if_neg ha, walk_eq]

/-- Walking along both lists meets every variable that they share. -/
theorem sharesVariable_iff (hl : EntriesSorted ls) (hr : EntriesSorted rs) :
    sharesVariable ls rs = true ↔ ∃ l ∈ ls, ∃ r ∈ rs, l.1 = r.1 := by
  induction ls, rs using sharesVariable.induct with
  | case1 rs => simp [sharesVariable]
  | case2 ls hne =>
    have hnone : sharesVariable ls [] = false := by cases ls <;> simp [sharesVariable]
    simp [hnone]
  | case3 l ls r rs hlt ih =>
    rw [sharesVariable, if_pos hlt, ih (List.pairwise_cons.mp hl).2 hr]
    have hfirst : ¬ ∃ e ∈ r :: rs, l.1 = e.1 := by
      rintro ⟨e, he, heq⟩
      exact var_lt_irrefl _ (heq ▸ lt_of_mem_cons hr hlt e he)
    rw [List.exists_mem_cons_iff, or_iff_right hfirst]
  | case4 l ls r rs hlt hgt ih =>
    rw [sharesVariable, if_neg hlt, if_pos hgt, ih hl (List.pairwise_cons.mp hr).2]
    refine exists_congr fun x => and_congr_right fun hx => ?_
    have hfirst : x.1 ≠ r.1 := fun heq => var_lt_irrefl _ (heq ▸ lt_of_mem_cons hl hgt x hx)
    rw [List.exists_mem_cons_iff, or_iff_right hfirst]
  | case5 l ls r rs hlt hgt =>
    rw [sharesVariable, if_neg hlt, if_neg hgt]
    simp [eq_of_not_lt hlt hgt]

theorem sharesVariable_eq : sharesVariable a.entries b.entries = a.sharesVariable b := by
  rw [Bool.eq_iff_iff, sharesVariable_iff a.sorted b.sorted, Binding.sharesVariable_iff]
  constructor
  · rintro ⟨l, hl, r, hr, heq⟩
    refine ⟨l.1, Binding.mem_vars.mp (List.mem_map_of_mem hl), ?_⟩
    exact heq ▸ Binding.mem_vars.mp (List.mem_map_of_mem hr)
  · rintro ⟨v, ha, hb⟩
    obtain ⟨l, hl, rfl⟩ := List.mem_map.mp (Binding.mem_vars.mpr ha)
    obtain ⟨r, hr, heq⟩ := List.mem_map.mp (Binding.mem_vars.mpr hb)
    exact ⟨l, hl, r, hr, heq.symm⟩

end Entries

/-! ## Maps -/

/-- A map from variables to terms. -/
abbrev VarMap := Var → Option Term

namespace VarMap

/-- The terms of a list of entries; of two entries of one variable the later one counts. -/
def ofList (given : List Entry) : VarMap := fun v => (given.reverse.find? (·.1 = v)).map (·.2)

/-- No variable has two terms. -/
def Agree (m n : VarMap) : Prop := ∀ v s t, m v = some s → n v = some t → s = t

/-- The terms of both maps. -/
def union (m n : VarMap) : VarMap := fun v => (m v).or (n v)

/-- The terms of the given variables. -/
def restrict (m : VarMap) (vs : List Var) : VarMap := fun v => if v ∈ vs then m v else none

variable {m n : VarMap}

theorem Agree.union_eq_some_iff (h : m.Agree n) {v : Var} {t : Term} :
    m.union n v = some t ↔ m v = some t ∨ n v = some t := by
  rw [union, Option.or_eq_some_iff]
  constructor
  · exact Or.imp_right And.right
  · rintro (hm | hn)
    · exact .inl hm
    · cases hm : m v with
      | none => exact .inr ⟨rfl, hn⟩
      | some s => exact .inl (congrArg some (h v s t hm hn))

end VarMap

namespace Binding

theorem get?_ofEntries (given : List Entry) (v : Var) :
    (ofEntries given).get? v = VarMap.ofList given v := by
  have hfold : ∀ b : Binding, (given.foldl (fun b e => b.insert e.1 e.2) b).get? v =
      (VarMap.ofList given v).or (b.get? v) := by
    induction given with
    | nil => intro b; rfl
    | cons e rest ih =>
      intro b
      rw [List.foldl_cons, ih, get?_insert]
      simp only [VarMap.ofList, List.reverse_cons, List.find?_append, List.find?_singleton]
      cases hrest : rest.reverse.find? (·.1 = v) with
      | some x => simp
      | none => by_cases h : v = e.1 <;> simp [h, eq_comm]
  rw [ofEntries, hfold, get?_empty, Option.or_none]

end Binding

/-! ## Lists that operations have built -/

/-- The same operations on entries, on bindings and on maps. A merge is an operation where
there is one; `Built.merge?_cases` finds it for entries and bindings alike. -/
inductive Built : List Entry → Binding → VarMap → Prop
  | new : Built [] .empty fun _ => none
  | insert {es : List Entry} {b : Binding} {m : VarMap} (h : Built es b m) (v : Var) (t : Term) :
    Built (Entries.insert es v t).2 (b.insert v t) (Function.update m v (some t))
  | erase {es : List Entry} {b : Binding} {m : VarMap} (h : Built es b m) (v : Var) :
    Built (Entries.erase es v).2 (b.erase v) (Function.update m v none)
  | extend {es : List Entry} {b : Binding} {m : VarMap} (h : Built es b m) (v : Var) (t : Term) :
    Built (Entries.extend es v t) (b.insert v t) (Function.update m v (some t))
  | collect (given : List Entry) :
    Built (Entries.collect given) (.ofEntries given) (.ofList given)
  | merge {es fs gs : List Entry} {a b c : Binding} {m n : VarMap} (h : Built es a m)
    (k : Built fs b n) (hes : Entries.merge? es fs = some gs) (hb : a.merge? b = some c) :
    Built gs c (m.union n)
  | project {es : List Entry} {b : Binding} {m : VarMap} (h : Built es b m) (vs : List Var) :
    Built (Entries.project es vs) (b.project vs) (m.restrict vs)

namespace Built

variable {es fs : List Entry} {a b : Binding} {m n : VarMap}

/-- Each operation finds ascending entries and leaves ascending entries. -/
theorem eq_entries (h : Built es b m) : es = b.entries := by
  induction h with
  | new => rfl
  | insert _ v t ih => rw [ih, Entries.insert_eq]
  | erase _ v ih => rw [ih, Entries.erase_eq]
  | extend _ v t ih => rw [ih, Entries.extend_eq]
  | collect given => exact Entries.collect_eq given
  | merge _ _ hes hb ih ih' =>
    rw [ih, ih', Entries.merge?_eq, hb] at hes
    exact (Option.some.inj hes).symm
  | project _ vs ih =>
    rw [ih]
    rfl

theorem get? (h : Built es b m) (v : Var) : b.get? v = m v := by
  induction h with
  | new => rfl
  | insert _ w t ih | extend _ w t ih => rw [Binding.get?_insert, Function.update_apply, ih]
  | erase _ w ih => rw [Binding.get?_erase, Function.update_apply, ih]
  | collect given => exact Binding.get?_ofEntries given v
  | merge _ _ _ hb ih ih' => rw [Binding.get?_of_merge? hb, ih, ih', VarMap.union]
  | project _ vs ih => rw [Binding.get?_project, ih, VarMap.restrict]

theorem mem_iff (h : Built es b m) {v : Var} {t : Term} : (v, t) ∈ es ↔ m v = some t := by
  rw [h.eq_entries, ← Binding.get?_eq_some_iff, h.get?]

theorem eq_iff (h : Built es a m) (k : Built fs b n) : a = b ↔ m = n := by
  constructor
  · rintro rfl
    funext v
    rw [← h.get?, k.get?]
  · rintro rfl
    exact Binding.ext_get? fun v => by rw [h.get?, k.get?]

theorem isCompatible_iff (h : Built es a m) (k : Built fs b n) :
    a.isCompatible b = true ↔ m.Agree n := by
  rw [Binding.isCompatible_iff]
  simp only [h.get?, k.get?, VarMap.Agree]

theorem sharesVariable_iff (h : Built es a m) (k : Built fs b n) :
    a.sharesVariable b = true ↔ ∃ v, (m v).isSome = true ∧ (n v).isSome = true := by
  rw [Binding.sharesVariable_iff]
  simp only [Binding.contains, h.get?, k.get?]

/-- Maps that agree are merged, and others are not. -/
theorem merge?_cases (h : Built es a m) (k : Built fs b n) :
    (m.Agree n → ∃ gs c, Entries.merge? es fs = some gs ∧ a.merge? b = some c ∧ c.entries = gs ∧
        ∀ v t, (v, t) ∈ gs ↔ m v = some t ∨ n v = some t) ∧
      (¬ m.Agree n → Entries.merge? es fs = none ∧ a.merge? b = none) := by
  have hentries : Entries.merge? es fs = (a.merge? b).map (·.entries) := by
    rw [h.eq_entries, k.eq_entries, Entries.merge?_eq]
  constructor
  · intro hagree
    obtain ⟨c, hc⟩ : ∃ c, a.merge? b = some c :=
      ⟨_, if_pos ((h.isCompatible_iff k).mpr hagree)⟩
    have hgs : Entries.merge? es fs = some c.entries := by rw [hentries, hc]; rfl
    refine ⟨c.entries, c, hgs, hc, rfl, fun v t => ?_⟩
    rw [(Built.merge h k hgs hc).mem_iff, hagree.union_eq_some_iff]
  · intro hagree
    have hnone : a.merge? b = none := if_neg (mt (h.isCompatible_iff k).mp hagree)
    exact ⟨by rw [hentries, hnone]; rfl, hnone⟩

/-- **Bindings are finite maps.** Entries that were built by any operations ascend, are the
entries of the binding that the same operations build, and hold exactly the pairs of the
map that these operations describe. Searching finds the terms of this map. Two lists are
equal if and only if they stand for the same map; they are compatible if and only if no
variable has two terms, and then their merge holds the pairs of both; they share a variable
if and only if one has a term in both; and a projection keeps the pairs of the given
variables. -/
theorem isFiniteMap (h : Built es a m) (k : Built fs b n) :
    (EntriesSorted es ∧ a.entries = es ∧ ∀ v t, (v, t) ∈ es ↔ m v = some t) ∧
      (∀ v, Entries.get? es v = m v ∧ a.get? v = m v ∧
        Entries.contains es v = (m v).isSome ∧ a.contains v = (m v).isSome) ∧
      (∀ v t, (Entries.insert es v t).1 = m v ∧ (Entries.erase es v).1 = m v) ∧
      ((es = fs ↔ m = n) ∧ (a = b ↔ m = n)) ∧
      ((Entries.isCompatible es fs = true ↔ m.Agree n) ∧ (a.isCompatible b = true ↔ m.Agree n)) ∧
      ((m.Agree n → ∃ gs c, Entries.merge? es fs = some gs ∧ a.merge? b = some c ∧
          c.entries = gs ∧ ∀ v t, (v, t) ∈ gs ↔ m v = some t ∨ n v = some t) ∧
        (¬ m.Agree n → Entries.merge? es fs = none ∧ a.merge? b = none)) ∧
      ((Entries.sharesVariable es fs = true ↔ ∃ v, (m v).isSome = true ∧ (n v).isSome = true) ∧
        (a.sharesVariable b = true ↔ ∃ v, (m v).isSome = true ∧ (n v).isSome = true)) ∧
      ∀ vs, (a.project vs).entries = Entries.project es vs ∧
        ∀ e, e ∈ Entries.project es vs ↔ e ∈ es ∧ e.1 ∈ vs := by
  have hes := h.eq_entries
  have hfs := k.eq_entries
  refine ⟨⟨?_, hes.symm, fun v t => h.mem_iff⟩, fun v => ?_, fun v t => ?_, ⟨?_, h.eq_iff k⟩,
    ⟨?_, h.isCompatible_iff k⟩, h.merge?_cases k, ⟨?_, h.sharesVariable_iff k⟩, fun vs => ⟨?_, ?_⟩⟩
  · rw [hes]
    exact a.sorted
  · rw [hes, Entries.get?_eq, Entries.contains_eq, Binding.contains, h.get?]
    exact ⟨rfl, rfl, rfl, rfl⟩
  · rw [hes, Entries.insert_eq, Entries.erase_eq, h.get?]
    exact ⟨rfl, rfl⟩
  · rw [← h.eq_iff k, hes, hfs]
    exact ⟨Binding.ext_entries, congrArg Binding.entries⟩
  · rw [hes, hfs, Entries.isCompatible_eq, h.isCompatible_iff k]
  · rw [hes, hfs, Entries.sharesVariable_eq, h.sharesVariable_iff k]
  · rw [hes]
    rfl
  · intro e
    rw [Entries.project, List.mem_filter, List.contains_iff_mem]

/-- Entries of two variables, one of which is given twice. -/
def sampleGiven : List Entry :=
  [(⟨"b"⟩, .iri ⟨"1"⟩), (⟨"a"⟩, .iri ⟨"2"⟩), (⟨"b"⟩, .iri ⟨"3"⟩)]

/-- One list gained a variable and the other lost one, so that they differ and can be
merged. -/
theorem isFiniteMap_sample :
    let es := Entries.extend (Entries.collect sampleGiven) ⟨"c"⟩ (.iri ⟨"4"⟩)
    let fs := (Entries.erase (Entries.collect sampleGiven) ⟨"a"⟩).2
    es = [(⟨"a"⟩, .iri ⟨"2"⟩), (⟨"b"⟩, .iri ⟨"3"⟩), (⟨"c"⟩, .iri ⟨"4"⟩)] ∧ EntriesSorted es ∧
      Entries.get? es ⟨"b"⟩ = some (.iri ⟨"3"⟩) ∧ es ≠ fs ∧ Entries.sharesVariable es fs = true ∧
      ∃ gs, Entries.merge? es fs = some gs ∧ (⟨"a"⟩, .iri ⟨"2"⟩) ∈ gs := by
  intro es fs
  have h : Built es _ _ := .extend (.collect sampleGiven) ⟨"c"⟩ (.iri ⟨"4"⟩)
  have k : Built fs _ _ := .erase (.collect sampleGiven) ⟨"a"⟩
  obtain ⟨⟨hsorted, -, -⟩, hget, -, ⟨hequal, -⟩, -, ⟨hmerge, -⟩, ⟨hshares, -⟩, -⟩ :=
    isFiniteMap h k
  have hagree : VarMap.Agree (Function.update (VarMap.ofList sampleGiven) ⟨"c"⟩ (some (.iri ⟨"4"⟩)))
      (Function.update (VarMap.ofList sampleGiven) ⟨"a"⟩ none) := by
    intro v s t hs ht
    by_cases ha : v = ⟨"a"⟩
    · simp [ha] at ht
    · by_cases hc : v = ⟨"c"⟩
      · subst hc
        simp [VarMap.ofList, sampleGiven] at ht
      · rw [Function.update_of_ne hc] at hs
        rw [Function.update_of_ne ha, hs] at ht
        exact Option.some.inj ht
  refine ⟨by decide +kernel, hsorted, ?_, fun heq => ?_, hshares.mpr ⟨⟨"b"⟩, ?_, ?_⟩, ?_⟩
  · rw [(hget _).1]
    rfl
  · have hmaps := congrFun (hequal.mp heq) ⟨"a"⟩
    simp [VarMap.ofList, sampleGiven] at hmaps
  · rfl
  · rfl
  · obtain ⟨gs, c, hgs, -, -, hmem⟩ := hmerge hagree
    exact ⟨gs, hgs, (hmem _ _).mpr (.inl rfl)⟩

end Built

end SparqlAlgebra
