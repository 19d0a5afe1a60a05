import SparqlAlgebra.Binding.Lemmas
import SparqlAlgebra.Solutions.Join
import SparqlAlgebra.Solutions.Operations
import SparqlAlgebra.Error
import Mathlib.Data.List.Infix

/-!
# The rows of solutions

What the operations on solutions do to the rows, whatever form the solutions
have. This takes solutions that declare the variables which they bind and that
do not stem from a dry run.

* `Solutions.Binds` is that condition, which the operations keep, together with
  the variables that may be bound;
* `Solutions.rows_join`: a join pairs all compatible rows, also those that the
  index does not even offer;
* `Solutions.rows_union` and others are the same for the other operations.
-/

namespace SparqlAlgebra

namespace Binding

theorem merge?_empty (b : Binding) : b.merge? empty = some b := by
  have h : b.isCompatible empty = true :=
    isCompatible_iff.mpr fun _ _ _ _ ht => by simp at ht
  exact if_pos h

theorem empty_merge? (b : Binding) : empty.merge? b = some b := by
  have h : empty.isCompatible b = true := rfl
  have hmerge : empty.merge? b = some _ := if_pos h
  rw [hmerge, Option.some.injEq]
  exact ext_get? fun v => by simp [get?_of_merge? hmerge]

theorem vars_empty : empty.vars = [] := rfl

/-- A binding without variables is empty. -/
theorem eq_empty {b : Binding} (h : ∀ v, v ∉ b.vars) : b = empty := by
  refine ext_get? fun v => ?_
  have hv : ¬ b.contains v = true := fun hc => h v (mem_vars.mpr hc)
  simpa [contains] using hv

theorem mem_vars_insert {b : Binding} {v w : Var} {t : Term} :
    w ∈ (b.insert v t).vars ↔ w = v ∨ w ∈ b.vars := by
  by_cases h : w = v <;> simp [mem_vars, contains, h]

theorem mem_vars_of_merge? {a b c : Binding} (h : a.merge? b = some c) {v : Var} :
    v ∈ c.vars ↔ v ∈ a.vars ∨ v ∈ b.vars := by
  simp only [mem_vars, contains, get?_of_merge? h]
  cases a.get? v <;> simp

theorem mem_vars_project {b : Binding} {vs : List Var} {v : Var} :
    v ∈ (b.project vs).vars ↔ v ∈ vs ∧ v ∈ b.vars := by
  by_cases h : v ∈ vs <;> simp [mem_vars, contains, h]

end Binding

/-! ## Candidates of joins -/

namespace JoinIndex

theorem joinKey_cons (v : Var) (vs : List Var) (b : Binding) :
    joinKey (v :: vs) b =
      (b.get? v).bind fun t => (joinKey vs b).map (t :: ·) := by
  simp only [joinKey, List.mapM_cons]
  cases b.get? v with
  | none => rfl
  | some t => cases List.mapM b.get? vs <;> rfl

/-- Rows with different keys bind a shared variable to different terms. -/
theorem not_compatible_of_keys {vs : List Var} {a b : Binding} {x y : List Term}
    (ha : joinKey vs a = some x) (hb : joinKey vs b = some y) (h : x ≠ y) :
    a.isCompatible b = false := by
  induction vs generalizing x y with
  | nil =>
    cases ha
    cases hb
    exact absurd rfl h
  | cons v vs ih =>
    rw [joinKey_cons] at ha hb
    obtain ⟨s, hs, ha⟩ := Option.bind_eq_some_iff.mp ha
    obtain ⟨t, ht, hb⟩ := Option.bind_eq_some_iff.mp hb
    obtain ⟨x, hx, rfl⟩ := Option.map_eq_some_iff.mp ha
    obtain ⟨y, hy, rfl⟩ := Option.map_eq_some_iff.mp hb
    by_cases hst : s = t
    · exact ih hx hy fun hxy => h (by rw [hst, hxy])
    · refine Bool.eq_false_iff.mpr fun hc => ?_
      exact hst (Binding.isCompatible_iff.mp hc v s t hs ht)

theorem lookup_addToBucket (key k : List Term) (row : PlacedRow)
    (buckets : List (List Term × List PlacedRow)) :
    ((addToBucket key row buckets).lookup k).getD [] =
      (buckets.lookup k).getD [] ++ if key = k then [row] else [] := by
  induction buckets with
  | nil =>
    by_cases h : key = k
    · simp [addToBucket, h]
    · have hne : (k == key) = false := by simp [Ne.symm h]
      simp [addToBucket, List.lookup_cons, hne, h]
  | cons bucket rest ih =>
    obtain ⟨k', rows⟩ := bucket
    by_cases hkk : k = k'
    · subst hkk
      by_cases hk : k = key
      · simp [addToBucket, hk]
      · simp [addToBucket, hk, Ne.symm hk]
    · have hne : (k == k') = false := by simp [hkk]
      by_cases hk : k' = key
      · subst hk
        simp [addToBucket, List.lookup_cons, hne, Ne.symm hkk]
      · simp only [addToBucket, hk, if_false, List.lookup_cons, hne]
        exact ih

/-- The rows of an index are arranged by their keys, in their order. -/
theorem foldl_add (index : JoinIndex) (rows : List PlacedRow) :
    let built := rows.foldl add index
    built.shared = index.shared ∧ built.all = index.all ∧
      built.loose = index.loose ++
        rows.filter (fun r => joinKey index.shared r.2 = none) ∧
      ∀ key, (built.complete.lookup key).getD [] =
        (index.complete.lookup key).getD [] ++
          rows.filter fun r => joinKey index.shared r.2 = some key := by
  induction rows generalizing index with
  | nil => simp
  | cons row rest ih =>
    have hshared : (index.add row).shared = index.shared := by
      unfold add
      split <;> rfl
    have hall : (index.add row).all = index.all := by
      unfold add
      split <;> rfl
    obtain ⟨h₁, h₂, h₃, h₄⟩ := ih (index.add row)
    rw [hshared] at h₁ h₃ h₄
    refine ⟨h₁, h₂.trans hall, ?_, fun key => ?_⟩
    · rw [List.foldl_cons, h₃]
      cases hk : joinKey index.shared row.2 <;> simp [add, hk]
    · rw [List.foldl_cons, h₄]
      cases hk : joinKey index.shared row.2 with
      | none => simp [add, hk]
      | some k =>
        by_cases hkey : k = key <;> simp [add, hk, lookup_addToBucket, hkey]

theorem mergeByPlace_cons_left {r : PlacedRow} {as bs : List PlacedRow}
    (h : ∀ b ∈ bs, r.1 < b.1) : mergeByPlace (r :: as) bs = r :: mergeByPlace as bs := by
  rw [mergeByPlace]
  cases bs with
  | nil => rfl
  | cons b bs =>
    have hb : ¬ b.1 < r.1 := Nat.lt_asymm (h b List.mem_cons_self)
    simp only [List.takeWhile_cons, List.dropWhile_cons, hb, decide_false, Bool.false_eq_true,
      if_false, List.nil_append]

theorem mergeByPlace_cons_right {r : PlacedRow} {as bs : List PlacedRow}
    (h : ∀ a ∈ as, r.1 < a.1) : mergeByPlace as (r :: bs) = r :: mergeByPlace as bs := by
  cases as with
  | nil => rfl
  | cons a as =>
    have ha : r.1 < a.1 := h a List.mem_cons_self
    simp only [mergeByPlace, List.takeWhile_cons, List.dropWhile_cons, ha, decide_true, if_true,
      List.cons_append]

/-- Merging two selections of ascending rows by their places selects the rows
of either. -/
theorem mergeByPlace_filters {rows : List PlacedRow}
    (h : rows.Pairwise fun a b => a.1 < b.1) (keep other : PlacedRow → Bool)
    (hdisjoint : ∀ r, keep r = true → other r = false) :
    mergeByPlace (rows.filter keep) (rows.filter other) =
      rows.filter fun r => keep r || other r := by
  induction rows with
  | nil => rfl
  | cons r rest ih =>
    obtain ⟨hr, hrest⟩ := List.pairwise_cons.mp h
    have hafter (select : PlacedRow → Bool) : ∀ a ∈ rest.filter select, r.1 < a.1 :=
      fun a ha => hr a (List.mem_filter.mp ha).1
    by_cases hkeep : keep r = true
    · simp only [List.filter_cons, hkeep, hdisjoint r hkeep, Bool.true_or, if_true,
        Bool.false_eq_true, if_false]
      rw [mergeByPlace_cons_left (hafter other), ih hrest]
    · by_cases hother : other r = true
      · simp only [List.filter_cons, hkeep, hother, Bool.or_true, if_true,
          Bool.false_eq_true, if_false]
        rw [mergeByPlace_cons_right (hafter keep), ih hrest]
      · simp only [List.filter_cons, hkeep, hother, Bool.or_self,
          Bool.false_eq_true, if_false]
        exact ih hrest

theorem zipIdx_ascending (rows : List Binding) (n : Nat) :
    ((rows.zipIdx n).map fun (row, i) => ((i, row) : PlacedRow)).Pairwise
      fun a b => a.1 < b.1 := by
  induction rows generalizing n with
  | nil => exact List.Pairwise.nil
  | cons row rest ih =>
    refine List.pairwise_cons.mpr ⟨fun r hr => ?_, ih (n + 1)⟩
    obtain ⟨x, hx, rfl⟩ := List.mem_map.mp hr
    exact List.le_snd_of_mem_zipIdx hx

/-- Rows that are no candidates are not compatible. -/
theorem candidates_build (shared : List Var) (rows : List Binding)
    (left : Binding) :
    ((build shared rows).candidates left).filterMap left.merge? =
      rows.filterMap left.merge? := by
  let placed : List PlacedRow := rows.zipIdx.map fun (row, i) => (i, row)
  have hrows : placed.map (·.2) = rows := by
    simp [placed, List.map_map, Function.comp_def]
  obtain ⟨hshared, hall, hloose, hcomplete⟩ :=
    foldl_add ⟨shared, rows, [], []⟩ placed
  have hbuild : build shared rows = placed.foldl add ⟨shared, rows, [], []⟩ := rfl
  unfold candidates
  rw [hbuild, hshared, hall]
  cases shared with
  | nil => rfl
  | cons v vs =>
    cases hkey : joinKey (v :: vs) left with
    | none => simp only [hkey]
    | some key =>
      simp only [hkey, hloose, hcomplete, List.lookup_nil, Option.getD_none,
        List.nil_append]
      rw [mergeByPlace_filters (zipIdx_ascending rows 0) _ _ (by simp_all)]
      rw [List.filterMap_map, List.filterMap_filter]
      conv_rhs => rw [← hrows, List.filterMap_map]
      refine List.filterMap_congr fun r _ => ?_
      -- a row with another key differs in a shared variable
      cases hr : joinKey (v :: vs) r.2 with
      | none => simp
      | some k =>
        by_cases hk : k = key
        · simp [hk]
        · have hne := not_compatible_of_keys hkey hr (Ne.symm hk)
          simp [hk, Binding.merge?, hne]

end JoinIndex

/-! ## Declared variables -/

namespace Solutions

/-- The solutions stem from data, and bind variables that they declare and that
are among the given ones. -/
structure Binds (s : Solutions) (vs : List Var) : Prop where
  real : s.isSingleton = false
  wellFormed : s.WellFormed
  row_vars : ∀ row ∈ s.rows, row.vars ⊆ vs

variable {a b s : Solutions} {vs ws : List Var} {rows : List Binding}

theorem WellFormed.binds (h : s.WellFormed) (hs : s.isSingleton = false) : s.Binds s.vars :=
  ⟨hs, h, h⟩

theorem Binds.mono (h : s.Binds vs) (hvs : vs ⊆ ws) : s.Binds ws :=
  ⟨h.real, h.wellFormed, fun row hrow _ hv => hvs (h.row_vars row hrow hv)⟩

@[simp] theorem vars_ofRows (vs : List Var) (rows : List Binding) :
    (ofRows vs rows).vars = vs := by
  unfold ofRows
  split <;> rfl

@[simp] theorem isSingleton_ofRows (vs : List Var) (rows : List Binding) :
    (ofRows vs rows).isSingleton = false := by
  unfold ofRows
  split <;> rfl

/-- The special results do not lose anything. -/
theorem rows_ofRows_of_empty (h : vs = [] → ∀ row ∈ rows, row = .empty) :
    (ofRows vs rows).rows = rows := by
  cases vs with
  | cons v vs => exact rows_ofRows_of_ne_nil (List.cons_ne_nil v vs)
  | nil =>
    match rows with
    | [] => rfl
    | [row] =>
      rw [h rfl row List.mem_cons_self]
      rfl
    | _ :: _ :: _ => rfl

theorem rows_ofRows (h : ∀ row ∈ rows, row.vars ⊆ vs) :
    (ofRows vs rows).rows = rows := by
  apply rows_ofRows_of_empty
  rintro rfl row hrow
  exact Binding.eq_empty fun v hv => List.not_mem_nil (h row hrow hv)

theorem ofRows_binds (h : ∀ row ∈ rows, row.vars ⊆ vs)
    (h' : ∀ row ∈ rows, row.vars ⊆ ws) : (ofRows vs rows).Binds ws := by
  refine ⟨isSingleton_ofRows vs rows, fun row hrow v hv => ?_, ?_⟩
  · rw [rows_ofRows h] at hrow
    rw [vars_ofRows]
    exact h row hrow hv
  · rwa [rows_ofRows h]

theorem null_binds (vs : List Var) : null.Binds vs :=
  ⟨rfl, fun _ h => absurd h List.not_mem_nil, fun _ h => absurd h List.not_mem_nil⟩

theorem identity_binds (vs : List Var) : identity.Binds vs := by
  have hempty : ∀ row ∈ identity.rows, ∀ v, v ∉ row.vars := by
    intro row hrow v hv
    rw [List.mem_singleton.mp hrow] at hv
    exact absurd hv List.not_mem_nil
  exact ⟨rfl, fun row hrow v hv => absurd hv (hempty row hrow v),
    fun row hrow v hv => absurd hv (hempty row hrow v)⟩

/-! ## Joins -/

/-- The compatible pairs of two lists of rows, merged. -/
def pairRows (ls rs : List Binding) : List Binding :=
  ls.flatMap fun l => rs.filterMap l.merge?

theorem vars_of_mem_pairRows {ls rs : List Binding} {row : Binding}
    (hl : ∀ l ∈ ls, l.vars ⊆ vs) (hr : ∀ r ∈ rs, r.vars ⊆ ws)
    (h : row ∈ pairRows ls rs) : row.vars ⊆ mergeVariables vs ws := by
  obtain ⟨l, hls, hrow⟩ := List.mem_flatMap.mp h
  obtain ⟨r, hrs, hmerge⟩ := List.mem_filterMap.mp hrow
  intro v hv
  rcases (Binding.mem_vars_of_merge? hmerge).mp hv with hv | hv
  · exact mem_mergeVariables.mpr (.inl (hl l hls hv))
  · exact mem_mergeVariables.mpr (.inr (hr r hrs hv))

/-- A join of solutions that are neither empty nor neutral. -/
theorem join_eq_ofRows (ha : a.isSingleton = false)
    (hb : b.isSingleton = false) (h : a ≠ null) (h' : b ≠ null)
    (k : a ≠ identity) (k' : b ≠ identity) :
    a.join b = ofRows (mergeVariables a.vars b.vars) (pairRows a.rows b.rows) := by
  have hpairs : (a.rows.flatMap fun l =>
      ((joinIndex a b).candidates l).filterMap l.merge?) = pairRows a.rows b.rows :=
    List.flatMap_congr fun l _ => JoinIndex.candidates_build _ _ l
  rw [← hpairs]
  unfold join
  split <;> simp_all

@[simp] theorem pairRows_nil_left (rs : List Binding) : pairRows [] rs = [] := rfl

@[simp] theorem pairRows_nil_right (ls : List Binding) : pairRows ls [] = [] := by
  simp [pairRows]

theorem pairRows_empty_left (rs : List Binding) :
    pairRows [Binding.empty] rs = rs := by
  simp [pairRows, Binding.empty_merge?]

theorem pairRows_empty_right (ls : List Binding) :
    pairRows ls [Binding.empty] = ls := by
  simp [pairRows, Binding.merge?_empty]

theorem subset_mergeVariables_left : vs ⊆ mergeVariables vs ws :=
  fun _ h => mem_mergeVariables.mpr (.inl h)

theorem subset_mergeVariables_right : ws ⊆ mergeVariables vs ws :=
  fun _ h => mem_mergeVariables.mpr (.inr h)

/-- What a join is: empty, one of both sides, or the pairs of their rows. -/
theorem join_cases (ha : a.isSingleton = false) (hb : b.isSingleton = false) :
    (a = null ∨ b = null) ∧ a.join b = null ∨ a = identity ∧ a.join b = b ∨
      b = identity ∧ a.join b = a ∨ a ≠ null ∧ b ≠ null ∧
        a.join b = ofRows (mergeVariables a.vars b.vars) (pairRows a.rows b.rows) := by
  by_cases h : a = null
  · subst h
    exact .inl ⟨.inl rfl, rfl⟩
  by_cases h' : b = null
  · subst h'
    exact .inl ⟨.inr rfl, by cases a <;> rfl⟩
  by_cases k : a = identity
  · subst k
    exact .inr (.inl ⟨rfl, by cases b <;> rfl⟩)
  by_cases k' : b = identity
  · subst k'
    exact .inr (.inr (.inl ⟨rfl, by cases a <;> rfl⟩))
  exact .inr (.inr (.inr ⟨h, h', join_eq_ofRows ha hb h h' k k'⟩))

/-- Solutions without variables do not bind any. -/
def IsClosed (s : Solutions) : Prop := s.vars = [] → ∀ row ∈ s.rows, row = .empty

theorem WellFormed.isClosed (h : s.WellFormed) : s.IsClosed := by
  intro hvars row hrow
  refine Binding.eq_empty fun v hv => ?_
  have hmem := h row hrow v hv
  rw [hvars] at hmem
  exact List.not_mem_nil hmem

theorem pairRows_of_isClosed (ha : a.IsClosed) (hb : b.IsClosed)
    (h : mergeVariables a.vars b.vars = []) : ∀ row ∈ pairRows a.rows b.rows, row = .empty := by
  have hnil {vs : List Var} (hvs : vs ⊆ mergeVariables a.vars b.vars) : vs = [] :=
    List.subset_nil.mp (h ▸ hvs)
  intro row hrow
  obtain ⟨l, hl, hrow⟩ := List.mem_flatMap.mp hrow
  obtain ⟨r, hr, hmerge⟩ := List.mem_filterMap.mp hrow
  rw [ha (hnil subset_mergeVariables_left) l hl, hb (hnil subset_mergeVariables_right) r hr,
    Binding.merge?_empty] at hmerge
  exact (Option.some.inj hmerge).symm

/-- A join pairs all compatible rows, in the order of the left and then of the right
rows. -/
theorem rows_join_of_isClosed (ha : a.isSingleton = false) (hb : b.isSingleton = false)
    (ha' : a.IsClosed) (hb' : b.IsClosed) : (a.join b).rows = pairRows a.rows b.rows := by
  rcases join_cases ha hb with ⟨rfl | rfl, h⟩ | ⟨rfl, h⟩ | ⟨rfl, h⟩ | ⟨-, -, h⟩
  · rw [h]
    rfl
  · rw [h]
    exact (pairRows_nil_right _).symm
  · rw [h]
    exact (pairRows_empty_left _).symm
  · rw [h]
    exact (pairRows_empty_right _).symm
  · rw [h]
    exact rows_ofRows_of_empty (pairRows_of_isClosed ha' hb')

theorem rows_join (ha : a.Binds vs) (hb : b.Binds ws) :
    (a.join b).rows = pairRows a.rows b.rows ∧
      (a.join b).Binds (mergeVariables vs ws) := by
  refine ⟨rows_join_of_isClosed ha.real hb.real ha.wellFormed.isClosed hb.wellFormed.isClosed, ?_⟩
  rcases join_cases ha.real hb.real with ⟨-, h⟩ | ⟨-, h⟩ | ⟨-, h⟩ | ⟨-, -, h⟩
  · rw [h]
    exact null_binds _
  · rw [h]
    exact hb.mono subset_mergeVariables_right
  · rw [h]
    exact ha.mono subset_mergeVariables_left
  · rw [h]
    exact ofRows_binds
      (fun row hrow => vars_of_mem_pairRows ha.wellFormed hb.wellFormed hrow)
      fun row hrow => vars_of_mem_pairRows ha.row_vars hb.row_vars hrow

/-! ## Results that may be errors -/

/-- A result that has the given rows within the given variables, or the same
error. -/
def Carries (vs : List Var) (r : Except QueryError Solutions)
    (rows : Except QueryError (List Binding)) : Prop :=
  match rows with
  | .ok rows => ∃ s, r = .ok s ∧ s.rows = rows ∧ s.Binds vs
  | .error e => r = .error e

theorem Carries.of_ok {r : Except QueryError Solutions}
    {rows : Except QueryError (List Binding)} (h : Carries vs r rows)
    (hr : r = .ok s) : rows = .ok s.rows ∧ s.Binds vs := by
  cases rows with
  | error e =>
    rw [hr] at h
    cases h
  | ok rows =>
    obtain ⟨s', hs, rfl, hbinds⟩ := h
    rw [hr] at hs
    cases hs
    exact ⟨rfl, hbinds⟩

/-- The rows of a computation are given their form at the end. -/
theorem carries_ofRows {rows : Except QueryError (List Binding)}
    (h : ∀ found, rows = .ok found → ∀ row ∈ found, row.vars ⊆ vs)
    (h' : ∀ found, rows = .ok found → ∀ row ∈ found, row.vars ⊆ ws) :
    Carries ws (rows >>= fun found => pure (ofRows vs found)) rows := by
  cases rows with
  | error e => rfl
  | ok found =>
    exact ⟨_, rfl, rows_ofRows (h found rfl), ofRows_binds (h found rfl) (h' found rfl)⟩

section Effects

variable {m : Type → Type} [Monad m] (condition : Binding → m Bool)

theorem keepM_cons {α : Type} (test : α → m Bool) (x : α) (xs : List α) :
    keepM test (x :: xs) = do
      let holds ← test x
      let kept ← keepM test xs
      return if holds then x :: kept else kept := rfl

theorem retainM_eq_ofRows (hs : s.isSingleton = false) :
    s.retainM condition =
      keepM condition s.rows >>= fun found => pure (ofRows s.vars found) := by
  cases s with
  | singleton _ => cases hs
  | identity | null | table => rfl

/-- The merges are the compatible pairs on which the condition holds. -/
theorem mergesM_eq (left : Binding) (rs : List Binding) :
    mergesM condition left rs = keepM condition (rs.filterMap left.merge?) := by
  induction rs with
  | nil => rfl
  | cons r rs ih =>
    unfold mergesM
    cases h : left.merge? r with
    | none => simp only [List.filterMap_cons_none h, ih]
    | some merged =>
      simp only [List.filterMap_cons_some h, keepM_cons, ih]

/-- A left join of solutions that are not empty. -/
theorem leftJoinM_eq_ofRows (ha : a.isSingleton = false) (hb : b.isSingleton = false)
    (h : a ≠ null) (h' : b ≠ null) :
    a.leftJoinM b condition =
      leftRowsM condition (joinIndex a b).candidates a.rows >>=
        fun found => pure (ofRows (mergeVariables a.vars b.vars) found) := by
  cases a with
  | null => exact absurd rfl h
  | singleton _ => cases ha
  | identity | table =>
    cases b with
    | null => exact absurd rfl h'
    | singleton _ => cases hb
    | identity | table => rfl

theorem leftJoinM_null : a.leftJoinM null condition = pure a := by cases a <;> rfl

end Effects

section Conditions

variable (condition : Binding → Except QueryError Bool)

theorem mem_of_keepM {α : Type} {test : α → Except QueryError Bool}
    {xs kept : List α} (h : keepM test xs = .ok kept) : kept.Sublist xs := by
  induction xs generalizing kept with
  | nil =>
    cases h
    exact List.Sublist.refl _
  | cons x xs ih =>
    rw [keepM_cons] at h
    cases htest : test x with
    | error e =>
      rw [htest] at h
      cases h
    | ok holds =>
      cases hkept : keepM test xs with
      | error e =>
        rw [htest, hkept] at h
        cases h
      | ok rest =>
        rw [htest, hkept] at h
        cases holds <;> cases h
        · exact (ih hkept).cons _
        · exact (ih hkept).cons_cons _

theorem retainM_carries (hs : s.Binds vs) :
    Carries vs (s.retainM condition) (keepM condition s.rows) := by
  rw [retainM_eq_ofRows condition hs.real]
  exact carries_ofRows
    (fun found hfound row hrow => hs.wellFormed row ((mem_of_keepM hfound).subset hrow))
    fun found hfound row hrow => hs.row_vars row ((mem_of_keepM hfound).subset hrow)

/-- The rows of a left join over all right rows. -/
def leftRows (ls rs : List Binding) : Except QueryError (List Binding) :=
  leftRowsM condition (fun _ => rs) ls

theorem leftRows_cons (l : Binding) (ls rs : List Binding) :
    leftRows condition (l :: ls) rs = do
      let merges ← keepM condition (rs.filterMap l.merge?)
      let rows ← leftRows condition ls rs
      return (if merges.isEmpty then [l] else merges) ++ rows := by
  rw [← mergesM_eq]
  rfl

/-- Only compatible right rows matter to a left join. -/
theorem leftRowsM_eq {candidates : Binding → List Binding} {rs : List Binding}
    (h : ∀ l, (candidates l).filterMap l.merge? = rs.filterMap l.merge?)
    (ls : List Binding) :
    leftRowsM condition candidates ls = leftRows condition ls rs := by
  induction ls with
  | nil => rfl
  | cons l ls ih =>
    rw [leftRows_cons, ← ih, ← h l, ← mergesM_eq]
    rfl

theorem leftRows_nil_right (ls : List Binding) :
    leftRows condition ls [] = .ok ls := by
  induction ls with
  | nil => rfl
  | cons l ls ih =>
    rw [leftRows_cons, ih]
    rfl

theorem vars_of_mem_leftRows {ls rs found : List Binding}
    (hl : ∀ l ∈ ls, l.vars ⊆ vs) (hr : ∀ r ∈ rs, r.vars ⊆ ws)
    (h : leftRows condition ls rs = .ok found) :
    ∀ row ∈ found, row.vars ⊆ mergeVariables vs ws := by
  induction ls generalizing found with
  | nil =>
    cases h
    simp
  | cons l ls ih =>
    rw [leftRows_cons] at h
    cases hkeep : keepM condition (rs.filterMap l.merge?) with
    | error e =>
      rw [hkeep] at h
      cases h
    | ok merges =>
      cases hrest : leftRows condition ls rs with
      | error e =>
        rw [hkeep, hrest] at h
        cases h
      | ok rest =>
        rw [hkeep, hrest] at h
        cases h
        have hls : ∀ l ∈ ls, l.vars ⊆ vs := fun l hl' =>
          hl l (List.mem_cons_of_mem _ hl')
        have hpairs : ∀ row ∈ merges, row.vars ⊆ mergeVariables vs ws := by
          intro row hrow
          have hpair : row ∈ pairRows [l] rs := by
            simpa [pairRows] using (mem_of_keepM hkeep).subset hrow
          refine vars_of_mem_pairRows (fun l' hl' => ?_) hr hpair
          rw [List.mem_singleton.mp hl']
          exact hl l List.mem_cons_self
        intro row hrow
        rcases List.mem_append.mp hrow with hrow | hrow
        · split at hrow
          · rw [List.mem_singleton.mp hrow]
            exact fun v hv => subset_mergeVariables_left (hl l List.mem_cons_self hv)
          · exact hpairs row hrow
        · exact ih hls hrest row hrow

theorem leftJoinM_carries (ha : a.Binds vs) (hb : b.Binds ws) :
    Carries (mergeVariables vs ws) (a.leftJoinM b condition)
      (leftRows condition a.rows b.rows) := by
  by_cases h : a = null
  · subst h
    exact ⟨null, rfl, rfl, null_binds _⟩
  by_cases h' : b = null
  · subst h'
    rw [leftJoinM_null]
    simp only [rows, leftRows_nil_right]
    exact ⟨a, rfl, rfl, ha.mono subset_mergeVariables_left⟩
  have hjoin : a.leftJoinM b condition =
      leftRows condition a.rows b.rows >>=
        fun found => pure (ofRows (mergeVariables a.vars b.vars) found) := by
    rw [← leftRowsM_eq condition (JoinIndex.candidates_build
      (a.vars.filter (b.vars.contains ·)) b.rows)]
    exact leftJoinM_eq_ofRows condition ha.real hb.real h h'
  rw [hjoin]
  exact carries_ofRows
    (fun found => vars_of_mem_leftRows condition ha.wellFormed hb.wellFormed)
    fun found => vars_of_mem_leftRows condition ha.row_vars hb.row_vars

/-- The row with the value of an assignment, if there is one. -/
def assignedRow (v : Var) (b : Binding) : Option Term → Binding
  | some t => b.insert v t
  | none => b

/-- The value of an assignment for a row that does not bind the variable. -/
def assignedValue (v : Var) (value : Binding → Except QueryError (Option Term))
    (b : Binding) : Except QueryError (Option Term) :=
  if b.contains v then .error (.variableAlreadyBound v) else value b

/-- The rows with the values of an assignment, which may be errors. -/
def assignedRows (v : Var) (value : Binding → Except QueryError (Option Term)) :
    List Binding → Except QueryError (List Binding)
  | [] => .ok []
  | b :: rest => do
    let t ← assignedValue v value b
    let rows ← assignedRows v value rest
    return assignedRow v b t :: rows

variable {v : Var} {value : Binding → Except QueryError (Option Term)}

theorem assignedRows_cons_eq_ok {b : Binding} {rest found : List Binding} :
    assignedRows v value (b :: rest) = .ok found ↔
      ∃ t found', assignedValue v value b = .ok t ∧
        assignedRows v value rest = .ok found' ∧ found = assignedRow v b t :: found' := by
  conv_lhs => unfold assignedRows
  cases hvalue : assignedValue v value b with
  | error err => simp [bind, Except.bind]
  | ok t =>
    cases hrest : assignedRows v value rest with
    | error err => simp [bind, Except.bind]
    | ok found' => simp [bind, Except.bind, pure, Except.pure, eq_comm]

theorem length_assignedRows {bs found : List Binding}
    (h : assignedRows v value bs = .ok found) : found.length = bs.length := by
  induction bs generalizing found with
  | nil =>
    cases h
    rfl
  | cons b rest ih =>
    obtain ⟨t, found', -, hrest, rfl⟩ := assignedRows_cons_eq_ok.mp h
    simp [ih hrest]

theorem vars_of_mem_assignedRows {bs found : List Binding}
    (hbs : ∀ b ∈ bs, b.vars ⊆ vs) (h : assignedRows v value bs = .ok found) :
    ∀ row ∈ found, row.vars ⊆ mergeVariables vs [v] := by
  induction bs generalizing found with
  | nil =>
    cases h
    simp
  | cons b rest ih =>
    obtain ⟨t, found', -, hrest, rfl⟩ := assignedRows_cons_eq_ok.mp h
    have hb := hbs b List.mem_cons_self
    refine List.forall_mem_cons.mpr ⟨fun w hw => ?_,
      ih (fun b' hb' => hbs b' (List.mem_cons_of_mem _ hb')) hrest⟩
    cases t with
    | none => exact subset_mergeVariables_left (hb hw)
    | some t =>
      rcases Binding.mem_vars_insert.mp hw with rfl | hw
      · exact subset_mergeVariables_right List.mem_cons_self
      · exact subset_mergeVariables_left (hb hw)

end Conditions

/-! ## Other operations -/

theorem union_null : a.union null = a := by cases a <;> rfl

/-- A union of solutions that are not empty. -/
theorem union_eq_ofRows (ha : a.isSingleton = false) (hb : b.isSingleton = false)
    (h : a ≠ null) (h' : b ≠ null) :
    a.union b = ofRows (mergeVariables a.vars b.vars) (a.rows ++ b.rows) := by
  cases a with
  | null => exact absurd rfl h
  | singleton _ => cases ha
  | identity | table =>
    cases b with
    | null => exact absurd rfl h'
    | singleton _ => cases hb
    | identity | table => rfl

theorem rows_union (ha : a.Binds vs) (hb : b.Binds ws) :
    (a.union b).rows = a.rows ++ b.rows ∧
      (a.union b).Binds (mergeVariables vs ws) := by
  by_cases h : a = null
  · subst h
    exact ⟨rfl, hb.mono subset_mergeVariables_right⟩
  by_cases h' : b = null
  · subst h'
    rw [union_null]
    exact ⟨(List.append_nil _).symm, ha.mono subset_mergeVariables_left⟩
  rw [union_eq_ofRows ha.real hb.real h h']
  have hvars {vs ws : List Var} (ha : ∀ row ∈ a.rows, row.vars ⊆ vs)
      (hb : ∀ row ∈ b.rows, row.vars ⊆ ws) :
      ∀ row ∈ a.rows ++ b.rows, row.vars ⊆ mergeVariables vs ws := by
    intro row hrow v hv
    rcases List.mem_append.mp hrow with hrow | hrow
    · exact subset_mergeVariables_left (ha row hrow hv)
    · exact subset_mergeVariables_right (hb row hrow hv)
  have hown := hvars ha.wellFormed hb.wellFormed
  exact ⟨rows_ofRows hown, ofRows_binds hown (hvars ha.row_vars hb.row_vars)⟩

/-- The rows that a difference keeps. -/
def minusRows (ls rs : List Binding) : List Binding :=
  ls.filter fun l => !isExcluded l rs

theorem minusRows_eq_self {ls rs : List Binding}
    (h : ∀ l ∈ ls, ∀ r ∈ rs, l.sharesVariable r = false) :
    minusRows ls rs = ls := by
  refine List.filter_eq_self.mpr fun l hl => ?_
  have hnone : isExcluded l rs = false := by
    refine List.any_eq_false.mpr fun r hr => ?_
    simp [h l hl r hr]
  simp [hnone]

/-- Nothing is dropped if no declared variable is shared. -/
theorem minus_eq_self (ha : a.isSingleton = false) (hb : b.isSingleton = false)
    (hdisjoint : ∀ v ∈ a.vars, v ∉ b.vars) : a.minus b = a := by
  have hall : (a.vars.all fun v => !b.vars.contains v) = true := by
    simpa using hdisjoint
  cases a with
  | null => rfl
  | singleton _ => cases ha
  | identity => cases b <;> rfl
  | table =>
    cases b with
    | null | identity => rfl
    | singleton _ => cases hb
    | table => exact if_pos hall

theorem minus_eq_ofRows (ha : a.isSingleton = false) (hb : b.isSingleton = false)
    (hshared : ¬ ∀ v ∈ a.vars, v ∉ b.vars) :
    a.minus b = ofRows a.vars (minusRows a.rows b.rows) := by
  have hall : ¬ (a.vars.all fun v => !b.vars.contains v) = true := by
    simpa using hshared
  cases a with
  | null | identity => exact absurd (fun v hv => absurd hv List.not_mem_nil) hshared
  | singleton _ => cases ha
  | table =>
    cases b with
    | null | identity => exact absurd (fun v _ => List.not_mem_nil) hshared
    | singleton _ => cases hb
    | table => exact if_neg hall

/-- A row is dropped if a compatible right row shares a variable with it; it
makes no difference that this is not tried if no declared variable is shared. -/
theorem rows_minus (ha : a.Binds vs) (hb : b.Binds ws) :
    (a.minus b).rows = minusRows a.rows b.rows ∧ (a.minus b).Binds vs := by
  have hshare : ∀ l ∈ a.rows, ∀ r ∈ b.rows, (∀ v ∈ a.vars, v ∉ b.vars) →
      l.sharesVariable r = false := by
    intro l hl r hr hdisjoint
    refine Bool.eq_false_iff.mpr fun hs => ?_
    obtain ⟨v, hv, hv'⟩ := Binding.sharesVariable_iff.mp hs
    exact hdisjoint v (ha.wellFormed l hl v (Binding.mem_vars.mpr hv))
      (hb.wellFormed r hr v (Binding.mem_vars.mpr hv'))
  by_cases hdisjoint : ∀ v ∈ a.vars, v ∉ b.vars
  · rw [minus_eq_self ha.real hb.real hdisjoint]
    exact ⟨(minusRows_eq_self fun l hl r hr => hshare l hl r hr hdisjoint).symm, ha⟩
  · rw [minus_eq_ofRows ha.real hb.real hdisjoint]
    have hvars : ∀ row ∈ minusRows a.rows b.rows, row.vars ⊆ a.vars :=
      fun row hrow => ha.wellFormed row (List.mem_filter.mp hrow).1
    exact ⟨rows_ofRows hvars, ofRows_binds hvars fun row hrow =>
      ha.row_vars row (List.mem_filter.mp hrow).1⟩

theorem distinct_eq_ofRows (hs : s.isSingleton = false) :
    s.distinct = ofRows s.vars (dedup s.rows) := by
  cases s with
  | singleton _ => cases hs
  | null | identity | table => rfl

theorem rows_distinct (hs : s.Binds vs) :
    s.distinct.rows = dedup s.rows ∧ s.distinct.Binds vs := by
  have hvars : ∀ row ∈ dedup s.rows, row.vars ⊆ s.vars := fun row hrow =>
    hs.wellFormed row (mem_dedup.mp hrow)
  rw [distinct_eq_ofRows hs.real]
  exact ⟨rows_ofRows hvars, ofRows_binds hvars fun row hrow =>
    hs.row_vars row (mem_dedup.mp hrow)⟩

theorem rows_project (hs : s.Binds vs) (ws : List Var) :
    (s.project ws).rows = s.rows.map (·.project ws) ∧
      (s.project ws).Binds ws := by
  have hvars : ∀ row ∈ s.rows.map (·.project ws), row.vars ⊆ ws := by
    intro row hrow v hv
    obtain ⟨row, -, rfl⟩ := List.mem_map.mp hrow
    exact (Binding.mem_vars_project.mp hv).1
  cases s with
  | null => exact ⟨rfl, null_binds ws⟩
  | singleton _ => cases hs.real
  | identity | table =>
    exact ⟨rows_ofRows hvars, ofRows_binds hvars hvars⟩

theorem extendVariables_eq_ofRows (hs : s.isSingleton = false) (h : s ≠ null) (ws : List Var) :
    s.extendVariables ws = ofRows (mergeVariables s.vars ws) s.rows := by
  cases s with
  | null => exact absurd rfl h
  | singleton _ => cases hs
  | identity | table => rfl

theorem rows_extendVariables (hs : s.Binds vs) (ws : List Var) :
    (s.extendVariables ws).rows = s.rows ∧
      (s.extendVariables ws).Binds (mergeVariables vs ws) := by
  have hvars {vs : List Var} (h : ∀ row ∈ s.rows, row.vars ⊆ vs) :
      ∀ row ∈ s.rows, row.vars ⊆ mergeVariables vs ws :=
    fun row hrow v hv => subset_mergeVariables_left (h row hrow hv)
  have hown := hvars hs.wellFormed
  by_cases h : s = null
  · subst h
    exact ⟨rfl, null_binds _⟩
  · rw [extendVariables_eq_ofRows hs.real h]
    exact ⟨rows_ofRows hown, ofRows_binds hown (hvars hs.row_vars)⟩

/-- The rows of a list that a slice keeps. -/
def sliceRows {α : Type} (offset : Nat) (limit : Option Nat) (rows : List α) :
    List α :=
  match limit with
  | none => rows.drop offset
  | some n => (rows.drop offset).take n

theorem sliceRows_sublist {α : Type} (offset : Nat) (limit : Option Nat)
    (rows : List α) : (sliceRows offset limit rows).Sublist rows := by
  cases limit with
  | none => exact List.drop_sublist offset rows
  | some n => exact (List.take_sublist n _).trans (List.drop_sublist offset rows)

theorem sliceRows_monotone {α : Type} (offset : Nat) (limit : Option Nat)
    {xs ys : List α} (h : ys <+: xs) :
    sliceRows offset limit ys <+: sliceRows offset limit xs := by
  cases limit with
  | none => exact h.drop offset
  | some n => exact (h.drop offset).take n

/-- A slice of the beginning of a list is the slice of the list, or as long as
needed, if the beginning reaches as far as needed. -/
theorem sliceRows_eq_or_le {α : Type} {offset n : Nat} {limit : Option Nat}
    {xs ys : List α} (h : ys <+: xs)
    (hle : offset + (match limit with
      | some m => min m n
      | none => n) ≤ ys.length) :
    sliceRows offset limit ys = sliceRows offset limit xs ∨
      n ≤ (sliceRows offset limit ys).length := by
  cases limit with
  | none =>
    right
    simp only [sliceRows, List.length_drop]
    dsimp only at hle
    omega
  | some m =>
    dsimp only at hle
    by_cases hmn : n ≤ m
    · right
      simp only [sliceRows, List.length_take, List.length_drop]
      omega
    · -- the slice ends within the beginning
      left
      refine (sliceRows_monotone offset (some m) h).eq_of_length_le ?_
      simp only [sliceRows, List.length_take, List.length_drop]
      omega

/-- A slice does not look behind its end. -/
theorem sliceRows_take {α : Type} {offset n k : Nat} {xs : List α}
    (h : offset + n ≤ k ∨ xs.length ≤ k) :
    sliceRows offset (some n) (xs.take k) = sliceRows offset (some n) xs := by
  rcases h with h | h
  · simp only [sliceRows, List.drop_take, List.take_take]
    congr 1
    omega
  · rw [List.take_of_length_le h]

theorem slice_eq_ofRows (hs : s.isSingleton = false) (offset : Nat) (limit : Option Nat) :
    s.slice offset limit = ofRows s.vars (sliceRows offset limit s.rows) := by
  cases s with
  | singleton _ => cases hs
  | null | identity | table => cases limit <;> rfl

theorem rows_slice (hs : s.Binds vs) (offset : Nat) (limit : Option Nat) :
    (s.slice offset limit).rows = sliceRows offset limit s.rows ∧
      (s.slice offset limit).Binds vs := by
  have hvars : ∀ row ∈ sliceRows offset limit s.rows, row.vars ⊆ s.vars :=
    fun row hrow => hs.wellFormed row ((sliceRows_sublist _ _ _).subset hrow)
  rw [slice_eq_ofRows hs.real]
  exact ⟨rows_ofRows hvars, ofRows_binds hvars fun row hrow =>
    hs.row_vars row ((sliceRows_sublist _ _ _).subset hrow)⟩

theorem rows_truncate (hs : s.Binds vs) (n : Nat) :
    (s.truncate n).rows = s.rows.take n ∧ (s.truncate n).Binds vs := by
  unfold truncate
  split
  · rename_i hsize
    exact ⟨(List.take_of_length_le hsize).symm, hs⟩
  · have := rows_slice hs 0 (some n)
    simpa [sliceRows] using this

end Solutions

end SparqlAlgebra
