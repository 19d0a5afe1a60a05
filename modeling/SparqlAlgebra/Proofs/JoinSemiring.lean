import SparqlAlgebra.Proofs.JoinLaws
import SparqlAlgebra.Proofs.NestedLoops

/-!
# Join as a product

Solutions in normal form are an algebra of their own: union adds them up, and join is a
product that distributes over it, with the neutral result as its unit and the empty
result as its zero.

* `Solutions.IsNormal` is the form of solutions that do not stem from a dry run: without
  variables, no row and one row are the special results. Join and union keep it.
* `IsNormal.ext`: such solutions are known by their variables and their rows;
* `IsNormal.join_cases`: a join with a special result is simple, and a join of other
  solutions is none;
* `IsNormal.product_laws` has the laws. Rows may leave variables unbound, so that
  compatibility is not transitive, and declared variables may be listed twice.
-/

namespace SparqlAlgebra

/-! ## Declared variables -/

theorem dedup_append {α : Type} [DecidableEq α] (xs ys : List α) :
    dedup (xs ++ ys) = dedup xs ++ (dedup ys).filter (!xs.contains ·) := by
  induction xs with
  | nil => simp [dedup]
  | cons x xs ih =>
    rw [List.cons_append, dedup, dedup, ih, List.filter_append, List.cons_append,
      List.filter_filter]
    congr 2
    refine List.filter_congr fun y _ => ?_
    by_cases hy : y = x <;> simp [hy]

/-- A third list adds what neither of the first two has. -/
theorem mergeVariables_assoc (us vs ws : List Var) :
    mergeVariables (mergeVariables us vs) ws = mergeVariables us (mergeVariables vs ws) := by
  -- what the last two lists have together is in first-occurrence order already
  have hrest : dedup (vs ++ (dedup ws).filter (!vs.contains ·)) =
      dedup vs ++ (dedup ws).filter (!vs.contains ·) := by
    rw [dedup_append, dedup_eq_self ((nodup_dedup ws).filter _), List.filter_filter]
    simp only [Bool.and_self]
  unfold mergeVariables
  rw [hrest, List.filter_append, List.append_assoc, List.filter_filter]
  congr 2
  refine List.filter_congr fun v _ => ?_
  by_cases hu : v ∈ us <;> simp [hu]

namespace Solutions

variable {a b c s : Solutions}

/-! ## Pairs of rows -/

/-- Empty rows are compatible with all rows. -/
theorem length_pairRows {ls rs : List Binding} (hr : ∀ r ∈ rs, r = .empty) :
    (pairRows ls rs).length = ls.length * rs.length := by
  have hmerges : ∀ l : Binding, (rs.filterMap l.merge?).length = rs.length := by
    intro l
    have hsome : rs.filterMap l.merge? = rs.map fun _ => l := by
      rw [← List.filterMap_eq_map]
      refine List.filterMap_congr fun r hmem => ?_
      rw [hr r hmem, Binding.merge?_empty]
      rfl
    rw [hsome, List.length_map]
  unfold pairRows
  rw [List.length_flatMap]
  simp only [hmerges, List.map_const', List.sum_replicate_nat]

/-- The sides of a join can be exchanged, up to the order of rows. -/
theorem pairRows_comm (ls rs : List Binding) : (pairRows ls rs).Perm (pairRows rs ls) := by
  unfold pairRows
  have hrows (xs ys : List Binding) : (xs.flatMap fun x => ys.filterMap x.merge?) =
      xs.flatMap fun x => ys.flatMap fun y => (x.merge? y).toList :=
    List.flatMap_congr fun x _ => List.filterMap_eq_flatMap_toList x.merge? ys
  rw [hrows ls rs, hrows rs ls]
  refine (flatMap_swap_perm ls rs _).trans ?_
  simp only [Binding.merge?_comm]
  exact .refl _

/-! ## Special results -/

theorem join_null (s : Solutions) : s.join null = null := by cases s <;> rfl

theorem null_join (s : Solutions) : null.join s = null := rfl

theorem identity_join (s : Solutions) : identity.join s = s := by cases s <;> rfl

theorem join_identity (s : Solutions) : s.join identity = s := by cases s <;> rfl

/-! ## Normal forms -/

/-- What results are made of: the two special results, and rows of given variables. -/
inductive IsMade : Solutions → Prop where
  | neutral : IsMade identity
  | empty : IsMade null
  | ofRows (vs : List Var) (rows : List Binding) : IsMade (ofRows vs rows)

/-- Made solutions whose rows bind declared variables only. -/
structure IsNormal (s : Solutions) : Prop where
  made : s.IsMade
  wellFormed : s.WellFormed

theorem IsMade.isSingleton (h : s.IsMade) : s.isSingleton = false := by
  cases h with
  | neutral => rfl
  | empty => rfl
  | ofRows vs rows => exact isSingleton_ofRows vs rows

/-- Made solutions are what is made of their variables and rows. -/
theorem IsMade.eq_ofRows (h : s.IsMade) : s = .ofRows s.vars s.rows := by
  cases h with
  | neutral => rfl
  | empty => rfl
  | ofRows vs rows =>
    rw [vars_ofRows]
    cases vs with
    | cons v vs => rw [rows_ofRows_of_ne_nil (List.cons_ne_nil v vs)]
    | nil =>
      match rows with
      | [] => rfl
      | [_] => rfl
      | _ :: _ :: _ => rfl

/-- Solutions that are neither of the special results have variables or several rows. -/
def IsProper (s : Solutions) : Prop := s.vars = [] → 2 ≤ s.rows.length

theorem IsProper.ne_null (h : s.IsProper) : s ≠ null := by
  rintro rfl
  exact absurd (h rfl) (by decide)

theorem IsProper.ne_identity (h : s.IsProper) : s ≠ identity := by
  rintro rfl
  exact absurd (h rfl) (by decide)

theorem IsMade.cases (h : s.IsMade) : s = null ∨ s = identity ∨ s.IsProper := by
  by_cases hproper : s.IsProper
  · exact .inr (.inr hproper)
  · unfold IsProper at hproper
    obtain ⟨hvars, hrows⟩ := Classical.not_imp.mp hproper
    have heq := h.eq_ofRows
    rw [hvars] at heq
    -- without variables, fewer than two rows make one of the special results
    match hlist : s.rows with
    | [] =>
      rw [hlist] at heq
      exact .inl heq
    | [_] =>
      rw [hlist] at heq
      exact .inr (.inl heq)
    | _ :: _ :: _ =>
      rw [hlist] at hrows
      simp only [List.length_cons] at hrows
      omega

namespace IsNormal

theorem isSingleton (h : s.IsNormal) : s.isSingleton = false := h.made.isSingleton

theorem binds (h : s.IsNormal) : s.Binds s.vars := h.wellFormed.binds h.isSingleton

/-- Normal solutions are known by their variables and their rows. -/
theorem ext (ha : a.IsNormal) (hb : b.IsNormal) (hvars : a.vars = b.vars)
    (hrows : a.rows = b.rows) : a = b := by
  rw [ha.made.eq_ofRows, hb.made.eq_ofRows, hvars, hrows]

/-! ## Joins and unions -/

/-- A join of proper solutions is proper and pairs their rows. -/
theorem join_proper (ha : a.IsNormal) (hb : b.IsNormal) (ha' : a.IsProper)
    (hb' : b.IsProper) :
    (a.join b).IsProper ∧
      a.join b = ofRows (mergeVariables a.vars b.vars) (pairRows a.rows b.rows) := by
  have hjoin := join_eq_ofRows ha.isSingleton hb.isSingleton ha'.ne_null hb'.ne_null
    ha'.ne_identity hb'.ne_identity
  refine ⟨fun hvars => ?_, hjoin⟩
  have hrows := (rows_join ha.binds hb.binds).1
  rw [hjoin, vars_ofRows] at hvars
  have hleft : a.vars = [] := List.subset_nil.mp (hvars ▸ subset_mergeVariables_left)
  have hright : b.vars = [] := List.subset_nil.mp (hvars ▸ subset_mergeVariables_right)
  rw [hrows, length_pairRows (hb.wellFormed.isClosed hright)]
  calc 2 ≤ a.rows.length := ha' hleft
    _ = a.rows.length * 1 := (Nat.mul_one _).symm
    _ ≤ a.rows.length * b.rows.length := Nat.mul_le_mul_left _ (by have := hb' hright; omega)

theorem join (ha : a.IsNormal) (hb : b.IsNormal) : (a.join b).IsNormal := by
  refine ⟨?_, (rows_join ha.binds hb.binds).2.wellFormed⟩
  rcases Solutions.join_cases ha.isSingleton hb.isSingleton with
    ⟨-, h⟩ | ⟨-, h⟩ | ⟨-, h⟩ | ⟨-, -, h⟩
  · rw [h]
    exact .empty
  · rw [h]
    exact hb.made
  · rw [h]
    exact ha.made
  · rw [h]
    exact .ofRows _ _

theorem union (ha : a.IsNormal) (hb : b.IsNormal) : (a.union b).IsNormal := by
  refine ⟨?_, (rows_union ha.binds hb.binds).2.wellFormed⟩
  by_cases h : a = null
  · subst h
    exact hb.made
  by_cases h' : b = null
  · subst h'
    rw [union_null]
    exact ha.made
  rw [union_eq_ofRows ha.isSingleton hb.isSingleton h h']
  exact .ofRows _ _

/-! ## Laws -/

theorem rows_join (ha : a.IsNormal) (hb : b.IsNormal) :
    (a.join b).rows = pairRows a.rows b.rows := (Solutions.rows_join ha.binds hb.binds).1

theorem rows_union (ha : a.IsNormal) (hb : b.IsNormal) :
    (a.union b).rows = a.rows ++ b.rows := (Solutions.rows_union ha.binds hb.binds).1

/-- Joins can be regrouped. -/
theorem join_assoc (ha : a.IsNormal) (hb : b.IsNormal) (hc : c.IsNormal) :
    (a.join b).join c = a.join (b.join c) := by
  refine ext ((ha.join hb).join hc) (ha.join (hb.join hc)) ?_ ?_
  · rcases ha.made.cases with rfl | rfl | ha'
    · rfl
    · rw [identity_join, identity_join]
    rcases hb.made.cases with rfl | rfl | hb'
    · rw [join_null, null_join, join_null]
    · rw [join_identity, identity_join]
    rcases hc.made.cases with rfl | rfl | hc'
    · rw [join_null, join_null, join_null]
    · rw [join_identity, join_identity]
    -- none of the four joins is one of the special results
    obtain ⟨hab, hleft⟩ := join_proper ha hb ha' hb'
    obtain ⟨hbc, hright⟩ := join_proper hb hc hb' hc'
    rw [(join_proper (ha.join hb) hc hab hc').2, (join_proper ha (hb.join hc) ha' hbc).2,
      vars_ofRows, vars_ofRows, hleft, hright, vars_ofRows, vars_ofRows, mergeVariables_assoc]
  · rw [rows_join (ha.join hb) hc, rows_join ha hb, rows_join ha (hb.join hc),
      rows_join hb hc, pairRows_assoc]

/-- A join declares the variables of both sides, unless it is empty. -/
theorem mem_vars_join (ha : a.IsNormal) (hb : b.IsNormal) (h : a ≠ null) (h' : b ≠ null)
    {v : Var} : v ∈ (a.join b).vars ↔ v ∈ a.vars ∨ v ∈ b.vars := by
  rcases Solutions.join_cases ha.isSingleton hb.isSingleton with
    ⟨hnull, -⟩ | ⟨rfl, hjoin⟩ | ⟨rfl, hjoin⟩ | ⟨-, -, hjoin⟩
  · exact (hnull.elim h h').elim
  · rw [hjoin]
    simp [vars]
  · rw [hjoin]
    simp [vars]
  · rw [hjoin, vars_ofRows, mem_mergeVariables]

/-- The sides of a join can be exchanged, up to the order of variables. -/
theorem vars_join_comm (ha : a.IsNormal) (hb : b.IsNormal) (v : Var) :
    v ∈ (a.join b).vars ↔ v ∈ (b.join a).vars := by
  by_cases h : a = null
  · subst h
    rw [join_null, null_join]
  by_cases h' : b = null
  · subst h'
    rw [join_null, null_join]
  rw [mem_vars_join ha hb h h', mem_vars_join hb ha h' h, or_comm]

/-- Normal solutions are a semiring up to the order of rows and variables: join is an
associative and commutative product that distributes over union, with a unit and a zero.
The order of rows is kept by regrouping and by distribution from the left side. -/
theorem product_laws (ha : a.IsNormal) (hb : b.IsNormal) (hc : c.IsNormal) :
    (a.join b).join c = a.join (b.join c) ∧
      ((∀ v, v ∈ (a.join b).vars ↔ v ∈ (b.join a).vars) ∧
        (a.join b).rows.Perm (b.join a).rows) ∧
      ((a.union b).join c).rows = ((a.join c).union (b.join c)).rows ∧
      (a.join (b.union c)).rows.Perm ((a.join b).union (a.join c)).rows ∧
      (identity.join a = a ∧ a.join identity = a) ∧
      null.join a = null ∧ a.join null = null := by
  refine ⟨join_assoc ha hb hc, ⟨vars_join_comm ha hb, ?_⟩, ?_, ?_,
    ⟨identity_join a, join_identity a⟩, null_join a, join_null a⟩
  · rw [rows_join ha hb, rows_join hb ha]
    exact pairRows_comm _ _
  · rw [rows_join (ha.union hb) hc, rows_union ha hb, rows_union (ha.join hc) (hb.join hc),
      rows_join ha hc, rows_join hb hc]
    exact List.flatMap_append
  · rw [rows_join ha (hb.union hc), rows_union hb hc, rows_union (ha.join hb) (ha.join hc),
      rows_join ha hb, rows_join ha hc]
    unfold pairRows
    simp only [List.filterMap_append]
    exact (List.flatMap_append_perm a.rows _ _).symm

end IsNormal

/-- Rows of a variable that is declared twice; one of them leaves it unbound. -/
def sampleThird : Solutions :=
  ofRows [⟨"x"⟩, ⟨"x"⟩] [.ofEntries [(⟨"x"⟩, .iri ⟨"c"⟩)], .ofEntries []]

theorem IsNormal.product_laws_sample :
    (sampleLeft.IsNormal ∧ sampleRight.IsNormal ∧ sampleThird.IsNormal) ∧
      (sampleLeft.join sampleRight).join sampleThird =
        sampleLeft.join (sampleRight.join sampleThird) ∧
      (sampleLeft.join (sampleRight.join sampleThird)).rows.length = 12 ∧
      (sampleLeft.join sampleRight).vars ≠ (sampleRight.join sampleLeft).vars ∧
      (sampleLeft.join sampleRight).rows.Perm (sampleRight.join sampleLeft).rows := by
  have hleft : sampleLeft.IsNormal := by
    refine ⟨.ofRows _ _, ?_⟩
    unfold WellFormed
    decide +kernel
  have hright : sampleRight.IsNormal := by
    refine ⟨.ofRows _ _, ?_⟩
    unfold WellFormed
    decide +kernel
  have hthird : sampleThird.IsNormal := by
    refine ⟨.ofRows _ _, ?_⟩
    unfold WellFormed
    decide +kernel
  obtain ⟨hassoc, ⟨-, hperm⟩, -⟩ := product_laws hleft hright hthird
  refine ⟨⟨hleft, hright, hthird⟩, hassoc, ?_, by decide +kernel, hperm⟩
  rw [rows_join hleft (hright.join hthird), rows_join hright hthird]
  decide +kernel

end Solutions

end SparqlAlgebra
