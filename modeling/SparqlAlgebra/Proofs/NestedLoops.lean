import SparqlAlgebra.Proofs.AnyOrder

/-!
# Joins as nested loops

The index of a join arranges the right rows, and a difference does not look at rows if
no declared variable is shared. Neither can be seen in the results: the operators do
what two nested loops over the left and the right rows do.

* `Solutions.leftJoinM_eq_nested`: a left join asks its condition about the same merges
  in the same order as the loops, whatever effects the condition has;
* `Solutions.leftRowsM_outcome`: with a condition that may fail, the first error in this
  order is the result, and without one every left row has its merges or itself;
* `Solutions.operators_nested`: join, left join and difference.
-/

namespace SparqlAlgebra

namespace Solutions

variable {a b : Solutions}

/-! ## Conditions with effects -/

section Effects

variable {m : Type → Type} [Monad m] (condition : Binding → m Bool)

/-- A left join looks at the compatible ones among the rows that it is offered. -/
theorem leftRowsM_congr {offered offered' : Binding → List Binding}
    (h : ∀ l, (offered l).filterMap l.merge? = (offered' l).filterMap l.merge?)
    (ls : List Binding) :
    leftRowsM condition offered ls = leftRowsM condition offered' ls := by
  induction ls with
  | nil => rfl
  | cons l ls ih =>
    have hmerges : mergesM condition l (offered l) = mergesM condition l (offered' l) := by
      rw [mergesM_eq, mergesM_eq, h l]
    simp only [leftRowsM, hmerges, ih]

/-- The index of a left join leaves out rows without a merge only. -/
theorem leftJoinM_eq_nested (ha : a.isSingleton = false) (hb : b.isSingleton = false)
    (h : a ≠ null) (h' : b ≠ null) :
    a.leftJoinM b condition =
      leftRowsM condition (fun _ => b.rows) a.rows >>=
        fun found => pure (ofRows (mergeVariables a.vars b.vars) found) := by
  rw [leftJoinM_eq_ofRows condition ha hb h h']
  have hoffered : ∀ l, ((joinIndex a b).candidates l).filterMap l.merge? =
      b.rows.filterMap l.merge? := fun l => JoinIndex.candidates_build _ _ l
  rw [leftRowsM_congr condition hoffered]

end Effects

/-! ## Conditions that may fail -/

section Failures

variable {ε : Type} (condition : Binding → Except ε Bool)

/-- The first error that a condition raises on a list of rows. -/
def firstError? (rows : List Binding) : Option ε :=
  rows.findSome? fun row =>
    match condition row with
    | .error e => some e
    | .ok _ => none

/-- Whether a condition is true of a row, which it is not if it fails. -/
def holds (row : Binding) : Bool :=
  match condition row with
  | .ok value => value
  | .error _ => false

theorem firstError?_append (xs ys : List Binding) :
    firstError? condition (xs ++ ys) =
      (firstError? condition xs).or (firstError? condition ys) := by
  unfold firstError?
  rw [List.findSome?_append]

/-- A selection fails with the first error of its condition. -/
theorem keepM_outcome (rows : List Binding) :
    keepM condition rows =
      (firstError? condition rows).elim (.ok (rows.filter (holds condition))) .error := by
  induction rows with
  | nil => rfl
  | cons row rest ih =>
    rw [keepM_cons, ih]
    cases hrow : condition row with
    | error e =>
      have hfirst : firstError? condition (row :: rest) = some e := by
        simp [firstError?, hrow]
      rw [hfirst]
      rfl
    | ok value =>
      have hfirst : firstError? condition (row :: rest) = firstError? condition rest := by
        simp [firstError?, hrow]
      have hholds : holds condition row = value := by simp [holds, hrow]
      rw [hfirst, List.filter_cons, hholds]
      cases firstError? condition rest with
      | none => rfl
      | some e => rfl

/-- The loops of a left join fail with the first error of the condition on a merge. -/
theorem leftRowsM_outcome (ls rs : List Binding) :
    leftRowsM condition (fun _ => rs) ls =
      (firstError? condition (pairRows ls rs)).elim
        (.ok (ls.flatMap (optionalRows (holds condition) rs))) .error := by
  induction ls with
  | nil => rfl
  | cons l ls ih =>
    -- the merges of this row come before those of all later rows
    have hpairs : pairRows (l :: ls) rs = rs.filterMap l.merge? ++ pairRows ls rs := rfl
    rw [hpairs, firstError?_append]
    simp only [leftRowsM, mergesM_eq, keepM_outcome, ih]
    cases firstError? condition (rs.filterMap l.merge?) with
    | some e => rfl
    | none =>
      cases firstError? condition (pairRows ls rs) with
      | some e => rfl
      | none => rfl

/-- What a left join makes of a row binds declared variables. -/
theorem vars_of_mem_optionalRows {test : Binding → Bool} {vs ws : List Var}
    {ls rs : List Binding} (hl : ∀ l ∈ ls, l.vars ⊆ vs) (hr : ∀ r ∈ rs, r.vars ⊆ ws) :
    ∀ row ∈ ls.flatMap (optionalRows test rs), row.vars ⊆ mergeVariables vs ws := by
  intro row hrow
  obtain ⟨l, hmem, hrow⟩ := List.mem_flatMap.mp hrow
  unfold optionalRows at hrow
  dsimp only at hrow
  split at hrow
  · rw [List.mem_singleton.mp hrow]
    exact fun v hv => subset_mergeVariables_left (hl l hmem hv)
  · have hpair : row ∈ pairRows ls rs :=
      List.mem_flatMap.mpr ⟨l, hmem, (List.mem_filter.mp hrow).1⟩
    exact vars_of_mem_pairRows hl hr hpair

/-- A left join has the rows of the nested loops or fails as they do. -/
theorem rows_leftJoinM (ha : a.Binds a.vars) (hb : b.Binds b.vars) :
    (a.leftJoinM b condition).map rows =
      (firstError? condition (pairRows a.rows b.rows)).elim
        (.ok (a.rows.flatMap (optionalRows (holds condition) b.rows))) .error := by
  by_cases h : a = null
  · subst h
    rfl
  by_cases h' : b = null
  · subst h'
    rw [leftJoinM_null]
    show _ = (firstError? condition (pairRows a.rows [])).elim _ _
    rw [pairRows_nil_right]
    show Except.ok a.rows = .ok (a.rows.flatMap fun l => [l])
    rw [List.flatMap_singleton']
  rw [leftJoinM_eq_nested condition ha.real hb.real h h', leftRowsM_outcome]
  cases firstError? condition (pairRows a.rows b.rows) with
  | some e => rfl
  | none =>
    show Except.ok (ofRows _ _).rows = Except.ok _
    rw [rows_ofRows (vars_of_mem_optionalRows ha.wellFormed hb.wellFormed)]

end Failures

/-! ## The operators -/

/-- The binary operators do what nested loops over their rows do. A join merges all
compatible pairs; a left join keeps the merges on which its condition is true, or the
left row if there is none, and fails with the first error on a compatible pair; a
difference drops the rows with a compatible right row that shares a bound variable. -/
theorem operators_nested {ε : Type} (ha : a.WellFormed) (hb : b.WellFormed)
    (ha' : a.isSingleton = false) (hb' : b.isSingleton = false)
    (condition : Binding → Except ε Bool) :
    (a.join b).rows = a.rows.flatMap (fun l => b.rows.filterMap l.merge?) ∧
      (a.leftJoinM b condition).map rows =
        (firstError? condition (a.rows.flatMap fun l => b.rows.filterMap l.merge?)).elim
          (.ok (a.rows.flatMap (optionalRows (holds condition) b.rows))) .error ∧
      (a.minus b).rows = a.rows.filter fun l =>
        !b.rows.any fun r => l.isCompatible r && l.sharesVariable r := by
  refine ⟨(rows_join (ha.binds ha') (hb.binds hb')).1,
    rows_leftJoinM condition (ha.binds ha') (hb.binds hb'), ?_⟩
  rw [(rows_minus (ha.binds ha') (hb.binds hb')).1]
  unfold minusRows isExcluded
  simp only [Bool.and_comm]

/-- Rows that leave one of two variables unbound, and one that binds both. -/
def sampleLeft : Solutions :=
  .ofRows [⟨"x"⟩, ⟨"y"⟩]
    [.ofEntries [(⟨"x"⟩, .iri ⟨"a"⟩)], .ofEntries [(⟨"y"⟩, .iri ⟨"b"⟩)],
      .ofEntries [(⟨"x"⟩, .iri ⟨"c"⟩), (⟨"y"⟩, .iri ⟨"b"⟩)]]

/-- Rows of which only the middle one is found by the value of the shared variable. -/
def sampleRight : Solutions :=
  .ofRows [⟨"z"⟩, ⟨"x"⟩]
    [.ofEntries [(⟨"z"⟩, .iri ⟨"d"⟩)], .ofEntries [(⟨"x"⟩, .iri ⟨"a"⟩), (⟨"z"⟩, .iri ⟨"e"⟩)],
      .ofEntries []]

/-- A condition that fails for rows without a variable. -/
def sampleCondition (v w : Var) (row : Binding) : Except String Bool :=
  if row.contains v then .ok (row.contains w) else .error v.name

theorem operators_nested_sample :
    sampleLeft.WellFormed ∧ sampleRight.WellFormed ∧ sampleLeft.isSingleton = false ∧
      sampleRight.isSingleton = false ∧
      (sampleLeft.join sampleRight).rows.length = 8 ∧
      (sampleLeft.leftJoinM sampleRight (sampleCondition ⟨"x"⟩ ⟨"y"⟩)).map rows =
        .error "x" ∧
      (sampleLeft.minus sampleRight).rows = sampleLeft.rows.drop 1 := by
  have hleft : sampleLeft.WellFormed := by
    unfold WellFormed
    decide +kernel
  have hright : sampleRight.WellFormed := by
    unfold WellFormed
    decide +kernel
  obtain ⟨hjoin, hleftJoin, hminus⟩ :=
    operators_nested hleft hright rfl rfl (sampleCondition ⟨"x"⟩ ⟨"y"⟩)
  refine ⟨hleft, hright, rfl, rfl, ?_, ?_, ?_⟩
  · rw [hjoin]
    decide +kernel
  · have hfirst : firstError? (sampleCondition ⟨"x"⟩ ⟨"y"⟩)
        (sampleLeft.rows.flatMap fun l => sampleRight.rows.filterMap l.merge?) = some "x" := by
      decide +kernel
    rw [hleftJoin, hfirst]
    rfl
  · rw [hminus]
    decide +kernel

end Solutions

end SparqlAlgebra
