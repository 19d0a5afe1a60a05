import SparqlAlgebra.Proofs.AssignedPatterns
import SparqlAlgebra.Proofs.PatternOrders

/-!
# The order of patterns around assignments

Assignments keep their places, and the triples between two of them are put in another
order. A filter comes behind the last element that binds one of its variables. This may
be behind an assignment that the filter stood before, and then the assignment meets rows
that it did not meet before. So the new order may fail, but it has no other solutions.

* `Element.Shuffled`: triples in another order between the same assignments;
* `PatternOrder.rowsAfter_reordered`: the rows are the same up to order;
* `PatternOrder.admit_reordered`: if no filter is moved behind an assignment, no
  assignment meets a new row;
* `PatternOrder.rule_rows_of_assigned`: both for the rule, and
  `PatternOrder.rule_fails` for a pattern that it makes fail.
-/

namespace SparqlAlgebra

open Eval

namespace Element

variable {operators : OperatorRegistry} {c : Context} {bound : List Var}
  {es es' : List Element} {b row : Binding}

/-! ## Covered filters -/

/-- Whether elements are triples, plain assignments, and plain filters behind the triples
that bind their variables; the given variables are bound before. -/
def coversFilters (bound : List Var) : List Element → Bool
  | [] => true
  | triple p :: rest => coversFilters (bound ++ p.vars) rest
  | filter e :: rest =>
    e.isPlain && e.vars.all (bound.contains ·) && coversFilters bound rest
  | assign _ e :: rest => e.isPlain && coversFilters bound rest
  | path _ _ _ :: _ | subQuery _ :: _ => false

theorem coversFilters_filter {e : Expr} :
    coversFilters bound (filter e :: es) = true ↔
      e.isPlain = true ∧ e.vars ⊆ bound ∧ coversFilters bound es = true := by
  simp [coversFilters, List.subset_def, and_assoc]

theorem coversFilters_assign {v : Var} {e : Expr} :
    coversFilters bound (assign v e :: es) = true ↔
      e.isPlain = true ∧ coversFilters bound es = true := Bool.and_eq_true_iff

theorem coversFilters_filters {cs : List Expr} :
    coversFilters bound (cs.map .filter ++ es) = true ↔
      (∀ e ∈ cs, e.isPlain = true ∧ e.vars ⊆ bound) ∧ coversFilters bound es = true := by
  induction cs with
  | nil => simp
  | cons e rest ih =>
    rw [List.map_cons, List.cons_append, coversFilters_filter, ih, List.forall_mem_cons]
    simp only [and_assoc]

theorem areDirect_of_coversFilters (h : coversFilters bound es = true) :
    ∀ e ∈ es, e.isDirect = true := by
  induction es generalizing bound with
  | nil => exact fun e he => absurd he List.not_mem_nil
  | cons e rest ih =>
    cases e with
    | triple p => exact List.forall_mem_cons.mpr ⟨rfl, @ih (bound ++ p.vars) h⟩
    | filter e =>
      obtain ⟨hplain, -, hrest⟩ := coversFilters_filter.mp h
      exact List.forall_mem_cons.mpr ⟨hplain, ih hrest⟩
    | assign v e =>
      obtain ⟨hplain, hrest⟩ := coversFilters_assign.mp h
      exact List.forall_mem_cons.mpr ⟨hplain, ih hrest⟩
    | path _ _ _ | subQuery _ => cases h

theorem coversFilters_left {fs : List Element} (h : coversFilters bound (es ++ fs) = true) :
    coversFilters bound es = true := by
  induction es generalizing bound with
  | nil => rfl
  | cons e rest ih =>
    cases e with
    | triple p => exact @ih (bound ++ p.vars) h
    | filter e =>
      obtain ⟨hplain, hvars, hrest⟩ := coversFilters_filter.mp h
      exact coversFilters_filter.mpr ⟨hplain, hvars, ih hrest⟩
    | assign v e =>
      obtain ⟨hplain, hrest⟩ := coversFilters_assign.mp h
      exact coversFilters_assign.mpr ⟨hplain, ih hrest⟩
    | path _ _ _ | subQuery _ => cases h

/-- The variables that the triples among elements bind. -/
def boundByTriples (es : List Element) : List Var := (patterns es).flatMap TriplePattern.vars

theorem mem_boundByTriples {v : Var} :
    v ∈ boundByTriples es ↔ ∃ p, triple p ∈ es ∧ v ∈ p.vars := by
  simp only [boundByTriples, patterns, List.mem_flatMap, List.mem_filterMap]
  constructor
  · rintro ⟨p, ⟨e, he, hp⟩, hv⟩
    cases e with
    | triple q =>
      cases hp
      exact ⟨p, he, hv⟩
    | _ => cases hp
  · rintro ⟨p, hp, hv⟩
    exact ⟨p, ⟨triple p, hp, rfl⟩, hv⟩

theorem mem_boundByAll_of_mem {e : Element} (he : e ∈ es) {v : Var}
    (hv : v ∈ e.boundVariables) : v ∈ boundByAll es := by
  induction es with
  | nil => cases he
  | cons x rest ih =>
    rcases List.mem_cons.mp he with rfl | he
    · exact List.mem_append_left _ hv
    · exact List.mem_append_right _ (ih he)

theorem of_mem_conditions_of_coversFilters (h : coversFilters bound es = true) {e : Expr}
    (he : e ∈ conditions es) : e.isPlain = true ∧ e.vars ⊆ bound ++ boundByTriples es := by
  induction es generalizing bound with
  | nil => cases he
  | cons x rest ih =>
    cases x with
    | triple p =>
      have ih := @ih (bound ++ p.vars) h he
      rwa [List.append_assoc] at ih
    | filter f =>
      obtain ⟨hplain, hvars, hrest⟩ := coversFilters_filter.mp h
      rcases List.mem_cons.mp he with rfl | he
      · exact ⟨hplain, List.Subset.trans hvars (List.subset_append_left _ _)⟩
      · exact ih hrest he
    | assign v e => exact ih (coversFilters_assign.mp h).2 he
    | path _ _ _ | subQuery _ => cases h

/-! ## Filters at the end -/

/-- The elements that are no filters. -/
def unfiltered (es : List Element) : List Element :=
  es.filter fun e => (PatternOrder.filterCondition? e).isNone

theorem unfiltered_eq_append_cons {p q : List Element} {v : Var} {e : Expr}
    (h : unfiltered es = p ++ assign v e :: q) :
    ∃ pre post, es = pre ++ assign v e :: post ∧ unfiltered pre = p ∧
      unfiltered post = q := by
  obtain ⟨pre, rest, rfl, hpre, hrest⟩ := List.filter_eq_append_iff.mp h
  obtain ⟨skipped, post, rfl, hskipped, -, hpost⟩ := List.filter_eq_cons_iff.mp hrest
  refine ⟨pre ++ skipped, post, (List.append_assoc _ _ _).symm, ?_, hpost⟩
  have hnone : unfiltered skipped = [] := List.filter_eq_nil_iff.mpr hskipped
  rw [unfiltered, List.filter_append, ← unfiltered, ← unfiltered, hnone, List.append_nil]
  exact hpre

/-- Covered filters can be tested at the end. -/
theorem rowsAfter_eq_filter (hc : c.Repeatable) (h : coversFilters bound es = true)
    (hb : bound ⊆ b.vars) :
    rowsAfter operators c es b = (rowsAfter operators c (unfiltered es) b).filter fun row =>
      (conditions es).all (Expr.truth operators c · row) := by
  induction es generalizing bound b with
  | nil => rfl
  | cons e rest ih =>
    -- rows of other elements are selected from one by one
    have hstep (hnone : PatternOrder.filterCondition? e = none) {bound : List Var}
        (hrest : coversFilters bound rest = true)
        (hbound : ∀ b' ∈ extensions operators c b e, bound ⊆ b'.vars) :
        rowsAfter operators c (e :: rest) b =
          (rowsAfter operators c (unfiltered (e :: rest)) b).filter fun row =>
            (conditions (e :: rest)).all (Expr.truth operators c · row) := by
      have hunfiltered : unfiltered (e :: rest) = e :: unfiltered rest :=
        List.filter_cons_of_pos (by simp [hnone])
      have hconditions : conditions (e :: rest) = conditions rest :=
        List.filterMap_cons_none hnone
      rw [hunfiltered, hconditions, rowsAfter, rowsAfter, List.filter_flatMap]
      exact List.flatMap_congr fun b' hb' => ih hrest (hbound b' hb')
    cases e with
    | triple p =>
      refine @hstep rfl (bound ++ p.vars) h fun b' hb' v hv => ?_
      obtain ⟨r, hr, hmerge⟩ := List.mem_filterMap.mp hb'
      refine (Binding.mem_vars_of_merge? hmerge).mpr ?_
      exact (List.mem_append.mp hv).imp (hb ·) (TriplePattern.vars_of_mem_rows hr).mpr
    | assign v e =>
      refine hstep rfl (coversFilters_assign.mp h).2 fun b' hb' => ?_
      exact List.Subset.trans hb (isWithin_of_mem_extensions hb').vars_subset
    | filter e =>
      obtain ⟨hplain, hvars, hrest⟩ := coversFilters_filter.mp h
      have htruth : ∀ row ∈ rowsAfter operators c (unfiltered rest) b,
          e.truth operators c row = e.truth operators c b := fun row hrow =>
        (Expr.truth_congr hplain hc ((isWithin_of_mem_rowsAfter hrow).agreeOn
          (List.Subset.trans hvars hb))).symm
      have hright : ((rowsAfter operators c (unfiltered (filter e :: rest)) b).filter fun row =>
            (conditions (filter e :: rest)).all (Expr.truth operators c · row)) =
          (rowsAfter operators c (unfiltered rest) b).filter fun row =>
            e.truth operators c b && (conditions rest).all (Expr.truth operators c · row) :=
        List.filter_congr fun row hrow => by rw [← htruth row hrow]; rfl
      have hleft : rowsAfter operators c (filter e :: rest) b =
          (if e.truth operators c b then [b] else []).flatMap (rowsAfter operators c rest) :=
        rfl
      rw [hright, hleft]
      cases e.truth operators c b with
      | true =>
        rw [if_pos rfl, List.flatMap_singleton]
        exact ih hrest hb
      | false => exact (List.filter_false _).symm
    | path _ _ _ | subQuery _ => cases h

/-! ## Triples between assignments -/

theorem rowsAfter_triples (ps : List TriplePattern) (b : Binding) :
    rowsAfter operators c (ps.map .triple) b = TriplePattern.joinRows c.view.facts ps [b] := by
  induction ps generalizing b with
  | nil => rfl
  | cons p rest ih =>
    rw [List.map_cons, rowsAfter, TriplePattern.joinRows, TriplePattern.joinRows_flatMap,
      Solutions.pairRows, List.flatMap_singleton]
    exact List.flatMap_congr fun b' _ => ih b'

/-- The same triples in another order between the same assignments. -/
inductive Shuffled : List Element → List Element → Prop
  | triples {ps' ps : List TriplePattern} (h : ps'.Perm ps) :
    Shuffled (ps'.map triple) (ps.map triple)
  | assign {ps' ps : List TriplePattern} (h : ps'.Perm ps) (v : Var) (e : Expr)
    {es' es : List Element} (hrest : Shuffled es' es) :
    Shuffled (ps'.map triple ++ assign v e :: es') (ps.map triple ++ assign v e :: es)

theorem Shuffled.perm (h : Shuffled es' es) : es'.Perm es := by
  induction h with
  | triples h => exact h.map _
  | assign h v e _ ih => exact (h.map _).append (ih.cons _)

/-- Triples may be matched in any order between two assignments. -/
theorem Shuffled.rowsAfter_perm (h : Shuffled es' es) (b : Binding) :
    (rowsAfter operators c es' b).Perm (rowsAfter operators c es b) := by
  have htriples {ps' ps : List TriplePattern} (h : ps'.Perm ps) (b : Binding) :
      (rowsAfter operators c (ps'.map .triple) b).Perm
        (rowsAfter operators c (ps.map .triple) b) := by
    rw [rowsAfter_triples, rowsAfter_triples]
    exact TriplePattern.joinRows_perm h [b]
  induction h generalizing b with
  | triples h => exact htriples h b
  | assign h v e _ ih =>
    rw [rowsAfter_append, rowsAfter_append]
    exact .flatMap (htriples h b) fun b' _ => .flatMap (.refl _) fun row _ => ih row

/-- What stands before and behind an assignment is shuffled on its own. -/
theorem Shuffled.split (h : Shuffled es' es) {p' q' : List Element} {v : Var} {e : Expr}
    (he : es' = p' ++ .assign v e :: q') :
    ∃ p q, es = p ++ .assign v e :: q ∧ Shuffled p' p ∧ Shuffled q' q := by
  have hnone {ps : List TriplePattern} : Element.assign v e ∉ ps.map triple := fun hmem => by
    obtain ⟨p, -, hp⟩ := List.mem_map.mp hmem
    cases hp
  induction h generalizing p' with
  | triples h =>
    exact absurd (he ▸ List.mem_append_right p' List.mem_cons_self) hnone
  | @assign ps' ps h w f fs' fs hrest ih =>
    rcases List.append_eq_append_iff.mp he with ⟨a, rfl, ha⟩ | ⟨a, ha, hq⟩
    · cases a with
      | nil =>
        -- it is the assignment behind the first triples
        cases ha
        exact ⟨ps.map triple, fs, rfl, by simpa using .triples h, hrest⟩
      | cons x a =>
        obtain ⟨rfl, hfs⟩ := List.cons.inj ha
        obtain ⟨p, q, rfl, hp, hq⟩ := ih hfs
        exact ⟨ps.map triple ++ .assign w f :: p, q, by simp, .assign h w f hp, hq⟩
    · cases a with
      | nil =>
        rw [List.append_nil] at ha
        cases hq
        exact ⟨ps.map triple, fs, rfl, ha ▸ .triples h, hrest⟩
      | cons x a =>
        obtain ⟨rfl, -⟩ := List.cons.inj hq
        exact absurd (ha ▸ List.mem_append_right p' List.mem_cons_self) hnone

/-! ## Filters before assignments -/

/-- The elements from the first assignment on. -/
def fromAssignment : List Element → List Element
  | [] => []
  | assign v e :: rest => assign v e :: rest
  | _ :: rest => fromAssignment rest

/-- Whether no filter is about a variable that the next assignment or an element behind
it binds. -/
def keepsFilters : List Element → Bool
  | [] => true
  | filter e :: rest =>
    !(fromAssignment rest).any (PatternOrder.bindsAny · e.vars) && keepsFilters rest
  | _ :: rest => keepsFilters rest

theorem subset_fromAssignment (pre post : List Element) (v : Var) (e : Expr) :
    assign v e :: post ⊆ fromAssignment (pre ++ assign v e :: post) := by
  induction pre with
  | nil => exact List.Subset.refl _
  | cons x rest ih =>
    cases x with
    | assign _ _ =>
      exact List.subset_cons_of_subset _ (List.subset_append_right _ _)
    | triple _ | filter _ | path _ _ _ | subQuery _ => exact ih

theorem bindsAny_of_keepsFilters {pre post : List Element} {v : Var} {e : Expr}
    (h : keepsFilters (pre ++ assign v e :: post) = true) {f : Expr}
    (hf : f ∈ conditions pre) :
    ∀ x ∈ assign v e :: post, PatternOrder.bindsAny x f.vars = false := by
  induction pre with
  | nil => cases hf
  | cons y rest ih =>
    cases y with
    | filter g =>
      obtain ⟨hnone, hrest⟩ := Bool.and_eq_true_iff.mp h
      rcases List.mem_cons.mp hf with rfl | hf
      · intro x hx
        have hmem := subset_fromAssignment rest post v e hx
        rw [Bool.not_eq_true', List.any_eq_false] at hnone
        exact Bool.eq_false_iff.mpr (hnone x hmem)
      · exact ih hrest hf
    | assign _ _ | triple _ | path _ _ _ | subQuery _ => exact ih h hf

end Element

namespace PatternOrder

open Element (conditions unfiltered rowsAfter Admit coversFilters)

variable {operators : OperatorRegistry} {c : Context} {w : PatternWeights}
  {bound : List Var} {es es' : List Element} {b : Binding}

/-! ## Segments -/

/-- Ordering the segments shuffles the triples between the assignments. -/
theorem orderSegments_shuffled {ps : List TriplePattern}
    (hes : ∀ e ∈ es, (filterCondition? e).isNone = true ∧ e.isDirect = true) :
    Element.Shuffled (orderSegments w bound (ps.map .triple) es) (ps.map .triple ++ es) := by
  induction es generalizing bound ps with
  | nil =>
    obtain ⟨qs, hqs, horder⟩ :=
      exists_patterns_of_perm (orderSegment_perm w bound (ps.map .triple))
    rw [orderSegments, List.append_nil, horder]
    exact .triples hqs
  | cons e rest ih =>
    obtain ⟨⟨hnone, hdirect⟩, hrest⟩ := List.forall_mem_cons.mp hes
    cases e with
    | triple p =>
      have ih := @ih bound (ps ++ [p]) hrest
      rwa [List.map_append, List.map_singleton, List.append_assoc] at ih
    | assign v e =>
      obtain ⟨qs, hqs, horder⟩ :=
        exists_patterns_of_perm (orderSegment_perm w bound (ps.map .triple))
      have hmovable : ¬isMovable (.assign v e) = true := Bool.false_ne_true
      rw [orderSegments, if_neg hmovable, horder]
      exact .assign hqs v e (@ih _ [] hrest)
    | filter _ => cases hnone
    | path _ _ _ | subQuery _ => cases hdirect

/-! ## Places of filters -/

/-- An element that binds one of the variables is among those up to the last one. -/
theorem mem_take_lastBinder {vs : List Var} {e : Element} (he : e ∈ es)
    (hbinds : bindsAny e vs = true) : e ∈ es.take (lastBinder vs es) := by
  induction es with
  | nil => cases he
  | cons x rest ih =>
    unfold lastBinder
    rcases List.mem_cons.mp he with rfl | he
    · split
      · rw [if_pos hbinds]
        exact List.mem_cons_self
      · exact List.mem_cons_self
    · have ih := ih he
      split
      · rename_i hlast
        rw [hlast] at ih
        cases ih
      · rename_i n hlast
        rw [hlast] at ih
        exact List.mem_cons_of_mem _ ih

theorem lastBinder_eq_zero {vs : List Var} (h : ∀ e ∈ es, bindsAny e vs = false) :
    lastBinder vs es = 0 := by
  induction es with
  | nil => rfl
  | cons e rest ih =>
    obtain ⟨he, hrest⟩ := List.forall_mem_cons.mp h
    rw [lastBinder, ih hrest]
    exact if_neg (by simp [he])

theorem lastBinder_append_le {vs : List Var} (p : List Element) {q : List Element}
    (h : ∀ e ∈ q, bindsAny e vs = false) : lastBinder vs (p ++ q) ≤ p.length := by
  induction p with
  | nil => exact Nat.le_of_eq (lastBinder_eq_zero h)
  | cons e rest ih =>
    rw [List.cons_append, lastBinder, List.length_cons]
    split
    · split <;> omega
    · omega

section InsertFilters

variable {placed : List (Nat × Expr)} {k : Nat}

theorem unfiltered_insertFilters (hes : conditions es = []) :
    unfiltered (insertFilters placed k es) = es := by
  have hfilters (cs : List Expr) (fs : List Element) :
      unfiltered (cs.map .filter ++ fs) = unfiltered fs := by
    have hnone : (cs.map Element.filter).filter (fun e => (filterCondition? e).isNone) = [] := by
      refine List.filter_eq_nil_iff.mpr fun e he => ?_
      obtain ⟨f, -, rfl⟩ := List.mem_map.mp he
      exact Bool.false_ne_true
    rw [unfiltered, List.filter_append, hnone]
    rfl
  have hnone := List.filterMap_eq_nil_iff.mp hes
  induction es generalizing k with
  | nil =>
    rw [insertFilters_nil, hfilters]
    rfl
  | cons e rest ih =>
    obtain ⟨he, hrest⟩ := List.forall_mem_cons.mp hnone
    have hcons : unfiltered (e :: insertFilters placed (k + 1) rest) =
        e :: unfiltered (insertFilters placed (k + 1) rest) :=
      List.filter_cons_of_pos (by simp [he])
    rw [insertFilters_cons, hfilters, hcons, ih (List.filterMap_eq_nil_iff.mpr hrest) hrest]

/-- Filters are covered if the triples before the place they are inserted at bind their
variables. -/
theorem coversFilters_insertFilters
    (hes : ∀ e ∈ es, (filterCondition? e).isNone = true ∧ e.isDirect = true)
    (h : ∀ n e, (n, e) ∈ placed → k ≤ n → n ≤ k + es.length → e.isPlain = true ∧
      e.vars ⊆ bound ++ Element.boundByTriples (es.take (n - k))) :
    coversFilters bound (insertFilters placed k es) = true := by
  have hhere : ∀ e ∈ conditionsAt placed k, e.isPlain = true ∧ e.vars ⊆ bound := by
    intro e he
    have h := h k e (mem_conditionsAt.mp he) (Nat.le_refl k) (Nat.le_add_right _ _)
    rw [Nat.sub_self, List.take_zero] at h
    simpa [Element.boundByTriples, Element.patterns] using h
  induction es generalizing k bound with
  | nil =>
    rw [insertFilters_nil]
    exact Element.coversFilters_filters.mpr ⟨hhere, rfl⟩
  | cons x rest ih =>
    obtain ⟨⟨hnone, hdirect⟩, hrest⟩ := List.forall_mem_cons.mp hes
    rw [insertFilters_cons]
    refine Element.coversFilters_filters.mpr ⟨hhere, ?_⟩
    -- with the variables of `x`, all later filters are covered by what comes behind it
    have hlater {bound' : List Var}
        (hbound : ∀ fs, bound ++ Element.boundByTriples (x :: fs) ⊆
          bound' ++ Element.boundByTriples fs) :
        coversFilters bound' (insertFilters placed (k + 1) rest) = true := by
      have hplaced (n : Nat) (e : Expr) (hn : (n, e) ∈ placed) (hle : k + 1 ≤ n)
          (hge : n ≤ k + 1 + rest.length) : e.isPlain = true ∧
            e.vars ⊆ bound' ++ Element.boundByTriples (rest.take (n - (k + 1))) := by
        have h := h n e hn (by omega) (by rw [List.length_cons]; omega)
        have htake : n - k = (n - (k + 1)) + 1 := by omega
        rw [htake, List.take_succ_cons] at h
        exact ⟨h.1, List.Subset.trans h.2 (hbound _)⟩
      refine ih hrest hplaced fun e he => ?_
      have h := hplaced (k + 1) e (mem_conditionsAt.mp he) (Nat.le_refl _) (by omega)
      rw [Nat.sub_self, List.take_zero] at h
      simpa [Element.boundByTriples, Element.patterns] using h
    cases x with
    | triple p =>
      exact @hlater (bound ++ p.vars) fun fs => by
        rw [List.append_assoc]
        exact List.Subset.refl _
    | assign v e =>
      exact Element.coversFilters_assign.mpr ⟨hdirect, hlater fun _ => List.Subset.refl _⟩
    | filter _ => cases hnone
    | path _ _ _ | subQuery _ => cases hdirect

/-- Inserted filters do not fail. So no row fails if every assignment admits the rows that
reach it. -/
theorem admit_insertFilters
    (h : ∀ p v e q, es = p ++ .assign v e :: q →
      ∀ row ∈ rowsAfter operators c (insertFilters placed k p) b,
        Element.Admits operators c row (.assign v e)) :
    Admit operators c (insertFilters placed k es) b := by
  have hfilters (cs : List Expr) (b : Binding) :
      Admit operators c (cs.map .filter) b := by
    induction cs generalizing b with
    | nil => trivial
    | cons e rest ih => exact ⟨trivial, fun b' _ => ih b'⟩
  induction es generalizing k b with
  | nil =>
    rw [insertFilters_nil, List.append_nil]
    exact hfilters _ b
  | cons x rest ih =>
    rw [insertFilters_cons]
    refine Element.admit_append.mpr ⟨hfilters _ b, fun row hrow => ⟨?_, fun row' hrow' => ?_⟩⟩
    · cases x with
      | assign v e =>
        refine h [] v e rest rfl row ?_
        rwa [insertFilters_nil, List.append_nil]
      | _ => trivial
    · refine ih fun p v e q hrest row'' hrow'' => ?_
      refine h (x :: p) v e q (congrArg _ hrest) row'' ?_
      rw [insertFilters_cons, Element.rowsAfter_append]
      exact List.mem_flatMap.mpr ⟨row, hrow, List.mem_flatMap.mpr ⟨row', hrow', hrow''⟩⟩

end InsertFilters

/-! ## Reordered patterns -/

/-- The elements that are no filters in their new order. -/
def ordered (w : PatternWeights) (es : List Element) : List Element :=
  orderSegments w [] [] (unfiltered es)

/-- The conditions of elements with their places in the new order. -/
def places (w : PatternWeights) (es : List Element) : List (Nat × Expr) :=
  (conditions es).map fun e => (lastBinder e.vars (ordered w es), e)

/-- The elements in their new order. -/
def reordered (w : PatternWeights) (es : List Element) : List Element :=
  insertFilters (places w es) 0 (ordered w es)

theorem mem_places {n : Nat} {e : Expr} :
    (n, e) ∈ places w es ↔ e ∈ conditions es ∧ lastBinder e.vars (ordered w es) = n := by
  simp only [places, List.mem_map, Prod.mk.injEq]
  constructor
  · rintro ⟨f, hf, rfl, rfl⟩
    exact ⟨hf, rfl⟩
  · rintro ⟨he, hn⟩
    exact ⟨e, he, hn, rfl⟩

section Reordered

variable (hes : coversFilters [] es = true)

include hes

theorem unfiltered_direct :
    ∀ e ∈ unfiltered es, (filterCondition? e).isNone = true ∧ e.isDirect = true := fun e he =>
  have ⟨hmem, hnone⟩ := List.mem_filter.mp he
  ⟨hnone, Element.areDirect_of_coversFilters hes e hmem⟩

theorem ordered_shuffled (w : PatternWeights) :
    Element.Shuffled (ordered w es) (unfiltered es) :=
  @orderSegments_shuffled w [] _ [] (unfiltered_direct hes)

theorem ordered_direct (w : PatternWeights) :
    ∀ e ∈ ordered w es, (filterCondition? e).isNone = true ∧ e.isDirect = true := fun e he =>
  unfiltered_direct hes e ((ordered_shuffled hes w).perm.mem_iff.mp he)

/-- The triples before the place of a filter bind its variables. -/
theorem vars_subset_take {e : Expr} (he : e ∈ conditions es) :
    e.vars ⊆ Element.boundByTriples
      ((ordered w es).take (lastBinder e.vars (ordered w es))) := by
  intro v hv
  have hvars := (Element.of_mem_conditions_of_coversFilters hes he).2 hv
  obtain ⟨p, hp, hvp⟩ := Element.mem_boundByTriples.mp hvars
  have hmem : Element.triple p ∈ ordered w es :=
    (ordered_shuffled hes w).perm.mem_iff.mpr (List.mem_filter.mpr ⟨hp, rfl⟩)
  have hbinds : bindsAny (.triple p) e.vars = true :=
    List.any_eq_true.mpr ⟨v, hvp, List.contains_iff_mem.mpr hv⟩
  exact Element.mem_boundByTriples.mpr ⟨p, mem_take_lastBinder hmem hbinds, hvp⟩

/-- The beginning of the new order is covered with the filters that belong into it. -/
theorem coversFilters_first {p q : List Element} (h : ordered w es = p ++ q) :
    coversFilters [] (insertFilters (places w es) 0 p) = true := by
  have hp : ∀ e ∈ p, (filterCondition? e).isNone = true ∧ e.isDirect = true := fun e he =>
    ordered_direct hes w e (h ▸ List.mem_append_left q he)
  refine coversFilters_insertFilters hp fun n e hn _ hle => ?_
  obtain ⟨he, rfl⟩ := mem_places.mp hn
  have hvars : e.vars ⊆ Element.boundByTriples
      ((ordered w es).take (lastBinder e.vars (ordered w es))) := vars_subset_take hes he
  refine ⟨(Element.of_mem_conditions_of_coversFilters hes he).1, ?_⟩
  rw [Nat.zero_add] at hle
  rw [Nat.sub_zero]
  rwa [h, List.take_append_of_le_length (h ▸ hle), ← h] at hvars

theorem conditions_first {p q : List Element} (h : ordered w es = p ++ q) :
    conditions p = [] :=
  List.filterMap_eq_nil_iff.mpr fun e he =>
    Option.isNone_iff_eq_none.mp (ordered_direct hes w e (h ▸ List.mem_append_left q he)).1

/-- The rows of the beginning of the new order: its filters may be tested at the end. -/
theorem rowsAfter_first (hc : c.Repeatable) {p q : List Element}
    (h : ordered w es = p ++ q) :
    rowsAfter operators c (insertFilters (places w es) 0 p) .empty =
      (rowsAfter operators c p .empty).filter fun row =>
        (conditions (insertFilters (places w es) 0 p)).all (Expr.truth operators c · row) := by
  rw [Element.rowsAfter_eq_filter hc (coversFilters_first hes h) (List.nil_subset _),
    unfiltered_insertFilters (conditions_first hes h)]

theorem mem_conditions_reordered {e : Expr} :
    e ∈ conditions (reordered w es) ↔ e ∈ conditions es := by
  rw [reordered, mem_conditions_insertFilters
    (conditions_first hes (List.append_nil (ordered w es)).symm)]
  constructor
  · rintro ⟨n, hn, -, -⟩
    exact (mem_places.mp hn).1
  · intro he
    exact ⟨_, mem_places.mpr ⟨he, rfl⟩, Nat.zero_le _,
      (lastBinder_le e.vars (ordered w es)).trans (Nat.le_add_left _ 0)⟩

/-- In the new order the elements have the same rows, up to order. -/
theorem rowsAfter_reordered (hc : c.Repeatable) :
    (rowsAfter operators c (reordered w es) .empty).Perm (rowsAfter operators c es .empty) := by
  have hconditions (row : Binding) :
      (conditions (reordered w es)).all (Expr.truth operators c · row) =
        (conditions es).all (Expr.truth operators c · row) := by
    rw [Bool.eq_iff_iff, List.all_eq_true, List.all_eq_true]
    exact forall_congr' fun e => imp_congr_left (mem_conditions_reordered hes)
  have hfirst := @rowsAfter_first operators c w es hes hc _ []
    (List.append_nil (ordered w es)).symm
  rw [← reordered] at hfirst
  rw [hfirst, Element.rowsAfter_eq_filter hc hes (List.nil_subset _)]
  simp only [hconditions]
  exact ((ordered_shuffled hes w).rowsAfter_perm .empty).filter _

/-- If no filter is moved behind an assignment, every assignment meets rows only that it
met before. -/
theorem admit_reordered (hc : c.Repeatable) (hkeeps : Element.keepsFilters es = true)
    (h : Admit operators c es .empty) : Admit operators c (reordered w es) .empty := by
  refine admit_insertFilters fun p' v e q' horder row hrow => ?_
  obtain ⟨p, q, hsplit, hp, hq⟩ := (ordered_shuffled hes w).split horder
  obtain ⟨pre, post, rfl, rfl, rfl⟩ := Element.unfiltered_eq_append_cons hsplit
  refine h.assign ?_
  rw [rowsAfter_first hes hc horder, List.mem_filter, List.all_eq_true] at hrow
  rw [Element.rowsAfter_eq_filter hc (Element.coversFilters_left hes) (List.nil_subset _),
    List.mem_filter, List.all_eq_true]
  refine ⟨(hp.rowsAfter_perm .empty).mem_iff.mp hrow.1, fun f hf => hrow.2 f ?_⟩
  -- a filter before the assignment is put before it, as nothing behind binds its variables
  have hnone : ∀ x ∈ Element.assign v e :: q', bindsAny x f.vars = false := by
    intro x hx
    refine Element.bindsAny_of_keepsFilters hkeeps hf x ?_
    rcases List.mem_cons.mp hx with rfl | hx
    · exact List.mem_cons_self
    · exact List.mem_cons_of_mem _ (List.mem_filter.mp (hq.perm.mem_iff.mp hx)).1
  have hplace : lastBinder f.vars (ordered w (pre ++ .assign v e :: post)) ≤ p'.length := by
    rw [horder]
    exact lastBinder_append_le p' hnone
  refine (mem_conditions_insertFilters (conditions_first hes horder)).mpr
    ⟨_, mem_places.mpr ⟨?_, rfl⟩, Nat.zero_le _, hplace.trans (Nat.le_add_left _ 0)⟩
  rw [conditions, List.filterMap_append]
  exact List.mem_append_left _ hf

theorem reorder_eq : reorder w es = .bgp (reordered w es) := by
  refine placeFilters_eq fun e he v hv => ?_
  have hvars : v ∈ Element.boundByTriples
      ((ordered w es).take (lastBinder e.vars (ordered w es))) := vars_subset_take hes he hv
  obtain ⟨p, hp, hvp⟩ := Element.mem_boundByTriples.mp hvars
  exact Element.mem_boundByAll_of_mem (List.mem_of_mem_take hp) hvp

end Reordered

/-- Without patterns in its expressions the elements of a pattern stay the same. -/
theorem mapAllUpM_of_areDirect {f : Node → Id Node} (h : ∀ e ∈ es, e.isDirect = true) :
    Element.mapAllUpM f es = es := by
  induction es with
  | nil => rfl
  | cons e rest ih =>
    obtain ⟨he, hrest⟩ := List.forall_mem_cons.mp h
    cases e with
    | triple p => exact congrArg (Element.triple p :: ·) (ih hrest)
    | filter e =>
      exact congrArg₂ (fun e rest => Element.filter e :: rest)
        (Expr.mapUpM_of_isPlain he) (ih hrest)
    | assign v e =>
      exact congrArg₂ (fun e rest => Element.assign v e :: rest)
        (Expr.mapUpM_of_isPlain he) (ih hrest)
    | path _ _ _ | subQuery _ => cases he

theorem rule_run_eq (w : PatternWeights) (hes : coversFilters [] es = true) :
    (rule w).run (.bgp es) = .ok (.bgp (reordered w es), []) := by
  rw [← reorder_eq hes]
  exact congrArg (fun es => Except.ok (reorder w es, []))
    (mapAllUpM_of_areDirect (Element.areDirect_of_coversFilters hes))

/-- Let a basic graph pattern with assignments have solutions. In its new order it has the
same solutions, up to order, or it fails. It does not fail if no filter is about a variable
that is bound by the next assignment or behind it. -/
theorem rule_rows_of_assigned (w : PatternWeights) (hes : coversFilters [] es = true) :
    ∃ n', (rule w).run (.bgp es) = .ok (n', []) ∧
      ∀ {operators : OperatorRegistry} {c : Context}, c.IsOnMemory →
        ∀ p p' m q, ((Node.bgp es).plan operators none).runFrom c p = (.ok m, q) →
          (∀ m' q', (n'.plan operators none).runFrom c p' = (.ok m', q') →
            m'.rows.Perm m.rows) ∧
          (Element.keepsFilters es = true →
            ∃ m' q', (n'.plan operators none).runFrom c p' = (.ok m', q')) := by
  refine ⟨_, rule_run_eq w hes, fun {operators c} hc p p' m q hm => ?_⟩
  have hrep := hc.repeatable
  have hdirect := Element.areDirect_of_coversFilters hes
  have hdirect' : ∀ e ∈ reordered w es, e.isDirect = true :=
    Element.areDirect_of_coversFilters
      (coversFilters_first hes (List.append_nil (ordered w es)).symm)
  have hsteady' : ((Node.bgp (reordered w es)).plan operators).Steady :=
    Node.bgp_steady_of_areDirect hdirect'
  have hout := (Node.bgp_steady_of_areDirect hdirect none).outcome_of_runFrom hrep hm
  refine ⟨fun m' q' hm' => ?_, fun hkeeps => ?_⟩
  · have hout' := (hsteady' none).outcome_of_runFrom hrep hm'
    rw [(Node.rows_of_bgp hc hdirect hout).1, (Node.rows_of_bgp hc hdirect' hout').1]
    exact rowsAfter_reordered hes hrep
  · have hall := ((Node.outcome_bgp_iff hc hdirect).mp hout).1
    have hout' := (Node.outcome_bgp_iff hc hdirect').mpr
      ⟨admit_reordered (w := w) hes hrep hkeeps hall, rfl⟩
    rw [← (hsteady' none).fst_runFrom hrep p'] at hout'
    exact ⟨_, _, Prod.ext hout' rfl⟩

/-- The edges to the start of an edge to a node, with their starts under another name. -/
def sampleStarts : List Element :=
  [.triple ⟨.var ⟨"x"⟩, .term (.iri ⟨"p"⟩), .var ⟨"y"⟩⟩,
    .filter (.unary .not (.binary .sameTerm (.var ⟨"x"⟩) (.constant (.iri ⟨"c"⟩)))),
    .triple ⟨.var ⟨"y"⟩, .term (.iri ⟨"p"⟩), .term (.iri ⟨"c"⟩)⟩,
    .assign ⟨"first"⟩ (.var ⟨"x"⟩),
    .triple ⟨.var ⟨"w"⟩, .term (.iri ⟨"p"⟩), .var ⟨"y"⟩⟩]

theorem rule_rows_of_assigned_sample :
    ∃ n' m q m' q', (rule .none).run (.bgp sampleStarts) = .ok (n', []) ∧
      ((Node.bgp sampleStarts).plan .empty none).runFrom sampleContext
        (.initial sampleContext.environment) = (.ok m, q) ∧
      (n'.plan .empty none).runFrom sampleContext
        (.initial sampleContext.environment) = (.ok m', q') ∧
      m'.rows.Perm m.rows ∧ m.size = 1 := by
  have hsize : (((Node.bgp sampleStarts).plan .empty none).runFrom sampleContext
      (.initial sampleContext.environment)).1.toOption.map (·.size) = some 1 := by decide +kernel
  obtain ⟨m, q, hm, hsize⟩ := exists_ok_of_map hsize
  obtain ⟨n', hrule, hrows⟩ := @rule_rows_of_assigned sampleStarts .none (by decide +kernel)
  obtain ⟨hsame, hsucceeds⟩ := hrows sampleContext_isOnMemory
    (.initial sampleContext.environment) (.initial sampleContext.environment) m q hm
  obtain ⟨m', q', hm'⟩ := hsucceeds (by decide +kernel)
  exact ⟨n', m, q, m', q', hrule, hm, hm', hsame m' q' hm', hsize⟩

/-- An edge to a node, a value that only this node has, and an edge from the node. -/
def sampleValues : List Element :=
  [.triple ⟨.var ⟨"x"⟩, .term (.iri ⟨"p"⟩), .var ⟨"y"⟩⟩,
    .filter (.binary .sameTerm (.var ⟨"y"⟩) (.constant (.iri ⟨"b"⟩))),
    .assign ⟨"value"⟩ (.cond (.binary .sameTerm (.var ⟨"y"⟩) (.constant (.iri ⟨"b"⟩)))
      (.constant (.iri ⟨"v"⟩)) (.var ⟨"none"⟩)),
    .triple ⟨.var ⟨"y"⟩, .term (.iri ⟨"p"⟩), .var ⟨"z"⟩⟩]

/-- The last element binds the variable of the filter once more. So the filter comes last,
and the assignment meets a node that has no value. -/
theorem rule_fails :
    coversFilters [] sampleValues = true ∧
      ∃ n' m q q', (rule .none).run (.bgp sampleValues) = .ok (n', []) ∧
        ((Node.bgp sampleValues).plan .empty none).runFrom sampleContext
          (.initial sampleContext.environment) = (.ok m, q) ∧ m.size = 1 ∧
        (n'.plan .empty none).runFrom sampleContext
          (.initial sampleContext.environment) = (.error (.unboundVariable ⟨"none"⟩), q') := by
  have hsize : (((Node.bgp sampleValues).plan .empty none).runFrom sampleContext
      (.initial sampleContext.environment)).1.toOption.map (·.size) = some 1 := by decide +kernel
  have hfails : (((Node.bgp (reordered .none sampleValues)).plan .empty none).runFrom
      sampleContext (.initial sampleContext.environment)).1 =
        .error (.unboundVariable ⟨"none"⟩) := by decide +kernel
  obtain ⟨m, q, hm, hsize⟩ := exists_ok_of_map hsize
  exact ⟨by decide +kernel, _, m, q, _, rule_run_eq .none (by decide +kernel), hm, hsize,
    Prod.ext hfails rfl⟩

end PatternOrder

end SparqlAlgebra
