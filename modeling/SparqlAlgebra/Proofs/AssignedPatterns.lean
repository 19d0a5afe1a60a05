import SparqlAlgebra.Proofs.Rearrangements

/-!
# Patterns with assignments

An assignment fails for a row that binds its variable or for which its expression
has an error, and the whole pattern fails with it. So a basic graph pattern of
triples, filters and assignments has solutions if every assignment admits every row
that reaches it.

* `Element.extensions`: what an element makes of a row that it admits;
* `Element.rowsAfter` and `Element.Admit`: the same for elements in sequence;
* `Matches.outcome_matchSteps_of_admit` and `Matches.admit_of_outcome`: matching
  succeeds if all rows on the way are admitted, and only then;
* `Node.runFrom_bgp_iff`: the same for the evaluation of the pattern.
-/

namespace SparqlAlgebra

open Eval

/-- What an assignment gives the variable in a row. -/
def Expr.assigned (operators : OperatorRegistry) (c : Context) (v : Var) (e : Expr) :
    Binding → Except QueryError (Option Term) :=
  Solutions.assignedValue v fun b => (e.assignment (e.meaning operators) b).outcome c

/-- A row is assigned a value if it does not bind the variable and the expression has no
error. -/
theorem Expr.assigned_eq_ok_iff {operators : OperatorRegistry} {c : Context} {v : Var}
    {e : Expr} {b : Binding} {t : Option Term} :
    e.assigned operators c v b = .ok t ↔
      b.get? v = none ∧ (e.assignment (e.meaning operators) b).outcome c = .ok t := by
  unfold assigned Solutions.assignedValue Binding.contains
  cases b.get? v <;> simp

namespace Element

/-- Whether an element is a triple, or a filter or an assignment with a plain
expression. -/
def isDirect : Element → Bool
  | triple _ => true
  | filter e | assign _ e => e.isPlain
  | path _ _ _ | subQuery _ => false

section Rows

variable (operators : OperatorRegistry) (c : Context)

/-- What an element makes of a row, if it does not fail. -/
def extensions (b : Binding) : Element → List Binding
  | triple p => (p.rows c.view.facts).filterMap b.merge?
  | filter e => if e.truth operators c b then [b] else []
  | assign v e => ((e.assigned operators c v b).toOption.map (Solutions.assignedRow v b)).toList
  | path _ _ _ | subQuery _ => []

/-- The element does not fail for a row. -/
def Admits (b : Binding) : Element → Prop
  | assign v e => ∃ t, e.assigned operators c v b = .ok t
  | _ => True

/-- What elements make of a row one after the other, without the rows for which an
assignment fails. -/
def rowsAfter : List Element → Binding → List Binding
  | [], b => [b]
  | e :: rest, b => (extensions operators c b e).flatMap (rowsAfter rest)

/-- No assignment fails on the way. -/
def Admit : List Element → Binding → Prop
  | [], _ => True
  | e :: rest, b => Admits operators c b e ∧ ∀ b' ∈ extensions operators c b e, Admit rest b'

end Rows

variable {operators : OperatorRegistry} {c : Context} {es fs : List Element} {b row : Binding}

theorem mem_extensions_assign {v : Var} {e : Expr} :
    row ∈ extensions operators c b (assign v e) ↔
      ∃ t, e.assigned operators c v b = .ok t ∧ row = Solutions.assignedRow v b t := by
  cases h : e.assigned operators c v b <;> simp [extensions, h, Except.toOption]

theorem extensions_assign {v : Var} {e : Expr} {t : Option Term}
    (h : e.assigned operators c v b = .ok t) :
    extensions operators c b (assign v e) = [Solutions.assignedRow v b t] := by
  simp [extensions, h, Except.toOption]

theorem mem_extensions_filter {e : Expr} :
    row ∈ extensions operators c b (filter e) ↔ e.truth operators c b = true ∧ row = b := by
  simp [extensions]

/-! ## Elements in sequence -/

theorem rowsAfter_append (es fs : List Element) (b : Binding) :
    rowsAfter operators c (es ++ fs) b =
      (rowsAfter operators c es b).flatMap (rowsAfter operators c fs) := by
  induction es generalizing b with
  | nil => exact List.flatMap_singleton _ _ |>.symm
  | cons e rest ih =>
    rw [List.cons_append, rowsAfter, rowsAfter, List.flatMap_assoc]
    exact List.flatMap_congr fun b' _ => ih b'

theorem admit_append :
    Admit operators c (es ++ fs) b ↔
      Admit operators c es b ∧ ∀ row ∈ rowsAfter operators c es b, Admit operators c fs row := by
  induction es generalizing b with
  | nil => simp [Admit, rowsAfter]
  | cons e rest ih =>
    simp only [List.cons_append, Admit, rowsAfter, List.mem_flatMap, ih, forall_exists_index,
      and_imp]
    constructor
    · rintro ⟨he, hrest⟩
      exact ⟨⟨he, fun b' hb' => (hrest b' hb').1⟩,
        fun row b' hb' hrow => (hrest b' hb').2 row hrow⟩
    · rintro ⟨⟨he, hrest⟩, hfs⟩
      exact ⟨he, fun b' hb' => ⟨hrest b' hb', fun row => hfs row b' hb'⟩⟩

/-- Every row that reaches an assignment is admitted by it. -/
theorem Admit.assign {pre post : List Element} {v : Var} {e : Expr}
    (h : Admit operators c (pre ++ assign v e :: post) b)
    (hrow : row ∈ rowsAfter operators c pre b) :
    Admits operators c row (assign v e) :=
  ((admit_append.mp h).2 row hrow).1

/-! ## Variables -/

/-- Elements only add values. -/
theorem isWithin_of_mem_extensions {e : Element} (h : row ∈ extensions operators c b e) :
    b.IsWithin row := by
  cases e with
  | triple p =>
    obtain ⟨r, -, hmerge⟩ := List.mem_filterMap.mp h
    exact (Binding.isWithin_of_merge? hmerge).1
  | filter e =>
    rw [(mem_extensions_filter.mp h).2]
    exact .refl b
  | assign v e =>
    obtain ⟨t, ht, rfl⟩ := mem_extensions_assign.mp h
    cases t with
    | none => exact .refl b
    | some t => exact Binding.isWithin_insert (Expr.assigned_eq_ok_iff.mp ht).1
  | path _ _ _ | subQuery _ => cases h

theorem isWithin_of_mem_rowsAfter (h : row ∈ rowsAfter operators c es b) :
    b.IsWithin row := by
  induction es generalizing b with
  | nil =>
    rw [List.mem_singleton.mp h]
    exact .refl b
  | cons e rest ih =>
    obtain ⟨b', hb', hrow⟩ := List.mem_flatMap.mp h
    exact (isWithin_of_mem_extensions hb').trans (ih hrow)

theorem vars_of_mem_extensions {e : Element} (h : row ∈ extensions operators c b e) :
    row.vars ⊆ b.vars ++ e.boundVariables := by
  intro w hw
  rw [List.mem_append]
  cases e with
  | triple p =>
    obtain ⟨r, hr, hmerge⟩ := List.mem_filterMap.mp h
    exact ((Binding.mem_vars_of_merge? hmerge).mp hw).imp_right
      (TriplePattern.vars_of_mem_rows hr).mp
  | filter e =>
    rw [(mem_extensions_filter.mp h).2] at hw
    exact .inl hw
  | assign v e =>
    obtain ⟨t, -, rfl⟩ := mem_extensions_assign.mp h
    cases t with
    | none => exact .inl hw
    | some t =>
      exact (Binding.mem_vars_insert.mp hw).symm.imp_right fun hwv => List.mem_singleton.mpr hwv
  | path _ _ _ | subQuery _ => cases h

/-- Rows bind variables of the elements only. -/
theorem vars_of_mem_rowsAfter (h : row ∈ rowsAfter operators c es b) :
    row.vars ⊆ b.vars ++ boundByAll es := by
  induction es generalizing b with
  | nil =>
    rw [List.mem_singleton.mp h]
    exact List.subset_append_left _ _
  | cons e rest ih =>
    obtain ⟨b', hb', hrow⟩ := List.mem_flatMap.mp h
    intro w hw
    have hb := vars_of_mem_extensions hb'
    rw [boundByAll, ← List.append_assoc, List.mem_append]
    exact (List.mem_append.mp (ih hrow hw)).imp_left (hb ·)

theorem steps_steady_of_areDirect (h : ∀ e ∈ es, e.isDirect = true) (i : Nat) :
    ∀ s ∈ steps operators i es, s.Steady := by
  induction es with
  | nil => simp [steps]
  | cons e rest ih =>
    obtain ⟨he, hrest⟩ := List.forall_mem_cons.mp h
    cases e with
    | triple p => exact List.forall_mem_cons.mpr ⟨Step.matchTriple_steady p, ih hrest⟩
    | filter e =>
      exact List.forall_mem_cons.mpr
        ⟨(Expr.meaning_steady_of_isPlain he).holds, ih hrest⟩
    | assign v e =>
      exact List.forall_mem_cons.mpr
        ⟨e.assignment_steady (Expr.meaning_steady_of_isPlain he), ih hrest⟩
    | path _ _ _ | subQuery _ => cases he

end Element

/-! ## Matching -/

namespace Matches

variable {operators : OperatorRegistry} {c : Context} {es : List Element} {b : Binding}
  {m r : Matches}

/-- Matching goes on with the row of an assignment, or fails with its error. -/
theorem outcome_matchSteps_assign (hc : c.Repeatable) {steps : List Step}
    (hsteps : ∀ s ∈ steps, s.Steady) {demand : Demand} {e : Expr} (hplain : e.isPlain = true)
    (v : Var) (b : Binding) (m : Matches) :
    (matchSteps demand (.assign v (e.assignment (e.meaning operators)) :: steps) b m).outcome c =
      e.assigned operators c v b >>= fun t =>
        (matchSteps demand steps (Solutions.assignedRow v b t) m).outcome c := by
  have hmeaning : (e.meaning operators).Steady := Expr.meaning_steady_of_isPlain hplain
  have hvalue := e.assignment_steady hmeaning
  have hrest := matchSteps_steady hsteps demand
  refine (outcome_bind_ok (fun _ => assign_steady hrest hvalue v b m) hc
    (outcome_tick hc)).trans ?_
  unfold Expr.assigned Solutions.assignedValue
  cases b.contains v with
  | true => rfl
  | false =>
    refine (outcome_bind (assigned_steady hrest v b m) hc).trans ?_
    refine bind_congr fun t => ?_
    cases t <;> rfl

/-- If candidates succeed one after the other, each of them succeeds. -/
theorem each_of_outcome_overCandidates {next : Binding → Matches → Eval Matches}
    (hsteady : ∀ b m, (next b m).Steady) (hc : c.Repeatable) {bs : List Binding}
    (hr : (overCandidates none next bs m).outcome c = .ok r) :
    ∀ b ∈ bs, ∃ m r, (next b m).outcome c = .ok r := by
  induction bs generalizing m with
  | nil => exact fun b hb => absurd hb List.not_mem_nil
  | cons b rest ih =>
    obtain ⟨m', hm', hr⟩ := outcome_bind_eq_ok hr
      (fun _ => overCandidates_steady hsteady none rest _) hc
    exact List.forall_mem_cons.mpr ⟨⟨m, m', hm'⟩, ih hr⟩

/-- If all rows on the way are admitted, matching finds the rows. -/
theorem outcome_matchSteps_of_admit (hc : c.Repeatable)
    (hes : ∀ e ∈ es, e.isDirect = true) (i : Nat) (h : Element.Admit operators c es b)
    (m : Matches) :
    (matchSteps none (Element.steps operators i es) b m).outcome c =
      .ok (m.add (Element.rowsAfter operators c es b)) := by
  induction es generalizing b m with
  | nil => simp [Element.steps, matchSteps, Element.rowsAfter, add]
  | cons e rest ih =>
    obtain ⟨he, hrest⟩ := List.forall_mem_cons.mp hes
    obtain ⟨hfirst, hlater⟩ := h
    have hsteps : ∀ s ∈ Element.steps operators i rest, s.Steady :=
      Element.steps_steady_of_areDirect hrest i
    cases e with
    | triple p =>
      refine (outcome_matchSteps_triple hc hsteps p b m).trans ?_
      exact outcome_overCandidates (matchSteps_steady hsteps none) hc
        (fun b' hb' m => ih hrest (hlater b' hb') m) m
    | filter e =>
      refine (outcome_matchSteps_filter hc hsteps he b m).trans ?_
      have hextensions : Element.extensions operators c b (.filter e) =
          if e.truth operators c b then [b] else [] := rfl
      rw [Element.rowsAfter, hextensions]
      cases htruth : e.truth operators c b with
      | true =>
        rw [if_pos rfl, if_pos rfl, List.flatMap_singleton]
        exact ih hrest (hlater b (Element.mem_extensions_filter.mpr ⟨htruth, rfl⟩)) m
      | false => exact congrArg Except.ok m.add_nil.symm
    | assign v e =>
      refine (outcome_matchSteps_assign hc hsteps he v b m).trans ?_
      obtain ⟨t, ht⟩ := hfirst
      rw [ht, Element.rowsAfter, Element.extensions_assign ht, List.flatMap_singleton]
      exact ih hrest (hlater _ (Element.mem_extensions_assign.mpr ⟨t, ht, rfl⟩)) m
    | path _ _ _ | subQuery _ => cases he

/-- If matching succeeds, all rows on the way are admitted. -/
theorem admit_of_outcome (hc : c.Repeatable) (hes : ∀ e ∈ es, e.isDirect = true) (i : Nat)
    (hr : (matchSteps none (Element.steps operators i es) b m).outcome c = .ok r) :
    Element.Admit operators c es b := by
  induction es generalizing b m r with
  | nil => trivial
  | cons e rest ih =>
    obtain ⟨he, hrest⟩ := List.forall_mem_cons.mp hes
    have hsteps : ∀ s ∈ Element.steps operators i rest, s.Steady :=
      Element.steps_steady_of_areDirect hrest i
    cases e with
    | triple p =>
      have hr := (outcome_matchSteps_triple hc hsteps p b m).symm.trans hr
      refine ⟨trivial, fun b' hb' => ?_⟩
      obtain ⟨m', r', hnext⟩ :=
        each_of_outcome_overCandidates (matchSteps_steady hsteps none) hc hr b' hb'
      exact ih hrest hnext
    | filter e =>
      have hr := (outcome_matchSteps_filter hc hsteps he b m).symm.trans hr
      refine ⟨trivial, fun b' hb' => ?_⟩
      obtain ⟨htruth, rfl⟩ := Element.mem_extensions_filter.mp hb'
      rw [if_pos htruth] at hr
      exact ih hrest hr
    | assign v e =>
      have hr := (outcome_matchSteps_assign hc hsteps he v b m).symm.trans hr
      cases ht : e.assigned operators c v b with
      | error err =>
        rw [ht] at hr
        cases hr
      | ok t =>
        rw [ht] at hr
        refine ⟨⟨t, ht⟩, fun b' hb' => ?_⟩
        rw [Element.extensions_assign ht] at hb'
        rw [List.mem_singleton.mp hb']
        exact ih hrest hr
    | path _ _ _ | subQuery _ => cases he

end Matches

/-! ## Patterns -/

variable {operators : OperatorRegistry} {c : Context} {es : List Element}

theorem Node.bgp_steady_of_areDirect (hes : ∀ e ∈ es, e.isDirect = true) :
    ((Node.bgp es).plan operators).Steady :=
  (Plan.bgp_steady (Element.steps_steady_of_areDirect hes 0) _).observed _

/-- The evaluation of a pattern succeeds if all rows on the way are admitted, and only
then. It yields the rows after all elements. -/
theorem Node.outcome_bgp_iff (hc : c.IsOnMemory) (hes : ∀ e ∈ es, e.isDirect = true)
    {s : Solutions} :
    ((Node.bgp es).plan operators none).outcome c = .ok s ↔
      Element.Admit operators c es .empty ∧
        s = .ofRows (mergeVariables [] (Node.bgp es).vars)
          (Element.rowsAfter operators c es .empty) := by
  have hrep := hc.repeatable
  have hreal := hc.real
  have hstart := Context.start_of_unseeded hc.unseeded
  have hsteps : ∀ s ∈ Element.steps operators 0 es, s.Steady :=
    Element.steps_steady_of_areDirect hes 0
  have hobserved : ((Node.bgp es).plan operators none).outcome c =
      (Plan.bgp (Element.steps operators 0 es) (Node.bgp es).vars none).outcome c :=
    Plan.outcome_observed_eq (Plan.bgp_steady hsteps _) hrep _ none
  have hsucceeds (h : Element.Admit operators c es .empty) :
      ((Node.bgp es).plan operators none).outcome c =
        .ok (.ofRows (mergeVariables [] (Node.bgp es).vars)
          (Element.rowsAfter operators c es .empty)) := by
    have hmatch := Matches.outcome_matchSteps_of_admit hrep hes 0 h .empty
    rw [← hstart] at hmatch
    rw [hobserved, Plan.outcome_bgp hrep hreal hmatch, hstart, Binding.vars_empty]
    simp [Matches.add, Matches.empty]
  constructor
  · intro hs
    have hmatched : (Plan.bgp (Element.steps operators 0 es) (Node.bgp es).vars
        none).outcome c = .ok s := hobserved.symm.trans hs
    unfold Plan.bgp at hmatched
    rw [act_eval, outcome_read_bind] at hmatched
    dsimp only at hmatched
    rw [if_neg (by simp [hreal])] at hmatched
    obtain ⟨m, hm, -⟩ := outcome_bind_eq_ok hmatched (fun _ => .pure _) hrep
    have hall : Element.Admit operators c es c.start :=
      Matches.admit_of_outcome hrep hes 0 hm
    rw [hstart] at hall
    exact ⟨hall, Except.ok.inj (hs.symm.trans (hsucceeds hall))⟩
  · rintro ⟨hall, rfl⟩
    exact hsucceeds hall

/-- The solutions of a pattern are its rows. -/
theorem Node.rows_of_bgp (hc : c.IsOnMemory) (hes : ∀ e ∈ es, e.isDirect = true)
    {s : Solutions} (hs : ((Node.bgp es).plan operators none).outcome c = .ok s) :
    s.rows = Element.rowsAfter operators c es .empty ∧ s.Binds (Node.bgp es).vars := by
  obtain ⟨-, rfl⟩ := (Node.outcome_bgp_iff hc hes).mp hs
  have hvars : ∀ row ∈ Element.rowsAfter operators c es .empty,
      row.vars ⊆ (Node.bgp es).vars := fun row hrow v hv =>
    mem_dedup.mpr (Element.vars_of_mem_rowsAfter hrow hv)
  have hmerged : ∀ row ∈ Element.rowsAfter operators c es .empty,
      row.vars ⊆ mergeVariables [] (Node.bgp es).vars := fun row hrow =>
    List.Subset.trans (hvars row hrow) Solutions.subset_mergeVariables_right
  exact ⟨Solutions.rows_ofRows hmerged, Solutions.ofRows_binds hmerged hvars⟩

end SparqlAlgebra
