import SparqlAlgebra.Proofs.JoinLaws
import SparqlAlgebra.Proofs.Laziness
import SparqlAlgebra.Proofs.Rearrangements
import SparqlAlgebra.Proofs.SeedTrees
import SparqlAlgebra.Query.Lowering

/-!
# Folded groups

Two groups of triples, sub-queries and filters that are joined become one basic
graph pattern, in which the second group is matched with the values of the first
one. Its rows are those of the join, in the same order.

* `Element.isGroup`: filters come behind the triples that bind their variables;
* `Element.groupRows`: what the elements make of rows, one element after the other;
* `Element.groupRows_pairRows`: a group works on its own part of joined rows;
* `Query.joinNodes_rows`: folding two groups does not change the rows.
-/

namespace SparqlAlgebra

open Eval

/-! ## Rows of groups -/

namespace Element

/-- Whether elements are triples, repeatable sub-queries, and plain filters behind
the triples that bind their variables; the given variables are bound before. -/
def isGroup (bound : List Var) : List Element → Bool
  | [] => true
  | triple p :: rest => isGroup (bound ++ p.vars) rest
  | subQuery query :: rest => query.isRepeatable && isGroup bound rest
  | filter e :: rest => e.isPlain && e.vars.all (bound.contains ·) && isGroup bound rest
  | path _ _ _ :: _ | assign _ _ :: _ => false

theorem isGroup_filter {bound : List Var} {e : Expr} {es : List Element} :
    isGroup bound (filter e :: es) = true ↔
      e.isPlain = true ∧ e.vars ⊆ bound ∧ isGroup bound es = true := by
  simp [isGroup, List.subset_def, and_assoc]

theorem isGroup_subQuery {bound : List Var} {query : Node} {es : List Element} :
    isGroup bound (subQuery query :: es) = true ↔
      query.isRepeatable = true ∧ isGroup bound es = true := by
  simp [isGroup]

theorem areRepeatable_of_isGroup {bound : List Var} {es : List Element}
    (h : isGroup bound es = true) : areRepeatable es = true := by
  induction es generalizing bound with
  | nil => rfl
  | cons e rest ih =>
    cases e with
    | triple p => exact @ih (bound ++ p.vars) h
    | subQuery query =>
      obtain ⟨hquery, hrest⟩ := isGroup_subQuery.mp h
      exact Bool.and_eq_true_iff.mpr ⟨hquery, ih hrest⟩
    | filter e =>
      obtain ⟨hplain, -, hrest⟩ := isGroup_filter.mp h
      exact Bool.and_eq_true_iff.mpr ⟨(Bool.and_eq_true_iff.mp hplain).1, ih hrest⟩
    | path _ _ _ | assign _ _ => cases h

variable {operators : OperatorRegistry} {c : Context}

/-- What an element of a group makes of rows. -/
def narrow (operators : OperatorRegistry) (c : Context) (rows : List Binding) :
    Element → List Binding
  | triple p => Solutions.pairRows rows (p.rows c.view.facts)
  | subQuery query => Solutions.pairRows rows ((query.plan operators).answers c)
  | filter e => rows.filter (e.truth operators c)
  | path _ _ _ | assign _ _ => rows

/-- What the elements of a group make of rows, one after the other. -/
def groupRows (operators : OperatorRegistry) (c : Context) (es : List Element)
    (rows : List Binding) : List Binding :=
  es.foldl (narrow operators c) rows

theorem groupRows_append (es fs : List Element) (rows : List Binding) :
    groupRows operators c (es ++ fs) rows =
      groupRows operators c fs (groupRows operators c es rows) := List.foldl_append

/-- Every row is treated on its own. -/
theorem narrow_flatMap (e : Element) (rows : List Binding) :
    narrow operators c rows e = rows.flatMap fun b => narrow operators c [b] e := by
  cases e with
  | triple p | subQuery query => simp [narrow, Solutions.pairRows]
  | filter e =>
    have hrow (b : Binding) : narrow operators c [b] (filter e) =
        if e.truth operators c b then [b] else [] := by
      simp [narrow, List.filter_singleton]
    simp only [hrow]
    show rows.filter _ = _
    induction rows with
    | nil => rfl
    | cons b rest ih => cases htruth : e.truth operators c b <;> simp [htruth, ih]
  | path _ _ _ | assign _ _ => simp [narrow]

theorem groupRows_flatMap (es : List Element) (rows : List Binding) :
    groupRows operators c es rows = rows.flatMap fun b => groupRows operators c es [b] := by
  induction es generalizing rows with
  | nil => simp [groupRows]
  | cons e rest ih =>
    show groupRows operators c rest (narrow operators c rows e) =
      rows.flatMap fun b => groupRows operators c rest (narrow operators c [b] e)
    rw [ih, narrow_flatMap, List.flatMap_assoc]
    exact List.flatMap_congr fun b _ => (ih _).symm

/-- The elements of a group work on the right side of a join, if it binds the
variables of their filters. -/
theorem groupRows_pairRows (hc : c.Repeatable) {bound : List Var} {es : List Element}
    (hes : isGroup bound es = true) {ls rs : List Binding}
    (hrs : ∀ r ∈ rs, bound ⊆ r.vars) :
    groupRows operators c es (Solutions.pairRows ls rs) =
      Solutions.pairRows ls (groupRows operators c es rs) := by
  induction es generalizing bound rs with
  | nil => rfl
  | cons e rest ih =>
    have hstep (hnarrow : narrow operators c (Solutions.pairRows ls rs) e =
        Solutions.pairRows ls (narrow operators c rs e)) {bound : List Var}
        (hrest : isGroup bound rest = true)
        (hbound : ∀ r ∈ narrow operators c rs e, bound ⊆ r.vars) :
        groupRows operators c (e :: rest) (Solutions.pairRows ls rs) =
          Solutions.pairRows ls (groupRows operators c (e :: rest) rs) := by
      show groupRows operators c rest (narrow operators c (Solutions.pairRows ls rs) e) = _
      rw [hnarrow]
      exact ih hrest hbound
    cases e with
    | triple p =>
      have hrest : isGroup (bound ++ p.vars) rest = true := hes
      refine hstep (Solutions.pairRows_assoc _ _ _) hrest fun row hrow v hv => ?_
      obtain ⟨r, hr, hrow⟩ := List.mem_flatMap.mp hrow
      obtain ⟨x, hx, hmerge⟩ := List.mem_filterMap.mp hrow
      refine (Binding.mem_vars_of_merge? hmerge).mpr ?_
      exact (List.mem_append.mp hv).imp (hrs r hr ·) (TriplePattern.vars_of_mem_rows hx).mpr
    | subQuery query =>
      refine hstep (Solutions.pairRows_assoc _ _ _) (isGroup_subQuery.mp hes).2
        fun row hrow v hv => ?_
      obtain ⟨r, hr, hrow⟩ := List.mem_flatMap.mp hrow
      obtain ⟨x, -, hmerge⟩ := List.mem_filterMap.mp hrow
      exact (Binding.mem_vars_of_merge? hmerge).mpr (.inl (hrs r hr hv))
    | filter e =>
      obtain ⟨hplain, hvars, hrest⟩ := isGroup_filter.mp hes
      refine hstep (Solutions.filter_pairRows fun l _ r hr row hmerge => ?_) hrest
        fun r hr => hrs r (List.mem_filter.mp hr).1
      -- the right row decides, since it binds the variables of the condition
      have hwithin := (Binding.isWithin_of_merge? hmerge).2
      exact (Expr.truth_congr hplain hc
        (hwithin.agreeOn (List.Subset.trans hvars (hrs r hr)))).symm
    | path _ _ _ | assign _ _ => cases hes

end Element

/-! ## Matching groups -/

namespace Matches

variable {operators : OperatorRegistry} {c : Context} {all : List Step} {m r : Matches}

theorem of_outcome_solutionsOf (hc : c.Repeatable) (hall : Step.AreNumbered all)
    {number : Nat} {query : Plan} (hquery : .subQuery number query ∈ all)
    (h : m.Remembers (fun query s => (query none).outcome c = .ok s) all)
    {x : Solutions × Matches} (hx : (solutionsOf number query m).outcome c = .ok x) :
    (query none).outcome c = .ok x.1 ∧ x.2.found = m.found ∧
      x.2.Remembers (fun query s => (query none).outcome c = .ok s) all := by
  unfold solutionsOf at hx
  split at hx
  · rename_i s hs
    cases hx
    exact ⟨h number query s hquery hs, rfl, h⟩
  · obtain ⟨s, hs, hx⟩ := outcome_bind_eq_ok hx (fun _ => .pure _) hc
    cases hx
    exact ⟨hs, rfl, h.cons hall hquery hs⟩

/-- Candidates that succeed add their rows one after the other. -/
theorem of_outcome_overCandidates {next : Binding → Matches → Eval Matches}
    (hsteady : ∀ b m, (next b m).Steady) (hc : c.Repeatable) {P : Matches → Prop}
    {rowsOf : Binding → List Binding} {bs : List Binding}
    (hnext : ∀ b ∈ bs, ∀ m r, P m → (next b m).outcome c = .ok r →
      r.found.toList = m.found.toList ++ rowsOf b ∧ P r) (hm : P m)
    (hr : (overCandidates none next bs m).outcome c = .ok r) :
    r.found.toList = m.found.toList ++ bs.flatMap rowsOf ∧ P r := by
  induction bs generalizing m with
  | nil =>
    cases hr
    exact ⟨by simp, hm⟩
  | cons b rest ih =>
    obtain ⟨m₁, hm₁, hr⟩ := outcome_bind_eq_ok hr
      (fun _ => overCandidates_steady hsteady none rest _) hc
    obtain ⟨hfound, hP⟩ := hnext b List.mem_cons_self m m₁ hm hm₁
    obtain ⟨hrest, hP⟩ := ih (fun b hb => hnext b (List.mem_cons_of_mem _ hb)) hP hr
    exact ⟨by rw [hrest, hfound, List.append_assoc, List.flatMap_cons], hP⟩

/-- Matching goes on with the answers of a sub-query, which are known after that. -/
theorem of_outcome_matchSteps_subQuery (hc : c.Repeatable) (hall : Step.AreNumbered all)
    {steps : List Step} (hsteps : ∀ s ∈ steps, s.Steady) {number : Nat} {query : Plan}
    (hsteady : query.Steady) (hquery : .subQuery number query ∈ all)
    (h : m.Remembers (fun query s => (query none).outcome c = .ok s) all) {b : Binding}
    (hr : (matchSteps none (.subQuery number query :: steps) b m).outcome c = .ok r) :
    ∃ s m', (query none).outcome c = .ok s ∧ m'.found = m.found ∧
      m'.Remembers (fun query s => (query none).outcome c = .ok s) all ∧
      (overCandidates none (matchSteps none steps) (s.rows.filterMap b.merge?)
        m').outcome c = .ok r := by
  have hgo (x : Solutions × Matches) := overCandidates_steady
    (matchSteps_steady hsteps none) none (x.1.rows.filterMap b.merge?) x.2
  obtain ⟨-, -, hr⟩ := outcome_bind_eq_ok hr
    (fun _ => (solutionsOf_steady hsteady number m).bind hgo) hc
  obtain ⟨x, hx, hr⟩ := outcome_bind_eq_ok hr hgo hc
  obtain ⟨hanswer, hfound, h⟩ := of_outcome_solutionsOf hc hall hquery h hx
  exact ⟨x.1, x.2, hanswer, hfound, h, hr⟩

/-- If matching a group succeeds, it finds the rows of the group. Only sub-queries
that are reached are known to have answers. -/
theorem found_of_isGroup (hc : c.Repeatable) (hall : Step.AreNumbered all)
    {es : List Element} {bound : List Var} (hes : Element.isGroup bound es = true)
    (hqueries : ∀ query, .subQuery query ∈ es → (query.plan operators).Steady) {i : Nat}
    (hsteps : ∀ s ∈ Element.steps operators i es, s.Steady)
    (hsub : Element.steps operators i es ⊆ all) {b : Binding}
    (h : m.Remembers (fun query s => (query none).outcome c = .ok s) all)
    (hr : (matchSteps none (Element.steps operators i es) b m).outcome c = .ok r) :
    r.found.toList = m.found.toList ++ Element.groupRows operators c es [b] ∧
      r.Remembers (fun query s => (query none).outcome c = .ok s) all := by
  induction es generalizing bound i b m r with
  | nil =>
    cases hr
    exact ⟨by simp [Element.groupRows], h⟩
  | cons e rest ih =>
    have hqueries' := fun query hquery => hqueries query (List.mem_cons_of_mem e hquery)
    -- every candidate adds the rows of the remaining elements
    have hover {bs : List Binding} {i : Nat} {bound : List Var} {m r : Matches}
        (hrest : Element.isGroup bound rest = true)
        (hsteps : ∀ s ∈ Element.steps operators i rest, s.Steady)
        (hsub : Element.steps operators i rest ⊆ all)
        (h : m.Remembers (fun query s => (query none).outcome c = .ok s) all)
        (hr : (overCandidates none (matchSteps none (Element.steps operators i rest)) bs
          m).outcome c = .ok r) :
        r.found.toList = m.found.toList ++ Element.groupRows operators c rest bs ∧
          r.Remembers (fun query s => (query none).outcome c = .ok s) all := by
      rw [Element.groupRows_flatMap]
      exact of_outcome_overCandidates (matchSteps_steady hsteps none) hc
        (fun b _ m r h hr => ih hrest hqueries' hsteps hsub h hr) h hr
    cases e with
    | path _ _ _ | assign _ _ => cases hes
    | triple p =>
      have hrest : Element.isGroup (bound ++ p.vars) rest = true := hes
      have hsteps := (List.forall_mem_cons.mp hsteps).2
      have hr := (outcome_matchSteps_triple hc hsteps p b m).symm.trans hr
      have hrows : Element.narrow operators c [b] (.triple p) =
          (p.rows c.view.facts).filterMap b.merge? := List.flatMap_singleton _ _
      rw [Element.groupRows, List.foldl_cons, hrows]
      exact hover hrest hsteps (List.cons_subset.mp hsub).2 h hr
    | subQuery query =>
      obtain ⟨-, hrest⟩ := Element.isGroup_subQuery.mp hes
      obtain ⟨hmem, hsub⟩ := List.cons_subset.mp hsub
      have hsteps := (List.forall_mem_cons.mp hsteps).2
      have hquery := hqueries query List.mem_cons_self
      obtain ⟨s, m', hanswer, hfound, h, hr⟩ :=
        of_outcome_matchSteps_subQuery hc hall hsteps (hquery.input i) hmem h hr
      rw [Plan.outcome_input hquery hc] at hanswer
      have hrows : Element.narrow operators c [b] (.subQuery query) =
          s.rows.filterMap b.merge? := by
        rw [Element.narrow, Plan.answers_of_outcome hanswer]
        exact List.flatMap_singleton _ _
      rw [Element.groupRows, List.foldl_cons, hrows, ← hfound]
      exact hover hrest hsteps hsub h hr
    | filter e =>
      obtain ⟨hplain, -, hrest⟩ := Element.isGroup_filter.mp hes
      have hsteps := (List.forall_mem_cons.mp hsteps).2
      have hr := (outcome_matchSteps_filter hc hsteps hplain b m).symm.trans hr
      have hrows : Element.narrow operators c [b] (.filter e) =
          if e.truth operators c b then [b] else [] := by
        simp [Element.narrow, List.filter_singleton]
      rw [Element.groupRows, List.foldl_cons, hrows]
      cases htruth : e.truth operators c b with
      | true =>
        rw [htruth] at hr
        exact ih hrest hqueries' hsteps (List.cons_subset.mp hsub).2 h hr
      | false =>
        -- the binding is dropped, and nothing is made of no rows
        rw [htruth] at hr
        cases hr
        refine ⟨?_, h⟩
        rw [if_neg Bool.false_ne_true]
        show _ = _ ++ Element.groupRows operators c rest []
        rw [Element.groupRows_flatMap]
        simp

end Matches

/-! ## Joins of groups -/

variable {operators : OperatorRegistry} {c : Context}

/-- The parts of a tree whose outcomes can be repeated. -/
theorem Element.query_steady {es : List Element} (h : Element.areRepeatable es = true)
    (hv : Var.AreGiven (Element.occurrencesIn es)) :
    ∀ query, .subQuery query ∈ es → (query.plan operators).Steady := by
  induction es with
  | nil => exact fun _ hquery => absurd hquery List.not_mem_nil
  | cons e rest ih =>
    intro query hquery
    cases e with
    | subQuery first =>
      simp only [Element.areRepeatable, Bool.and_eq_true] at h
      simp only [Element.occurrencesIn, Var.areGiven_append] at hv
      rcases List.mem_cons.mp hquery with heq | hrest
      · cases heq
        exact query.plan_steady h.1 hv.1
      · exact ih h.2 hv.2 query hrest
    | triple | path =>
      simp only [Element.occurrencesIn, Var.areGiven_append] at hv
      exact ih h hv.2 query (by simpa using hquery)
    | assign | filter =>
      simp only [Element.areRepeatable, Bool.and_eq_true] at h
      simp only [Element.occurrencesIn, Var.areGiven_append] at hv
      exact ih h.2 hv.2 query (by simpa using hquery)

/-- A join that succeeds pairs the rows of its sides. If there are no left rows, the
right side is not evaluated, and it may fail. -/
theorem Plan.rows_of_join {left right : Plan} {vs ws : List Var} {ls rs : List Binding}
    (hc : c.Repeatable) (hsteady : right.Steady)
    (hl : ∀ x, (left none).outcome c = .ok x → x.rows = ls ∧ x.Binds vs)
    (hr : ∀ y, (right none).outcome c = .ok y → y.rows = rs ∧ y.Binds ws) {o : Solutions}
    (ho : (left.join right none).outcome c = .ok o) : o.rows = Solutions.pairRows ls rs := by
  have hout : (left.join right none).outcome c = _ :=
    outcome_withRight hsteady (fun _ _ => .pure _) hc
  replace ho := hout.symm.trans ho
  cases hleft : (left none).outcome c with
  | error err =>
    rw [hleft] at ho
    cases ho
  | ok x =>
    obtain ⟨hxrows, hxbinds⟩ := hl x hleft
    rw [hleft] at ho
    by_cases hempty : x.isEmpty = true
    · cases (if_pos hempty).symm.trans ho
      rw [← hxrows, List.isEmpty_iff.mp hempty, Solutions.pairRows_nil_left]
      rfl
    · replace ho := (if_neg hempty).symm.trans ho
      cases hright : (right none).outcome c with
      | error err =>
        rw [hright] at ho
        cases ho
      | ok y =>
        obtain ⟨hyrows, hybinds⟩ := hr y hright
        rw [hright] at ho
        cases ho
        rw [(Solutions.rows_join hxbinds hybinds).1, hxrows, hyrows]

/-- A group as a basic graph pattern yields the rows of the group. -/
theorem Element.rows_of_isGroup (hc : c.IsOnMemory) {es : List Element}
    (hes : Element.isGroup [] es = true) (hv : Var.AreGiven (Element.occurrencesIn es))
    (ha : ∀ query, .subQuery query ∈ es → c.environment.AnswersBind query) {o : Solutions}
    (ho : ((Node.bgp es).plan operators none).outcome c = .ok o) :
    o.rows = Element.groupRows operators c es [.empty] ∧ o.Binds (Node.bgp es).vars := by
  have hrep := hc.repeatable
  have hreal := hc.isPlain.isReal
  have hrepeatable := areRepeatable_of_isGroup hes
  have hsteps : ∀ s ∈ Element.steps operators 0 es, s.Steady :=
    Element.steps_steady es 0 hrepeatable hv
  have hqueries : ∀ query, .subQuery query ∈ es →
      (query.plan operators).Starts c.environment false query.vars query.computed :=
    Element.queries_start es (Element.declareVars_of_areRepeatable es hrepeatable)
      fun query hquery => (ha query hquery).answersDeclare
  have hstarts := Element.steps_start (i := 0) hqueries (fun _ hv => mem_dedup.mpr hv) c hreal
  have ho := (Plan.outcome_observed_eq (Plan.bgp_steady hsteps _) hrep _ none).symm.trans ho
  obtain ⟨m, hm, -, hrows, hbinds⟩ := Plan.found_of_bgp hreal hstarts (Prod.ext ho rfl)
  rw [Context.start_of_unseeded hc.unseeded] at hm hbinds
  refine ⟨?_, hbinds⟩
  rw [hrows]
  exact (Matches.found_of_isGroup hrep (Element.steps_areNumbered es 0) hes
    (Element.query_steady hrepeatable hv) hsteps (List.Subset.refl _)
    (fun _ _ _ _ h => (by cases h)) (congrArg Prod.fst hm)).1

namespace Element

variable {bound bound' : List Var} {es fs : List Element}

theorem isGroup_mono (h : isGroup bound es = true) (hbound : bound ⊆ bound') :
    isGroup bound' es = true := by
  induction es generalizing bound bound' with
  | nil => rfl
  | cons e rest ih =>
    cases e with
    | triple p =>
      refine @ih (bound ++ p.vars) _ h fun v hv => ?_
      exact List.mem_append.mpr ((List.mem_append.mp hv).imp_left (hbound ·))
    | subQuery query =>
      obtain ⟨hquery, hrest⟩ := isGroup_subQuery.mp h
      exact isGroup_subQuery.mpr ⟨hquery, ih hrest hbound⟩
    | filter e =>
      obtain ⟨hplain, hvars, hrest⟩ := isGroup_filter.mp h
      exact isGroup_filter.mpr ⟨hplain, List.Subset.trans hvars hbound, ih hrest hbound⟩
    | path _ _ _ | assign _ _ => cases h

theorem isGroup_append (hes : isGroup bound es = true) (hfs : isGroup [] fs = true) :
    isGroup bound (es ++ fs) = true := by
  induction es generalizing bound with
  | nil => exact isGroup_mono hfs (List.nil_subset _)
  | cons e rest ih =>
    cases e with
    | triple p => exact @ih (bound ++ p.vars) hes
    | subQuery query =>
      obtain ⟨hquery, hrest⟩ := isGroup_subQuery.mp hes
      exact isGroup_subQuery.mpr ⟨hquery, ih hrest⟩
    | filter e =>
      obtain ⟨hplain, hvars, hrest⟩ := isGroup_filter.mp hes
      exact isGroup_filter.mpr ⟨hplain, hvars, ih hrest⟩
    | path _ _ _ | assign _ _ => cases hes

theorem vars_of_isGroup (h : isGroup bound es = true) {e : Expr} (he : filter e ∈ es) :
    e.vars ⊆ bound ++ boundByAll es := by
  induction es generalizing bound with
  | nil => cases he
  | cons element rest ih =>
    cases element with
    | triple p =>
      have hrest := @ih (bound ++ p.vars) h (by simpa using he)
      rwa [List.append_assoc] at hrest
    | subQuery query =>
      intro v hv
      have hrest := ih (isGroup_subQuery.mp h).2 (by simpa using he) hv
      exact List.mem_append.mpr ((List.mem_append.mp hrest).imp_right (List.mem_append_right _))
    | filter e' =>
      obtain ⟨-, hvars, hrest⟩ := isGroup_filter.mp h
      rcases List.mem_cons.mp he with heq | he
      · cases heq
        exact fun v hv => List.mem_append_left _ (hvars hv)
      · exact ih hrest he
    | path _ _ _ | assign _ _ => cases h

theorem occurrencesIn_append (es fs : List Element) :
    occurrencesIn (es ++ fs) = occurrencesIn es ++ occurrencesIn fs := by
  induction es with
  | nil => rfl
  | cons e rest ih => cases e <;> simp [occurrencesIn, ih]

end Element

namespace Query

/-- The filters of a group are about variables of the group. -/
theorem filtersAreClosed_of_isGroup {es : List Element}
    (h : Element.isGroup [] es = true) : filtersAreClosed es = true := by
  refine List.all_eq_true.mpr fun element helement => ?_
  cases element with
  | filter e =>
    refine List.all_eq_true.mpr fun v hv => ?_
    exact List.contains_iff_mem.mpr (Element.vars_of_isGroup h helement hv)
  | triple | path | assign | subQuery => rfl

/-- Joining two groups makes one basic graph pattern of them. Where this and the
join of the two patterns succeed, they yield the same rows in the same order. -/
theorem joinNodes_rows {operators : OperatorRegistry} {l r : List Element} {c : Context}
    (hc : c.IsOnMemory) (hl : Element.isGroup [] l = true) (hr : Element.isGroup [] r = true)
    (hv : Var.AreGiven (Node.bgp (l ++ r)).mentionedVariables)
    (ha : c.environment.AnswersBind (.bgp (l ++ r))) :
    joinNodes (.bgp l) (.bgp r) = .bgp (l ++ r) ∧
      ∀ p q p' q' folded joined,
        ((joinNodes (.bgp l) (.bgp r)).plan operators none).runFrom c p = (.ok folded, q) →
        ((Node.join (.bgp l) (.bgp r)).plan operators none).runFrom c p' = (.ok joined, q') →
        folded.rows = joined.rows := by
  have hjoin : joinNodes (.bgp l) (.bgp r) = .bgp (l ++ r) := by
    simp [joinNodes, filtersAreClosed_of_isGroup hl, filtersAreClosed_of_isGroup hr]
  refine ⟨hjoin, fun p q p' q' folded joined hfolded hjoined => ?_⟩
  rw [hjoin] at hfolded
  have hrep := hc.repeatable
  have hgiven : Var.AreGiven (Element.occurrencesIn l ++ Element.occurrencesIn r) := by
    rw [← Element.occurrencesIn_append]
    exact hv.of_subset fun _ hv => mem_dedup.mpr hv
  obtain ⟨hlv, hrv⟩ := Var.areGiven_append.mp hgiven
  have hqueries : ∀ query, .subQuery query ∈ l ++ r → c.environment.AnswersBind query :=
    fun query hquery => ha.of_any fun test ht => by
      simp [Node.any, Element.anyIn_of_mem hquery ht]
  have hlsteady : ((Node.bgp l).plan operators).Steady :=
    Node.plan_steady _ (Element.areRepeatable_of_isGroup hl) hlv
  have hrsteady : ((Node.bgp r).plan operators).Steady :=
    Node.plan_steady _ (Element.areRepeatable_of_isGroup hr) hrv
  have hlr := Element.isGroup_append hl hr
  have hlrsteady : ((Node.bgp (l ++ r)).plan operators).Steady :=
    Node.plan_steady _ (Element.areRepeatable_of_isGroup hlr)
      (by rw [Node.occurrences, Element.occurrencesIn_append]; exact hgiven)
  -- the folded pattern goes on with the rows of the first group
  have hrows : folded.rows = Element.groupRows operators c r
      (Element.groupRows operators c l [.empty]) := by
    rw [← Element.groupRows_append]
    exact (Element.rows_of_isGroup hc hlr
      (by rw [Element.occurrencesIn_append]; exact hgiven) hqueries
      ((hlrsteady none).outcome_of_runFrom hrep hfolded)).1
  -- the second group makes the same of the empty row, and this is joined with the first one
  have hpairs : Element.groupRows operators c r (Element.groupRows operators c l [.empty]) =
      Solutions.pairRows (Element.groupRows operators c l [.empty])
        (Element.groupRows operators c r [.empty]) := by
    rw [← Element.groupRows_pairRows hrep hr fun _ _ => List.nil_subset _,
      Solutions.pairRows_empty_right]
  have hsteady := (hlsteady.input 0).join (hrsteady.input 1)
  have hout := (hsteady.observed _ none).outcome_of_runFrom hrep hjoined
  rw [Plan.outcome_observed_eq hsteady hrep] at hout
  rw [hrows, hpairs]
  have hleft : ∀ x, (Plan.input 0 ((Node.bgp l).plan operators) none).outcome c = .ok x →
      x.rows = Element.groupRows operators c l [.empty] ∧ x.Binds (Node.bgp l).vars := by
    intro x hx
    rw [Plan.outcome_input hlsteady hrep] at hx
    exact Element.rows_of_isGroup hc hl hlv
      (fun query hquery => hqueries query (List.mem_append_left _ hquery)) hx
  have hright : ∀ y, (Plan.input 1 ((Node.bgp r).plan operators) none).outcome c = .ok y →
      y.rows = Element.groupRows operators c r [.empty] ∧ y.Binds (Node.bgp r).vars := by
    intro y hy
    rw [Plan.outcome_input hrsteady hrep] at hy
    exact Element.rows_of_isGroup hc hr hrv
      (fun query hquery => hqueries query (List.mem_append_right _ hquery)) hy
  exact (Plan.rows_of_join hrep (hrsteady.input 1) hleft hright hout).symm

/-- The edges that are not loops. -/
def sampleGroup : List Element :=
  [.triple ⟨.var ⟨"x"⟩, .term (.iri ⟨"p"⟩), .var ⟨"y"⟩⟩,
    .filter (.unary .not (.binary .sameTerm (.var ⟨"x"⟩) (.var ⟨"y"⟩)))]

/-- The same edges with the names of their ends, and the edges behind them. -/
def sampleNextGroup : List Element :=
  [.subQuery samplePattern,
    .triple ⟨.var ⟨"y"⟩, .term (.iri ⟨"p"⟩), .var ⟨"z"⟩⟩,
    .filter (.unary .not (.binary .sameTerm (.var ⟨"y"⟩) (.var ⟨"z"⟩)))]

theorem joinNodes_rows_sample :
    ∃ folded q joined q',
      ((joinNodes (.bgp sampleGroup) (.bgp sampleNextGroup)).plan .empty none).runFrom
        sampleContext (.initial sampleContext.environment) = (.ok folded, q) ∧
      ((Node.join (.bgp sampleGroup) (.bgp sampleNextGroup)).plan .empty none).runFrom
        sampleContext (.initial sampleContext.environment) = (.ok joined, q') ∧
      folded.rows = joined.rows ∧ folded.size = 1 := by
  have hsize : ((joinNodes (.bgp sampleGroup) (.bgp sampleNextGroup)).plan .empty
      none).runFrom sampleContext (.initial sampleContext.environment) |>.1.toOption.map
        (·.size) = some 1 := by decide +kernel
  have hsize' : ((Node.join (.bgp sampleGroup) (.bgp sampleNextGroup)).plan .empty
      none).runFrom sampleContext (.initial sampleContext.environment) |>.1.toOption.map
        (·.size) = some 1 := by decide +kernel
  obtain ⟨-, hrows⟩ := @joinNodes_rows .empty sampleGroup sampleNextGroup sampleContext
    sampleContext_isOnMemory rfl rfl (.of_all (by decide +kernel))
    (sampleContext_answersBind rfl)
  obtain ⟨folded, q, hfolded, hsize⟩ := exists_ok_of_map hsize
  obtain ⟨joined, q', hjoined, -⟩ := exists_ok_of_map hsize'
  exact ⟨folded, q, joined, q', hfolded, hjoined,
    hrows _ _ _ _ folded joined hfolded hjoined, hsize⟩

end Query

end SparqlAlgebra
