import SparqlAlgebra.Proofs.Calculations
import SparqlAlgebra.Proofs.DryRuns

/-!
# Conditions do not fail

A condition that asks for no matches has a verdict on every solution, whichever functions it
calls: its errors are absorbed, and they count as false. So the operators that ask conditions
fail only if one of their inputs does.

* `Meaning.verdict` is what a condition says of a row, and `Meaning.satisfying` the rows that
  it is true of, as they are numbered and looked at one after the other;
* `Meaning.Calculates.runFrom_retainM`: these rows are what is kept of solutions;
* `Plan.filter_run` and `Plan.leftJoin_run` are about the operators, given runs of their inputs;
* `Node.conditions_succeed` is about the nodes.

A dry run keeps its placeholder whatever the condition says.
-/

namespace SparqlAlgebra

open Eval

/-! ## Verdicts -/

namespace Meaning

/-- Whether a condition is true of a row that is looked at after a number of calls, and the
number of calls after that. -/
def verdict (m : Meaning) (c : Context) (row : Row) (calls : Nat) : Bool × Nat :=
  match (m.test row).after c calls with
  | (.ok holds, n) => (holds, n)
  | (.error _, n) => (false, n)

/-- The rows that a condition is true of. The rows are numbered from `id` on, and each of them
is looked at after the calls for the rows before it. -/
def satisfying (m : Meaning) (c : Context) : Nat → Nat → List Binding → List Binding
  | _, _, [] => []
  | id, calls, b :: rest =>
    let (holds, n) := m.verdict c ⟨b, id⟩ calls
    let kept := m.satisfying c (id + 1) n rest
    if holds then b :: kept else kept

variable {m : Meaning} {c c' : Context}

/-- Of the context a verdict depends on what calls depend on. -/
theorem Calculates.verdict_congr (h : m.Calculates) (hs : c.CallsAlike c') (row : Row)
    (calls : Nat) : m.verdict c' row calls = m.verdict c row calls := by
  unfold verdict
  rw [(h.test row).after_congr hs]

theorem Calculates.satisfying_congr (h : m.Calculates) (hs : c.CallsAlike c')
    (rows : List Binding) (id calls : Nat) :
    m.satisfying c' id calls rows = m.satisfying c id calls rows := by
  induction rows generalizing id calls with
  | nil => rfl
  | cons b rest ih => simp only [satisfying, h.verdict_congr hs, ih]

theorem satisfying_sublist (rows : List Binding) (id calls : Nat) :
    (m.satisfying c id calls rows).Sublist rows := by
  induction rows generalizing id calls with
  | nil => exact .slnil
  | cons b rest ih =>
    simp only [satisfying]
    split
    · exact (ih _ _).cons_cons b
    · exact (ih _ _).cons b

/-- A condition is asked about the next row, and it has an answer. -/
theorem Calculates.runFrom_holds (h : m.Calculates) (hmild : m.IsMild) (hc : c.HasBuiltins)
    (b : Binding) (p : Progress) :
    (m.holds b).runFrom c p =
      (.ok (m.verdict c ⟨b, p.solutions + 1⟩ p.calls).1,
        { p with
          solutions := p.solutions + 1
          calls := (m.verdict c ⟨b, p.solutions + 1⟩ p.calls).2 }) := by
  have hrun := (h.test ⟨b, p.solutions + 1⟩).runFrom_eq c { p with solutions := p.solutions + 1 }
  unfold holds verdict
  simp only [act_eval, absorb_eval]
  rw [runFrom_bind_ok c p (runFrom_newSolutionId c p), runFrom_bind, runFrom_absorb, hrun]
  rcases hafter : (m.test ⟨b, p.solutions + 1⟩).after c p.calls with ⟨r, n⟩
  simp only [hafter] at hrun ⊢
  cases r with
  | ok holds => rfl
  | error e =>
    -- errors that are not absorbable would go on from here
    have he : e.isAbsorbable = true := hmild.test _ c hc _ e _ hrun
    simp only [he, if_true]
    rfl

theorem Calculates.runFrom_keepM (h : m.Calculates) (hmild : m.IsMild) (hc : c.HasBuiltins)
    (rows : List Binding) (p : Progress) :
    ∃ n, (Solutions.keepM m.holds rows).runFrom c p =
      (.ok (m.satisfying c (p.solutions + 1) p.calls rows),
        { p with solutions := p.solutions + rows.length, calls := n }) := by
  induction rows generalizing p with
  | nil => exact ⟨p.calls, rfl⟩
  | cons b rest ih =>
    -- the rest is looked at from the next number on
    obtain ⟨n, hrest⟩ := ih { p with
      solutions := p.solutions + 1
      calls := (m.verdict c ⟨b, p.solutions + 1⟩ p.calls).2 }
    refine ⟨n, ?_⟩
    rw [Solutions.keepM_cons, runFrom_bind_ok c p (h.runFrom_holds hmild hc b p),
      runFrom_bind_ok c _ hrest, runFrom_pure]
    simp only [satisfying, List.length_cons, Nat.add_assoc, Nat.add_comm 1]

/-- Solutions are kept if the condition is true of them. -/
theorem Calculates.runFrom_retainM (h : m.Calculates) (hmild : m.IsMild)
    (hc : c.HasBuiltins) {s : Solutions} (hs : s.isSingleton = false) (p : Progress) :
    ∃ n, (s.retainM m.holds).runFrom c p =
      (.ok (.ofRows s.vars (m.satisfying c (p.solutions + 1) p.calls s.rows)),
        { p with solutions := p.solutions + s.rows.length, calls := n }) := by
  obtain ⟨n, hrun⟩ := h.runFrom_keepM hmild hc s.rows p
  refine ⟨n, ?_⟩
  rw [Solutions.retainM_eq_ofRows _ hs, runFrom_bind_ok c p hrun]
  rfl

end Meaning

/-! ## Left joins -/

namespace Solutions

variable {condition : Binding → Eval Bool}

theorem keepM_succeeds (h : ∀ b, (condition b).Succeeds) (rows : List Binding) :
    (keepM condition rows).Succeeds := by
  induction rows with
  | nil => exact .pure _
  | cons b rest ih =>
    rw [keepM_cons]
    exact (h b).bind fun _ => ih.bind fun _ => .pure _

theorem leftRowsM_succeeds (h : ∀ b, (condition b).Succeeds)
    (candidates : Binding → List Binding) (rows : List Binding) :
    (leftRowsM condition candidates rows).Succeeds := by
  induction rows with
  | nil => exact .pure _
  | cons b rest ih =>
    have hmerges : (mergesM condition b (candidates b)).Succeeds := by
      rw [mergesM_eq]
      exact keepM_succeeds h _
    exact hmerges.bind fun _ => ih.bind fun _ => .pure _

/-- A left join is made of runs of its condition. -/
theorem leftJoinM_succeeds (h : ∀ b, (condition b).Succeeds) (l r : Solutions) :
    (l.leftJoinM r condition).Succeeds := by
  by_cases hl : l = .null
  · subst hl
    exact .pure _
  by_cases hr : r = .null
  · subst hr
    rw [leftJoinM_null]
    exact .pure _
  by_cases hreal : l.isSingleton = false ∧ r.isSingleton = false
  · rw [leftJoinM_eq_ofRows condition hreal.1 hreal.2 hl hr]
    exact (leftRowsM_succeeds h _ _).bind fun _ => .pure _
  · -- with a placeholder on one side there are only variables to join
    cases l <;> cases r <;> first
      | exact .pure _
      | exact absurd rfl hl
      | exact absurd rfl hr
      | exact absurd ⟨rfl, rfl⟩ hreal

end Solutions

/-! ## Operators -/

namespace Plan

variable {inner left right : Plan} {condition : Binding → Eval Bool} {c : Context}
  {p q : Progress} {s l r : Solutions}

/-- A filter keeps of the solutions of its input. -/
theorem filter_run (h : (inner none).runFrom c p = (.ok s, q)) :
    (inner.filter condition none).runFrom c p = (s.retainM condition).runFrom c q := by
  have hfilter : inner.filter condition none =
      inner none >>= fun found => found.retainM condition := by
    simp [filter, mapPrefix, fromPrefix]
  rw [hfilter, runFrom_bind_ok c p h]

/-- A left join has both inputs, unless the left one is empty. -/
theorem leftJoin_run (hleft : (left none).runFrom c p = (.ok l, q)) {q' : Progress}
    (hright : (right none).runFrom c q = (.ok r, q')) :
    (left.leftJoin right condition none).runFrom c p =
      if l.isEmpty then (.ok .null, q) else (l.leftJoinM r condition).runFrom c q' := by
  have hjoin : left.leftJoin right condition none = left none >>= fun l =>
      if l.isEmpty then pure .null else right none >>= fun r => l.leftJoinM r condition := by
    simp only [leftJoin, withRight, fromPrefix, remembered]
    congr 1
    funext l
    cases l.isEmpty <;> simp
  rw [hjoin, runFrom_bind_ok c p hleft]
  split
  · rfl
  · rw [runFrom_bind_ok c q hright]

/-- Observers are told of a run that ends with solutions. -/
theorem observed_run {plan : Plan} {name : String} {demand : Demand}
    (hc : c.environment.timedOut = false)
    (h : (plan demand).runFrom { c with depth := c.depth + 1 }
      { p with log := .before name c.depth :: p.log } = (.ok s, q)) :
    (plan.observed name demand).runFrom c p =
      (.ok s, { q with log := .after name c.depth c.place s :: q.log }) := by
  have htime : checkTime.runFrom c p = (.ok (), p) := by
    rw [runFrom_checkTime, hc]
    rfl
  unfold observed
  simp only [act_eval, deeper_eval]
  rw [runFrom_bind_ok c p htime, runFrom_bind_ok c p (runFrom_read c p),
    runFrom_bind_ok c p (runFrom_record c p _), runFrom_bind_ok c _ h]
  rfl

/-- Where solutions were found there was time left, and the plan found them. -/
theorem of_observed {plan : Plan} {name : String} {demand : Demand}
    (h : (plan.observed name demand).runFrom c p = (.ok s, q)) :
    c.environment.timedOut = false ∧ ∃ q', (plan demand).runFrom { c with depth := c.depth + 1 }
      { p with log := .before name c.depth :: p.log } = (.ok s, q') := by
  rw [observed, act_eval, runFrom_bind, runFrom_checkTime] at h
  cases htime : c.environment.timedOut with
  | true =>
    rw [htime] at h
    cases h
  | false =>
    simp only [htime, Bool.false_eq_true, if_false, act_eval] at h
    rw [runFrom_bind_ok c p (runFrom_read c p), runFrom_bind_ok c p (runFrom_record c p _)] at h
    obtain ⟨result, q', hplan, hend⟩ := runFrom_bind_eq_ok h
    cases hend
    exact ⟨rfl, q', hplan⟩

end Plan

/-! ## Nodes -/

/-- The context that a node has its input with a number evaluated in. -/
def Context.atInput (c : Context) (i : Nat) : Context :=
  { c with depth := c.depth + 1, place := c.place.map (· ++ [i]) }

/-- The progress when observers have been told that a node begins. -/
def Progress.begun (p : Progress) (n : Node) (c : Context) : Progress :=
  { p with log := .before n.name c.depth :: p.log }

namespace Node

variable {operators : OperatorRegistry} {c : Context} {p q : Progress} {s : Solutions}

/-- Every node looks at the clock. -/
theorem inTime_of_run {n : Node} {demand : Demand}
    (h : (n.plan operators demand).runFrom c p = (.ok s, q)) :
    c.environment.timedOut = false := by
  cases n
  case leftJoin l r e => cases e <;> exact (Plan.of_observed h).1
  all_goals exact (Plan.of_observed h).1

/-- The conditions of filters and of groups are asked about the solutions of the input. -/
theorem run_of_condition {n inner : Node} {e : Expr}
    (hn : n = .filter inner e ∨ n = .having inner e) (he : e.containsMatch = false)
    (hc : c.HasBuiltins)
    (hinner : (inner.plan operators none).runFrom (c.atInput 0) (p.begun n c) = (.ok s, q)) :
    ∃ out r, (n.plan operators none).runFrom c p = (.ok out, r) ∧
      (s.isSingleton = true → out = s) ∧
      (s.isSingleton = false → out = .ofRows s.vars
        ((e.meaning operators).satisfying c (q.solutions + 1) q.calls s.rows)) := by
  have hmild : (e.meaning operators).IsMild := e.meaning_mild he
  have hcalc : (e.meaning operators).Calculates := e.meaning_calculates he
  have htime : c.environment.timedOut = false := inTime_of_run (c := c.atInput 0) hinner
  have hplan : n.plan operators = Plan.observed n.name
      (Plan.filter (.input 0 (inner.plan operators)) (e.meaning operators).holds) := by
    rcases hn with rfl | rfl <;> rfl
  have hfilter : (Plan.filter (.input 0 (inner.plan operators)) (e.meaning operators).holds
      none).runFrom { c with depth := c.depth + 1 } (p.begun n c) =
      (s.retainM (e.meaning operators).holds).runFrom { c with depth := c.depth + 1 } q :=
    Plan.filter_run hinner
  rw [hplan]
  cases hs : s.isSingleton with
  | true =>
    -- the condition is not asked about a placeholder
    obtain ⟨vs, rfl⟩ : ∃ vs, s = .singleton vs := by
      cases s <;> first | exact ⟨_, rfl⟩ | cases hs
    exact ⟨_, _, Plan.observed_run htime hfilter, fun _ => rfl, nofun⟩
  | false =>
    obtain ⟨k, hretain⟩ := hcalc.runFrom_retainM (c := { c with depth := c.depth + 1 }) hmild hc
      hs q
    refine ⟨_, _, Plan.observed_run htime (hfilter.trans hretain), nofun, fun _ => ?_⟩
    have halike : c.CallsAlike { c with depth := c.depth + 1 } := ⟨rfl, rfl⟩
    rw [hcalc.satisfying_congr halike]

/-- The condition of a left join is asked about the solutions of its inputs together. -/
theorem run_of_leftJoin {left right : Node} {e : Expr} (he : e.containsMatch = false)
    (hc : c.HasBuiltins) {q' : Progress} {l r : Solutions}
    (hleft : (left.plan operators none).runFrom (c.atInput 0)
      (p.begun (.leftJoin left right (some e)) c) = (.ok l, q))
    (hright : (right.plan operators none).runFrom (c.atInput 1) q = (.ok r, q')) :
    ∃ out p', ((Node.leftJoin left right (some e)).plan operators none).runFrom c p =
      (.ok out, p') := by
  have hmild : (e.meaning operators).IsMild := e.meaning_mild he
  have htime : c.environment.timedOut = false := inTime_of_run (c := c.atInput 0) hleft
  -- the inputs are evaluated under their numbers
  have hfirst : (Plan.input 0 (left.plan operators) none).runFrom
      { c with depth := c.depth + 1 } (p.begun (.leftJoin left right (some e)) c) =
        (.ok l, q) := hleft
  have hsecond : (Plan.input 1 (right.plan operators) none).runFrom
      { c with depth := c.depth + 1 } q = (.ok r, q') := hright
  have hjoin := @Plan.leftJoin_run _ _ (e.meaning operators).holds _ _ _ _ _ hfirst q' hsecond
  obtain ⟨out, q'', hmerge⟩ := (Solutions.leftJoinM_succeeds hmild.holds l r).runFrom_eq
    (c := { c with depth := c.depth + 1 }) hc q'
  rw [hmerge] at hjoin
  split at hjoin
  · exact ⟨_, _, Plan.observed_run htime hjoin⟩
  · exact ⟨_, _, Plan.observed_run htime hjoin⟩

/-- **Conditions do not fail.** Whichever functions an expression without patterns calls, the
errors of its value and of its truth are absorbable, provided that there is a function under
the name of every builtin one. So a filter, a condition on groups and a left join that have
the expression as their condition succeed if their inputs do, and the first two return the
solutions of the input that the condition is true of, in their order, provided that those of an
input without variables are empty. The placeholder of a dry run stays as it is. -/
theorem conditions_succeed {e : Expr} (he : e.containsMatch = false) (hc : c.HasBuiltins) :
    (∀ row p err q, ((e.meaning operators).value row).runFrom c p = (.error err, q) →
        err.isAbsorbable = true) ∧
      (∀ row p err q, ((e.meaning operators).test row).runFrom c p = (.error err, q) →
        err.isAbsorbable = true) ∧
      (∀ n inner : Node, n = .filter inner e ∨ n = .having inner e →
        ∀ (p q : Progress) (s : Solutions),
        (inner.plan operators none).runFrom (c.atInput 0) (p.begun n c) = (.ok s, q) →
        ∃ out r, (n.plan operators none).runFrom c p = (.ok out, r) ∧
          (s.isSingleton = true → out = s) ∧
          (s.isSingleton = false →
            let kept := (e.meaning operators).satisfying c (q.solutions + 1) q.calls s.rows
            out = .ofRows s.vars kept ∧
              ((s.vars = [] → ∀ row ∈ s.rows, row = .empty) → out.rows = kept))) ∧
      ∀ (left right : Node) (p q q' : Progress) (l r : Solutions),
        (left.plan operators none).runFrom (c.atInput 0)
            (p.begun (.leftJoin left right (some e)) c) = (.ok l, q) →
        (right.plan operators none).runFrom (c.atInput 1) q = (.ok r, q') →
        ∃ out p', ((Node.leftJoin left right (some e)).plan operators none).runFrom c p =
          (.ok out, p') := by
  have hmild : (e.meaning operators).IsMild := e.meaning_mild he
  refine ⟨fun row p err q h => hmild.value row c hc p err q h,
    fun row p err q h => hmild.test row c hc p err q h, ?_, ?_⟩
  · intro n inner hn p q s hinner
    obtain ⟨out, r, hrun, hsame, hrows⟩ := run_of_condition hn he hc hinner
    refine ⟨out, r, hrun, hsame, fun hs => ⟨hrows hs, fun hempty => ?_⟩⟩
    rw [hrows hs]
    refine Solutions.rows_ofRows_of_empty fun hvars row hrow => ?_
    exact hempty hvars row ((Meaning.satisfying_sublist _ _ _).subset hrow)
  · intro left right p q q' l r hleft hright
    exact run_of_leftJoin he hc hleft hright

/-- Two rows with a value and one without. -/
def sampleTested : Node :=
  .values [⟨"x"⟩] [[some (.iri ⟨"a"⟩)], [some (.iri ⟨"b"⟩)], [none]]

def sampleSolutions : Solutions :=
  .table [⟨"x"⟩] [.ofEntries [(⟨"x"⟩, .iri ⟨"a"⟩)], .ofEntries [(⟨"x"⟩, .iri ⟨"b"⟩)], .empty]

/-- A condition with an error on every row. -/
def sampleCondition : Expr :=
  .binary .or (.call (.custom ⟨"http://example.com/f"⟩) [.var ⟨"x"⟩])
    (.binary .equal (.var ⟨"x"⟩) (.constant (.iri ⟨"a"⟩)))

theorem conditions_succeed_sample :
    sampleCondition.containsMatch = false ∧ sampleContext.HasBuiltins ∧
      ∃ out r, ((Node.filter sampleTested sampleCondition).plan .empty none).runFrom
          sampleContext (.initial sampleContext.environment) = (.ok out, r) ∧
        out.rows = [.ofEntries [(⟨"x"⟩, .iri ⟨"a"⟩)]] := by
  have hbuiltins : sampleContext.HasBuiltins := fun _ => rfl
  obtain ⟨-, -, hfilter, -⟩ :=
    @conditions_succeed .empty sampleContext sampleCondition rfl hbuiltins
  have hinner : ((sampleTested.plan .empty none).runFrom (sampleContext.atInput 0)
      ((Progress.initial sampleContext.environment).begun
        (.filter sampleTested sampleCondition) sampleContext)).1 = .ok sampleSolutions := by
    decide +kernel
  obtain ⟨out, r, hrun, -, hrows⟩ := hfilter _ sampleTested (.inl rfl) _ _ _ (Prod.ext hinner rfl)
  refine ⟨rfl, hbuiltins, out, r, hrun, ?_⟩
  rw [(hrows rfl).2 (by simp [sampleSolutions, Solutions.vars])]
  decide +kernel

/-- The placeholder of a dry run has a row, and a filter by a false condition keeps it. -/
theorem filter_keeps_placeholder :
    ¬ ∀ (inner : Node) (e : Expr) (c : Context) (p q r : Progress) (s out : Solutions),
      e.containsMatch = false → c.HasBuiltins →
      (inner.plan .empty none).runFrom (c.atInput 0) (p.begun (.filter inner e) c) =
        (.ok s, q) →
      ((Node.filter inner e).plan .empty none).runFrom c p = (.ok out, r) →
      out.rows = (e.meaning .empty).satisfying c (q.solutions + 1) q.calls s.rows := by
  intro h
  have hinner : ((sampleTested.plan .empty none).runFrom (dryContext.atInput 0)
      ((Progress.initial dryContext.environment).begun
        (.filter sampleTested (.bound ⟨"y"⟩)) dryContext)).1 = .ok (.singleton [⟨"x"⟩]) := by
    decide +kernel
  have hrun : (((Node.filter sampleTested (.bound ⟨"y"⟩)).plan .empty none).runFrom dryContext
      (.initial dryContext.environment)).1 = .ok (.singleton [⟨"x"⟩]) := by decide +kernel
  have hrows := h _ _ _ _ _ _ _ _ rfl (fun _ => rfl) (Prod.ext hinner rfl) (Prod.ext hrun rfl)
  have hnone : ∀ id calls, ((Expr.bound ⟨"y"⟩).meaning .empty).satisfying dryContext id calls
      [.empty] = [] := fun _ _ => rfl
  rw [show (Solutions.singleton [⟨"x"⟩]).rows = [.empty] from rfl, hnone] at hrows
  cases hrows

end Node

end SparqlAlgebra
