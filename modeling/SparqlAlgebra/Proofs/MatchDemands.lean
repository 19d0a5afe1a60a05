import SparqlAlgebra.Proofs.Laziness
import SparqlAlgebra.Proofs.SeededDemands

/-!
# Looking for matches of a pattern

Whether a solution has a match is decided by asking its pattern for more and more
solutions, from that solution as the seed. The answer is the one that can be read off
all solutions of the pattern, if the pattern honours its demands from the seed.

* `Node.isPrompt`: what is asked of a pattern reaches operators that do not hold
  solutions back. A projection holds back solutions that a computed variable makes
  incompatible with the seed, and a limit asks its input for less than is needed;
* `Node.plan_honours` is the induction over the tree;
* `Node.hasMatch_eq_any`: the answer for prompt patterns;
* `Node.hasMatch_misses_row`: a projection for which the answer is wrong.
-/

namespace SparqlAlgebra

open Eval

/-! ## Prompt patterns -/

/-- Whether a pattern yields as many solutions as are asked of it, from a seed that
binds known variables only. Operators that take all solutions of an input at once do
not ask it for a number of them. -/
def Node.isPrompt (known : List Var) : Node → Bool
  | .join l _ | .leftJoin l _ _ | .minus l _ | .existsJoin l _ _ => l.isPrompt known
  | .union l r => l.isPrompt known && r.isPrompt known
  | .filter inner _ | .having inner _ | .distinct inner | .reduced inner
  | .slice inner _ _ | .graph inner (.iri _) => inner.isPrompt known
  | .extend inner v _ => inner.isPrompt (known.filter (· ≠ v))
  | .project inner vs =>
    inner.isPrompt (known.filter (vs.contains ·)) &&
      vs.all fun v => !(inner.computed.contains v && known.contains v)
  | .bgp _ | .group _ _ _ | .orderBy _ _ | .service _ _ _ _ | .ask _ | .values _ _
  | .pathSearch _ _ _ => true
  | .limit _ _ | .graph _ (.var _) | .custom _ _ _ => false

variable {operators : OperatorRegistry} {e : Environment}

open Var (AreGiven areGiven_append)

/-- A pattern that ignores demands honours them. -/
theorem Node.honours_of_constant {n : Node} {known : List Var} {plan : Plan} {name : String}
    (hplan : n.plan operators = plan.observed name)
    (hconstant : ∀ demand, plan demand = plan none) (hn : n.isRepeatable = true)
    (hv : AreGiven n.occurrences) (hd : n.declaresVars true = true)
    (ha : e.AnswersDeclare true n) : Plan.Honours e known n.vars (n.plan operators) := by
  refine ⟨Plan.heeds_of_constant (n.plan_starts hd ha) (n.plan_steady hn hv) fun demand => ?_,
    fun c hc m hm => ?_⟩
  · rw [hplan, Plan.observed, Plan.observed, hconstant demand]
  · rw [hplan] at hm
    exact (Plan.yields_observed hc.toRepeatable hm).2

/-- A prompt pattern honours demands from every seed with known variables. Only what
is asked of inputs is looked into; the other inputs start from the seed. -/
theorem Node.plan_honours : ∀ (n : Node) {known : List Var}, n.isPrompt known = true →
    n.isRepeatable = true → AreGiven n.occurrences → n.declaresVars true = true →
    e.AnswersDeclare true n → Plan.Honours e known n.vars (n.plan operators)
  | .bgp es, _, _, hn, hv, hd, ha => by
    have hqueries : ∀ query, .subQuery query ∈ es →
        (query.plan operators).Starts e true query.vars query.computed :=
      Element.queries_start es hd fun query hquery => ha.of_any fun test ht => by
        simp [Node.any, Element.anyIn_of_mem hquery ht]
    have hstarts := fun c hc =>
      Element.steps_start (i := 0) hqueries (fun _ hv => mem_dedup.mpr hv) c hc
    exact (Plan.bgp_heeds (Element.steps_steady es 0 hn hv) hstarts
      (Element.steps_areNumbered es 0)).observed _
  | .join l r, _, hp, hn, hv, hd, ha => by
    simp only [Node.isRepeatable, Bool.and_eq_true] at hn
    simp only [Node.occurrences, areGiven_append] at hv
    simp only [Node.declaresVars, Bool.and_eq_true] at hd
    have hl := l.plan_honours hp hn.1 hv.1.1 hd.1 (ha.of_any fun _ ht => by simp [Node.any, ht])
    have hr : (r.plan operators).Starts e true r.vars r.computed := r.plan_starts hd.2
      (ha.of_any fun _ ht => by simp [Node.any, ht])
    exact ((hl.input 0).join ((r.plan_steady hn.2 hv.1.2).input 1) (hr.input 1)).observed _
  | .leftJoin l r none, _, hp, hn, hv, hd, ha => by
    simp only [Node.isRepeatable, Bool.and_eq_true] at hn
    simp only [Node.occurrences, areGiven_append] at hv
    simp only [Node.declaresVars, Bool.and_eq_true] at hd
    have hl := l.plan_honours hp hn.1 hv.1.1 hd.1 (ha.of_any fun _ ht => by simp [Node.any, ht])
    have hr : (r.plan operators).Starts e true r.vars r.computed := r.plan_starts hd.2
      (ha.of_any fun _ ht => by simp [Node.any, ht])
    exact ((hl.input 0).leftJoin ((r.plan_steady hn.2 hv.1.2).input 1) (hr.input 1)
      fun _ => .pure _).observed _
  | .leftJoin l r (some condition), _, hp, hn, hv, hd, ha => by
    simp only [Node.isRepeatable, Bool.and_eq_true] at hn
    simp only [Node.occurrences, areGiven_append] at hv
    simp only [Node.declaresVars, Bool.and_eq_true] at hd
    have hl := l.plan_honours hp hn.1.1 hv.1.1.1 hd.1
      (ha.of_any fun _ ht => by simp [Node.any, ht])
    have hr : (r.plan operators).Starts e true r.vars r.computed := r.plan_starts hd.2
      (ha.of_any fun _ ht => by simp [Node.any, ht])
    have hcondition : (condition.meaning operators).Steady :=
      condition.meaning_steady hn.2 hv.1.2
    exact ((hl.input 0).leftJoin ((r.plan_steady hn.1.2 hv.1.1.2).input 1) (hr.input 1)
      hcondition.holds).observed _
  | .union l r, _, hp, hn, hv, hd, ha => by
    simp only [Node.isPrompt, Bool.and_eq_true] at hp
    simp only [Node.isRepeatable, Bool.and_eq_true] at hn
    simp only [Node.occurrences, areGiven_append] at hv
    simp only [Node.declaresVars, Bool.and_eq_true] at hd
    have hl := l.plan_honours hp.1 hn.1 hv.1.1 hd.1
      (ha.of_any fun _ ht => by simp [Node.any, ht])
    have hr := r.plan_honours hp.2 hn.2 hv.1.2 hd.2
      (ha.of_any fun _ ht => by simp [Node.any, ht])
    exact ((hl.input 0).union (hr.input 1)).observed _
  | .minus l r, _, hp, hn, hv, hd, ha => by
    simp only [Node.isRepeatable, Bool.and_eq_true] at hn
    simp only [Node.occurrences, areGiven_append] at hv
    simp only [Node.declaresVars, Bool.and_eq_true] at hd
    have hl := l.plan_honours hp hn.1 hv.1.1 hd.1 (ha.of_any fun _ ht => by simp [Node.any, ht])
    have hr : (r.plan operators).Starts e false r.vars r.computed := r.plan_starts hd.2
      (ha.unseeded.of_any fun _ ht => by simp [Node.any, ht])
    exact ((hl.input 0).minus ((r.plan_steady hn.2 hv.1.2).input 1) (hr.input 1)).observed _
  | .existsJoin l r negated, _, hp, hn, hv, hd, ha => by
    simp only [Node.isRepeatable, Bool.and_eq_true] at hn
    simp only [Node.occurrences, areGiven_append] at hv
    have hl := l.plan_honours hp hn.1 hv.1.1 hd (ha.of_any fun _ ht => by simp [Node.any, ht])
    exact ((hl.input 0).existsJoin ((r.plan_steady hn.2 hv.1.2).input 1) negated).observed _
  | .filter inner condition, _, hp, hn, hv, hd, ha
  | .having inner condition, _, hp, hn, hv, hd, ha => by
    simp only [Node.isRepeatable, Bool.and_eq_true] at hn
    simp only [Node.occurrences, areGiven_append] at hv
    have h := inner.plan_honours hp hn.1 hv.1.1 hd
      (ha.of_any fun _ ht => by simp [Node.any, ht])
    have hcondition : (condition.meaning operators).Steady :=
      condition.meaning_steady hn.2 hv.1.2
    exact ((h.input 0).filter hcondition.holds).observed _
  | .extend inner v value, _, hp, hn, hv, hd, ha => by
    simp only [Node.isRepeatable, Bool.and_eq_true] at hn
    simp only [Node.occurrences, areGiven_append] at hv
    have h := inner.plan_honours hp hn.1 hv.1.1 hd
      (ha.of_any fun _ ht => by simp [Node.any, ht])
    have hvalue : (value.meaning operators).Steady := value.meaning_steady hn.2 hv.1.2
    exact ((h.input 0).extend (value.assignment_steady hvalue)).observed _
  | .distinct inner, _, hp, hn, hv, hd, ha => by
    simp only [Node.occurrences, areGiven_append] at hv
    have h := inner.plan_honours hp hn hv.1 hd (ha.of_any fun _ ht => by simp [Node.any, ht])
    exact (h.input 0).distinct.observed _
  | .reduced inner, _, hp, hn, hv, hd, ha => by
    simp only [Node.occurrences, areGiven_append] at hv
    have h := inner.plan_honours hp hn hv.1 hd (ha.of_any fun _ ht => by simp [Node.any, ht])
    exact (h.input 0).toHeeds.observed _
  | .project inner vs, known, hp, hn, hv, hd, ha => by
    simp only [Node.isPrompt, Bool.and_eq_true, List.all_eq_true, Bool.not_eq_true',
      Bool.and_eq_false_iff] at hp
    simp only [Node.occurrences, areGiven_append] at hv
    have ha : e.AnswersDeclare true inner := ha.of_any fun _ ht => by simp [Node.any, ht]
    have h := inner.plan_honours hp.1 hn hv.1 hd ha
    -- no computed variable can make a solution incompatible with the seed
    have hown : ∀ v ∈ vs, v ∈ inner.computed → v ∉ known := fun v hvs hcomputed hknown => by
      simpa [hcomputed, hknown] using hp.2 v hvs
    exact ((h.input 0).project ((inner.plan_starts hd ha).input 0) hown).observed _
  | .slice inner offset count, _, hp, hn, hv, hd, ha => by
    simp only [Node.occurrences, areGiven_append] at hv
    have h := inner.plan_honours hp hn hv.1 hd (ha.of_any fun _ ht => by simp [Node.any, ht])
    exact ((h.input 0).slice offset count).observed _
  | .graph inner (.iri i), _, hp, hn, hv, hd, ha => by
    simp only [Node.occurrences, areGiven_append] at hv
    have h := inner.plan_honours hp hn hv.1 hd (ha.of_any fun _ ht => by simp [Node.any, ht])
    exact ((h.input 0).toHeeds.graph i _).observed _
  | .group _ _ _, _, _, hn, hv, hd, ha | .orderBy _ _, _, _, hn, hv, hd, ha
  | .ask _, _, _, hn, hv, hd, ha | .service _ _ _ _, _, _, hn, hv, hd, ha
  | .values _ _, _, _, hn, hv, hd, ha | .pathSearch _ _ _, _, _, hn, hv, hd, ha =>
    honours_of_constant rfl (fun _ => rfl) hn hv hd ha
  | .limit _ _, _, hp, _, _, _, _ | .graph _ (.var _), _, hp, _, _, _, _
  | .custom _ _ _, _, hp, _, _, _, _ => nomatch hp

/-! ## Answers -/

/-- If a prompt pattern yields solutions from a binding, then there is a match for the
binding if and only if one of these solutions is compatible with it. Nothing fails, and
it does not matter what has been counted before. -/
theorem Node.hasMatch_eq_any {n : Node} {c : Context} {b : Binding} (hc : c.IsOnMemory)
    (hprompt : n.isPrompt b.vars = true) (hn : n.isRepeatable = true)
    (hdeclares : n.declaresVars true = true) (hv : Var.AreGiven n.mentionedVariables)
    (hanswers : c.environment.AnswersDeclare true n) {p q : Progress} {m : Solutions}
    (hrun : (n.plan operators none).runFrom { c with seed := some b } p = (.ok m, q))
    (hsmall : LogIsSmall q.log) (p' : Progress) :
    ∃ q', (Plan.hasMatch (n.plan operators) b).runFrom c p' =
      (.ok (m.rows.any (·.isCompatible b)), q') := by
  have hgiven : Var.AreGiven n.occurrences := hv.of_subset fun _ hv => mem_dedup.mpr hv
  have hhonours : Plan.Honours c.environment b.vars n.vars (n.plan operators) :=
    n.plan_honours hprompt hn hgiven hdeclares hanswers
  have houtcome := Plan.outcome_hasMatch hhonours (hc.isSeeded b) ⟨p, q, hrun, hsmall⟩
  have hfst := (Plan.hasMatch_steady hhonours.steady b).fst_runFrom hc.repeatable p'
  exact ⟨_, Prod.ext (hfst.trans houtcome) rfl⟩

/-- Edges with their ends under another name. -/
def sampleEnds (vs : List Var) : Node :=
  .project (.extend (.bgp [.triple ⟨.var ⟨"s"⟩, .term (.iri ⟨"p"⟩), .var ⟨"y"⟩⟩])
    ⟨"x"⟩ (.var ⟨"y"⟩)) vs

/-- The start of the second edge. -/
def sampleStart : Binding := .ofEntries [(⟨"s"⟩, .iri ⟨"b"⟩)]

theorem Node.hasMatch_eq_any_sample :
    ∃ q', (Plan.hasMatch ((sampleEnds [⟨"s"⟩, ⟨"x"⟩]).plan .empty) sampleStart).runFrom
      sampleContext (.initial sampleContext.environment) = (.ok true, q') := by
  have hany : (((sampleEnds [⟨"s"⟩, ⟨"x"⟩]).plan .empty none).runFrom
      { sampleContext with seed := some sampleStart }
      (.initial sampleContext.environment)).1.toOption.map
        (·.rows.any (·.isCompatible sampleStart)) = some true := by decide +kernel
  have hsmall : (((sampleEnds [⟨"s"⟩, ⟨"x"⟩]).plan .empty none).runFrom
      { sampleContext with seed := some sampleStart }
      (.initial sampleContext.environment)).2.log.all (·.resultSize ≤ 2) = true := by decide +kernel
  obtain ⟨m, q, hrun, hany⟩ := exists_ok_of_map hany
  rw [hrun] at hsmall
  obtain ⟨q', h⟩ := Node.hasMatch_eq_any sampleContext_isOnMemory (by decide +kernel) rfl rfl
    (.of_all (by decide +kernel)) (Environment.answersDeclare_of_no_service rfl) hrun
    (.of_all (by decide) hsmall) (.initial sampleContext.environment)
  exact ⟨q', by rw [h, hany]⟩

/-- The end of the second edge, under the name that is computed. -/
def sampleEnd : Binding := .ofEntries [(⟨"x"⟩, .iri ⟨"c"⟩)]

/-- The first edge ends elsewhere than the seed says. So the projection yields less
than is asked of it, and the second edge is not looked for. -/
theorem Node.hasMatch_misses_row :
    (sampleEnds [⟨"x"⟩]).isRepeatable = true ∧ (sampleEnds [⟨"x"⟩]).declaresVars true = true ∧
      ∃ m q q', ((sampleEnds [⟨"x"⟩]).plan .empty none).runFrom
          { sampleContext with seed := some sampleEnd }
          (.initial sampleContext.environment) = (.ok m, q) ∧
        m.rows.any (·.isCompatible sampleEnd) = true ∧
        (Plan.hasMatch ((sampleEnds [⟨"x"⟩]).plan .empty) sampleEnd).runFrom sampleContext
            (.initial sampleContext.environment) = (.ok false, q') := by
  have hany : (((sampleEnds [⟨"x"⟩]).plan .empty none).runFrom
      { sampleContext with seed := some sampleEnd }
      (.initial sampleContext.environment)).1.toOption.map
        (·.rows.any (·.isCompatible sampleEnd)) = some true := by decide +kernel
  have hmisses : ((Plan.hasMatch ((sampleEnds [⟨"x"⟩]).plan .empty) sampleEnd).runFrom
      sampleContext (.initial sampleContext.environment)).1.toOption.map id = some false := by
    decide +kernel
  obtain ⟨m, q, hrun, hany⟩ := exists_ok_of_map hany
  obtain ⟨found, q', hmatch, rfl⟩ := exists_ok_of_map hmisses
  exact ⟨rfl, rfl, m, q, q', hrun, hany, hmatch⟩

end SparqlAlgebra
