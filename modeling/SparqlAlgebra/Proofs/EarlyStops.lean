import SparqlAlgebra.Optimizer
import SparqlAlgebra.Proofs.Laziness
import SparqlAlgebra.Proofs.PlainExpressions

/-!
# Stopping early keeps results

The rules of the default level put limits below slices and questions, which
makes the evaluation below them lazy. `optimize_default_rows` states that the
rows stay the same.
-/

namespace SparqlAlgebra

/-! ## The rule that changes nothing -/

namespace CrossProducts

/-- The result of a computation with a state, whatever the state is. -/
def Returns {σ α : Type} (x : StateM σ α) (a : α) : Prop := ∀ s, (x.run s).1 = a

variable {σ α β : Type}

theorem Returns.pure (a : α) : Returns (σ := σ) (Pure.pure a) a := fun _ => rfl

theorem Returns.bind {x : StateM σ α} {f : α → StateM σ β} {a : α} {b : β}
    (hx : Returns x a) (hf : Returns (f a) b) : Returns (x >>= f) b := by
  intro s
  have h := hf (x.run s).2
  rw [← hx s] at h
  exact h

theorem record_returns (n : Node) : Returns (record n) n := fun _ => rfl

mutual

/-- Looking for cross products returns the tree. -/
theorem mapUpM_record : ∀ n : Node, Returns (n.mapUpM record) n
  | .bgp es => (mapAllUpM_record es).bind (record_returns _)
  | .join l r | .union l r | .minus l r | .existsJoin l r _ | .leftJoin l r none =>
    (mapUpM_record l).bind ((mapUpM_record r).bind (record_returns _))
  | .leftJoin l r (some e) => (mapUpM_record l).bind ((mapUpM_record r).bind
    ((exprMapUpM_record e).bind (record_returns _)))
  | .filter inner e | .extend inner _ e | .having inner e =>
    (mapUpM_record inner).bind ((exprMapUpM_record e).bind (record_returns _))
  | .orderBy inner keys =>
    (mapUpM_record inner).bind ((keysMapUpM_record keys).bind (record_returns _))
  | .group inner _ _ | .distinct inner | .reduced inner | .project inner _
  | .slice inner _ _ | .graph inner _ | .ask inner | .limit inner _ =>
    (mapUpM_record inner).bind (record_returns _)
  | .service _ _ _ _ | .values _ _ | .pathSearch _ _ _ | .custom _ _ _ => record_returns _

theorem mapAllUpM_record : ∀ es : List Element,
    Returns (Element.mapAllUpM record es) es
  | [] => .pure _
  | .subQuery query :: rest =>
    (mapUpM_record query).bind ((mapAllUpM_record rest).bind (.pure _))
  | .assign _ e :: rest | .filter e :: rest =>
    (exprMapUpM_record e).bind ((mapAllUpM_record rest).bind (.pure _))
  | .triple _ :: rest | .path _ _ _ :: rest => (mapAllUpM_record rest).bind (.pure _)

theorem keysMapUpM_record : ∀ keys : List OrderKey,
    Returns (OrderKey.mapAllUpM record keys) keys
  | [] => .pure _
  | .sortBy e _ :: rest =>
    (exprMapUpM_record e).bind ((keysMapUpM_record rest).bind (.pure _))

theorem exprMapUpM_record : ∀ e : Expr, Returns (e.mapUpM record) e
  | .constant _ | .var _ | .bound _ => .pure _
  | .unary _ e => (exprMapUpM_record e).bind (.pure _)
  | .binary _ l r =>
    (exprMapUpM_record l).bind ((exprMapUpM_record r).bind (.pure _))
  | .isIn e es => (exprMapUpM_record e).bind ((exprsMapUpM_record es).bind (.pure _))
  | .cond c t e => (exprMapUpM_record c).bind ((exprMapUpM_record t).bind
    ((exprMapUpM_record e).bind (.pure _)))
  | .coalesce es | .call _ es => (exprsMapUpM_record es).bind (.pure _)
  | .hasMatch pattern => (mapUpM_record pattern).bind (.pure _)

theorem exprsMapUpM_record : ∀ es : List Expr, Returns (Expr.mapAllUpM record es) es
  | [] => .pure _
  | e :: rest => (exprMapUpM_record e).bind ((exprsMapUpM_record rest).bind (.pure _))

end

end CrossProducts

/-! ## Limits that are put into a tree -/

/-- Whether a node asks for matches of a pattern, itself or in an expression. -/
def Node.asksForMatch : Node → Bool
  | .existsJoin _ _ _ => true
  | n => n.expressions.any Expr.containsMatch

/-- A tree with added limits is no limit itself. -/
theorem Node.AddsLimits.ne_limit {n' n : Node} (h : n'.AddsLimits n) (inner : Node)
    (count : Nat) : n' ≠ .limit inner count := by
  rintro rfl
  cases h

namespace EarlyStop

theorem limitAsk_addsLimits {n' n : Node} (h : n'.AddsLimits n) :
    (limitAsk n').AddsLimits n := by
  have hsame := h
  cases h with
  | @ask inner' inner h =>
    have hask : limitAsk (.ask inner') = .ask (.limit inner' 1) := by
      cases inner' with
      | limit x k => exact absurd rfl (h.ne_limit x k)
      | _ => rfl
    rw [hask]
    exact .limitedAsk h
  | _ => exact hsame

theorem limitSlice_addsLimits {n' n : Node} (h : n'.AddsLimits n) :
    (limitSlice n').AddsLimits n := by
  have hsame := h
  cases h with
  | @slice inner' inner h offset limit =>
    cases limit with
    | none => exact hsame
    | some count =>
      show (if canStop inner' then
        Node.slice (.limit inner' (addCounts offset count)) offset (some count)
        else Node.slice inner' offset (some count)).AddsLimits _
      split
      · exact .limitedSlice h offset count
      · exact hsame
  | _ => exact hsame

end EarlyStop

/-- A change of a node that puts limits into it, if anything, and that leaves
limits alone. -/
structure PutsLimits (f : Node → Node) : Prop where
  addsLimits : ∀ {n' n : Node}, n'.AddsLimits n → (f n').AddsLimits n
  limit : ∀ inner count, f (.limit inner count) = .limit inner count

mutual

/-- A change that puts limits into nodes puts limits into a tree. -/
theorem Node.AddsLimits.mapUp {f : Node → Node} (hf : PutsLimits f) :
    ∀ {n' n : Node}, n'.AddsLimits n →
    n.any Node.asksForMatch = false → (n'.mapUp f).AddsLimits n
  | _, _, .bgp h, hn => by
    simp only [Node.any, Bool.or_eq_false_iff] at hn
    exact hf.addsLimits (.bgp (h.mapUp hf hn.1 hn.2))
  | _, _, .join hl hr, hn => by
    simp only [Node.any, Bool.or_eq_false_iff] at hn
    exact hf.addsLimits (.join (hl.mapUp hf hn.1.2) (hr.mapUp hf hn.2))
  | _, _, .leftJoin hl hr none, hn => by
    simp only [Node.any, Bool.or_eq_false_iff] at hn
    exact hf.addsLimits (.leftJoin (hl.mapUp hf hn.1.2) (hr.mapUp hf hn.2) none)
  | _, _, @Node.AddsLimits.leftJoin l' _ r' _ hl hr (some e), hn => by
    simp only [Node.any, Bool.or_eq_false_iff] at hn
    have he : e.containsMatch = false := by
      simpa [Node.asksForMatch, Node.expressions] using hn.1.1
    have hmap : (Node.leftJoin l' r' (some e)).mapUp f =
        f (.leftJoin (l'.mapUp f) (r'.mapUp f) (some e)) :=
      congrArg (fun e => f (.leftJoin (l'.mapUp f) (r'.mapUp f) (some e)))
        (e.mapUpM_eq_self he)
    rw [hmap]
    exact hf.addsLimits (.leftJoin (hl.mapUp hf hn.1.2) (hr.mapUp hf hn.2) (some e))
  | _, _, .union hl hr, hn => by
    simp only [Node.any, Bool.or_eq_false_iff] at hn
    exact hf.addsLimits (.union (hl.mapUp hf hn.1.2) (hr.mapUp hf hn.2))
  | _, _, .minus hl hr, hn => by
    simp only [Node.any, Bool.or_eq_false_iff] at hn
    exact hf.addsLimits (.minus (hl.mapUp hf hn.1.2) (hr.mapUp hf hn.2))
  | _, _, .existsJoin _ _ _, hn => by simp [Node.any, Node.asksForMatch] at hn
  | _, _, @Node.AddsLimits.filter inner' _ h e, hn => by
    simp only [Node.any, Bool.or_eq_false_iff] at hn
    have he : e.containsMatch = false := by
      simpa [Node.asksForMatch, Node.expressions] using hn.1
    have hmap : (Node.filter inner' e).mapUp f = f (.filter (inner'.mapUp f) e) :=
      congrArg (fun e => f (.filter (inner'.mapUp f) e)) (e.mapUpM_eq_self he)
    rw [hmap]
    exact hf.addsLimits (.filter (h.mapUp hf hn.2) e)
  | _, _, @Node.AddsLimits.extend inner' _ h v e, hn => by
    simp only [Node.any, Bool.or_eq_false_iff] at hn
    have he : e.containsMatch = false := by
      simpa [Node.asksForMatch, Node.expressions] using hn.1
    have hmap : (Node.extend inner' v e).mapUp f = f (.extend (inner'.mapUp f) v e) :=
      congrArg (fun e => f (.extend (inner'.mapUp f) v e)) (e.mapUpM_eq_self he)
    rw [hmap]
    exact hf.addsLimits (.extend (h.mapUp hf hn.2) v e)
  | _, _, .group h keys values, hn => by
    simp only [Node.any, Bool.or_eq_false_iff] at hn
    exact hf.addsLimits (.group (h.mapUp hf hn.2) keys values)
  | _, _, @Node.AddsLimits.having inner' _ h e, hn => by
    simp only [Node.any, Bool.or_eq_false_iff] at hn
    have he : e.containsMatch = false := by
      simpa [Node.asksForMatch, Node.expressions] using hn.1
    have hmap : (Node.having inner' e).mapUp f = f (.having (inner'.mapUp f) e) :=
      congrArg (fun e => f (.having (inner'.mapUp f) e)) (e.mapUpM_eq_self he)
    rw [hmap]
    exact hf.addsLimits (.having (h.mapUp hf hn.2) e)
  | _, _, @Node.AddsLimits.orderBy inner' _ h keys, hn => by
    simp only [Node.any, Bool.or_eq_false_iff] at hn
    have hmap : (Node.orderBy inner' keys).mapUp f = f (.orderBy (inner'.mapUp f) keys) :=
      congrArg (fun keys => f (.orderBy (inner'.mapUp f) keys))
        (OrderKey.mapAllUpM_eq_self keys hn.1)
    rw [hmap]
    exact hf.addsLimits (.orderBy (h.mapUp hf hn.2) keys)
  | _, _, .distinct h, hn => by
    simp only [Node.any, Bool.or_eq_false_iff] at hn
    exact hf.addsLimits (.distinct (h.mapUp hf hn.2))
  | _, _, .reduced h, hn => by
    simp only [Node.any, Bool.or_eq_false_iff] at hn
    exact hf.addsLimits (.reduced (h.mapUp hf hn.2))
  | _, _, .project h vs, hn => by
    simp only [Node.any, Bool.or_eq_false_iff] at hn
    exact hf.addsLimits (.project (h.mapUp hf hn.2) vs)
  | _, _, .slice h offset limit, hn => by
    simp only [Node.any, Bool.or_eq_false_iff] at hn
    exact hf.addsLimits (.slice (h.mapUp hf hn.2) offset limit)
  | _, _, @Node.AddsLimits.limitedSlice inner' _ h offset count, hn => by
    simp only [Node.any, Bool.or_eq_false_iff] at hn
    have hmap : (Node.slice (.limit inner' (addCounts offset count)) offset
        (some count)).mapUp f = f (.slice (f (.limit (inner'.mapUp f)
          (addCounts offset count))) offset (some count)) := rfl
    rw [hmap, hf.limit]
    exact hf.addsLimits (.limitedSlice (h.mapUp hf hn.2) offset count)
  | _, _, .graph h name, hn => by
    simp only [Node.any, Bool.or_eq_false_iff] at hn
    exact hf.addsLimits (.graph (h.mapUp hf hn.2) name)
  | _, _, .service name vs silent pattern, _ => hf.addsLimits (.service name vs silent pattern)
  | _, _, .ask h, hn => by
    simp only [Node.any, Bool.or_eq_false_iff] at hn
    exact hf.addsLimits (.ask (h.mapUp hf hn.2))
  | _, _, @Node.AddsLimits.limitedAsk inner' _ h, hn => by
    simp only [Node.any, Bool.or_eq_false_iff] at hn
    have hmap : (Node.ask (.limit inner' 1)).mapUp f =
        f (.ask (f (.limit (inner'.mapUp f) 1))) := rfl
    rw [hmap, hf.limit]
    exact hf.addsLimits (.limitedAsk (h.mapUp hf hn.2))
  | _, _, .values vs rows, _ => hf.addsLimits (.values vs rows)
  | _, _, .pathSearch s search o, _ => hf.addsLimits (.pathSearch s search o)

theorem Element.AddLimits.mapUp {f : Node → Node} (hf : PutsLimits f) :
    ∀ {es' es : List Element},
    Element.AddLimits es' es →
    (es.filterMap Element.expression?).any Expr.containsMatch = false →
    Element.anyIn Node.asksForMatch es = false →
    Element.AddLimits (Id.run (Element.mapAllUpM (fun n => pure (f n)) es')) es
  | _, _, .nil, _, _ => .nil
  | _, _, .triple pattern h, he, hn => .triple pattern (h.mapUp hf he hn)
  | _, _, .path s path o h, he, hn => .path s path o (h.mapUp hf he hn)
  | _, _, @Element.AddLimits.assign v e es' es h, he, hn => by
    simp only [Element.expression?, List.filterMap_cons, List.any_cons,
      Bool.or_eq_false_iff] at he
    have hmap : Id.run (Element.mapAllUpM (fun n => pure (f n)) (.assign v e :: es')) =
        Element.assign v e :: Id.run (Element.mapAllUpM (fun n => pure (f n)) es') :=
      congrArg (fun e => Element.assign v e :: _) (e.mapUpM_eq_self he.1)
    rw [hmap]
    exact .assign v e (h.mapUp hf he.2 hn)
  | _, _, .subQuery hquery h, he, hn => by
    simp only [Element.anyIn, Bool.or_eq_false_iff] at hn
    exact .subQuery (hquery.mapUp hf hn.1) (h.mapUp hf he hn.2)
  | _, _, @Element.AddLimits.filter e es' es h, he, hn => by
    simp only [Element.expression?, List.filterMap_cons, List.any_cons,
      Bool.or_eq_false_iff] at he
    have hmap : Id.run (Element.mapAllUpM (fun n => pure (f n)) (.filter e :: es')) =
        Element.filter e :: Id.run (Element.mapAllUpM (fun n => pure (f n)) es') :=
      congrArg (fun e => Element.filter e :: _) (e.mapUpM_eq_self he.1)
    rw [hmap]
    exact .filter e (h.mapUp hf he.2 hn)

end

/-! ## The default level -/

namespace EarlyStop

theorem limitAsk_putsLimits : PutsLimits limitAsk :=
  ⟨limitAsk_addsLimits, fun _ _ => rfl⟩

theorem limitSlice_putsLimits : PutsLimits limitSlice :=
  ⟨limitSlice_addsLimits, fun _ _ => rfl⟩

end EarlyStop

/-- The rules of the default level always succeed. They put limits into a tree, first below
questions and then below slices. -/
theorem applyRules_default_eq (w : PatternWeights) (n : Node) (before : OptimizerReport) :
    ∃ report : OptimizerReport, applyRules (OptimizationLevel.default.rules w) n before =
      .ok ((n.mapUp EarlyStop.limitAsk).mapUp EarlyStop.limitSlice, report) := by
  have hrules (r : Node × List String) (hr : r.1 = n) : ∃ report : OptimizerReport,
      applyRules [EarlyStop.askRule, EarlyStop.limitRule] r.1
          (before.add CrossProducts.rule.name r.2) =
        .ok ((n.mapUp EarlyStop.limitAsk).mapUp EarlyStop.limitSlice, report) := by
    rw [hr]
    exact ⟨_, rfl⟩
  exact hrules ((n.mapUpM CrossProducts.record).run [])
    (CrossProducts.mapUpM_record n [])

theorem optimize_default_eq (w : PatternWeights) (n : Node) :
    ∃ report : OptimizerReport, optimize .default w n =
      .ok ((n.mapUp EarlyStop.limitAsk).mapUp EarlyStop.limitSlice, report) :=
  applyRules_default_eq w n .empty

/-- The default level keeps the rows of a tree in their order, if the tree has
solutions. -/
theorem optimize_default_rows (w : PatternWeights) {n : Node}
    (hn : n.isRepeatable = true) (hselective : n.any Node.isSelective = false)
    (hmatch : n.any Node.asksForMatch = false)
    (hv : Var.AreGiven n.mentionedVariables) :
    ∃ n' report, optimize .default w n = .ok (n', report) ∧
      ∀ {operators : OperatorRegistry} {c : Context}, c.IsOnMemory →
        c.environment.AnswersBind n → ∀ {p q : Progress} {m : Solutions},
          (n.plan operators none).runFrom c p = (.ok m, q) → LogIsSmall q.log →
            ∀ p', ∃ m' q', (n'.plan operators none).runFrom c p' = (.ok m', q') ∧
              m'.rows = m.rows := by
  obtain ⟨report, hoptimize⟩ := optimize_default_eq w n
  refine ⟨_, report, hoptimize, fun {operators} {c} hc hanswers {p} {q} {m} hrun hsmall p' => ?_⟩
  have hgiven : Var.AreGiven n.occurrences :=
    hv.of_subset fun _ hv => mem_dedup.mpr hv
  have hlimits := ((n.addsLimits_self hn hselective).mapUp
    EarlyStop.limitAsk_putsLimits hmatch).mapUp EarlyStop.limitSlice_putsLimits hmatch
  have hmeets : Plan.Meets c.environment n.vars _ (n.plan operators) :=
    hlimits.meets hn hgiven hanswers
  have hplain := hc.isPlain
  obtain ⟨-, m', hm', -, hrows⟩ :=
    (hmeets.serves c hplain m ⟨p, q, hrun, hsmall⟩).repeats
  have hfst := (hmeets.steady' none).fst_runFrom hplain.toRepeatable p'
  exact ⟨m', _, Prod.ext (hfst.trans hm') rfl, hrows⟩

/-- One solution of `samplePattern`. -/
def sampleSlice : Node := .slice samplePattern 1 (some 1)

theorem optimize_default_rows_sample :
    ∃ n' report m q m' q',
      optimize .default .none sampleSlice = .ok (n', report) ∧
      (sampleSlice.plan .empty none).runFrom sampleContext
        (.initial sampleContext.environment) = (.ok m, q) ∧
      (n'.plan .empty none).runFrom sampleContext
        (.initial sampleContext.environment) = (.ok m', q') ∧ m'.rows = m.rows := by
  have hok : ((sampleSlice.plan .empty none).runFrom sampleContext
      (.initial sampleContext.environment)).1.isOk = true := by decide +kernel
  have hsmall : ((sampleSlice.plan .empty none).runFrom sampleContext
      (.initial sampleContext.environment)).2.log.all (·.resultSize ≤ 2) = true := by decide +kernel
  obtain ⟨n', report, hoptimize, hrows⟩ :=
    optimize_default_rows .none (n := sampleSlice) rfl rfl rfl
      (.of_all (by decide +kernel))
  cases hrun : (sampleSlice.plan .empty none).runFrom sampleContext
      (.initial sampleContext.environment) with
  | mk r q =>
    rw [hrun] at hok hsmall
    cases r with
    | error err => cases hok
    | ok m =>
      obtain ⟨m', q', h⟩ := hrows sampleContext_isOnMemory
        (sampleContext_answersBind rfl) hrun (.of_all (by decide) hsmall)
        (.initial sampleContext.environment)
      exact ⟨n', report, m, q, m', q', hoptimize, rfl, h⟩

end SparqlAlgebra
