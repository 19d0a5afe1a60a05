import SparqlAlgebra.Optimizer.PatternOrder
import SparqlAlgebra.Proofs.PatternJoins

/-!
# Rearranged patterns

The triple patterns of a basic graph pattern may be matched in any order, and a
filter may be tested anywhere behind the triple patterns that bind its variables.
Trees that differ in these orders have the same solutions in some order.

* `Element.isCovered`: filters come behind the patterns that bind their variables;
* `Matches.outcome_matchSteps`: such elements join their patterns and select from
  the result;
* `Node.Rearranges` relates the trees, and `Node.Rearranges.shuffles` their plans.
-/

namespace SparqlAlgebra

open Eval

/-! ## Covered filters -/

namespace Element

/-- The pattern of a triple. -/
def pattern? : Element → Option TriplePattern
  | triple p => some p
  | _ => none

/-- The triple patterns among elements. -/
def patterns (es : List Element) : List TriplePattern := es.filterMap pattern?

/-- The conditions of the filters among elements. -/
def conditions (es : List Element) : List Expr :=
  es.filterMap PatternOrder.filterCondition?

/-- Whether elements are triples and filters only, and every filter is plain and
comes behind the triples that bind its variables; the given variables are bound
before. -/
def isCovered (bound : List Var) : List Element → Bool
  | [] => true
  | triple p :: rest => isCovered (bound ++ p.vars) rest
  | filter e :: rest => e.isPlain && e.vars.all (bound.contains ·) && isCovered bound rest
  | _ :: _ => false

theorem isCovered_filter {bound : List Var} {e : Expr} {es : List Element} :
    isCovered bound (filter e :: es) = true ↔
      e.isPlain = true ∧ e.vars ⊆ bound ∧ isCovered bound es = true := by
  simp [isCovered, List.subset_def, and_assoc]

/-- Every element that binds variables is a triple. -/
theorem mem_boundByAll {bound : List Var} {es : List Element}
    (h : isCovered bound es = true) {v : Var} :
    v ∈ boundByAll es ↔ ∃ p ∈ patterns es, v ∈ p.vars := by
  induction es generalizing bound with
  | nil => simp [boundByAll, patterns]
  | cons e rest ih =>
    cases e with
    | triple p =>
      show v ∈ p.vars ++ boundByAll rest ↔ ∃ q ∈ p :: patterns rest, v ∈ q.vars
      rw [List.mem_append, ih h, List.exists_mem_cons_iff]
    | filter e => exact ih (isCovered_filter.mp h).2.2
    | path _ _ _ | assign _ _ | subQuery _ => cases h

variable {operators : OperatorRegistry}

theorem steps_steady_of_isCovered {bound : List Var} {es : List Element}
    (h : isCovered bound es = true) (i : Nat) :
    ∀ s ∈ steps operators i es, s.Steady := by
  induction es generalizing bound with
  | nil => simp [steps]
  | cons e rest ih =>
    cases e with
    | triple p => exact List.forall_mem_cons.mpr ⟨Step.matchTriple_steady p, ih h⟩
    | filter e =>
      obtain ⟨hplain, -, hrest⟩ := isCovered_filter.mp h
      exact List.forall_mem_cons.mpr
        ⟨(Expr.meaning_steady_of_isPlain hplain).holds, ih hrest⟩
    | path _ _ _ | assign _ _ | subQuery _ => cases h

end Element

/-! ## Matching -/

namespace Matches

variable {operators : OperatorRegistry} {c : Context}

/-- A state that has found more. -/
def add (m : Matches) (rows : List Binding) : Matches :=
  { m with found := m.found ++ rows.toArray }

theorem add_nil (m : Matches) : m.add [] = m := by simp [add]

theorem add_add (m : Matches) (xs ys : List Binding) :
    (m.add xs).add ys = m.add (xs ++ ys) := by
  simp [add, Array.append_assoc]

/-- Candidates add their rows one after the other. -/
theorem outcome_overCandidates {next : Binding → Matches → Eval Matches}
    (hsteady : ∀ b m, (next b m).Steady) (hc : c.Repeatable)
    {rowsOf : Binding → List Binding} {bs : List Binding}
    (hnext : ∀ b ∈ bs, ∀ m, (next b m).outcome c = .ok (m.add (rowsOf b))) (m : Matches) :
    (overCandidates none next bs m).outcome c = .ok (m.add (bs.flatMap rowsOf)) := by
  induction bs generalizing m with
  | nil => exact congrArg Except.ok m.add_nil.symm
  | cons b rest ih =>
    have ih := ih fun b hb => hnext b (List.mem_cons_of_mem _ hb)
    refine (outcome_bind_ok (fun _ => overCandidates_steady hsteady none rest _) hc
      (hnext b List.mem_cons_self m)).trans ?_
    rw [ih, add_add, List.flatMap_cons]

/-- The rows that elements find from a binding: the joined patterns, selected by
all conditions. -/
def rowsFrom (operators : OperatorRegistry) (c : Context) (es : List Element)
    (b : Binding) : List Binding :=
  (TriplePattern.joinRows c.view.facts (Element.patterns es) [b]).filter fun row =>
    (Element.conditions es).all (Expr.truth operators c · row)

theorem rowsFrom_triple (p : TriplePattern) (es : List Element) (b : Binding) :
    rowsFrom operators c (.triple p :: es) b =
      ((p.rows c.view.facts).filterMap b.merge?).flatMap (rowsFrom operators c es) := by
  show List.filter _ (TriplePattern.joinRows c.view.facts (p :: Element.patterns es) [b]) = _
  rw [TriplePattern.joinRows_cons, List.filter_flatMap]
  rfl

/-- A condition on bound variables is decided before the remaining patterns. -/
theorem rowsFrom_filter {e : Expr} (hplain : e.isPlain = true) (hc : c.Repeatable)
    {b : Binding} (hb : e.vars ⊆ b.vars) (es : List Element) :
    rowsFrom operators c (.filter e :: es) b =
      if e.truth operators c b then rowsFrom operators c es b else [] := by
  have htruth : ∀ row ∈ TriplePattern.joinRows c.view.facts (Element.patterns es) [b],
      e.truth operators c row = e.truth operators c b := fun row hrow =>
    (Expr.truth_congr hplain hc ((TriplePattern.mem_joinRows hrow).1.agreeOn hb)).symm
  have hfilter : rowsFrom operators c (.filter e :: es) b =
      (TriplePattern.joinRows c.view.facts (Element.patterns es) [b]).filter fun row =>
        e.truth operators c b && (Element.conditions es).all (Expr.truth operators c · row) :=
    List.filter_congr fun row hrow => by rw [← htruth row hrow]; rfl
  rw [hfilter]
  cases e.truth operators c b with
  | true => rfl
  | false => exact List.filter_false _

section Steps

variable {steps : List Step}

/-- Matching goes on with every extension of the binding. -/
theorem outcome_matchSteps_extend (hc : c.Repeatable) (hsteps : ∀ s ∈ steps, s.Steady)
    {demand : Demand} {candidates : Binding → Eval (List Binding)} {b : Binding}
    {bs : List Binding} (hsteady : (candidates b).Steady)
    (hbs : (candidates b).outcome c = .ok bs) (m : Matches) :
    (matchSteps demand (.extend candidates :: steps) b m).outcome c =
      (overCandidates demand (matchSteps demand steps) bs m).outcome c := by
  have hover (bs : List Binding) :=
    overCandidates_steady (matchSteps_steady hsteps demand) demand bs m
  refine (outcome_bind_ok (fun _ => hsteady.bind hover) hc (outcome_tick hc)).trans ?_
  exact outcome_bind_ok hover hc hbs

/-- Matching goes on with every binding that a triple makes. -/
theorem outcome_matchSteps_triple (hc : c.Repeatable) (hsteps : ∀ s ∈ steps, s.Steady)
    {demand : Demand} (p : TriplePattern) (b : Binding) (m : Matches) :
    (matchSteps demand (.extend (Step.matchTriple p) :: steps) b m).outcome c =
      (overCandidates demand (matchSteps demand steps)
        ((p.rows c.view.facts).filterMap b.merge?) m).outcome c :=
  outcome_matchSteps_extend hc hsteps (Step.matchTriple_steady p b)
    (Step.outcome_matchTriple hc p b) m

/-- Matching goes on if a plain condition is true. -/
theorem outcome_matchSteps_filter (hc : c.Repeatable) (hsteps : ∀ s ∈ steps, s.Steady)
    {e : Expr} (hplain : e.isPlain = true) (b : Binding) (m : Matches) :
    (matchSteps none (.filter (e.meaning operators).holds :: steps) b m).outcome c =
      if e.truth operators c b then (matchSteps none steps b m).outcome c else .ok m := by
  have hmeaning : (e.meaning operators).Steady := Expr.meaning_steady_of_isPlain hplain
  have hgo (holds : Bool) : Eval.Steady
      (if holds then matchSteps none steps b m else Pure.pure m) := by
    cases holds
    · exact .pure _
    · exact matchSteps_steady hsteps none b m
  refine (outcome_bind_ok (fun _ => (hmeaning.holds b).bind hgo) hc (outcome_tick hc)).trans ?_
  refine (outcome_bind_ok hgo hc (Expr.outcome_holds hplain hc b)).trans ?_
  cases e.truth operators c b <;> rfl

end Steps

/-- Filters are tested as soon as their variables are bound. They would not be
decided differently at the end. -/
theorem outcome_matchSteps (hc : c.Repeatable) {es : List Element} {bound : List Var}
    (hes : Element.isCovered bound es = true) {b : Binding} (hb : bound ⊆ b.vars)
    (i : Nat) (m : Matches) :
    (matchSteps none (Element.steps operators i es) b m).outcome c =
      .ok (m.add (rowsFrom operators c es b)) := by
  have hsteps {bound : List Var} {es : List Element} (h : Element.isCovered bound es = true) :
      ∀ s ∈ Element.steps operators i es, s.Steady := Element.steps_steady_of_isCovered h i
  induction es generalizing bound b m with
  | nil => simp [Element.steps, matchSteps, rowsFrom, add, Element.patterns,
      Element.conditions, TriplePattern.joinRows]
  | cons e rest ih =>
    cases e with
    | path _ _ _ | assign _ _ | subQuery _ => cases hes
    | triple p =>
      have hrest : Element.isCovered (bound ++ p.vars) rest = true := hes
      have hbound : ∀ b' ∈ (p.rows c.view.facts).filterMap b.merge?,
          bound ++ p.vars ⊆ b'.vars := by
        intro b' hb' v hv
        obtain ⟨r, hr, hmerge⟩ := List.mem_filterMap.mp hb'
        refine (Binding.mem_vars_of_merge? hmerge).mpr ?_
        exact (List.mem_append.mp hv).imp (hb ·) (TriplePattern.vars_of_mem_rows hr).mpr
      rw [rowsFrom_triple]
      refine (outcome_matchSteps_triple hc (hsteps hrest) p b m).trans ?_
      exact outcome_overCandidates (matchSteps_steady (hsteps hrest) none) hc
        (fun b' hb' m => ih hrest (hbound b' hb') m) m
    | filter e =>
      obtain ⟨hplain, hvars, hrest⟩ := Element.isCovered_filter.mp hes
      rw [rowsFrom_filter hplain hc (List.Subset.trans hvars hb)]
      refine (outcome_matchSteps_filter hc (hsteps hrest) hplain b m).trans ?_
      cases e.truth operators c b with
      | true => exact ih hrest hb m
      | false => exact congrArg Except.ok m.add_nil.symm

end Matches

/-! ## Elements in another order -/

/-- Elements with the same triple patterns and the same filters, with the filters
covered on both sides. -/
structure Element.Rearrange (es' es : List Element) : Prop where
  covered' : Element.isCovered [] es' = true
  covered : Element.isCovered [] es = true
  patterns_perm : (Element.patterns es').Perm (Element.patterns es)
  mem_conditions : ∀ e, e ∈ Element.conditions es' ↔ e ∈ Element.conditions es

namespace Element

variable {es es' : List Element}

theorem Rearrange.symm (h : Rearrange es' es) : Rearrange es es' :=
  ⟨h.covered, h.covered', h.patterns_perm.symm, fun e => (h.mem_conditions e).symm⟩

theorem Rearrange.mem_boundByAll (h : Rearrange es' es) {v : Var} :
    v ∈ boundByAll es' ↔ v ∈ boundByAll es := by
  rw [Element.mem_boundByAll h.covered', Element.mem_boundByAll h.covered]
  exact exists_congr fun p => and_congr_left fun _ => h.patterns_perm.mem_iff

/-- The joined patterns have the same rows, and all conditions select from them. -/
theorem Rearrange.rowsFrom_perm (h : Rearrange es' es) (operators : OperatorRegistry)
    (c : Context) (b : Binding) :
    (Matches.rowsFrom operators c es' b).Perm (Matches.rowsFrom operators c es b) := by
  have hall (row : Binding) : (conditions es').all (Expr.truth operators c · row) =
      (conditions es).all (Expr.truth operators c · row) := by
    rw [Bool.eq_iff_iff, List.all_eq_true, List.all_eq_true]
    exact forall_congr' fun e => imp_congr_left (h.mem_conditions e)
  unfold Matches.rowsFrom
  simp only [hall]
  exact (TriplePattern.joinRows_perm h.patterns_perm [b]).filter _

end Element

/-- The rows of a basic graph pattern with covered filters. -/
theorem Plan.outcome_bgp_of_isCovered {operators : OperatorRegistry} {c : Context}
    (hc : c.Repeatable) (hreal : c.environment.isDryRun = false) {es : List Element}
    (hes : Element.isCovered [] es = true) (vs : List Var) :
    (bgp (Element.steps operators 0 es) vs none).outcome c =
      .ok (.ofRows (mergeVariables c.start.vars vs)
        (Matches.rowsFrom operators c es c.start)) := by
  have hmatch := @Matches.outcome_matchSteps operators c hc es [] hes c.start
    (List.nil_subset _) 0 .empty
  rw [outcome_bgp hc hreal hmatch]
  simp [Matches.add, Matches.empty]

theorem Plan.bgp_shuffles {operators : OperatorRegistry} {e : Environment}
    {es es' : List Element} (h : Element.Rearrange es' es) :
    Shuffles e (dedup (Element.boundByAll es))
      (bgp (Element.steps operators 0 es') (dedup (Element.boundByAll es')))
      (bgp (Element.steps operators 0 es) (dedup (Element.boundByAll es))) := by
  refine ⟨bgp_steady (Element.steps_steady_of_isCovered h.covered 0) _,
    bgp_steady (Element.steps_steady_of_isCovered h.covered' 0) _, fun c hc m hm => ?_⟩
  rw [outcome_bgp_of_isCovered hc.toRepeatable hc.real h.covered,
    Context.start_of_unseeded hc.unseeded, Binding.vars_empty] at hm
  rw [outcome_bgp_of_isCovered hc.toRepeatable hc.real h.covered',
    Context.start_of_unseeded hc.unseeded, Binding.vars_empty]
  cases hm
  have hperm := h.rowsFrom_perm operators c .empty
  have hvars : ∀ row ∈ Matches.rowsFrom operators c es .empty,
      row.vars ⊆ dedup (Element.boundByAll es) := by
    intro row hrow v hv
    rw [mem_dedup, Element.mem_boundByAll h.covered]
    obtain ⟨-, hbound⟩ := TriplePattern.mem_joinRows (List.mem_filter.mp hrow).1
    exact ((hbound v).mp hv).elim (fun hv => absurd hv List.not_mem_nil) id
  have hvars' : ∀ row ∈ Matches.rowsFrom operators c es' .empty,
      row.vars ⊆ dedup (Element.boundByAll es) := fun row hrow => hvars row (hperm.subset hrow)
  have hsub : dedup (Element.boundByAll es) ⊆
      mergeVariables [] (dedup (Element.boundByAll es)) := Solutions.subset_mergeVariables_right
  have hsub' : dedup (Element.boundByAll es) ⊆
      mergeVariables [] (dedup (Element.boundByAll es')) := fun v hv => by
    refine Solutions.subset_mergeVariables_right (mem_dedup.mpr ?_)
    exact h.mem_boundByAll.mpr (mem_dedup.mp hv)
  refine ⟨Solutions.ofRows_binds (fun row hrow v hv => hsub (hvars row hrow hv)) hvars, _, rfl,
    Solutions.ofRows_binds (fun row hrow v hv => hsub' (hvars' row hrow hv)) hvars', ?_⟩
  rw [Solutions.rows_ofRows fun row hrow v hv => hsub (hvars row hrow hv),
    Solutions.rows_ofRows fun row hrow v hv => hsub' (hvars' row hrow hv)]
  exact hperm

/-! ## Trees -/

/-- Whether sort keys are plain. -/
def OrderKey.arePlain (keys : List OrderKey) : Bool := keys.all (·.expression.isPlain)

/-- Every solution has a value for a plain sort key, or none. -/
theorem OrderKey.sortKeys_plain {operators : OperatorRegistry} {keys : List OrderKey}
    (h : OrderKey.arePlain keys = true) :
    ∀ k ∈ OrderKey.sortKeys operators keys, k.key.Steady ∧ k.key.IsMild := by
  induction keys with
  | nil => simp [sortKeys]
  | cons key rest ih =>
    obtain ⟨e, descending⟩ := key
    obtain ⟨he, hrest⟩ := Bool.and_eq_true_iff.mp h
    exact List.forall_mem_cons.mpr
      ⟨⟨Expr.meaning_steady_of_isPlain he, e.meaning_mild (Expr.containsMatch_of_isPlain he)⟩,
        ih hrest⟩

/-- Trees that differ only in the order of their basic graph patterns. -/
inductive Node.Rearranges : Node → Node → Prop
  | bgp {es' es : List Element} (h : Element.Rearrange es' es) :
    Rearranges (.bgp es') (.bgp es)
  | join {l' l r' r : Node} (hl : Rearranges l' l) (hr : Rearranges r' r) :
    Rearranges (.join l' r') (.join l r)
  | leftJoin {l' l r' r : Node} (hl : Rearranges l' l) (hr : Rearranges r' r) :
    Rearranges (.leftJoin l' r' none) (.leftJoin l r none)
  | leftJoinIf {l' l r' r : Node} (hl : Rearranges l' l) (hr : Rearranges r' r)
    {e : Expr} (he : e.isPlain = true) :
    Rearranges (.leftJoin l' r' (some e)) (.leftJoin l r (some e))
  | union {l' l r' r : Node} (hl : Rearranges l' l) (hr : Rearranges r' r) :
    Rearranges (.union l' r') (.union l r)
  | minus {l' l r' r : Node} (hl : Rearranges l' l) (hr : Rearranges r' r) :
    Rearranges (.minus l' r') (.minus l r)
  | filter {inner' inner : Node} (h : Rearranges inner' inner) {e : Expr}
    (he : e.isPlain = true) : Rearranges (.filter inner' e) (.filter inner e)
  | extend {inner' inner : Node} (h : Rearranges inner' inner) (v : Var) {e : Expr}
    (he : e.isPlain = true) : Rearranges (.extend inner' v e) (.extend inner v e)
  | orderBy {inner' inner : Node} (h : Rearranges inner' inner) {keys : List OrderKey}
    (hkeys : OrderKey.arePlain keys = true) :
    Rearranges (.orderBy inner' keys) (.orderBy inner keys)
  | distinct {inner' inner : Node} (h : Rearranges inner' inner) :
    Rearranges (.distinct inner') (.distinct inner)
  | reduced {inner' inner : Node} (h : Rearranges inner' inner) :
    Rearranges (.reduced inner') (.reduced inner)
  | project {inner' inner : Node} (h : Rearranges inner' inner) (vs : List Var) :
    Rearranges (.project inner' vs) (.project inner vs)
  | graph {inner' inner : Node} (h : Rearranges inner' inner) (name : NameRef) :
    Rearranges (.graph inner' name) (.graph inner name)
  | values (vs : List Var) (rows : List (List (Option Term))) :
    Rearranges (.values vs rows) (.values vs rows)

namespace Node

variable {n n' : Node}

theorem Rearranges.symm (h : n'.Rearranges n) : n.Rearranges n' := by
  induction h with
  | bgp h => exact .bgp h.symm
  | join _ _ hl hr => exact .join hl hr
  | leftJoin _ _ hl hr => exact .leftJoin hl hr
  | leftJoinIf _ _ he hl hr => exact .leftJoinIf hl hr he
  | union _ _ hl hr => exact .union hl hr
  | minus _ _ hl hr => exact .minus hl hr
  | filter _ he h => exact .filter h he
  | extend _ v he h => exact .extend h v he
  | orderBy _ hkeys h => exact .orderBy h hkeys
  | distinct _ h => exact .distinct h
  | reduced _ h => exact .reduced h
  | project _ vs h => exact .project h vs
  | graph _ name h => exact .graph h name
  | values vs rows => exact .values vs rows

/-- The same variables are bound, though perhaps in another order. -/
theorem Rearranges.mem_vars (h : n'.Rearranges n) {v : Var} : v ∈ n'.vars ↔ v ∈ n.vars := by
  induction h with
  | bgp h => rw [Node.vars, Node.vars, mem_dedup, mem_dedup, h.mem_boundByAll]
  | join _ _ hl hr | leftJoin _ _ hl hr | leftJoinIf _ _ _ hl hr | union _ _ hl hr =>
    rw [Node.vars, Node.vars, mem_mergeVariables, mem_mergeVariables, hl, hr]
  | minus _ _ hl _ => exact hl
  | filter _ _ h | orderBy _ _ h | distinct _ h | reduced _ h => exact h
  | extend _ v _ h =>
    rw [Node.vars, Node.vars, mem_mergeVariables, mem_mergeVariables, h]
  | graph _ name h =>
    cases name with
    | iri i => exact h
    | var v => rw [Node.vars, Node.vars, mem_mergeVariables, mem_mergeVariables, h]
  | project | values => exact Iff.rfl

variable {operators : OperatorRegistry} {e : Environment}

/-- Rearranged trees have the same solutions in some order. -/
theorem Rearranges.shuffles (h : n'.Rearranges n) :
    (Plan.Shuffles e n.vars (n'.plan operators) (n.plan operators)) := by
  have hsteady {e : Expr} (he : e.isPlain = true) : (e.meaning operators).Steady :=
    Expr.meaning_steady_of_isPlain he
  have hholds {condition : Expr} (he : condition.isPlain = true) (c : Context)
      (hc : c.IsPlain e) : ∃ holds : Binding → Bool,
        ∀ b, ((condition.meaning operators).holds b).outcome c = .ok (holds b) :=
    ⟨_, Expr.outcome_holds he hc.toRepeatable⟩
  induction h with
  | bgp h => exact (Plan.bgp_shuffles h).observed _ _
  | join _ _ hl hr => exact ((hl.input 0).join (hr.input 1)).observed _ _
  | leftJoin _ _ hl hr =>
    exact ((hl.input 0).leftJoin (hr.input 1) (fun _ => .pure _)
      fun _ _ => ⟨fun _ => true, fun _ => rfl⟩).observed _ _
  | leftJoinIf _ _ he hl hr =>
    exact ((hl.input 0).leftJoin (hr.input 1) (hsteady he).holds (hholds he)).observed _ _
  | union _ _ hl hr => exact ((hl.input 0).union (hr.input 1) _ _).observed _ _
  | minus _ _ hl hr => exact ((hl.input 0).minus (hr.input 1)).observed _ _
  | filter _ he h => exact ((h.input 0).filter (hsteady he).holds (hholds he)).observed _ _
  | extend _ v he h =>
    exact ((h.input 0).extend v (Expr.assignment_steady _ (hsteady he))).observed _ _
  | orderBy _ hkeys h =>
    have hkeys := @OrderKey.sortKeys_plain operators _ hkeys
    exact ((h.input 0).orderBy (fun k hk => (hkeys k hk).1)
      fun k hk => (hkeys k hk).2).observed _ _
  | distinct _ h => exact (h.input 0).distinct.observed _ _
  | reduced _ h => exact (h.input 0).observed _ _
  | project _ vs h => exact ((h.input 0).project vs).observed _ _
  | graph hinner name h =>
    cases name with
    | iri i => exact ((h.input 0).graph i _ _).observed _ _
    | var v =>
      exact ((h.input 0).graphs v (List.Subset.refl _)
        fun w hw => hinner.mem_vars.mpr hw).observed _ _
  | values vs rows => exact (Plan.values_shuffles vs rows).observed _ _

end Node

end SparqlAlgebra
