import SparqlAlgebra.Proofs.DemandPatterns
import SparqlAlgebra.Proofs.Merging

/-!
# Trees under a demand

Every node of a tree meets the demands for its solutions, also if limits are put
below its slices and questions.

* `Node.AddsLimits` relates a tree to the same tree with such limits;
* `Node.AddsLimits.meets` is the induction over the tree: the tree with limits
  meets every demand for the solutions of the tree without them.
-/

namespace SparqlAlgebra

open Eval

/-! ## Limits in a tree -/

mutual

/-- The first tree is the second one with limits below some of its slices and
questions. Neither the second tree nor the patterns of its sub-queries have
limits, operators that are defined elsewhere, or graphs with a variable name. -/
inductive Node.AddsLimits : Node → Node → Prop
  | bgp {es' es : List Element} (h : Element.AddLimits es' es) :
    Node.AddsLimits (.bgp es') (.bgp es)
  | join {l' l r' r : Node} (hl : l'.AddsLimits l) (hr : r'.AddsLimits r) :
    Node.AddsLimits (.join l' r') (.join l r)
  | leftJoin {l' l r' r : Node} (hl : l'.AddsLimits l) (hr : r'.AddsLimits r)
    (condition : Option Expr) :
    Node.AddsLimits (.leftJoin l' r' condition) (.leftJoin l r condition)
  | union {l' l r' r : Node} (hl : l'.AddsLimits l) (hr : r'.AddsLimits r) :
    Node.AddsLimits (.union l' r') (.union l r)
  | minus {l' l r' r : Node} (hl : l'.AddsLimits l) (hr : r'.AddsLimits r) :
    Node.AddsLimits (.minus l' r') (.minus l r)
  | existsJoin {l' l : Node} (hl : l'.AddsLimits l) (r : Node) (negated : Bool) :
    Node.AddsLimits (.existsJoin l' r negated) (.existsJoin l r negated)
  | filter {inner' inner : Node} (h : inner'.AddsLimits inner) (e : Expr) :
    Node.AddsLimits (.filter inner' e) (.filter inner e)
  | extend {inner' inner : Node} (h : inner'.AddsLimits inner) (v : Var)
    (e : Expr) : Node.AddsLimits (.extend inner' v e) (.extend inner v e)
  | group {inner' inner : Node} (h : inner'.AddsLimits inner) (keys : List Var)
    (values : List GroupValue) :
    Node.AddsLimits (.group inner' keys values) (.group inner keys values)
  | having {inner' inner : Node} (h : inner'.AddsLimits inner) (e : Expr) :
    Node.AddsLimits (.having inner' e) (.having inner e)
  | orderBy {inner' inner : Node} (h : inner'.AddsLimits inner)
    (keys : List OrderKey) :
    Node.AddsLimits (.orderBy inner' keys) (.orderBy inner keys)
  | distinct {inner' inner : Node} (h : inner'.AddsLimits inner) :
    Node.AddsLimits (.distinct inner') (.distinct inner)
  | reduced {inner' inner : Node} (h : inner'.AddsLimits inner) :
    Node.AddsLimits (.reduced inner') (.reduced inner)
  | project {inner' inner : Node} (h : inner'.AddsLimits inner) (vs : List Var) :
    Node.AddsLimits (.project inner' vs) (.project inner vs)
  | slice {inner' inner : Node} (h : inner'.AddsLimits inner) (offset : Nat)
    (limit : Option Nat) :
    Node.AddsLimits (.slice inner' offset limit) (.slice inner offset limit)
  /-- A limit where the slice ends. -/
  | limitedSlice {inner' inner : Node} (h : inner'.AddsLimits inner)
    (offset count : Nat) :
    Node.AddsLimits
      (.slice (.limit inner' (addCounts offset count)) offset (some count))
      (.slice inner offset (some count))
  | graph {inner' inner : Node} (h : inner'.AddsLimits inner) (name : Iri) :
    Node.AddsLimits (.graph inner' (.iri name)) (.graph inner (.iri name))
  | service (name : NameRef) (vs : List Var) (silent : Bool) (pattern : Query.Pattern) :
    Node.AddsLimits (.service name vs silent pattern) (.service name vs silent pattern)
  | ask {inner' inner : Node} (h : inner'.AddsLimits inner) :
    Node.AddsLimits (.ask inner') (.ask inner)
  /-- A limit after the solution that is asked for. -/
  | limitedAsk {inner' inner : Node} (h : inner'.AddsLimits inner) :
    Node.AddsLimits (.ask (.limit inner' 1)) (.ask inner)
  | values (vs : List Var) (rows : List (List (Option Term))) :
    Node.AddsLimits (.values vs rows) (.values vs rows)
  | pathSearch (s : Position) (search : PathSearch) (o : Position) :
    Node.AddsLimits (.pathSearch s search o) (.pathSearch s search o)

/-- Limits are added in the sub-queries among elements. -/
inductive Element.AddLimits : List Element → List Element → Prop
  | nil : Element.AddLimits [] []
  | triple (pattern : TriplePattern) {es' es : List Element}
    (h : Element.AddLimits es' es) :
    Element.AddLimits (.triple pattern :: es') (.triple pattern :: es)
  | path (s : Position) (path : Path) (o : Position) {es' es : List Element}
    (h : Element.AddLimits es' es) :
    Element.AddLimits (.path s path o :: es') (.path s path o :: es)
  | assign (v : Var) (e : Expr) {es' es : List Element}
    (h : Element.AddLimits es' es) :
    Element.AddLimits (.assign v e :: es') (.assign v e :: es)
  | subQuery {query' query : Node} (hquery : query'.AddsLimits query)
    {es' es : List Element} (h : Element.AddLimits es' es) :
    Element.AddLimits (.subQuery query' :: es') (.subQuery query :: es)
  | filter (e : Expr) {es' es : List Element} (h : Element.AddLimits es' es) :
    Element.AddLimits (.filter e :: es') (.filter e :: es)

end

mutual

/-- Limits do not change which variables are bound. -/
theorem Node.AddsLimits.vars_eq : ∀ {n' n : Node}, n'.AddsLimits n → n'.vars = n.vars
  | _, _, .bgp h => by rw [Node.vars, Node.vars, h.boundByAll_eq]
  | _, _, .join hl hr | _, _, .union hl hr | _, _, .leftJoin hl hr _ => by
    rw [Node.vars, Node.vars, hl.vars_eq, hr.vars_eq]
  | _, _, .minus hl _ | _, _, .existsJoin hl _ _ => hl.vars_eq
  | _, _, .filter h _ | _, _, .having h _ | _, _, .orderBy h _ | _, _, .distinct h
  | _, _, .reduced h | _, _, .slice h _ _ | _, _, .limitedSlice h _ _
  | _, _, .graph h _ => h.vars_eq
  | _, _, .extend h v _ => by rw [Node.vars, Node.vars, h.vars_eq]
  | _, _, .group _ _ _ | _, _, .project _ _ | _, _, .service _ _ _ _ | _, _, .ask _
  | _, _, .limitedAsk _ | _, _, .values _ _ | _, _, .pathSearch _ _ _ => rfl

theorem Element.AddLimits.boundByAll_eq : ∀ {es' es : List Element},
    Element.AddLimits es' es → Element.boundByAll es' = Element.boundByAll es
  | _, _, .nil => rfl
  | _, _, .triple _ h | _, _, .path _ _ _ h | _, _, .assign _ _ h
  | _, _, .filter _ h => by
    rw [Element.boundByAll, Element.boundByAll, h.boundByAll_eq]
  | _, _, .subQuery hquery h => by
    rw [Element.boundByAll, Element.boundByAll, Element.boundVariables,
      Element.boundVariables, hquery.vars_eq, h.boundByAll_eq]

end

/-! ## Steps of elements -/

/-- A position binds its own variable only. -/
theorem Step.vars_of_bindPosition {p : Position} {t : Term} {b b' : Binding}
    (h : bindPosition p t b = some b') {v : Var} (hv : v ∈ b'.vars) :
    v ∈ b.vars ∨ p = .var v := by
  unfold bindPosition at h
  split at h
  · cases h
    exact .inl hv
  · split at h
    · cases h
      exact (Binding.mem_vars_insert.mp hv).elim (fun hv => .inr (hv ▸ rfl)) .inl
    · split at h
      · cases h
        exact .inl hv
      · cases h

theorem Step.vars_of_bindTriple {p : TriplePattern} {t : Triple} {b b' : Binding}
    (h : bindTriple p b t = some b') : b'.vars ⊆ b.vars ++ p.vars := by
  obtain ⟨b₁, h₁, h⟩ := Option.bind_eq_some_iff.mp h
  obtain ⟨b₂, h₂, h₃⟩ := Option.bind_eq_some_iff.mp h
  intro v hv
  rw [List.mem_append, TriplePattern.vars, Position.mem_vars,
    TriplePattern.positions]
  rcases vars_of_bindPosition h₃ hv with hv | hv
  · rcases vars_of_bindPosition h₂ hv with hv | hv
    · rcases vars_of_bindPosition h₁ hv with hv | hv
      · exact .inl hv
      · simp [hv]
    · simp [hv]
  · simp [hv]

theorem Position.vars_substitute {ps : List Position} (b : Binding) :
    vars (ps.map (·.substitute b)) ⊆ vars ps := by
  intro v hv
  rw [mem_vars] at hv ⊢
  obtain ⟨p, hp, hpv⟩ := List.mem_map.mp hv
  unfold substitute at hpv
  split at hpv
  · cases hpv
  · exact hpv ▸ hp

theorem Step.isWithin_of_bindPosition {p : Position} {t : Term} {b b' : Binding}
    (h : bindPosition p t b = some b') : b.IsWithin b' := by
  unfold bindPosition at h
  split at h
  · cases h
    exact .refl b
  · split at h
    · rename_i hnone
      cases h
      exact Binding.isWithin_insert hnone
    · split at h
      · cases h
        exact .refl b
      · cases h

theorem Step.isWithin_of_bindTriple {p : TriplePattern} {t : Triple} {b b' : Binding}
    (h : bindTriple p b t = some b') : b.IsWithin b' := by
  obtain ⟨b₁, h₁, h⟩ := Option.bind_eq_some_iff.mp h
  obtain ⟨b₂, h₂, h₃⟩ := Option.bind_eq_some_iff.mp h
  exact (isWithin_of_bindPosition h₁).trans
    ((isWithin_of_bindPosition h₂).trans (isWithin_of_bindPosition h₃))

theorem Step.matchTriple_ensures {c : Context} (p : TriplePattern) (b : Binding) :
    (matchTriple p b).Ensures c (∀ b' ∈ ·, b.IsWithin b' ∧ b'.vars ⊆ b.vars ++ p.vars) := by
  unfold matchTriple
  split
  · exact .pure fun _ hb' => absurd hb' List.not_mem_nil
  · refine .after fun ts => .pure fun b' hb' => ?_
    obtain ⟨t, -, ht⟩ := List.mem_filterMap.mp hb'
    exact ⟨isWithin_of_bindTriple ht, vars_of_bindTriple ht⟩

theorem Step.matchPath_ensures {c : Context} (s : Position) (path : Path) (o : Position)
    (b : Binding) : (matchPath s path o b).Ensures c
      (∀ b' ∈ ·, b.IsWithin b' ∧ b'.vars ⊆ b.vars ++ Position.vars [s, o]) := by
  refine Ensures.bind (P := fun found => ∀ row ∈ found.rows, row.vars ⊆ Position.vars [s, o])
    ?_ fun found hfound => .pure fun b' hb' => ?_
  · refine (path.relation_bindsEnds c _ _).bind fun rows hrows => .pure ?_
    rw [Solutions.rows_ofRows hrows]
    exact fun row hrow v hv => @Position.vars_substitute [s, o] b v (hrows row hrow hv)
  · obtain ⟨row, hrow, hmerge⟩ := List.mem_filterMap.mp hb'
    refine ⟨(Binding.isWithin_of_merge? hmerge).1, fun v hv => ?_⟩
    rw [List.mem_append]
    exact ((Binding.mem_vars_of_merge? hmerge).mp hv).imp_right (hfound row hrow ·)

variable {operators : OperatorRegistry}

/-- The numbers of sub-queries ascend. -/
theorem Element.le_of_mem_steps {es : List Element} {i number : Nat} {query : Plan}
    (h : .subQuery number query ∈ Element.steps operators i es) : i ≤ number := by
  induction es generalizing i with
  | nil => cases h
  | cons e rest ih =>
    cases e with
    | triple | path | assign | filter =>
      rcases List.mem_cons.mp h with h | h
      · cases h
      · exact ih h
    | subQuery q =>
      rcases List.mem_cons.mp h with h | h
      · cases h
        exact Nat.le_refl _
      · exact Nat.le_of_succ_le (ih h)

theorem Element.steps_areNumbered (es : List Element) (i : Nat) :
    Step.AreNumbered (Element.steps operators i es) := by
  induction es generalizing i with
  | nil => exact fun _ _ _ h => nomatch h
  | cons e rest ih =>
    intro number query query' h h'
    cases e with
    | triple | path | assign | filter =>
      rcases List.mem_cons.mp h with h | h
      · cases h
      · rcases List.mem_cons.mp h' with h' | h'
        · cases h'
        · exact ih i number query query' h h'
    | subQuery q =>
      rcases List.mem_cons.mp h with h | h
      · rcases List.mem_cons.mp h' with h' | h'
        · cases h
          cases h'
          rfl
        · cases h
          exact absurd (Element.le_of_mem_steps h') (Nat.not_succ_le_self _)
      · rcases List.mem_cons.mp h' with h' | h'
        · cases h'
          exact absurd (Element.le_of_mem_steps h) (Nat.not_succ_le_self _)
        · exact ih (i + 1) number query query' h h'

/-! ## Answers of services -/

/-- Every search that finds a part finds it in the tree. -/
def Node.Contains (n part : Node) : Prop :=
  ∀ test : Node → Bool, test part = true → n.any test = true

/-- The answers of services bind variables of the calls in a tree only. -/
def Environment.AnswersBind (e : Environment) (n : Node) : Prop :=
  ∀ handler, e.services = some handler → ∀ i vs silent pattern,
    n.Contains (.service (.iri i) vs silent pattern) →
      ∀ s, handler ⟨i, pattern⟩ e.base = .ok s → s.Binds vs

theorem Environment.AnswersBind.of_any {e : Environment} {n part : Node}
    (h : e.AnswersBind n) (hany : ∀ test, part.any test = true → n.any test = true) :
    e.AnswersBind part := fun handler hhandler i vs silent pattern hpart =>
  h handler hhandler i vs silent pattern fun test htest => hany test (hpart test htest)

theorem Element.anyIn_of_mem {es : List Element} {query : Node}
    (h : .subQuery query ∈ es) {test : Node → Bool} (hquery : query.any test = true) :
    Element.anyIn test es = true := by
  induction es with
  | nil => cases h
  | cons e rest ih =>
    rcases List.mem_cons.mp h with h | hrest
    · cases h
      simp [Element.anyIn, hquery]
    · cases e with
      | subQuery q => exact Bool.or_eq_true_iff.mpr (.inr (ih hrest))
      | triple | path | assign | filter => exact ih hrest

/-! ## Trees -/

/-- The columns of a grouping are bound to the targets of its values. -/
theorem GroupValue.map_columns (values : List GroupValue) :
    (GroupValue.columns operators values).map (·.1) = values.map GroupValue.target := by
  induction values with
  | nil => rfl
  | cons value rest ih => cases value <;> exact congrArg (_ :: ·) ih

open Var (AreGiven areGiven_append)

variable {e : Environment}

mutual

/-- The tree with limits meets every demand for the solutions of the tree
without them. -/
theorem Node.AddsLimits.meets : ∀ {n' n : Node}, n'.AddsLimits n →
    n.isRepeatable = true → AreGiven n.occurrences → e.AnswersBind n →
    Plan.Meets e n.vars (n'.plan operators) (n.plan operators)
  | _, _, @Node.AddsLimits.bgp es' es h, hn, hv, ha => by
    have hvars := (Node.AddsLimits.bgp h).vars_eq
    have hsteps := h.follows hn hv
      (fun query hquery => ha.of_any fun test ht => by
        simp [Node.any, Element.anyIn_of_mem hquery ht])
      0 (fun v hv => mem_dedup.mpr hv)
    have hfollows : Plan.Follows e (Node.bgp es).vars
        (Plan.bgp (Element.steps operators 0 es') (Node.bgp es').vars)
        (Plan.bgp (Element.steps operators 0 es) (Node.bgp es).vars) := by
      rw [hvars]
      exact Plan.bgp_follows hsteps (Element.steps_areNumbered es 0)
        (Element.steps_areNumbered es' 0)
    exact hfollows.observed _ _
  | _, _, .join hl hr, hn, hv, ha => by
    simp only [Node.isRepeatable, Bool.and_eq_true] at hn
    simp only [Node.occurrences, areGiven_append] at hv
    have hl := hl.meets hn.1 hv.1.1 (ha.of_any fun _ ht => by simp [Node.any, ht])
    have hr := hr.meets hn.2 hv.1.2 (ha.of_any fun _ ht => by simp [Node.any, ht])
    exact ((hl.input 0).join (hr.input 1).toFollows).observed _ _
  | _, _, .leftJoin hl hr none, hn, hv, ha => by
    simp only [Node.isRepeatable, Bool.and_eq_true] at hn
    simp only [Node.occurrences, areGiven_append] at hv
    have hl := hl.meets hn.1 hv.1.1 (ha.of_any fun _ ht => by simp [Node.any, ht])
    have hr := hr.meets hn.2 hv.1.2 (ha.of_any fun _ ht => by simp [Node.any, ht])
    exact ((hl.input 0).leftJoin (hr.input 1).toFollows fun _ => .pure _).observed _ _
  | _, _, .leftJoin hl hr (some condition), hn, hv, ha => by
    simp only [Node.isRepeatable, Bool.and_eq_true] at hn
    simp only [Node.occurrences, areGiven_append] at hv
    have hl := hl.meets hn.1.1 hv.1.1.1 (ha.of_any fun _ ht => by simp [Node.any, ht])
    have hr := hr.meets hn.1.2 hv.1.1.2 (ha.of_any fun _ ht => by simp [Node.any, ht])
    have hcondition : (condition.meaning operators).Steady :=
      condition.meaning_steady hn.2 hv.1.2
    exact ((hl.input 0).leftJoin (hr.input 1).toFollows hcondition.holds).observed _ _
  | _, _, .union hl hr, hn, hv, ha => by
    simp only [Node.isRepeatable, Bool.and_eq_true] at hn
    simp only [Node.occurrences, areGiven_append] at hv
    have hvars := hr.vars_eq
    have hl := hl.meets hn.1 hv.1.1 (ha.of_any fun _ ht => by simp [Node.any, ht])
    have hr := hr.meets hn.2 hv.1.2 (ha.of_any fun _ ht => by simp [Node.any, ht])
    have hunion := ((hl.input 0).union (hr.input 1)).observed "Union" "Union"
    rw [Node.plan, Node.plan, hvars]
    exact hunion
  | _, _, .minus hl hr, hn, hv, ha => by
    simp only [Node.isRepeatable, Bool.and_eq_true] at hn
    simp only [Node.occurrences, areGiven_append] at hv
    have hl := hl.meets hn.1 hv.1.1 (ha.of_any fun _ ht => by simp [Node.any, ht])
    have hr := hr.meets hn.2 hv.1.2 (ha.of_any fun _ ht => by simp [Node.any, ht])
    exact ((hl.input 0).minus (hr.input 1).toFollows).observed _ _
  | _, _, .existsJoin hl r negated, hn, hv, ha => by
    simp only [Node.isRepeatable, Bool.and_eq_true] at hn
    simp only [Node.occurrences, areGiven_append] at hv
    have hl := hl.meets hn.1 hv.1.1 (ha.of_any fun _ ht => by simp [Node.any, ht])
    have hr : (r.plan operators).Steady := r.plan_steady hn.2 hv.1.2
    exact ((hl.input 0).existsJoin (hr.input 1) negated).observed _ _
  | _, _, .filter h condition, hn, hv, ha | _, _, .having h condition, hn, hv, ha => by
    simp only [Node.isRepeatable, Bool.and_eq_true] at hn
    simp only [Node.occurrences, areGiven_append] at hv
    have h := h.meets hn.1 hv.1.1 (ha.of_any fun _ ht => by simp [Node.any, ht])
    have hcondition : (condition.meaning operators).Steady :=
      condition.meaning_steady hn.2 hv.1.2
    exact ((h.input 0).filter hcondition.holds).observed _ _
  | _, _, .extend h v value, hn, hv, ha => by
    simp only [Node.isRepeatable, Bool.and_eq_true] at hn
    simp only [Node.occurrences, areGiven_append] at hv
    have h := h.meets hn.1 hv.1.1 (ha.of_any fun _ ht => by simp [Node.any, ht])
    have hvalue : (value.meaning operators).Steady := value.meaning_steady hn.2 hv.1.2
    exact ((h.input 0).extend v (value.assignment_steady hvalue)).observed _ _
  | _, _, .group h keys values, hn, hv, ha => by
    simp only [Node.isRepeatable, Bool.and_eq_true] at hn
    simp only [Node.occurrences, areGiven_append] at hv
    have h := h.meets hn.1 hv.1.1 (ha.of_any fun _ ht => by simp [Node.any, ht])
    have hvalues : ∀ column ∈ GroupValue.columns operators values, column.2.Steady :=
      GroupValue.columns_steady values hn.2 hv.2
    have hgroup := (h.input 0).toFollows.group keys hvalues
    rw [GroupValue.map_columns] at hgroup
    exact hgroup.observed _ _
  | _, _, .orderBy h keys, hn, hv, ha => by
    simp only [Node.isRepeatable, Bool.and_eq_true] at hn
    simp only [Node.occurrences, areGiven_append] at hv
    have h := h.meets hn.1 hv.1.1 (ha.of_any fun _ ht => by simp [Node.any, ht])
    have hkeys : ∀ key ∈ OrderKey.sortKeys operators keys, key.key.Steady :=
      OrderKey.sortKeys_steady keys hn.2 hv.1.2
    exact ((h.input 0).toFollows.orderBy hkeys).observed _ _
  | _, _, .distinct h, hn, hv, ha => by
    simp only [Node.occurrences, areGiven_append] at hv
    have h := h.meets hn hv.1 (ha.of_any fun _ ht => by simp [Node.any, ht])
    exact (h.input 0).distinct.observed _ _
  | _, _, .reduced h, hn, hv, ha => by
    simp only [Node.occurrences, areGiven_append] at hv
    have h := h.meets hn hv.1 (ha.of_any fun _ ht => by simp [Node.any, ht])
    exact (h.input 0).toFollows.observed _ _
  | _, _, .project h vs, hn, hv, ha => by
    simp only [Node.occurrences, areGiven_append] at hv
    have h := h.meets hn hv.1 (ha.of_any fun _ ht => by simp [Node.any, ht])
    exact ((h.input 0).project vs).observed _ _
  | _, _, .slice h offset limit, hn, hv, ha => by
    simp only [Node.occurrences, areGiven_append] at hv
    have h := h.meets hn hv.1 (ha.of_any fun _ ht => by simp [Node.any, ht])
    exact ((h.input 0).slice offset limit).observed _ _
  | _, _, .limitedSlice h offset count, hn, hv, ha => by
    simp only [Node.occurrences, areGiven_append] at hv
    have h := h.meets hn hv.1 (ha.of_any fun _ ht => by simp [Node.any, ht])
    have hlimit := (((h.input 0).toFollows.limit (addCounts offset count)).observed
      "Limit").input 0
    exact (hlimit.slice (h.input 0)).observed _ _
  | _, _, @Node.AddsLimits.graph _ inner h name, hn, hv, ha => by
    simp only [Node.occurrences, areGiven_append] at hv
    have hvars := h.vars_eq
    have h := h.meets hn hv.1 (ha.of_any fun _ ht => by simp [Node.any, ht])
    have hgraph := ((h.input 0).toFollows.graph name inner.vars).observed "Graph" "Graph"
    rw [Node.plan, Node.plan, hvars]
    exact hgraph
  | _, _, .service name vs silent pattern, _, _, ha => by
    have hservice : Plan.Follows e vs (Plan.service name vs silent pattern)
        (Plan.service name vs silent pattern) := by
      refine Plan.service_follows fun handler hhandler i s hname hs => ?_
      subst hname
      exact ha handler hhandler i vs silent pattern (fun test ht => by simp [Node.any, ht]) s hs
    exact hservice.observed _ _
  | _, _, .ask h, hn, hv, ha => by
    simp only [Node.occurrences, areGiven_append] at hv
    have h := h.meets hn hv.1 (ha.of_any fun _ ht => by simp [Node.any, ht])
    exact (h.input 0).toFollows.ask.observed _ _
  | _, _, .limitedAsk h, hn, hv, ha => by
    simp only [Node.occurrences, areGiven_append] at hv
    have h := h.meets hn hv.1 (ha.of_any fun _ ht => by simp [Node.any, ht])
    have hlimit := (((h.input 0).toFollows.limit 1).observed "Limit").input 0
    exact (hlimit.ask (h.input 0).toFollows).observed _ _
  | _, _, .values vs rows, _, _, _ => (Plan.values_follows vs rows).observed _ _
  | _, _, .pathSearch s search o, _, hv, _ => by
    have hs : s.IsGiven := Position.isGiven_of_mem hv (by simp)
    have ho : o.IsGiven := Position.isGiven_of_mem hv (by simp)
    exact (Plan.pathSearch_follows search hs ho).observed _ _

theorem Element.AddLimits.follows : ∀ {es' es : List Element},
    Element.AddLimits es' es → Element.areRepeatable es = true →
    AreGiven (Element.occurrencesIn es) →
    (∀ query, .subQuery query ∈ es → e.AnswersBind query) →
    ∀ (i : Nat) {vs : List Var}, Element.boundByAll es ⊆ vs →
      List.Forall₂ (Step.Follows e vs) (Element.steps operators i es')
        (Element.steps operators i es)
  | _, _, .nil, _, _, _, _, _, _ => .nil
  | _, _, .triple pattern h, hn, hv, ha, i, vs, hvs => by
    simp only [Element.occurrencesIn, areGiven_append] at hv
    obtain ⟨hpattern, hvs⟩ := List.append_subset.mp hvs
    have hrest := h.follows hn hv.2
      (fun query hquery => ha query (List.mem_cons_of_mem _ hquery)) i hvs
    refine .cons (.extend (Step.matchTriple_steady pattern)
      fun c hc b bs hbs b' hb' v hv => ?_) hrest
    have hvars := ((Step.matchTriple_ensures pattern b).of_outcome hbs b' hb').2
    exact (List.mem_append.mp (hvars hv)).elim
      (List.mem_append_left _) fun hv => List.mem_append_right _ (hpattern hv)
  | _, _, .path s path o h, hn, hv, ha, i, vs, hvs => by
    simp only [Element.occurrencesIn, areGiven_append] at hv
    obtain ⟨hends, hvs⟩ := List.append_subset.mp hvs
    have hs : s.IsGiven := Position.isGiven_of_mem hv.1 (by simp)
    have ho : o.IsGiven := Position.isGiven_of_mem hv.1 (by simp)
    have hrest := h.follows hn hv.2
      (fun query hquery => ha query (List.mem_cons_of_mem _ hquery)) i hvs
    refine .cons (.extend (Step.matchPath_steady path hs ho)
      fun c hc b bs hbs b' hb' v hv => ?_) hrest
    have hvars := ((Step.matchPath_ensures s path o b).of_outcome hbs b' hb').2
    exact (List.mem_append.mp (hvars hv)).elim
      (List.mem_append_left _) fun hv => List.mem_append_right _ (hends hv)
  | _, _, .assign v value h, hn, hv, ha, i, vs, hvs => by
    simp only [Element.areRepeatable, Bool.and_eq_true] at hn
    simp only [Element.occurrencesIn, areGiven_append] at hv
    have hvalue : AreGiven value.occurrences :=
      hv.1.of_subset fun _ => List.mem_cons_of_mem _
    have hrest := h.follows hn.2 hv.2
      (fun query hquery => ha query (List.mem_cons_of_mem _ hquery)) i
      (List.cons_subset.mp hvs).2
    exact .cons (.assign (value.assignment_steady (value.meaning_steady hn.1 hvalue))
      (List.cons_subset.mp hvs).1) hrest
  | _, _, .subQuery hquery h, hn, hv, ha, i, vs, hvs => by
    simp only [Element.areRepeatable, Bool.and_eq_true] at hn
    simp only [Element.occurrencesIn, areGiven_append] at hv
    obtain ⟨hvars, hvs⟩ := List.append_subset.mp hvs
    have hrest := h.follows hn.2 hv.2
      (fun query hquery => ha query (List.mem_cons_of_mem _ hquery)) (i + 1) hvs
    have hquery := hquery.meets hn.1 hv.1 (ha _ List.mem_cons_self)
    exact .cons (.subQuery (hquery.input i).toFollows hvars) hrest
  | _, _, .filter condition h, hn, hv, ha, i, vs, hvs => by
    simp only [Element.areRepeatable, Bool.and_eq_true] at hn
    simp only [Element.occurrencesIn, areGiven_append] at hv
    have hrest := h.follows hn.2 hv.2
      (fun query hquery => ha query (List.mem_cons_of_mem _ hquery)) i hvs
    exact .cons (.filter (condition.meaning_steady hn.1 hv.1).holds) hrest

end

end SparqlAlgebra
