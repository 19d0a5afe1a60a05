import SparqlAlgebra.Proofs.EnsuredPlans
import SparqlAlgebra.Proofs.GraphNames
import SparqlAlgebra.Proofs.UniformTrees

/-!
# Bound variables

Which variables the solutions of a tree may bind is computed from the tree alone, by
`Node.vars`. Evaluation keeps to that: with a seed or without one, over any data and in
dry runs, for every demand and whatever expressions do, a row binds variables of the
tree and of the seed only. Unlike what is known of trees that start from a seed, this
does not take solutions that declare what they bind.

* `Solutions.BindsOnly` is kept by the operations on solutions;
* `Plan.BindsOnly` is kept by the operators. Groups, projections and leaves bind their
  own variables whatever their inputs bind;
* `Node.plan_bindsOnly` is the induction over the tree.
-/

namespace SparqlAlgebra

open Eval

/-! ## Rows of operations -/

namespace Solutions

variable {us ws : List Var} {s a b : Solutions} {c : Context}

/-- Every row binds some variables only, whether or not these are declared. -/
def BindsOnly (us : List Var) (s : Solutions) : Prop := ∀ row ∈ s.rows, row.vars ⊆ us

theorem BindsOnly.mono (h : s.BindsOnly us) (hsub : us ⊆ ws) : s.BindsOnly ws := by
  intro row hrow v hv
  exact hsub (h row hrow hv)

theorem null_bindsOnly : null.BindsOnly us := by
  intro row hrow
  cases hrow

theorem identity_bindsOnly : identity.BindsOnly us := by
  intro row hrow
  rw [List.mem_singleton.mp hrow, Binding.vars_empty]
  exact List.nil_subset us

theorem singleton_bindsOnly (vs : List Var) : (singleton vs).BindsOnly us :=
  identity_bindsOnly

/-- What is declared does not matter: at most, a row becomes the empty one. -/
theorem ofRows_bindsOnly {vs : List Var} {rows : List Binding}
    (h : ∀ row ∈ rows, row.vars ⊆ us) : (ofRows vs rows).BindsOnly us := by
  unfold ofRows
  split
  · exact null_bindsOnly
  · exact identity_bindsOnly
  · exact h

theorem BindsOnly.of_selection {o : Solutions} (h : s.BindsOnly us) (hsel : s.IsSelection o) :
    o.BindsOnly us := by
  intro row hrow
  rcases hsel.rows row hrow with hrow | rfl
  · exact h row hrow
  · exact List.nil_subset us

theorem vars_of_merge? {l r row : Binding} (hl : l.vars ⊆ us) (hr : r.vars ⊆ us)
    (h : l.merge? r = some row) : row.vars ⊆ us := by
  intro v hv
  rcases (Binding.mem_vars_of_merge? h).mp hv with hv | hv
  · exact hl hv
  · exact hr hv

theorem BindsOnly.join (ha : a.BindsOnly us) (hb : b.BindsOnly us) :
    (a.join b).BindsOnly us := by
  unfold Solutions.join
  split
  · exact null_bindsOnly
  · exact null_bindsOnly
  · exact hb
  · exact ha
  · dsimp only
    split
    · exact singleton_bindsOnly _
    · apply ofRows_bindsOnly
      intro row hrow
      obtain ⟨l, hl, hrow⟩ := List.mem_flatMap.mp hrow
      rw [joinIndex, JoinIndex.candidates_build] at hrow
      obtain ⟨r, hr, hmerge⟩ := List.mem_filterMap.mp hrow
      exact vars_of_merge? (ha l hl) (hb r hr) hmerge

theorem BindsOnly.leftJoinM (ha : a.BindsOnly us) (hb : b.BindsOnly us)
    (condition : Binding → Eval Bool) :
    (a.leftJoinM b condition).Ensures c (·.BindsOnly us) := by
  unfold Solutions.leftJoinM
  split
  · exact .pure null_bindsOnly
  · exact .pure ha
  · dsimp only
    split
    · exact .pure (singleton_bindsOnly _)
    · refine (leftRowsM_ensures (JoinIndex.candidates_build _ b.rows) a.rows).bind
        fun rows hrows => .pure (ofRows_bindsOnly fun row hrow => ?_)
      obtain ⟨l, hl, rfl | ⟨r, hr, hmerge⟩⟩ := hrows row hrow
      · exact ha row hl
      · exact vars_of_merge? (ha l hl) (hb r hr) hmerge

theorem BindsOnly.union (ha : a.BindsOnly us) (hb : b.BindsOnly us) :
    (a.union b).BindsOnly us := by
  unfold Solutions.union
  split
  · exact hb
  · exact ha
  · dsimp only
    split
    · exact singleton_bindsOnly _
    · exact ofRows_bindsOnly (List.forall_mem_append.mpr ⟨ha, hb⟩)

/-- A projection binds what it keeps. -/
theorem project_bindsOnly (s : Solutions) (vs : List Var) : (s.project vs).BindsOnly vs := by
  unfold Solutions.project
  split
  · exact null_bindsOnly
  · exact singleton_bindsOnly _
  · apply ofRows_bindsOnly
    intro row hrow v hv
    obtain ⟨b, -, rfl⟩ := List.mem_map.mp hrow
    exact (Binding.mem_vars_project.mp hv).1

theorem BindsOnly.extendVariables (h : s.BindsOnly us) (vs : List Var) :
    (s.extendVariables vs).BindsOnly us := by
  unfold Solutions.extendVariables
  split
  · exact null_bindsOnly
  · exact singleton_bindsOnly _
  · exact ofRows_bindsOnly h

end Solutions

/-! ## Plans -/

namespace Plan

variable {c : Context} {e : Environment} {us vs ws : List Var} {plan left right : Plan}

/-- Whatever the plan yields binds the given variables and those of the seed only. -/
def BindsOnly (e : Environment) (vs : List Var) (plan : Plan) : Prop :=
  ∀ c, c.environment = e → ∀ demand, (plan demand).Ensures c (·.BindsOnly (c.start.vars ++ vs))

/-- An operator may be given more variables than one of its inputs has. -/
theorem BindsOnly.of_subset (h : plan.BindsOnly e vs) (hsub : vs ⊆ ws) :
    plan.BindsOnly e ws := by
  intro c hc demand
  refine (h c hc demand).mono fun s hs => hs.mono fun v hv => ?_
  rcases List.mem_append.mp hv with hv | hv
  · exact List.mem_append_left _ hv
  · exact List.mem_append_right _ (hsub hv)

theorem BindsOnly.merge_left (h : plan.BindsOnly e vs) (ws : List Var) :
    plan.BindsOnly e (mergeVariables vs ws) := by
  apply h.of_subset
  exact Solutions.subset_mergeVariables_left

theorem BindsOnly.merge_right (h : plan.BindsOnly e ws) (vs : List Var) :
    plan.BindsOnly e (mergeVariables vs ws) := by
  apply h.of_subset
  exact Solutions.subset_mergeVariables_right

theorem BindsOnly.input (h : plan.BindsOnly e vs) (i : Nat) : (plan.input i).BindsOnly e vs := by
  intro c hc demand
  apply Ensures.within
  exact h { c with place := c.place.map (· ++ [i]) } hc demand

theorem BindsOnly.observed (h : plan.BindsOnly e vs) (name : String) :
    (plan.observed name).BindsOnly e vs := by
  intro c hc demand
  exact observed_ensures (h { c with depth := c.depth + 1 } hc demand) name

theorem BindsOnly.of_selects {selection : Plan} (h : plan.BindsOnly e vs)
    (hselects : selection.Selects plan) : selection.BindsOnly e vs := by
  intro c hc
  exact hselects c _ (fun _ _ hsel hs => hs.of_selection hsel) Solutions.null_bindsOnly (h c hc)

theorem joinSeed_bindsOnly {s : Solutions} (hs : s.BindsOnly us) (hstart : c.start.vars ⊆ us) :
    (joinSeed s).Ensures c (·.BindsOnly us) := by
  refine .read_bind ?_
  cases hseed : c.seed with
  | none => exact .pure hs
  | some b =>
    have hb : b.vars ⊆ us := by
      rw [Context.start, hseed, Option.getD_some] at hstart
      exact hstart
    refine .pure ?_
    split
    · exact hs
    · apply hs.join
      apply Solutions.ofRows_bindsOnly
      intro row hrow
      rw [List.mem_singleton.mp hrow]
      exact hb

/-! ## Operators -/

theorem BindsOnly.join (hl : left.BindsOnly e vs) (hr : right.BindsOnly e ws) :
    (left.join right).BindsOnly e (mergeVariables vs ws) := by
  intro c hc
  have hl := hl.merge_left ws c hc
  have hr := hr.merge_right vs c hc
  exact withRight_ensures hl (hr none) Solutions.null_bindsOnly
    fun l r hl hr => .pure (hl.join hr)

theorem BindsOnly.leftJoin (hl : left.BindsOnly e vs) (hr : right.BindsOnly e ws)
    (condition : Binding → Eval Bool) :
    (left.leftJoin right condition).BindsOnly e (mergeVariables vs ws) := by
  intro c hc
  have hl := hl.merge_left ws c hc
  have hr := hr.merge_right vs c hc
  exact withRight_ensures hl (hr none) Solutions.null_bindsOnly
    fun l r hl hr => hl.leftJoinM hr condition

theorem BindsOnly.union (hl : left.BindsOnly e vs) (hr : right.BindsOnly e ws)
    (rightVariables : List Var) :
    (left.union right rightVariables).BindsOnly e (mergeVariables vs ws) := by
  intro c hc
  have hl := hl.merge_left ws c hc
  have hr := hr.merge_right vs c hc
  exact union_ensures hl hr (fun l hl => hl.extendVariables rightVariables)
    fun l r hl hr => hl.union hr

/-- What is hidden of the seed is not bound either, until the variable is assigned. -/
theorem BindsOnly.extend (h : plan.BindsOnly e vs) (v : Var) (f : Assignment) :
    (plan.extend v f).BindsOnly e (mergeVariables vs [v]) := by
  intro c hc demand
  -- the input starts from the seed without the variable, which is a part of the seed
  have hinner := h { c with seed := c.seed.map (·.erase v) } hc demand
  rw [Context.start_mapSeed c (Binding.erase_empty v)] at hinner
  have hsub : (c.start.erase v).vars ++ vs ⊆ c.start.vars ++ mergeVariables vs [v] := by
    intro w hw
    rcases List.mem_append.mp hw with hw | hw
    · exact List.mem_append_left _ (c.start.vars_erase_subset v hw)
    · exact List.mem_append_right _ (Solutions.subset_mergeVariables_left hw)
  refine extend_ensures f hinner (fun s hs _ => (hs.mono hsub).extendVariables [v]) ?_
  intro s rows hs hrows
  apply Solutions.ofRows_bindsOnly
  intro row hrow w hw
  obtain ⟨b, hb, rfl | ⟨t, rfl⟩⟩ := hrows row hrow
  · exact hsub (hs row hb hw)
  · rcases Binding.mem_vars_insert.mp hw with rfl | hw
    · exact List.mem_append_right _ (mem_mergeVariables.mpr (.inr List.mem_cons_self))
    · exact hsub (hs b hb hw)

/-- Whatever the input binds, groups bind their own variables. -/
theorem group_bindsOnly (plan : Plan) (keys : List Var) (columns : List (Var × Column)) :
    (plan.group keys columns).BindsOnly e (keys ++ columns.map (·.1)) := by
  intro c hc demand
  refine group_ensures keys columns (ensures_any _)
    (fun _ _ _ => Solutions.singleton_bindsOnly _) fun rows hrows => ?_
  exact (Solutions.ofRows_bindsOnly hrows).mono (List.subset_append_right _ _)

/-- Whatever the input binds, a projection keeps its variables, and then joins with
the seed. -/
theorem project_bindsOnly (plan : Plan) (ws : List Var) :
    (plan.project ws).BindsOnly e ws := by
  intro c hc demand
  refine .after fun s => joinSeed_bindsOnly ?_ (List.subset_append_left _ _)
  exact (s.project_bindsOnly ws).mono (List.subset_append_right _ _)

theorem ask_bindsOnly (plan : Plan) : plan.ask.BindsOnly e [] := by
  intro c hc demand
  exact ask_ensures Solutions.null_bindsOnly Solutions.identity_bindsOnly

theorem BindsOnly.graph (h : plan.BindsOnly e vs) (i : Iri) (us : List Var) :
    (plan.graph (.iri i) us).BindsOnly e vs := by
  intro c hc demand
  have hinner := h { c with view := c.view.enter (.named (.iri i)) } hc demand
  exact graph_ensures hinner Solutions.null_bindsOnly us

/-- In every graph the rows bind what the input binds, and the variable of the graph. -/
theorem BindsOnly.named (h : plan.BindsOnly e vs) (hc : c.environment = e) (v : Var)
    (g : Resource) (demand : Demand) :
    (plan demand).Ensures { c with view := c.view.enter (.named g) } fun s =>
      ∀ row ∈ s.rows.filterMap (bindName v g.toTerm),
        row.vars ⊆ c.start.vars ++ mergeVariables vs [v] := by
  refine (h { c with view := c.view.enter (.named g) } hc demand).mono fun s hs row hrow w hw => ?_
  obtain ⟨b, hb, hname⟩ := List.mem_filterMap.mp hrow
  rw [List.mem_append, mem_mergeVariables]
  rcases mem_mergeVariables.mp (vars_bindName hname hw) with hw | hw
  · rcases List.mem_append.mp (hs b hb hw) with hw | hw
    · exact .inl hw
    · exact .inr (.inl hw)
  · exact .inr (.inr hw)

theorem BindsOnly.graphs (h : plan.BindsOnly e vs) (v : Var) (us : List Var) :
    (plan.graph (.var v) us).BindsOnly e (mergeVariables vs [v]) := by
  intro c hc demand
  exact graphs_ensures (fun _ => Solutions.singleton_bindsOnly _) (h.named hc v)
    fun rows hrows => Solutions.ofRows_bindsOnly hrows

/-! ## Leaves -/

theorem values_bindsOnly (vs : List Var) (rows : List (List (Option Term))) :
    (values vs rows).BindsOnly e vs := by
  intro c hc
  refine values_ensures (fun _ => Solutions.singleton_bindsOnly _) fun hrows =>
    joinSeed_bindsOnly ?_ (List.subset_append_left _ _)
  exact (Solutions.ofRows_bindsOnly hrows).mono (List.subset_append_right _ _)

theorem pathSearch_bindsOnly (s : Position) (search : PathSearch) (o : Position) :
    (pathSearch s search o).BindsOnly e (Position.vars [s, o]) := by
  intro c hc
  refine pathSearch_ensures (fun _ => Solutions.singleton_bindsOnly _) fun ps hps rows hrows =>
    joinSeed_bindsOnly ?_ (List.subset_append_left _ _)
  apply Solutions.ofRows_bindsOnly
  intro row hrow v hv
  exact List.mem_append_right _ (hps (hrows row hrow hv))

theorem service_bindsOnly {name : NameRef} {silent : Bool} {pattern : Query.Pattern}
    (h : ∀ handler, e.services = some handler → ∀ i s, name.MayCall i →
      handler ⟨i, pattern⟩ e.base = .ok s → s.BindsOnly vs) :
    (service name vs silent pattern).BindsOnly e vs := by
  rintro c rfl
  refine service_ensures (fun _ => Solutions.singleton_bindsOnly _) Solutions.null_bindsOnly
    fun handler hhandler i s hi _ hs => joinSeed_bindsOnly ?_ (List.subset_append_left _ _)
  exact (h handler hhandler i s hi hs).mono (List.subset_append_right _ _)

theorem bgp_bindsOnly {steps : List Step}
    (hsteps : ∀ c, c.environment = e → ∀ s ∈ steps, s.Widens c vs) :
    (bgp steps vs).BindsOnly e vs := by
  intro c hc
  exact bgp_ensures (hsteps c hc) (fun _ => Solutions.singleton_bindsOnly _)
    fun rows hrows => Solutions.ofRows_bindsOnly fun row hrow => (hrows row hrow).2

end Plan

/-! ## Trees -/

/-- The answers of services bind variables of the calls in a tree only. They need not
declare them. -/
def Environment.AnswersWithin (e : Environment) (n : Node) : Prop :=
  ∀ handler, e.services = some handler → ∀ name vs silent pattern,
    n.Contains (.service name vs silent pattern) → ∀ i s, name.MayCall i →
      handler ⟨i, pattern⟩ e.base = .ok s → s.BindsOnly vs

theorem Environment.AnswersWithin.of_any {e : Environment} {n part : Node}
    (h : e.AnswersWithin n) (hany : ∀ test, part.any test = true → n.any test = true) :
    e.AnswersWithin part := by
  intro handler hhandler name vs silent pattern hpart
  apply h handler hhandler name vs silent pattern
  intro test htest
  exact hany test (hpart test htest)

variable {operators : OperatorRegistry} {e : Environment}

/-- The steps of a pattern bind its variables, if its sub-queries do. -/
theorem Element.steps_widen {es : List Element} {c : Context} {vs : List Var}
    (hqueries : ∀ query, .subQuery query ∈ es →
      (query.plan operators).BindsOnly c.environment query.vars)
    (hvs : Element.boundByAll es ⊆ vs) :
    ∀ s ∈ Element.steps operators 0 es, s.Widens c vs := by
  refine Element.steps_cases .extend (fun v hv => .assign hv) ?_ .filter hvs
  intro query hquery hown i
  have hinput := ((hqueries query hquery).of_subset hown).input i
  exact .subQuery i (hinput c rfl none)

mutual

/-- Whatever a tree yields binds variables of the tree and of the seed only. -/
theorem Node.plan_bindsOnly : ∀ n : Node, n.isCustomFree = true → e.AnswersWithin n →
    (n.plan operators).BindsOnly e n.vars
  | .bgp es, hn, ha => by
    have hqueries := Element.queries_bindOnly es hn fun query hquery => ha.of_any fun test ht => by
      simp [Node.any, Element.anyIn_of_mem hquery ht]
    refine (Plan.bgp_bindsOnly fun c hc => ?_).observed _
    exact Element.steps_widen (hc ▸ hqueries) fun _ hv => mem_dedup.mpr hv
  | .join l r, hn, ha => by
    simp only [Node.isCustomFree, Bool.and_eq_true] at hn
    have hl := l.plan_bindsOnly hn.1 (ha.of_any fun _ ht => by simp [Node.any, ht])
    have hr := r.plan_bindsOnly hn.2 (ha.of_any fun _ ht => by simp [Node.any, ht])
    exact ((hl.input 0).join (hr.input 1)).observed _
  | .leftJoin l r none, hn, ha => by
    simp only [Node.isCustomFree, Bool.and_eq_true] at hn
    have hl := l.plan_bindsOnly hn.1 (ha.of_any fun _ ht => by simp [Node.any, ht])
    have hr := r.plan_bindsOnly hn.2 (ha.of_any fun _ ht => by simp [Node.any, ht])
    exact ((hl.input 0).leftJoin (hr.input 1) _).observed _
  | .leftJoin l r (some _), hn, ha => by
    simp only [Node.isCustomFree, Bool.and_eq_true] at hn
    have hl := l.plan_bindsOnly hn.1.1 (ha.of_any fun _ ht => by simp [Node.any, ht])
    have hr := r.plan_bindsOnly hn.1.2 (ha.of_any fun _ ht => by simp [Node.any, ht])
    exact ((hl.input 0).leftJoin (hr.input 1) _).observed _
  | .union l r, hn, ha => by
    simp only [Node.isCustomFree, Bool.and_eq_true] at hn
    have hl := l.plan_bindsOnly hn.1 (ha.of_any fun _ ht => by simp [Node.any, ht])
    have hr := r.plan_bindsOnly hn.2 (ha.of_any fun _ ht => by simp [Node.any, ht])
    exact ((hl.input 0).union (hr.input 1) _).observed _
  | .minus l r, hn, ha => by
    simp only [Node.isCustomFree, Bool.and_eq_true] at hn
    -- whatever the right side binds, it only drops rows
    have hl := l.plan_bindsOnly hn.1 (ha.of_any fun _ ht => by simp [Node.any, ht])
    exact ((hl.input 0).of_selects (Plan.minus_selects _ _)).observed _
  | .existsJoin l r negated, hn, ha => by
    simp only [Node.isCustomFree, Bool.and_eq_true] at hn
    have hl := l.plan_bindsOnly hn.1 (ha.of_any fun _ ht => by simp [Node.any, ht])
    exact ((hl.input 0).of_selects (Plan.existsJoin_selects _ _ negated)).observed _
  | .filter inner _, hn, ha | .having inner _, hn, ha => by
    simp only [Node.isCustomFree, Bool.and_eq_true] at hn
    have h := inner.plan_bindsOnly hn.1 (ha.of_any fun _ ht => by simp [Node.any, ht])
    exact ((h.input 0).of_selects (Plan.filter_selects _ _)).observed _
  | .extend inner v _, hn, ha => by
    simp only [Node.isCustomFree, Bool.and_eq_true] at hn
    have h := inner.plan_bindsOnly hn.1 (ha.of_any fun _ ht => by simp [Node.any, ht])
    exact ((h.input 0).extend v _).observed _
  | .orderBy inner _, hn, ha => by
    simp only [Node.isCustomFree, Bool.and_eq_true] at hn
    have h := inner.plan_bindsOnly hn.1 (ha.of_any fun _ ht => by simp [Node.any, ht])
    exact ((h.input 0).of_selects (Plan.orderBy_selects _ _)).observed _
  | .distinct inner, hn, ha => by
    have h := inner.plan_bindsOnly hn (ha.of_any fun _ ht => by simp [Node.any, ht])
    exact ((h.input 0).of_selects (Plan.distinct_selects _)).observed _
  | .reduced inner, hn, ha => by
    have h := inner.plan_bindsOnly hn (ha.of_any fun _ ht => by simp [Node.any, ht])
    exact (h.input 0).observed _
  | .slice inner offset limit, hn, ha => by
    have h := inner.plan_bindsOnly hn (ha.of_any fun _ ht => by simp [Node.any, ht])
    exact ((h.input 0).of_selects (Plan.slice_selects _ offset limit)).observed _
  | .limit inner count, hn, ha => by
    have h := inner.plan_bindsOnly hn (ha.of_any fun _ ht => by simp [Node.any, ht])
    exact ((h.input 0).of_selects (Plan.limit_selects _ count)).observed _
  | .graph inner (.iri i), hn, ha => by
    have h := inner.plan_bindsOnly hn (ha.of_any fun _ ht => by simp [Node.any, ht])
    exact ((h.input 0).graph i _).observed _
  | .graph inner (.var v), hn, ha => by
    have h := inner.plan_bindsOnly hn (ha.of_any fun _ ht => by simp [Node.any, ht])
    exact ((h.input 0).graphs v _).observed _
  | .group _ keys columns, _, _ => by
    rw [Node.vars, ← @GroupValue.map_columns operators]
    exact (Plan.group_bindsOnly _ keys _).observed _
  | .service name vs silent pattern, _, ha => by
    refine (Plan.service_bindsOnly fun handler hhandler => ?_).observed _
    exact ha handler hhandler name vs silent pattern fun test ht => by simp [Node.any, ht]
  | .project _ vs, _, _ => (Plan.project_bindsOnly _ vs).observed _
  | .ask _, _, _ => (Plan.ask_bindsOnly _).observed _
  | .values vs rows, _, _ => (Plan.values_bindsOnly vs rows).observed _
  | .pathSearch s search o, _, _ => (Plan.pathSearch_bindsOnly s search o).observed _
  | .custom _ _ _, hn, _ => by cases hn

theorem Element.queries_bindOnly : ∀ es : List Element, Element.areCustomFree es = true →
    (∀ query, .subQuery query ∈ es → e.AnswersWithin query) →
    ∀ query, .subQuery query ∈ es → (query.plan operators).BindsOnly e query.vars
  | [], _, _ => fun _ hquery => absurd hquery List.not_mem_nil
  | .triple _ :: rest, hn, ha | .path _ _ _ :: rest, hn, ha => fun query hquery =>
    Element.queries_bindOnly rest hn (fun query hquery => ha query (List.mem_cons_of_mem _ hquery))
      query (by simpa using hquery)
  | .assign _ _ :: rest, hn, ha | .filter _ :: rest, hn, ha => fun query hquery => by
    simp only [Element.areCustomFree, Bool.and_eq_true] at hn
    exact Element.queries_bindOnly rest hn.2
      (fun query hquery => ha query (List.mem_cons_of_mem _ hquery)) query (by simpa using hquery)
  | .subQuery first :: rest, hn, ha => by
    simp only [Element.areCustomFree, Bool.and_eq_true] at hn
    have hfirst := first.plan_bindsOnly hn.1 (ha first List.mem_cons_self)
    have hrest := Element.queries_bindOnly rest hn.2 fun query hquery =>
      ha query (List.mem_cons_of_mem _ hquery)
    intro query hquery
    rcases List.mem_cons.mp hquery with heq | hquery
    · cases heq
      exact hfirst
    · exact hrest query hquery

end

/-- Every variable that is bound in a solution of a tree is one of the tree, or it is
bound in the seed. Services have to answer with the variables of their calls. -/
theorem Node.bound_by_tree_or_seed (operators : OperatorRegistry) {n : Node}
    (hcustom : n.isCustomFree = true) {c : Context}
    (hservices : c.environment.AnswersWithin n) {demand : Demand} {p q : Progress}
    {m : Solutions} (hrun : (n.plan operators demand).runFrom c p = (.ok m, q)) :
    ∀ row ∈ m.rows, ∀ v ∈ row.vars, v ∈ n.vars ∨ ∃ b, c.seed = some b ∧ v ∈ b.vars := by
  intro row hrow v hv
  have hbound := n.plan_bindsOnly hcustom hservices c rfl demand p m q hrun row hrow hv
  rcases List.mem_append.mp hbound with hseed | htree
  · right
    cases hb : c.seed with
    | none =>
      rw [Context.start_of_unseeded hb] at hseed
      exact absurd hseed List.not_mem_nil
    | some b =>
      rw [Context.start, hb, Option.getD_some] at hseed
      exact ⟨b, rfl, hseed⟩
  · exact .inl htree

/-- The edges of all graphs, with the names that a service knows. -/
def sampleNamed : Node :=
  .graph (.join (sampleEdgesFrom ⟨"x"⟩) (.service (.iri ⟨"names"⟩) [⟨"y"⟩, ⟨"name"⟩] false
    sampleNames)) (.var ⟨"g"⟩)

/-- A query on `sampleGraphs` that starts from a value of a variable of its own. -/
def seededContext : Context :=
  { sampleGraphsContext with seed := some (.ofEntries [(⟨"w"⟩, .iri ⟨"a"⟩)]) }

/-- The only solution binds the variable of the seed besides those of the tree. -/
theorem Node.bound_by_tree_or_seed_sample :
    sampleNamed.isCustomFree = true ∧ seededContext.environment.AnswersWithin sampleNamed ∧
      ∃ m q, (sampleNamed.plan .empty none).runFrom seededContext
          (.initial seededContext.environment) = (.ok m, q) ∧
        m.rows.map Binding.vars = [[⟨"g"⟩, ⟨"name"⟩, ⟨"w"⟩, ⟨"x"⟩, ⟨"y"⟩]] ∧
        ∀ row ∈ m.rows, ∀ v ∈ row.vars,
          v ∈ sampleNamed.vars ∨ ∃ b, seededContext.seed = some b ∧ v ∈ b.vars := by
  have hservices : seededContext.environment.AnswersWithin sampleNamed := by
    rintro handler hhandler name vs silent pattern hcontains i s - hs
    cases hhandler
    rw [hcontains.vars_of_service rfl]
    exact (sampleService_binds hs).row_vars
  have hrows : ((sampleNamed.plan .empty none).runFrom seededContext
      (.initial seededContext.environment)).1.toOption.map (·.rows.map Binding.vars) =
        some [[⟨"g"⟩, ⟨"name"⟩, ⟨"w"⟩, ⟨"x"⟩, ⟨"y"⟩]] := by decide +kernel
  obtain ⟨m, q, hrun, hvars⟩ := exists_ok_of_map hrows
  exact ⟨rfl, hservices, m, q, hrun, hvars,
    Node.bound_by_tree_or_seed .empty rfl hservices hrun⟩

end SparqlAlgebra
