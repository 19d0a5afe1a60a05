import SparqlAlgebra.Proofs.BoundVariables

/-!
# Declared variables

Solutions declare which variables they may bind, and joins and differences rely on it.
Every operator computes the two separately: the variables from those of its inputs, the
rows from their rows. Under a seed the rows also bind variables of the seed. Patterns,
leaves and projections declare these too, but a graph with a variable name declares the
variables of its pattern and its own one only, so its rows may bind more.

* `Solutions.WellFormed` is kept by the operations on solutions, and
  `Plan.DeclaresBound` by the operators;
* `Node.declaresSeed`: no such graph yields rows with undeclared variables of a seed;
* `Node.wellFormed_of_declaresSeed` is the statement about trees, and without a seed it
  is about all of them, `Node.wellFormed_of_unseeded`;
* `Node.graph_binds_undeclared` is a graph under a seed, and a difference that keeps a
  row for it.
-/

namespace SparqlAlgebra

open Eval

/-! ## Operations on well-formed solutions -/

namespace Solutions

variable {a b s o : Solutions} {c : Context}

theorem null_wellFormed : null.WellFormed := null_bindsOnly

theorem ofRows_wellFormed {vs : List Var} {rows : List Binding}
    (h : ∀ row ∈ rows, row.vars ⊆ vs) : (ofRows vs rows).WellFormed := by
  unfold WellFormed
  rw [vars_ofRows]
  exact ofRows_bindsOnly h

theorem WellFormed.of_selection (h : s.WellFormed) (hsel : s.IsSelection o) : o.WellFormed := by
  unfold WellFormed
  rw [hsel.vars_eq]
  exact BindsOnly.of_selection h hsel

theorem WellFormed.bindsOnly_left (h : a.WellFormed) (vs : List Var) :
    a.BindsOnly (mergeVariables a.vars vs) := BindsOnly.mono h subset_mergeVariables_left

theorem WellFormed.bindsOnly_right (h : b.WellFormed) (vs : List Var) :
    b.BindsOnly (mergeVariables vs b.vars) := BindsOnly.mono h subset_mergeVariables_right

theorem WellFormed.join (ha : a.WellFormed) (hb : b.WellFormed) : (a.join b).WellFormed := by
  have hbinds := (ha.bindsOnly_left b.vars).join (hb.bindsOnly_right a.vars)
  unfold Solutions.join at hbinds ⊢
  split at hbinds
  · exact null_wellFormed
  · exact null_wellFormed
  · exact hb
  · exact ha
  -- only real solutions on both sides have the variables of both
  · dsimp only at hbinds ⊢
    split
    · exact singleton_bindsOnly _
    · rename_i hreal
      rw [if_neg hreal] at hbinds
      unfold WellFormed
      rw [vars_ofRows]
      exact hbinds

theorem WellFormed.leftJoinM (ha : a.WellFormed) (hb : b.WellFormed)
    (condition : Binding → Eval Bool) :
    (a.leftJoinM b condition).Ensures c (·.WellFormed) := by
  unfold Solutions.leftJoinM
  split
  · exact .pure null_wellFormed
  · exact .pure ha
  · dsimp only
    split
    · exact .pure (singleton_bindsOnly _)
    · refine (leftRowsM_ensures (JoinIndex.candidates_build _ b.rows) a.rows).bind
        fun rows hrows => .pure (ofRows_wellFormed fun row hrow => ?_)
      exact (hrows row hrow).vars_subset ha hb

theorem WellFormed.union (ha : a.WellFormed) (hb : b.WellFormed) : (a.union b).WellFormed := by
  unfold Solutions.union
  split
  · exact hb
  · exact ha
  · dsimp only
    split
    · exact singleton_bindsOnly _
    · apply ofRows_wellFormed
      exact List.forall_mem_append.mpr ⟨ha.bindsOnly_left _, hb.bindsOnly_right _⟩

theorem project_wellFormed (s : Solutions) (vs : List Var) : (s.project vs).WellFormed := by
  have hbinds := s.project_bindsOnly vs
  unfold Solutions.project at hbinds ⊢
  split at hbinds
  · exact null_wellFormed
  · exact hbinds
  · unfold WellFormed
    rw [vars_ofRows]
    exact hbinds

theorem WellFormed.extendVariables (h : s.WellFormed) (vs : List Var) :
    (s.extendVariables vs).WellFormed := by
  unfold Solutions.extendVariables
  split
  · exact null_wellFormed
  · exact singleton_bindsOnly _
  · exact ofRows_wellFormed (h.bindsOnly_left vs)

end Solutions

/-! ## Plans -/

namespace Plan

variable {c : Context} {e : Environment} {us vs ws : List Var} {plan left right : Plan}

/-- What the plan yields declares what it binds, if the seed binds some variables
only. -/
def DeclaresBound (e : Environment) (us : List Var) (plan : Plan) : Prop :=
  ∀ c, c.environment = e → c.start.vars ⊆ us → ∀ demand,
    (plan demand).Ensures c (·.WellFormed)

theorem DeclaresBound.input (h : plan.DeclaresBound e us) (i : Nat) :
    (plan.input i).DeclaresBound e us := by
  intro c hc hseed demand
  apply Ensures.within
  exact h { c with place := c.place.map (· ++ [i]) } hc hseed demand

theorem DeclaresBound.observed (h : plan.DeclaresBound e us) (name : String) :
    (plan.observed name).DeclaresBound e us := by
  intro c hc hseed demand
  exact observed_ensures (h { c with depth := c.depth + 1 } hc hseed demand) name

theorem DeclaresBound.of_selects {selection : Plan} (h : plan.DeclaresBound e us)
    (hselects : selection.Selects plan) : selection.DeclaresBound e us := by
  intro c hc hseed
  exact hselects c _ (fun _ _ hsel hs => hs.of_selection hsel) Solutions.null_wellFormed
    (h c hc hseed)

/-- Solutions are joined with the seed, and all its variables. -/
theorem joinSeed_wellFormed {s : Solutions} (hs : s.WellFormed) :
    (joinSeed s).Ensures c (·.WellFormed) := by
  refine .read_bind ?_
  cases c.seed with
  | none => exact .pure hs
  | some b =>
    refine .pure ?_
    split
    · exact hs
    · apply hs.join
      apply Solutions.ofRows_wellFormed
      intro row hrow
      rw [List.mem_singleton.mp hrow]
      exact List.Subset.refl _

/-! ## Operators -/

theorem DeclaresBound.join (hl : left.DeclaresBound e us) (hr : right.DeclaresBound e us) :
    (left.join right).DeclaresBound e us := by
  intro c hc hseed
  exact withRight_ensures (hl c hc hseed) (hr c hc hseed none) Solutions.null_wellFormed
    fun l r hl hr => .pure (hl.join hr)

theorem DeclaresBound.leftJoin (hl : left.DeclaresBound e us)
    (hr : right.DeclaresBound e us) (condition : Binding → Eval Bool) :
    (left.leftJoin right condition).DeclaresBound e us := by
  intro c hc hseed
  exact withRight_ensures (hl c hc hseed) (hr c hc hseed none) Solutions.null_wellFormed
    fun l r hl hr => hl.leftJoinM hr condition

theorem DeclaresBound.union (hl : left.DeclaresBound e us) (hr : right.DeclaresBound e us)
    (rightVariables : List Var) : (left.union right rightVariables).DeclaresBound e us := by
  intro c hc hseed
  exact union_ensures (hl c hc hseed) (hr c hc hseed)
    (fun l hl => hl.extendVariables rightVariables) fun l r hl hr => hl.union hr

/-- The variable that is assigned is hidden from the input, so a seed may bind it. -/
theorem DeclaresBound.extend {v : Var} (h : plan.DeclaresBound e (us.filter (· ≠ v)))
    (f : Assignment) : (plan.extend v f).DeclaresBound e us := by
  intro c hc hseed demand
  have hstart : ({ c with seed := c.seed.map (·.erase v) } : Context).start.vars ⊆
      us.filter (· ≠ v) := by
    rw [Context.start_mapSeed c (Binding.erase_empty v)]
    intro w hw
    have hne : w ≠ v := by
      rintro rfl
      obtain ⟨t, ht⟩ := Binding.mem_vars_iff.mp hw
      simp at ht
    exact List.mem_filter.mpr ⟨hseed (c.start.vars_erase_subset v hw), by simpa using hne⟩
  have hinner := h { c with seed := c.seed.map (·.erase v) } hc hstart demand
  refine extend_ensures f hinner (fun s hs _ => hs.extendVariables [v]) ?_
  intro s rows hs hrows
  apply Solutions.ofRows_wellFormed
  intro row hrow w hw
  obtain ⟨b, hb, rfl | ⟨t, rfl⟩⟩ := hrows row hrow
  · exact hs.bindsOnly_left [v] row hb hw
  · rcases Binding.mem_vars_insert.mp hw with rfl | hw
    · exact mem_mergeVariables.mpr (.inr List.mem_cons_self)
    · exact hs.bindsOnly_left [v] b hb hw

theorem group_declaresBound (plan : Plan) (keys : List Var) (columns : List (Var × Column)) :
    (plan.group keys columns).DeclaresBound e us := by
  intro c hc hseed demand
  exact group_ensures keys columns (ensures_any _)
    (fun _ _ _ => Solutions.singleton_bindsOnly _)
    fun rows hrows => Solutions.ofRows_wellFormed hrows

theorem project_declaresBound (plan : Plan) (ws : List Var) :
    (plan.project ws).DeclaresBound e us := by
  intro c hc hseed demand
  exact .after fun s => joinSeed_wellFormed (s.project_wellFormed ws)

theorem ask_declaresBound (plan : Plan) : plan.ask.DeclaresBound e us := by
  intro c hc hseed demand
  exact ask_ensures Solutions.null_wellFormed Solutions.identity_bindsOnly

theorem DeclaresBound.graph (h : plan.DeclaresBound e us) (i : Iri) (ws : List Var) :
    (plan.graph (.iri i) ws).DeclaresBound e us := by
  intro c hc hseed demand
  have hinner := h { c with view := c.view.enter (.named (.iri i)) } hc hseed demand
  exact graph_ensures hinner Solutions.null_wellFormed ws

/-- The variables of the seed have to be among those that the graph declares. -/
theorem BindsOnly.graphs_declaresBound (h : plan.BindsOnly e vs) {v : Var}
    (hus : us ⊆ mergeVariables vs [v]) : (plan.graph (.var v) vs).DeclaresBound e us := by
  intro c hc hseed demand
  refine graphs_ensures (fun _ => Solutions.singleton_bindsOnly _) (h.named hc v)
    fun rows hrows => ?_
  apply Solutions.ofRows_wellFormed
  intro row hrow w hw
  rcases List.mem_append.mp (hrows row hrow hw) with hw | hw
  · exact hus (hseed hw)
  · exact hw

theorem values_declaresBound (vs : List Var) (rows : List (List (Option Term))) :
    (values vs rows).DeclaresBound e us := by
  intro c hc hseed
  exact values_ensures (fun _ => Solutions.singleton_bindsOnly _) fun hrows =>
    joinSeed_wellFormed (Solutions.ofRows_wellFormed hrows)

theorem pathSearch_declaresBound (s : Position) (search : PathSearch) (o : Position) :
    (pathSearch s search o).DeclaresBound e us := by
  intro c hc hseed
  exact pathSearch_ensures (fun _ => Solutions.singleton_bindsOnly _) fun ps _ rows hrows =>
    joinSeed_wellFormed (Solutions.ofRows_wellFormed hrows)

theorem service_declaresBound {name : NameRef} {silent : Bool} {pattern : Query.Pattern}
    (h : ∀ handler, e.services = some handler → ∀ call s, handler call e.base = .ok s →
      s.WellFormed) : (service name vs silent pattern).DeclaresBound e us := by
  rintro c rfl hseed
  exact service_ensures (fun _ => Solutions.singleton_bindsOnly _) Solutions.null_wellFormed
    fun handler hhandler i s _ _ hs => joinSeed_wellFormed (h handler hhandler ⟨i, pattern⟩ s hs)

/-- A pattern declares the variables of the seed besides its own. -/
theorem bgp_declaresBound {steps : List Step}
    (hsteps : ∀ c, c.environment = e → ∀ s ∈ steps, s.Widens c vs) :
    (bgp steps vs).DeclaresBound e us := by
  intro c hc hseed
  refine bgp_ensures (hsteps c hc) (fun _ => Solutions.singleton_bindsOnly _)
    fun rows hrows => ?_
  apply Solutions.ofRows_wellFormed
  intro row hrow v hv
  exact mem_mergeVariables.mpr (List.mem_append.mp ((hrows row hrow).2 hv))

end Plan

/-! ## Trees -/

/-- Whether no graph with a variable name leaves a variable of a seed undeclared, so
that the solutions of the tree would bind it. The seed binds the given variables at
most. Under an assignment the input does not start from the value of its variable, and
what groups, projections and patterns yield does not depend on what their inputs
declare. -/
def Node.declaresSeed (us : List Var) : Node → Bool
  | .join l r | .leftJoin l r _ | .union l r => l.declaresSeed us && r.declaresSeed us
  | .minus l _ | .existsJoin l _ _ => l.declaresSeed us
  | .filter inner _ | .having inner _ | .orderBy inner _ | .distinct inner | .reduced inner
  | .slice inner _ _ | .limit inner _ | .graph inner (.iri _) => inner.declaresSeed us
  | .graph inner (.var v) => us.all fun w => (mergeVariables inner.vars [v]).contains w
  | .extend inner v _ => inner.declaresSeed (us.filter (· ≠ v))
  | .bgp _ | .group _ _ _ | .project _ _ | .service _ _ _ _ | .ask _ | .values _ _
  | .pathSearch _ _ _ | .custom _ _ _ => true

/-- Without a seed there is nothing to declare. -/
theorem Node.declaresSeed_nil : ∀ n : Node, n.declaresSeed [] = true
  | .join l r | .leftJoin l r _ | .union l r => by
    simp only [Node.declaresSeed, Bool.and_eq_true]
    exact ⟨l.declaresSeed_nil, r.declaresSeed_nil⟩
  | .minus l _ | .existsJoin l _ _ => l.declaresSeed_nil
  | .filter inner _ | .having inner _ | .orderBy inner _ | .distinct inner | .reduced inner
  | .slice inner _ _ | .limit inner _ | .graph inner (.iri _) | .extend inner _ _ =>
    inner.declaresSeed_nil
  | .graph _ (.var _) | .bgp _ | .group _ _ _ | .project _ _ | .service _ _ _ _ | .ask _
  | .values _ _ | .pathSearch _ _ _ | .custom _ _ _ => rfl

/-- The answers of services declare what they bind. -/
def Environment.AnswersWellFormed (e : Environment) : Prop :=
  ∀ handler, e.services = some handler → ∀ call s, handler call e.base = .ok s →
    s.WellFormed

variable {operators : OperatorRegistry} {e : Environment}

/-- Whatever a tree yields declares what it binds, under a seed that it declares. -/
theorem Node.plan_declaresBound (he : e.AnswersWellFormed) : ∀ (n : Node) {us : List Var},
    n.isCustomFree = true → e.AnswersWithin n → n.declaresSeed us = true →
      (n.plan operators).DeclaresBound e us
  | .bgp es, _, hn, ha, _ => by
    have hqueries : ∀ query, .subQuery query ∈ es →
        (query.plan operators).BindsOnly e query.vars :=
      Element.queries_bindOnly es hn fun query hquery => ha.of_any fun test ht => by
        simp [Node.any, Element.anyIn_of_mem hquery ht]
    refine (Plan.bgp_declaresBound fun c hc => ?_).observed _
    exact Element.steps_widen (hc ▸ hqueries) fun _ hv => mem_dedup.mpr hv
  | .join l r, _, hn, ha, hs => by
    simp only [Node.isCustomFree, Bool.and_eq_true] at hn
    simp only [Node.declaresSeed, Bool.and_eq_true] at hs
    have hl := l.plan_declaresBound he hn.1 (ha.of_any fun _ ht => by simp [Node.any, ht]) hs.1
    have hr := r.plan_declaresBound he hn.2 (ha.of_any fun _ ht => by simp [Node.any, ht]) hs.2
    exact ((hl.input 0).join (hr.input 1)).observed _
  | .leftJoin l r none, _, hn, ha, hs => by
    simp only [Node.isCustomFree, Bool.and_eq_true] at hn
    simp only [Node.declaresSeed, Bool.and_eq_true] at hs
    have hl := l.plan_declaresBound he hn.1 (ha.of_any fun _ ht => by simp [Node.any, ht]) hs.1
    have hr := r.plan_declaresBound he hn.2 (ha.of_any fun _ ht => by simp [Node.any, ht]) hs.2
    exact ((hl.input 0).leftJoin (hr.input 1) _).observed _
  | .leftJoin l r (some _), _, hn, ha, hs => by
    simp only [Node.isCustomFree, Bool.and_eq_true] at hn
    simp only [Node.declaresSeed, Bool.and_eq_true] at hs
    have hl := l.plan_declaresBound he hn.1.1 (ha.of_any fun _ ht => by simp [Node.any, ht]) hs.1
    have hr := r.plan_declaresBound he hn.1.2 (ha.of_any fun _ ht => by simp [Node.any, ht]) hs.2
    exact ((hl.input 0).leftJoin (hr.input 1) _).observed _
  | .union l r, _, hn, ha, hs => by
    simp only [Node.isCustomFree, Bool.and_eq_true] at hn
    simp only [Node.declaresSeed, Bool.and_eq_true] at hs
    have hl := l.plan_declaresBound he hn.1 (ha.of_any fun _ ht => by simp [Node.any, ht]) hs.1
    have hr := r.plan_declaresBound he hn.2 (ha.of_any fun _ ht => by simp [Node.any, ht]) hs.2
    exact ((hl.input 0).union (hr.input 1) _).observed _
  | .minus l r, _, hn, ha, hs => by
    simp only [Node.isCustomFree, Bool.and_eq_true] at hn
    have hl := l.plan_declaresBound he hn.1 (ha.of_any fun _ ht => by simp [Node.any, ht]) hs
    exact ((hl.input 0).of_selects (Plan.minus_selects _ _)).observed _
  | .existsJoin l r negated, _, hn, ha, hs => by
    simp only [Node.isCustomFree, Bool.and_eq_true] at hn
    have hl := l.plan_declaresBound he hn.1 (ha.of_any fun _ ht => by simp [Node.any, ht]) hs
    exact ((hl.input 0).of_selects (Plan.existsJoin_selects _ _ negated)).observed _
  | .filter inner _, _, hn, ha, hs | .having inner _, _, hn, ha, hs => by
    simp only [Node.isCustomFree, Bool.and_eq_true] at hn
    have h := inner.plan_declaresBound he hn.1 (ha.of_any fun _ ht => by simp [Node.any, ht]) hs
    exact ((h.input 0).of_selects (Plan.filter_selects _ _)).observed _
  | .extend inner v _, _, hn, ha, hs => by
    simp only [Node.isCustomFree, Bool.and_eq_true] at hn
    have h := inner.plan_declaresBound he hn.1 (ha.of_any fun _ ht => by simp [Node.any, ht]) hs
    exact ((h.input 0).extend _).observed _
  | .orderBy inner _, _, hn, ha, hs => by
    simp only [Node.isCustomFree, Bool.and_eq_true] at hn
    have h := inner.plan_declaresBound he hn.1 (ha.of_any fun _ ht => by simp [Node.any, ht]) hs
    exact ((h.input 0).of_selects (Plan.orderBy_selects _ _)).observed _
  | .distinct inner, _, hn, ha, hs => by
    have h := inner.plan_declaresBound he hn (ha.of_any fun _ ht => by simp [Node.any, ht]) hs
    exact ((h.input 0).of_selects (Plan.distinct_selects _)).observed _
  | .reduced inner, _, hn, ha, hs => by
    have h := inner.plan_declaresBound he hn (ha.of_any fun _ ht => by simp [Node.any, ht]) hs
    exact (h.input 0).observed _
  | .slice inner offset count, _, hn, ha, hs => by
    have h := inner.plan_declaresBound he hn (ha.of_any fun _ ht => by simp [Node.any, ht]) hs
    exact ((h.input 0).of_selects (Plan.slice_selects _ offset count)).observed _
  | .limit inner count, _, hn, ha, hs => by
    have h := inner.plan_declaresBound he hn (ha.of_any fun _ ht => by simp [Node.any, ht]) hs
    exact ((h.input 0).of_selects (Plan.limit_selects _ count)).observed _
  | .graph inner (.iri i), _, hn, ha, hs => by
    have h := inner.plan_declaresBound he hn (ha.of_any fun _ ht => by simp [Node.any, ht]) hs
    exact ((h.input 0).graph i _).observed _
  | .graph inner (.var v), us, hn, ha, hs => by
    -- what the input declares is dropped, so what it may bind has to be known instead
    have h : (inner.plan operators).BindsOnly e inner.vars :=
      inner.plan_bindsOnly hn (ha.of_any fun _ ht => by simp [Node.any, ht])
    have hus : us ⊆ mergeVariables inner.vars [v] := by
      intro w hw
      exact List.contains_iff_mem.mp (List.all_eq_true.mp hs w hw)
    exact ((h.input 0).graphs_declaresBound hus).observed _
  | .group _ keys _, _, _, _, _ => (Plan.group_declaresBound _ keys _).observed _
  | .project _ vs, _, _, _, _ => (Plan.project_declaresBound _ vs).observed _
  | .service _ _ _ _, _, _, _, _ => (Plan.service_declaresBound he).observed _
  | .ask _, _, _, _, _ => (Plan.ask_declaresBound _).observed _
  | .values vs rows, _, _, _, _ => (Plan.values_declaresBound vs rows).observed _
  | .pathSearch s search o, _, _, _, _ => (Plan.pathSearch_declaresBound s search o).observed _
  | .custom _ _ _, _, hn, _, _ => by cases hn

/-- The solutions of a tree declare what they bind, if its graphs with a variable name
declare the variables of the seed. Services have to do so too, and to answer with the
variables of their calls. -/
theorem Node.wellFormed_of_declaresSeed (operators : OperatorRegistry) {n : Node}
    (hcustom : n.isCustomFree = true) {c : Context}
    (hdeclared : c.environment.AnswersWellFormed)
    (hservices : c.environment.AnswersWithin n)
    (hseed : n.declaresSeed c.start.vars = true) {demand : Demand} {p q : Progress}
    {m : Solutions} (hrun : (n.plan operators demand).runFrom c p = (.ok m, q)) :
    m.WellFormed :=
  n.plan_declaresBound hdeclared hcustom hservices hseed c rfl (List.Subset.refl _) demand p m q
    hrun

/-- Rows of a graph, without those of a variable that the seed binds. -/
def sampleDeclared : Node :=
  .minus (.extend sampleNamed ⟨"w"⟩ (.var ⟨"x"⟩)) (.values [⟨"x"⟩] [[some (.iri ⟨"b"⟩)]])

/-- The seed binds the variable that is assigned, which its input does not see. -/
theorem Node.wellFormed_of_declaresSeed_sample :
    sampleDeclared.isCustomFree = true ∧ seededContext.environment.AnswersWellFormed ∧
      seededContext.environment.AnswersWithin sampleDeclared ∧
      sampleDeclared.declaresSeed seededContext.start.vars = true ∧
      ∃ m q, (sampleDeclared.plan .empty (some 1)).runFrom seededContext
          (.initial seededContext.environment) = (.ok m, q) ∧ m.size = 1 ∧ m.WellFormed := by
  have hdeclared : seededContext.environment.AnswersWellFormed := by
    rintro handler hhandler call s hs
    cases hhandler
    exact (sampleService_binds hs).wellFormed
  have hservices : seededContext.environment.AnswersWithin sampleDeclared := by
    rintro handler hhandler name vs silent pattern hcontains i s - hs
    cases hhandler
    rw [hcontains.vars_of_service rfl]
    exact (sampleService_binds hs).row_vars
  have hseed : sampleDeclared.declaresSeed seededContext.start.vars = true := by decide
  have hsize : ((sampleDeclared.plan .empty (some 1)).runFrom seededContext
      (.initial seededContext.environment)).1.toOption.map (·.size) = some 1 := by decide +kernel
  obtain ⟨m, q, hrun, hsize⟩ := exists_ok_of_map hsize
  exact ⟨rfl, hdeclared, hservices, hseed, m, q, hrun, hsize,
    Node.wellFormed_of_declaresSeed .empty rfl hdeclared hservices hseed hrun⟩

/-- Without a seed the solutions of every tree declare what they bind. -/
theorem Node.wellFormed_of_unseeded (operators : OperatorRegistry) {n : Node}
    (hcustom : n.isCustomFree = true) {c : Context} (hnone : c.seed = none)
    (hdeclared : c.environment.AnswersWellFormed)
    (hservices : c.environment.AnswersWithin n) {demand : Demand} {p q : Progress}
    {m : Solutions} (hrun : (n.plan operators demand).runFrom c p = (.ok m, q)) :
    m.WellFormed := by
  have hstart : c.start.vars ⊆ [] := by
    rw [Context.start_of_unseeded hnone, Binding.vars_empty]
    exact List.Subset.refl []
  exact n.plan_declaresBound hdeclared hcustom hservices n.declaresSeed_nil c rfl hstart demand
    p m q hrun

/-! ## A graph under a seed -/

/-- One solution, which is the seed of `seededContext`. -/
def sampleSeedValues : Node := .values [⟨"w"⟩] [[some (.iri ⟨"a"⟩)]]

/-- The name of the graph is declared, but not the variable of the seed, which the row
of the empty pattern binds. So a difference takes the two sides for disjoint and keeps
the row, which it drops if the empty pattern stands outside the graph. -/
theorem Node.graph_binds_undeclared :
    (∃ m q, ((Node.graph (.bgp []) (.var ⟨"g"⟩)).plan .empty none).runFrom seededContext
        (.initial seededContext.environment) = (.ok m, q) ∧ m.vars = [⟨"g"⟩] ∧
      m.rows = [.ofEntries [(⟨"g"⟩, .iri ⟨"g"⟩), (⟨"w"⟩, .iri ⟨"a"⟩)]] ∧ ¬ m.WellFormed) ∧
    (∃ m q, ((Node.minus (.graph (.bgp []) (.var ⟨"g"⟩)) sampleSeedValues).plan .empty none).runFrom
        seededContext (.initial seededContext.environment) = (.ok m, q) ∧ m.size = 1) ∧
    ∃ m q, ((Node.minus (.bgp []) sampleSeedValues).plan .empty none).runFrom
        seededContext (.initial seededContext.environment) = (.ok m, q) ∧ m.size = 0 := by
  have hgraph : (((Node.graph (.bgp []) (.var ⟨"g"⟩)).plan .empty none).runFrom seededContext
      (.initial seededContext.environment)).1.toOption.map (fun m => (m.vars, m.rows)) =
        some ([⟨"g"⟩], [.ofEntries [(⟨"g"⟩, .iri ⟨"g"⟩), (⟨"w"⟩, .iri ⟨"a"⟩)]]) := by decide +kernel
  have hkept : (((Node.minus (.graph (.bgp []) (.var ⟨"g"⟩)) sampleSeedValues).plan .empty
      none).runFrom seededContext (.initial seededContext.environment)).1.toOption.map
        (·.size) = some 1 := by decide +kernel
  have hdropped : (((Node.minus (.bgp []) sampleSeedValues).plan .empty none).runFrom seededContext
      (.initial seededContext.environment)).1.toOption.map (·.size) = some 0 := by decide +kernel
  refine ⟨?_, exists_ok_of_map hkept, exists_ok_of_map hdropped⟩
  obtain ⟨m, q, hrun, hm⟩ := exists_ok_of_map hgraph
  obtain ⟨hvars, hrows⟩ := Prod.ext_iff.mp hm
  refine ⟨m, q, hrun, hvars, hrows, fun hwell => ?_⟩
  unfold Solutions.WellFormed at hwell
  dsimp only at hvars hrows
  rw [hvars, hrows] at hwell
  have hundeclared := hwell _ List.mem_cons_self ⟨"w"⟩ (by decide)
  exact absurd hundeclared (by decide)

end SparqlAlgebra
