import SparqlAlgebra.Proofs.PathRefinements
import SparqlAlgebra.Proofs.PatternOrders

/-!
# The order of triples and paths

Triples and paths of a basic graph pattern are matched one inside the other, each with
the values that those before it have bound. If this is the join of what they match on
their own, it does not matter which comes first. A path that may be empty and has two
free ends looks at the nodes of the graph only, while a known end that is no node is
related to itself. So the order matters where another element gives such an end a term
that is no node: a predicate, or a constant at the other end of another such path.

* `Element.KeepToNodes` excludes this, and `Element.keepToNodes_of_ends` is a condition on
  the elements alone that implies it;
* `Element.foundRows_perm`: what is matched is the join of what each element matches;
* `Node.bgp_rows_of_perm`: elements in any order have the same solutions, and the rule
  for the order of patterns only puts them in another order;
* `Node.bgp_order_matters`: two paths whose order matters.
-/

namespace SparqlAlgebra

open Eval PatternOrder
open Var (AreGiven areGiven_append)

namespace Element

/-! ## What elements match on their own -/

/-- The rows that a triple or a path has on its own. -/
def ownRows (v : DatasetView) : Element → List Binding
  | triple p => p.rows v.facts
  | path s p o => (p.links v).bindings s o
  | _ => []

/-- The rows that a triple or a path makes of a binding. -/
def matchedRows (v : DatasetView) (b : Binding) : Element → List Binding
  | triple p => (p.rows v.facts).filterMap b.merge?
  | path s p o =>
    ((p.links v).bindings (s.substitute b) (o.substitute b)).filterMap b.merge?
  | _ => []

/-- The variables at the ends of a path that may be empty. -/
def emptyEnds : Element → List Var
  | path s p o => if p.mayBeEmpty then Position.vars [s, o] else []
  | _ => []

variable {v : DatasetView} {e f : Element} {es es' : List Element} {b : Binding}

/-- A binding that gives nodes to the ends of a path that may be empty is joined with
what the element matches on its own. -/
theorem matchedRows_perm (hv : v.dataset.IsReadable)
    (hb : ∀ x ∈ e.emptyEnds, ∀ t, b.get? x = some t → t ∈ v.factNodes) :
    (e.matchedRows v b).Perm ((e.ownRows v).filterMap b.merge?) := by
  cases e with
  | triple p => exact .refl _
  | path s p o =>
    refine p.extensions_perm hv s o fun hempty x hx => hb x ?_
    show x ∈ if p.mayBeEmpty then Position.vars [s, o] else []
    rw [if_pos hempty]
    exact hx
  | assign _ _ | subQuery _ | filter _ => exact .refl _

/-! ## Terms that are no nodes -/

/-- On its own the element binds a variable to nodes only. -/
def BindsNodes (v : DatasetView) (x : Var) (e : Element) : Prop :=
  ∀ row ∈ e.ownRows v, ∀ t, row.get? x = some t → t ∈ v.factNodes

/-- None of two elements binds an end of the other one, if this is a path that may be
empty, to a term that is no node. -/
def Suits (v : DatasetView) (e f : Element) : Prop :=
  (∀ x ∈ e.emptyEnds, f.BindsNodes v x) ∧ ∀ x ∈ f.emptyEnds, e.BindsNodes v x

/-- The ends of each path that may be empty are bound to nodes by all other elements. -/
def KeepToNodes (v : DatasetView) (es : List Element) : Prop := es.Pairwise (Suits v)

theorem KeepToNodes.of_perm (h : KeepToNodes v es) (hperm : es'.Perm es) :
    KeepToNodes v es' := by
  have hsymm : ∀ {e f : Element}, Suits v e f → Suits v f e := fun h => ⟨h.2, h.1⟩
  exact (hperm.pairwise_iff hsymm).mpr h

/-- A triple binds a variable to its subject or object, unless this is its predicate. -/
theorem bindsNodes_triple {p : TriplePattern} {x : Var} (hx : p.predicate ≠ .var x) :
    (triple p).BindsNodes v x := by
  intro row hrow t ht
  obtain ⟨fact, hfact, hext⟩ := List.mem_filterMap.mp hrow
  obtain ⟨-, hshows, hvars⟩ := Step.extension?_spec hext
  have hmem : x ∈ p.vars := hvars (Binding.mem_vars_iff.mpr ⟨t, ht⟩)
  have hnodes := Links.Count.mem_of_edge hfact
  have hpositions := Position.mem_vars.mp hmem
  simp only [TriplePattern.positions, List.mem_cons, List.not_mem_nil, or_false] at hpositions
  rcases hpositions with hp | hp | hp
  · have hsubject := hshows.subject
    rw [← hp, Position.resolve, ht, Option.some.injEq] at hsubject
    exact hsubject ▸ hnodes.1
  · exact absurd hp.symm hx
  · have hobject := hshows.object
    rw [← hp, Position.resolve, ht, Option.some.injEq] at hobject
    exact hobject ▸ hnodes.2

/-- A path leaves the nodes only if it may be empty and one of its ends is a constant
that is no node. -/
theorem bindsNodes_path (hv : v.dataset.IsReadable) {s o : Position} {p : Path}
    (hends : p.mayBeEmpty = true → ∀ t, s = .term t ∨ o = .term t → t ∈ v.factNodes)
    (x : Var) : (path s p o).BindsNodes v x := by
  intro row hrow t ht
  obtain ⟨l, hl, rfl⟩ := List.mem_map.mp hrow
  have hallowed := (p.links v).allowed _ l hl
  have hboth : l.1 ∈ v.factNodes ∧ l.2 ∈ v.factNodes := by
    rcases p.links_stay v _ l hl with hboth | ⟨hempty, hloop⟩
    · exact hboth
    · -- a loop is at a constant end, or at a node if both ends are free
      cases s with
      | term a =>
        have hstart : l.1 = a := by cases o <;> simp_all [Position.ends, Ends.allows]
        have hnode := hends hempty a (.inl rfl)
        exact ⟨hstart ▸ hnode, hloop ▸ hstart ▸ hnode⟩
      | var y =>
        cases o with
        | term d =>
          have hstop : l.2 = d := by simpa [Position.ends, Ends.allows] using hallowed
          have hnode := hends hempty d (.inr rfl)
          exact ⟨hloop ▸ hstop ▸ hnode, hstop ▸ hnode⟩
        | var z =>
          refine (p.links_count hv).nodes _ ?_ l hl
          by_cases hyz : y = z <;> simp [Position.ends, hyz, Ends.IsWithin]
  rw [Position.get?_bindEnds] at ht
  split at ht
  · exact Option.some.inj ht ▸ hboth.2
  · split at ht
    · exact Option.some.inj ht ▸ hboth.1
    · cases ht

/-- The end of no path that may be empty is the predicate of a triple, and no such path
has a constant end that is no node. -/
theorem keepToNodes_of_ends (hv : v.dataset.IsReadable) {es : List Element}
    (hpredicates : ∀ p, triple p ∈ es → ∀ e ∈ es, ∀ x ∈ e.emptyEnds, p.predicate ≠ .var x)
    (hconstants : ∀ s p o, path s p o ∈ es → p.mayBeEmpty = true →
      ∀ t, s = .term t ∨ o = .term t → t ∈ v.factNodes) : KeepToNodes v es := by
  have hbinds : ∀ e ∈ es, ∀ f ∈ es, ∀ x ∈ e.emptyEnds, f.BindsNodes v x := by
    intro e he f hf x hx
    cases f with
    | triple p => exact bindsNodes_triple (hpredicates p hf e he x hx)
    | path s p o => exact bindsNodes_path hv (hconstants s p o hf) x
    | assign _ _ | subQuery _ | filter _ => exact fun row hrow => nomatch hrow
  exact List.pairwise_of_forall_mem_list fun e he f hf => ⟨hbinds e he f hf, hbinds f hf e he⟩

/-! ## Matching all elements -/

theorem areRepeatable_of_isMovable (h : ∀ e ∈ es, isMovable e = true) :
    areRepeatable es = true := by
  induction es with
  | nil => rfl
  | cons e rest ih =>
    obtain ⟨he, hrest⟩ := List.forall_mem_cons.mp h
    cases e with
    | triple _ | path _ _ _ => exact ih hrest
    | assign _ _ | subQuery _ | filter _ => cases he

/-- The rows that triples and paths find from a binding, one after the other. -/
def foundRows (v : DatasetView) : List Element → Binding → List Binding
  | [], b => [b]
  | e :: rest, b => (e.matchedRows v b).flatMap (foundRows v rest)

/-- Matching is joining what the elements match on their own. What is bound so far gives
nodes to the ends of the paths that may be empty, and each element keeps this for the
others. -/
theorem foundRows_perm (hv : v.dataset.IsReadable) (h : KeepToNodes v es)
    (hb : ∀ e ∈ es, ∀ x ∈ e.emptyEnds, ∀ t, b.get? x = some t → t ∈ v.factNodes) :
    (foundRows v es b).Perm (Solutions.joinAll (es.map (ownRows v)) [b]) := by
  induction es generalizing b with
  | nil => exact .refl _
  | cons e rest ih =>
    obtain ⟨hsuits, hrest⟩ := List.pairwise_cons.mp h
    have hown : (e.matchedRows v b).Perm ((e.ownRows v).filterMap b.merge?) :=
      matchedRows_perm hv (hb e List.mem_cons_self)
    have hnext : ∀ b' ∈ e.matchedRows v b, (foundRows v rest b').Perm
        (Solutions.joinAll (rest.map (ownRows v)) [b']) := by
      intro b' hb'
      obtain ⟨row, hrow, hmerge⟩ := List.mem_filterMap.mp (hown.subset hb')
      refine ih hrest fun f hf x hx t ht => ?_
      rw [Binding.get?_of_merge? hmerge, Option.or_eq_some_iff] at ht
      rcases ht with ht | ⟨-, ht⟩
      · exact hb f (List.mem_cons_of_mem e hf) x hx t ht
      · exact (hsuits f hf).2 x hx row hrow t ht
    have hjoin : Solutions.joinAll ((e :: rest).map (ownRows v)) [b] =
        ((e.ownRows v).filterMap b.merge?).flatMap fun b' =>
          Solutions.joinAll (rest.map (ownRows v)) [b'] := by
      rw [List.map_cons, Solutions.joinAll, Solutions.joinAll_flatMap, Solutions.pairRows,
        List.flatMap_singleton]
    rw [hjoin]
    exact (List.Perm.flatMap (.refl _) hnext).trans (hown.flatMap fun _ _ => .refl _)

/-- So the order of the elements does not matter. -/
theorem foundRows_perm_of_perm (hv : v.dataset.IsReadable) (h : KeepToNodes v es)
    (hperm : es'.Perm es) : (foundRows v es' .empty).Perm (foundRows v es .empty) := by
  have hnone (ds : List Element) : ∀ e ∈ ds, ∀ x ∈ e.emptyEnds, ∀ t,
      Binding.empty.get? x = some t → t ∈ v.factNodes := by
    intro e _ x _ t ht
    cases ht
  refine (foundRows_perm hv (h.of_perm hperm) (hnone es')).trans ?_
  refine (Solutions.joinAll_perm (hperm.map _) _).trans ?_
  exact (foundRows_perm hv h (hnone es)).symm

/-- Triples and paths mention the variables that they bind. -/
theorem occurrencesIn_of_isMovable (h : ∀ e ∈ es, isMovable e = true) :
    occurrencesIn es = es.flatMap boundVariables := by
  induction es with
  | nil => rfl
  | cons e rest ih =>
    obtain ⟨he, hrest⟩ := List.forall_mem_cons.mp h
    rw [List.flatMap_cons, ← ih hrest]
    cases e with
    | triple _ | path _ _ _ => rfl
    | assign _ _ | subQuery _ | filter _ => cases he

theorem vars_of_mem_matchedRows {row : Binding} (h : row ∈ e.matchedRows v b) :
    row.vars ⊆ b.vars ++ e.boundVariables := by
  cases e with
  | triple p =>
    obtain ⟨r, hr, hmerge⟩ := List.mem_filterMap.mp h
    intro x hx
    refine List.mem_append.mpr (((Binding.mem_vars_of_merge? hmerge).mp hx).imp_right ?_)
    exact (TriplePattern.vars_of_mem_rows hr).mp
  | path s p o =>
    obtain ⟨r, hr, hmerge⟩ := List.mem_filterMap.mp h
    intro x hx
    refine List.mem_append.mpr (((Binding.mem_vars_of_merge? hmerge).mp hx).imp_right fun hx => ?_)
    have hends := Position.mem_vars.mp (Links.vars_of_bindings _ _ _ r hr hx)
    simp only [List.mem_cons, List.not_mem_nil, or_false, eq_comm (a := Position.var x),
      Position.substitute_eq_var] at hends
    refine Position.mem_vars.mpr ?_
    rcases hends with ⟨hs, -⟩ | ⟨ho, -⟩
    · simp [hs]
    · simp [ho]
  | assign _ _ | subQuery _ | filter _ => cases h

theorem vars_of_mem_foundRows {row : Binding} (h : row ∈ foundRows v es b) :
    row.vars ⊆ b.vars ++ boundByAll es := by
  induction es generalizing b with
  | nil =>
    rw [List.mem_singleton.mp h]
    exact List.subset_append_left _ _
  | cons e rest ih =>
    obtain ⟨b', hb', hrow⟩ := List.mem_flatMap.mp h
    have hext : b'.vars ⊆ b.vars ++ e.boundVariables := vars_of_mem_matchedRows hb'
    intro x hx
    have hx := ih hrow hx
    simp only [List.mem_append, boundByAll] at hx ⊢
    rcases hx with hx | hx
    · rcases List.mem_append.mp (hext hx) with hx | hx
      · exact .inl hx
      · exact .inr (.inl hx)
    · exact .inr (.inr hx)

end Element

/-! ## Evaluation -/

variable {operators : OperatorRegistry} {c : Context}

/-- Matching a path yields its links between the ends that are left. -/
theorem Step.outcome_matchPath (hc : c.Answers) {s o : Position} (hs : s.IsGiven)
    (ho : o.IsGiven) (path : Path) (b : Binding) :
    (matchPath s path o b).outcome c =
      .ok (((path.links c.view).bindings (s.substitute b) (o.substitute b)).filterMap
        b.merge?) := by
  obtain ⟨found, q, hrun, hrows⟩ := path.solutions_rows hc (hs.substitute b) (ho.substitute b)
    (.initial c.environment)
  unfold outcome matchPath
  rw [runFrom_bind_ok c _ hrun, ← hrows]
  rfl

/-- Triples and paths are matched one inside the other. -/
theorem Matches.outcome_matchSteps_of_isMovable (hc : c.Repeatable) {es : List Element}
    (hes : ∀ e ∈ es, isMovable e = true) (hgiven : AreGiven (Element.occurrencesIn es))
    (i : Nat) (b : Binding) (m : Matches) :
    (matchSteps none (Element.steps operators i es) b m).outcome c =
      .ok (m.add (Element.foundRows c.view es b)) := by
  induction es generalizing b m with
  | nil => simp [Element.steps, matchSteps, Element.foundRows, add]
  | cons e rest ih =>
    obtain ⟨he, hrest⟩ := List.forall_mem_cons.mp hes
    cases e with
    | triple p =>
      simp only [Element.occurrencesIn, areGiven_append] at hgiven
      have hsteps : ∀ s ∈ Element.steps operators i rest, s.Steady :=
        Element.steps_steady rest i (Element.areRepeatable_of_isMovable hrest) hgiven.2
      refine (outcome_matchSteps_triple hc hsteps p b m).trans ?_
      exact outcome_overCandidates (matchSteps_steady hsteps none) hc
        (fun b' _ m => ih hrest hgiven.2 b' m) m
    | path s p o =>
      simp only [Element.occurrencesIn, areGiven_append] at hgiven
      have hs : s.IsGiven := Position.isGiven_of_mem hgiven.1 (by simp)
      have ho : o.IsGiven := Position.isGiven_of_mem hgiven.1 (by simp)
      have hsteps : ∀ s ∈ Element.steps operators i rest, s.Steady :=
        Element.steps_steady rest i (Element.areRepeatable_of_isMovable hrest) hgiven.2
      refine (outcome_matchSteps_extend hc hsteps (Step.matchPath_steady p hs ho b)
        (Step.outcome_matchPath hc.toAnswers hs ho p b) m).trans ?_
      exact outcome_overCandidates (matchSteps_steady hsteps none) hc
        (fun b' _ m => ih hrest hgiven.2 b' m) m
    | assign _ _ | subQuery _ | filter _ => cases he

theorem Node.bgp_steady_of_isMovable {es : List Element} (hes : ∀ e ∈ es, isMovable e = true)
    (hgiven : AreGiven (Element.occurrencesIn es)) :
    ((Node.bgp es).plan operators).Steady :=
  (Node.bgp es).plan_steady (Element.areRepeatable_of_isMovable hes) hgiven

/-- All solutions of triples and paths. -/
theorem Node.outcome_bgp_of_isMovable (hc : c.IsOnMemory) {es : List Element}
    (hes : ∀ e ∈ es, isMovable e = true) (hgiven : AreGiven (Element.occurrencesIn es)) :
    ∃ m, ((Node.bgp es).plan operators none).outcome c = .ok m ∧
      m.rows = Element.foundRows c.view es .empty := by
  have hrep := hc.repeatable
  have hstart := Context.start_of_unseeded hc.unseeded
  have hsteps : ∀ s ∈ Element.steps operators 0 es, s.Steady :=
    Element.steps_steady es 0 (Element.areRepeatable_of_isMovable hes) hgiven
  have hmatch :
      (Matches.matchSteps none (Element.steps operators 0 es) c.start .empty).outcome c =
        .ok (Matches.empty.add (Element.foundRows c.view es c.start)) :=
    Matches.outcome_matchSteps_of_isMovable hrep hes hgiven 0 c.start .empty
  have hobserved : ((Node.bgp es).plan operators none).outcome c =
      (Plan.bgp (Element.steps operators 0 es) (Node.bgp es).vars none).outcome c :=
    Plan.outcome_observed_eq (Plan.bgp_steady hsteps _) hrep _ none
  refine ⟨_, hobserved.trans (Plan.outcome_bgp hrep hc.real hmatch), ?_⟩
  rw [hstart, Solutions.rows_ofRows]
  · simp [Matches.add, Matches.empty]
  · intro row hrow x hx
    have hrow : row ∈ Element.foundRows c.view es .empty := by
      simpa [Matches.add, Matches.empty] using hrow
    have hvars := Element.vars_of_mem_foundRows hrow hx
    rw [Binding.vars_empty, List.nil_append] at hvars
    exact Solutions.subset_mergeVariables_right (mem_dedup.mpr hvars)

/-! ## The rule -/

theorem PatternOrder.insertFilters_none (es : List Element) (k : Nat) :
    insertFilters [] k es = es := by
  induction es generalizing k with
  | nil => rfl
  | cons e rest ih => exact congrArg (e :: ·) (ih (k + 1))

/-- Triples and paths are one segment, and there is no filter to be placed. -/
theorem PatternOrder.reorder_of_isMovable (w : PatternWeights) {es : List Element}
    (hes : ∀ e ∈ es, isMovable e = true) :
    reorder w es = .bgp (orderSegment w [] es) := by
  have hcondition : ∀ e ∈ es, filterCondition? e = none := by
    intro e he
    have hmovable := hes e he
    cases e with
    | triple _ | path _ _ _ => rfl
    | assign _ _ | subQuery _ | filter _ => cases hmovable
  have hall : es.filter (fun e => (filterCondition? e).isNone) = es :=
    List.filter_eq_self.mpr fun e he => by rw [hcondition e he]; rfl
  have hnone : es.filterMap filterCondition? = [] :=
    List.filterMap_eq_nil_iff.mpr hcondition
  unfold reorder
  rw [hall, hnone, orderSegments_movable hes, List.nil_append]
  exact congrArg Node.bgp (insertFilters_none _ 0)

theorem Element.mapAllUpM_of_isMovable {f : Node → Id Node} {es : List Element}
    (hes : ∀ e ∈ es, isMovable e = true) : Element.mapAllUpM f es = es := by
  induction es with
  | nil => rfl
  | cons e rest ih =>
    obtain ⟨he, hrest⟩ := List.forall_mem_cons.mp hes
    cases e with
    | triple p => exact congrArg (Element.triple p :: ·) (ih hrest)
    | path s p o => exact congrArg (Element.path s p o :: ·) (ih hrest)
    | assign _ _ | subQuery _ | filter _ => cases he

theorem PatternOrder.rule_run_of_isMovable (w : PatternWeights) {es : List Element}
    (hes : ∀ e ∈ es, isMovable e = true) :
    (rule w).run (.bgp es) = .ok (.bgp (orderSegment w [] es), []) := by
  rw [← reorder_of_isMovable w hes]
  exact congrArg (fun es => Except.ok (reorder w es, [])) (Element.mapAllUpM_of_isMovable hes)

/-- **The order of triples and paths.** The rule for the order of patterns makes of a list
of triples and paths the same elements in some order. In every order they succeed and have
the same solutions, as often as each other, on every dataset in memory for which the ends
of paths that may be empty keep to nodes. -/
theorem Node.bgp_rows_of_perm {es : List Element} (hes : ∀ e ∈ es, isMovable e = true)
    (hgiven : AreGiven (Node.bgp es).occurrences) :
    (∀ w : PatternWeights, ∃ es', (rule w).run (.bgp es) = .ok (.bgp es', []) ∧
      es'.Perm es) ∧
    ∀ (operators : OperatorRegistry) {c : Context}, c.IsOnMemory →
      Element.KeepToNodes c.view es → ∀ es', es'.Perm es → ∀ p p' : Progress,
        ∃ m q m' q', ((Node.bgp es).plan operators none).runFrom c p = (.ok m, q) ∧
          ((Node.bgp es').plan operators none).runFrom c p' = (.ok m', q') ∧
          m'.rows.Perm m.rows := by
  refine ⟨fun w => ⟨_, rule_run_of_isMovable w hes, orderSegment_perm w [] es⟩, ?_⟩
  intro operators c hc hkeep es' hperm p p'
  have hes' : ∀ e ∈ es', isMovable e = true := fun e he => hes e (hperm.subset he)
  have hgiven' : AreGiven (Element.occurrencesIn es') := by
    rw [Element.occurrencesIn_of_isMovable hes']
    have hgiven : AreGiven (Element.occurrencesIn es) := hgiven
    rw [Element.occurrencesIn_of_isMovable hes] at hgiven
    exact hgiven.of_subset fun x hx => (hperm.flatMap fun _ _ => .refl _).subset hx
  obtain ⟨m, hm, hrows⟩ : ∃ m, ((Node.bgp es).plan operators none).outcome c = .ok m ∧
      m.rows = Element.foundRows c.view es .empty :=
    Node.outcome_bgp_of_isMovable hc hes hgiven
  obtain ⟨m', hm', hrows'⟩ : ∃ m', ((Node.bgp es').plan operators none).outcome c = .ok m' ∧
      m'.rows = Element.foundRows c.view es' .empty :=
    Node.outcome_bgp_of_isMovable hc hes' hgiven'
  rw [← (Node.bgp_steady_of_isMovable hes hgiven none).fst_runFrom hc.repeatable p] at hm
  rw [← (Node.bgp_steady_of_isMovable hes' hgiven' none).fst_runFrom hc.repeatable p'] at hm'
  refine ⟨m, _, m', _, Prod.ext hm rfl, Prod.ext hm' rfl, ?_⟩
  rw [hrows, hrows']
  exact Element.foundRows_perm_of_perm hc.repeatable.readable hkeep hperm

/-- An edge, and what is reached from its end. -/
def sampleReach : List Element :=
  [.triple ⟨.var ⟨"x"⟩, .term (.iri ⟨"p"⟩), .var ⟨"y"⟩⟩,
    .path (.var ⟨"y"⟩) (.zeroOrMore (.property ⟨"p"⟩ false)) (.var ⟨"z"⟩)]

theorem Node.bgp_rows_of_perm_sample :
    ∃ m q m' q', ((Node.bgp sampleReach).plan .empty none).runFrom sampleContext
        (.initial sampleContext.environment) = (.ok m, q) ∧
      ((Node.bgp sampleReach.reverse).plan .empty none).runFrom sampleContext
        (.initial sampleContext.environment) = (.ok m', q') ∧
      m'.rows.Perm m.rows ∧ m.size = 3 := by
  have hkeep : Element.KeepToNodes sampleContext.view sampleReach := by
    refine Element.keepToNodes_of_ends sampleContext_isOnMemory.repeatable.readable ?_ ?_
    · intro p hp
      simp only [sampleReach, List.mem_cons, Element.triple.injEq, reduceCtorEq,
        List.not_mem_nil, or_false] at hp
      subst hp
      exact fun _ _ _ _ h => nomatch h
    · intro s p o hpath _ t ht
      simp only [sampleReach, List.mem_cons, Element.path.injEq, reduceCtorEq,
        List.not_mem_nil, or_false, false_or] at hpath
      obtain ⟨rfl, -, rfl⟩ := hpath
      simp at ht
  obtain ⟨m, q, m', q', hm, hm', hperm⟩ := (@Node.bgp_rows_of_perm sampleReach
    (List.all_eq_true.mp (by decide +kernel)) (.of_all (by decide +kernel))).2 .empty
      sampleContext_isOnMemory hkeep sampleReach.reverse (List.reverse_perm _)
      (.initial sampleContext.environment) (.initial sampleContext.environment)
  have hsize : (((Node.bgp sampleReach).plan .empty none).runFrom sampleContext
      (.initial sampleContext.environment)).1.toOption.map (·.size) = some 3 := by decide +kernel
  rw [hm] at hsize
  exact ⟨m, q, m', q', hm, hm', hperm, Option.some.inj hsize⟩

/-- Two paths that may be empty. The second one reaches a constant that is no node. -/
def sampleStops : List Element :=
  [.path (.var ⟨"x"⟩) (.zeroOrOne (.property ⟨"p"⟩ false)) (.var ⟨"y"⟩),
    .path (.var ⟨"x"⟩) (.zeroOrMore (.property ⟨"p"⟩ false)) (.term (.iri ⟨"d"⟩))]

/-- As written, the first path relates nodes, none of which reaches the constant. The rule
puts the second path first, whose only solution is the constant itself, and then the first
path relates it to itself. -/
theorem Node.bgp_order_matters :
    (rule .none).run (.bgp sampleStops) = .ok (.bgp sampleStops.reverse, []) ∧
      ∃ m q m' q', ((Node.bgp sampleStops).plan .empty none).runFrom sampleContext
          (.initial sampleContext.environment) = (.ok m, q) ∧ m.size = 0 ∧
        ((Node.bgp sampleStops.reverse).plan .empty none).runFrom sampleContext
          (.initial sampleContext.environment) = (.ok m', q') ∧ m'.size = 1 := by
  have hnone : (((Node.bgp sampleStops).plan .empty none).runFrom sampleContext
      (.initial sampleContext.environment)).1.toOption.map (·.size) = some 0 := by decide +kernel
  have hone : (((Node.bgp sampleStops.reverse).plan .empty none).runFrom sampleContext
      (.initial sampleContext.environment)).1.toOption.map (·.size) = some 1 := by decide +kernel
  obtain ⟨m, q, hm, hsize⟩ := exists_ok_of_map hnone
  obtain ⟨m', q', hm', hsize'⟩ := exists_ok_of_map hone
  refine ⟨?_, m, q, m', q', hm, hsize, hm', hsize'⟩
  rw [rule_run_of_isMovable .none (List.all_eq_true.mp (by decide +kernel))]
  have horder : orderSegment .none [] sampleStops = sampleStops.reverse := by
    simp [sampleStops, orderSegment, takeBest, precedes, bindsAny, cost, isKnown, cardinality,
      maxCount]
  rw [horder]

end SparqlAlgebra
