import SparqlAlgebra.Proofs.Rearrangements
import SparqlAlgebra.Proofs.SeededDemands

/-!
# Seeds as restrictions

The seed enters patterns in different ways: matching starts from it, given values are
joined with it at the end, and both sides of a join start from it. For trees of triples,
joins, unions, values and named graphs this comes to the same: the solutions are those
that are compatible with the seed, merged with it.

* `Node.joinedRows`: the solutions without a seed;
* `Plan.Restricts`: a plan yields what is left of some rows with the seed;
* `Node.plan_restricts` is the induction over the tree, with any seed;
* `Node.seeded_rows`: the restriction, and the answers about matches.
-/

namespace SparqlAlgebra

open Eval

/-! ## Trees of joins -/

/-- Whether a tree consists of triples, joins, unions, values and graphs with a given
name. -/
def Node.isJoinTree : Node → Bool
  | .bgp es => es.all (·.pattern?.isSome)
  | .join l r | .union l r => l.isJoinTree && r.isJoinTree
  | .graph inner (.iri _) => inner.isJoinTree
  | .values _ _ => true
  | _ => false

/-- The solutions of a tree of joins without a seed. -/
def Node.joinedRows (view : DatasetView) : Node → List Binding
  | .bgp es => TriplePattern.joinRows view.facts (Element.patterns es) [.empty]
  | .join l r => Solutions.pairRows (l.joinedRows view) (r.joinedRows view)
  | .union l r => l.joinedRows view ++ r.joinedRows view
  | .graph inner (.iri i) =>
    if view.isAvailable (.iri i) = .ok true then
      inner.joinedRows (view.enter (.named (.iri i)))
    else []
  | .values vs rows => rows.map (Plan.valuesRow vs)
  | _ => []

namespace TriplePattern

variable {facts : List Triple}

/-- Patterns can be joined with the rows of a join on its right side. -/
theorem joinRows_pairRows (ps : List TriplePattern) (ls rs : List Binding) :
    joinRows facts ps (Solutions.pairRows ls rs) =
      Solutions.pairRows ls (joinRows facts ps rs) := by
  induction ps generalizing rs with
  | nil => rfl
  | cons p rest ih =>
    rw [joinRows, joinRows, Solutions.pairRows_assoc]
    exact ih _

/-- Patterns that are matched from a binding have the rows that are compatible with it. -/
theorem joinRows_singleton (ps : List TriplePattern) (b : Binding) :
    joinRows facts ps [b] = (joinRows facts ps [.empty]).filterMap b.merge? := by
  rw [← Solutions.pairRows_empty_right [b], joinRows_pairRows]
  exact List.flatMap_singleton _ _

end TriplePattern

namespace Element

variable {es : List Element}

theorem isCovered_of_triples (h : es.all (·.pattern?.isSome) = true) (bound : List Var) :
    isCovered bound es = true := by
  induction es generalizing bound with
  | nil => rfl
  | cons e rest ih =>
    rw [List.all_cons, Bool.and_eq_true] at h
    cases e with
    | triple p => exact ih h.2 _
    | path | assign | subQuery | filter => cases h.1

theorem conditions_of_triples (h : es.all (·.pattern?.isSome) = true) : conditions es = [] := by
  refine List.filterMap_eq_nil_iff.mpr fun e he => ?_
  have h := List.all_eq_true.mp h e he
  cases e with
  | triple p => rfl
  | path | assign | subQuery | filter => cases h

theorem not_subQuery_of_triples (h : es.all (·.pattern?.isSome) = true) (query : Node) :
    .subQuery query ∉ es := fun hquery => by
  cases List.all_eq_true.mp h _ hquery

end Element

/-! ## Restricted rows -/

/-- Data in memory is read, from any seed. -/
structure Context.ReadsMemory (c : Context) : Prop extends c.Repeatable where
  memory : ∃ d : MemoryDataset, c.view.dataset = d.toDataset
  real : c.environment.isDryRun = false

namespace Context

variable {c : Context}

theorem IsOnMemory.readsMemory (h : c.IsOnMemory) (seed : Option Binding) :
    ({ c with seed := seed }).ReadsMemory :=
  ⟨⟨⟨h.answers.readable, h.inTime⟩, h.builtin⟩, h.memory, h.real⟩

theorem ReadsMemory.enter (h : c.ReadsMemory) (g : ActiveGraph) :
    ({ c with view := c.view.enter g }).ReadsMemory :=
  ⟨⟨⟨h.readable, h.inTime⟩, h.builtin⟩, h.memory, h.real⟩

/-- The names of the graphs in memory can be read. -/
theorem ReadsMemory.isAvailable (h : c.ReadsMemory) (name : Resource) :
    ∃ found, c.view.isAvailable name = .ok found := by
  obtain ⟨d, hd⟩ := h.memory
  unfold DatasetView.isAvailable
  split
  · exact ⟨_, rfl⟩
  · rw [hd]
    exact ⟨_, rfl⟩

end Context

namespace Plan

variable {c : Context} {vs ws : List Var} {ls rs rows : List Binding}
  {plan left right : Plan}

/-- The plan yields those of the given rows that are compatible with the seed, merged
with it. -/
def Restricts (c : Context) (vs : List Var) (rows : List Binding) (plan : Plan) : Prop :=
  Solutions.Carries (c.start.vars ++ vs) ((plan none).outcome c)
    (.ok (rows.filterMap c.start.merge?))

theorem Restricts.observed (h : plan.Restricts c vs rows) (hsteady : plan.Steady)
    (hc : c.Repeatable) (name : String) : (plan.observed name).Restricts c vs rows := by
  unfold Restricts
  rw [outcome_observed_eq hsteady hc]
  exact h

theorem Restricts.input (h : plan.Restricts c vs rows) (hsteady : plan.Steady)
    (hc : c.Repeatable) (i : Nat) : (plan.input i).Restricts c vs rows := by
  unfold Restricts
  rw [outcome_input hsteady hc]
  exact h

/-- Both sides of a join start from the seed. -/
theorem Restricts.join (hl : left.Restricts c vs ls) (hr : right.Restricts c ws rs)
    (hsteady : right.Steady) (hc : c.Repeatable) :
    (left.join right).Restricts c (mergeVariables vs ws) (Solutions.pairRows ls rs) := by
  obtain ⟨l, hl, hlrows, hlbinds⟩ := hl
  obtain ⟨r, hr, hrrows, hrbinds⟩ := hr
  have hout := @outcome_withRight left right (fun l r => return l.join r) c hsteady
    (fun _ _ => .pure _) hc
  rw [hl, hr] at hout
  unfold Restricts
  rw [← Solutions.pairRows_filterMap_merge?, ← hlrows, ← hrrows]
  by_cases hempty : l.isEmpty = true
  · -- the right side is not evaluated
    refine ⟨.null, hout.trans (if_pos hempty), ?_, Solutions.null_binds _⟩
    rw [List.isEmpty_iff.mp hempty, Solutions.pairRows_nil_left]
    rfl
  · obtain ⟨hrows, hbinds⟩ := Solutions.rows_join hlbinds hrbinds
    exact ⟨l.join r, hout.trans (if_neg hempty), hrows,
      hbinds.mono (Solutions.append_mergeVariables_subset _ _ _)⟩

theorem Restricts.union (hl : left.Restricts c vs ls) (hr : right.Restricts c ws rs)
    (hsteady : right.Steady) (hc : c.Repeatable) :
    (left.union right ws).Restricts c (mergeVariables vs ws) (ls ++ rs) := by
  obtain ⟨l, hl, hlrows, hlbinds⟩ := hl
  obtain ⟨r, hr, hrrows, hrbinds⟩ := hr
  obtain ⟨hrows, hbinds⟩ := Solutions.rows_union hlbinds hrbinds
  have hout : (left.union right ws none).outcome c = .ok (l.union r) :=
    (outcome_bind_ok (union_steady_rest hsteady ws none) hc hl).trans
      (outcome_bind_ok (fun _ => .pure _) hc hr)
  refine ⟨l.union r, hout, ?_, hbinds.mono (Solutions.append_mergeVariables_subset _ _ _)⟩
  rw [hrows, hlrows, hrrows, List.filterMap_append]

/-- Given values are joined with the seed at the end. -/
theorem values_restricts (hc : c.ReadsMemory) (vs : List Var)
    (rows : List (List (Option Term))) :
    (values vs rows).Restricts c vs (rows.map (valuesRow vs)) := by
  have hvars : ∀ row ∈ rows.map (valuesRow vs), row.vars ⊆ vs := fun row hrow => by
    obtain ⟨values, -, rfl⟩ := List.mem_map.mp hrow
    exact vars_valuesRow vs values
  obtain ⟨o, hrun, hrows, hbinds⟩ := joinSeed_rows c
    (Solutions.ofRows_binds hvars hvars) (.initial c.environment)
  refine ⟨o, (outcome_leaf hc.real none).trans (congrArg Prod.fst hrun), ?_,
    hbinds.mono fun v hv => ?_⟩
  · rw [hrows, Solutions.rows_ofRows hvars]
    exact List.filterMap_congr fun row _ => Binding.merge?_comm row c.start
  · exact List.mem_append.mpr (mem_mergeVariables.mp hv).symm

/-- A graph that is not available has no solutions. -/
theorem Restricts.graph {i : Iri} (hsteady : plan.Steady) (hc : c.ReadsMemory)
    (h : plan.Restricts { c with view := c.view.enter (.named (.iri i)) } vs rows)
    (us : List Var) :
    (plan.graph (.iri i) us).Restricts c vs
      (if c.view.isAvailable (.iri i) = .ok true then rows else []) := by
  obtain ⟨found, hfound⟩ := hc.isAvailable (.iri i)
  unfold Restricts
  rw [outcome_graph hsteady hc.toRepeatable hc.real, hfound]
  cases found with
  | false => exact ⟨.null, rfl, rfl, Solutions.null_binds _⟩
  | true =>
    rw [if_pos rfl]
    exact h

/-- Triples are matched from the seed. -/
theorem bgp_restricts {operators : OperatorRegistry} {es : List Element}
    (hc : c.ReadsMemory) (h : es.all (·.pattern?.isSome) = true) :
    (bgp (Element.steps operators 0 es) (dedup (Element.boundByAll es))).Restricts c
      (dedup (Element.boundByAll es))
      (TriplePattern.joinRows c.view.facts (Element.patterns es) [.empty]) := by
  have hcovered := Element.isCovered_of_triples h []
  unfold Restricts
  rw [outcome_bgp_of_isCovered hc.toRepeatable hc.real hcovered,
    ← TriplePattern.joinRows_singleton]
  -- there are no filters to select from the joined rows
  have hrows : Matches.rowsFrom operators c es c.start =
      TriplePattern.joinRows c.view.facts (Element.patterns es) [c.start] := by
    simp [Matches.rowsFrom, Element.conditions_of_triples h]
  rw [hrows]
  have hvars : ∀ row ∈ TriplePattern.joinRows c.view.facts (Element.patterns es) [c.start],
      row.vars ⊆ c.start.vars ++ dedup (Element.boundByAll es) := fun row hrow v hv => by
    rw [List.mem_append, mem_dedup, Element.mem_boundByAll hcovered]
    exact ((TriplePattern.mem_joinRows hrow).2 v).mp hv
  have hvars' : ∀ row ∈ TriplePattern.joinRows c.view.facts (Element.patterns es) [c.start],
      row.vars ⊆ mergeVariables c.start.vars (dedup (Element.boundByAll es)) :=
    fun row hrow v hv => mem_mergeVariables.mpr (List.mem_append.mp (hvars row hrow hv))
  exact ⟨_, rfl, Solutions.rows_ofRows hvars', Solutions.ofRows_binds hvars' hvars⟩

end Plan

/-! ## Trees of joins from a seed -/

namespace Node

variable {operators : OperatorRegistry} {e : Environment}

theorem plan_starts_of_isJoinTree {seeded : Bool} : ∀ {n : Node}, n.isJoinTree = true →
    (n.plan operators).Starts e seeded n.vars []
  | .bgp es, h => by
    have hqueries : ∀ query, .subQuery query ∈ es →
        (query.plan operators).Starts e seeded query.vars query.computed :=
      fun query hquery => absurd hquery (Element.not_subQuery_of_triples h query)
    exact (Plan.bgp_starts fun c hc =>
      Element.steps_start hqueries (fun _ hv => mem_dedup.mpr hv) c hc).observed _
  | .join l r, h => by
    rw [Node.isJoinTree, Bool.and_eq_true] at h
    exact (((plan_starts_of_isJoinTree h.1).input 0).join
      ((plan_starts_of_isJoinTree h.2).input 1)).observed _
  | .union l r, h => by
    rw [Node.isJoinTree, Bool.and_eq_true] at h
    exact (((plan_starts_of_isJoinTree h.1).input 0).union
      ((plan_starts_of_isJoinTree h.2).input 1)).observed _
  | .graph inner (.iri i), h =>
    (((plan_starts_of_isJoinTree (n := inner) h).input 0).graph i _).observed _
  | .values vs rows, _ => (Plan.values_starts vs rows).observed _

theorem plan_honours_of_isJoinTree {known : List Var} : ∀ {n : Node},
    n.isJoinTree = true → Plan.Honours e known n.vars (n.plan operators)
  | .bgp es, h => by
    have hqueries : ∀ query, .subQuery query ∈ es →
        (query.plan operators).Starts e true query.vars query.computed :=
      fun query hquery => absurd hquery (Element.not_subQuery_of_triples h query)
    have hcovered := Element.isCovered_of_triples h []
    exact (Plan.bgp_heeds (Element.steps_steady_of_isCovered hcovered 0)
      (fun c hc => Element.steps_start hqueries (fun _ hv => mem_dedup.mpr hv) c hc)
      (Element.steps_areNumbered es 0)).observed _
  | .join l r, h => by
    rw [Node.isJoinTree, Bool.and_eq_true] at h
    have hr : Plan.Honours e known r.vars (r.plan operators) := plan_honours_of_isJoinTree h.2
    exact (((plan_honours_of_isJoinTree h.1).input 0).join (hr.steady.input 1)
      ((plan_starts_of_isJoinTree h.2).input 1)).observed _
  | .union l r, h => by
    rw [Node.isJoinTree, Bool.and_eq_true] at h
    exact (((plan_honours_of_isJoinTree h.1).input 0).union
      ((plan_honours_of_isJoinTree h.2).input 1)).observed _
  | .graph inner (.iri i), h =>
    (((plan_honours_of_isJoinTree (n := inner) h).input 0).toHeeds.graph i _).observed _
  | .values vs rows, _ =>
    (Plan.heeds_of_constant (Plan.values_starts vs rows) (Plan.values_steady vs rows)
      fun _ => rfl).observed _

/-- From any seed, and from none, a tree of joins yields its rows that are compatible
with the seed. -/
theorem plan_restricts : ∀ {n : Node}, n.isJoinTree = true → ∀ {c : Context},
    c.ReadsMemory → (n.plan operators).Restricts c n.vars (n.joinedRows c.view)
  | .bgp es, h, c, hc =>
    (Plan.bgp_restricts hc h).observed (Plan.bgp_steady
      (Element.steps_steady_of_isCovered (Element.isCovered_of_triples h []) 0) _)
      hc.toRepeatable _
  | .join l r, h, c, hc => by
    rw [Node.isJoinTree, Bool.and_eq_true] at h
    have hl := (@plan_honours_of_isJoinTree operators c.environment [] l h.1).steady
    have hr := (@plan_honours_of_isJoinTree operators c.environment [] r h.2).steady
    have hrep := hc.toRepeatable
    exact (((plan_restricts h.1 hc).input hl hrep 0).join
      ((plan_restricts h.2 hc).input hr hrep 1) (hr.input 1) hrep).observed
      ((hl.input 0).join (hr.input 1)) hrep _
  | .union l r, h, c, hc => by
    rw [Node.isJoinTree, Bool.and_eq_true] at h
    have hl := (@plan_honours_of_isJoinTree operators c.environment [] l h.1).steady
    have hr := (@plan_honours_of_isJoinTree operators c.environment [] r h.2).steady
    have hrep := hc.toRepeatable
    exact (((plan_restricts h.1 hc).input hl hrep 0).union
      ((plan_restricts h.2 hc).input hr hrep 1) (hr.input 1) hrep).observed
      ((hl.input 0).union (hr.input 1) _) hrep _
  | .graph inner (.iri i), h, c, hc => by
    have hinner := (@plan_honours_of_isJoinTree operators c.environment [] inner h).steady
    have henter := hc.enter (.named (.iri i))
    have hrows := (plan_restricts (n := inner) h henter).input hinner henter.toRepeatable 0
    exact (Plan.Restricts.graph (hinner.input 0) hc hrows _).observed
      ((hinner.input 0).graph _ _) hc.toRepeatable _
  | .values vs rows, _, c, hc =>
    (Plan.values_restricts hc vs rows).observed (Plan.values_steady vs rows)
      hc.toRepeatable _

/-- A seed restricts the solutions of a tree of joins to those that are compatible with
it, and merges these with it. So there is a match for a binding if and only if some
solution is compatible with it. -/
theorem seeded_rows {n : Node} {c : Context} (hc : c.IsOnMemory) (hn : n.isJoinTree = true)
    (b : Binding) (p p' : Progress) :
    ∃ m q s q', (n.plan operators none).runFrom c p = (.ok m, q) ∧
      (n.plan operators none).runFrom { c with seed := some b } p' = (.ok s, q') ∧
      s.rows = m.rows.filterMap b.merge? ∧
      (LogIsSmall q'.log → ∀ p'', ∃ q'',
        (Plan.hasMatch (n.plan operators) b).runFrom c p'' =
          (.ok (m.rows.any (·.isCompatible b)), q'')) := by
  have hhonours := @plan_honours_of_isJoinTree operators c.environment b.vars n hn
  have hsteady := hhonours.steady
  have hrep := hc.repeatable
  have hmemory := hc.readsMemory (some b)
  obtain ⟨m, hm, hmrows, -⟩ := plan_restricts hn (hc.readsMemory c.seed)
  obtain ⟨s, hs, hsrows, -⟩ := @plan_restricts operators n hn _ hmemory
  -- without a seed, nothing is left out
  replace hmrows : m.rows = n.joinedRows c.view := by
    rw [hmrows, Context.start_of_unseeded hc.unseeded, funext Binding.empty_merge?,
      List.filterMap_some]
  replace hsrows : s.rows = m.rows.filterMap b.merge? := by
    rw [hsrows, hmrows]
    rfl
  have hmrun := ((hsteady none).fst_runFrom hrep p).trans hm
  have hsrun := ((hsteady none).fst_runFrom hmemory.toRepeatable p').trans hs
  refine ⟨m, _, s, _, Prod.ext hmrun rfl, Prod.ext hsrun rfl, hsrows, fun hsmall p'' => ?_⟩
  have houtcome := Plan.outcome_hasMatch hhonours (hc.isSeeded b)
    ⟨p', _, Prod.ext hsrun rfl, hsmall⟩
  have hany : s.rows.any (·.isCompatible b) = m.rows.any (·.isCompatible b) := by
    rw [hsrows, Binding.any_filterMap_merge?]
  have hfst := (Plan.hasMatch_steady hsteady b).fst_runFrom hrep p''
  exact ⟨_, Prod.ext (hfst.trans (hany ▸ houtcome)) rfl⟩

/-- Two edges in a row, or an edge and a node that is given or not. -/
def sampleJoins : Node :=
  .join (.bgp [.triple ⟨.var ⟨"x"⟩, .term (.iri ⟨"p"⟩), .var ⟨"y"⟩⟩])
    (.union (.bgp [.triple ⟨.var ⟨"y"⟩, .term (.iri ⟨"p"⟩), .var ⟨"z"⟩⟩])
      (.values [⟨"z"⟩] [[some (.iri ⟨"c"⟩)], [none]]))

/-- The start of the second edge, and something else. -/
def sampleSeed : Binding := .ofEntries [(⟨"x"⟩, .iri ⟨"b"⟩), (⟨"w"⟩, .iri ⟨"a"⟩)]

theorem seeded_rows_sample :
    ∃ m q s q', (sampleJoins.plan .empty none).runFrom sampleContext
        (.initial sampleContext.environment) = (.ok m, q) ∧
      (sampleJoins.plan .empty none).runFrom { sampleContext with seed := some sampleSeed }
        (.initial sampleContext.environment) = (.ok s, q') ∧
      s.rows = m.rows.filterMap sampleSeed.merge? ∧ m.size = 5 ∧ s.size = 2 ∧
      ∀ p'', ∃ q'', (Plan.hasMatch (sampleJoins.plan .empty) sampleSeed).runFrom sampleContext
        p'' = (.ok true, q'') := by
  have hall : ((sampleJoins.plan .empty none).runFrom sampleContext
      (.initial sampleContext.environment)).1.toOption.map (·.size) = some 5 := by decide +kernel
  have hany : ((sampleJoins.plan .empty none).runFrom sampleContext
      (.initial sampleContext.environment)).1.toOption.map
        (·.rows.any (·.isCompatible sampleSeed)) = some true := by decide +kernel
  have hleft : ((sampleJoins.plan .empty none).runFrom
      { sampleContext with seed := some sampleSeed }
      (.initial sampleContext.environment)).1.toOption.map (·.size) = some 2 := by decide +kernel
  have hsmall : ((sampleJoins.plan .empty none).runFrom
      { sampleContext with seed := some sampleSeed }
      (.initial sampleContext.environment)).2.log.all (·.resultSize ≤ 5) = true := by decide +kernel
  obtain ⟨m, q, s, q', hm, hs, hrows, hmatch⟩ :=
    @seeded_rows .empty sampleJoins sampleContext sampleContext_isOnMemory rfl sampleSeed
      (.initial sampleContext.environment) (.initial sampleContext.environment)
  rw [hm] at hall hany
  rw [hs] at hleft hsmall
  have hany : m.rows.any (·.isCompatible sampleSeed) = true := Option.some.inj hany
  refine ⟨m, q, s, q', hm, hs, hrows, Option.some.inj hall, Option.some.inj hleft, ?_⟩
  rw [← hany]
  exact hmatch (.of_all (by decide) hsmall)

end Node

end SparqlAlgebra
