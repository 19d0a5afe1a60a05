import SparqlAlgebra.Proofs.DemandTrees
import SparqlAlgebra.Proofs.EnsuredPlans
import SparqlAlgebra.Proofs.UniformTrees

/-!
# The variables of a projection

The variables that solutions declare are the header of a result. A projection declares its
own variables, whatever its input declares. Only null has no variables, also behind a
projection: it is what joins, differences and some other operators yield where they have no
solution, so these make the header depend on the data.

* `Plan.HasHeader`: without a seed a plan always yields solutions with variables;
* `Node.hasHeader` finds this for trees: patterns and leaves with variables, assignments,
  groups, graphs with a variable name, and what only selects from such a tree;
* `Node.project_header`: the header of a projection, and `Node.header_depends_on_data`, where
  the same projection has two.
-/

namespace SparqlAlgebra

open Eval

/-! ## Solutions with variables -/

namespace Solutions

variable {s l r : Solutions} {vs : List Var}

theorem ne_null_of_vars (h : s.vars ≠ []) : s ≠ .null := fun hnull => h (hnull ▸ rfl)

/-- Solutions other than null are projected to solutions with these variables. -/
theorem vars_project (h : s ≠ .null) (vs : List Var) : (s.project vs).vars = vs := by
  cases s with
  | null => exact absurd rfl h
  | singleton _ => rfl
  | identity | table => exact vars_ofRows _ _

theorem mergeVariables_ne_nil_left {vs : List Var} (h : vs ≠ []) (ws : List Var) :
    mergeVariables vs ws ≠ [] := List.append_ne_nil_of_left_ne_nil h _

theorem mergeVariables_ne_nil_right (vs : List Var) {ws : List Var} (h : ws ≠ []) :
    mergeVariables vs ws ≠ [] := by
  obtain ⟨v, hv⟩ := List.exists_mem_of_ne_nil ws h
  exact List.ne_nil_of_mem (mem_mergeVariables.mpr (.inr hv))

theorem vars_extendVariables (h : s.vars ≠ []) (vs : List Var) :
    (s.extendVariables vs).vars = mergeVariables s.vars vs := by
  cases s with
  | null | identity => exact absurd rfl h
  | singleton _ => rfl
  | table => exact vars_ofRows _ _

theorem vars_union_ne_nil (h : l.vars ≠ []) (r : Solutions) : (l.union r).vars ≠ [] := by
  unfold Solutions.union
  split
  · exact absurd rfl h
  · exact h
  · dsimp only
    split
    · exact mergeVariables_ne_nil_left h _
    · rw [vars_ofRows]
      exact mergeVariables_ne_nil_left h _

end Solutions

/-! ## Plans -/

namespace Plan

variable {plan left right : Plan} {vs : List Var}

/-- Without a seed the plan yields solutions with variables, on every dataset, also if there
is no solution. -/
def HasHeader (plan : Plan) : Prop :=
  ∀ c : Context, c.seed = none → ∀ demand, (plan demand).Ensures c (·.vars ≠ [])

theorem HasHeader.input (h : plan.HasHeader) (i : Nat) : (plan.input i).HasHeader :=
  fun c hc demand => (h { c with place := c.place.map (· ++ [i]) } hc demand).within

theorem HasHeader.observed (h : plan.HasHeader) (name : String) :
    (plan.observed name).HasHeader := fun c hc demand =>
  observed_ensures (h { c with depth := c.depth + 1 } hc demand) name

theorem ofRows_vars_ne_nil (hvs : vs ≠ []) (rows : List Binding) :
    (Solutions.ofRows vs rows).vars ≠ [] := by
  rwa [Solutions.vars_ofRows]

theorem joinSeed_unseeded {c : Context} (hc : c.seed = none) {s : Solutions}
    {P : Solutions → Prop} (hs : P s) : (joinSeed s).Ensures c P := by
  refine .read_bind ?_
  rw [hc]
  exact .pure hs

/-! Operators that select from their input keep its variables. -/

theorem HasHeader.filter (h : plan.HasHeader) (condition : Binding → Eval Bool) :
    (plan.filter condition).HasHeader := fun c hc =>
  mapPrefix_ensures (h c hc) fun s hs =>
    (s.retainM_isSelection condition).mono fun _ ho => ho.vars_eq ▸ hs

theorem HasHeader.distinct (h : plan.HasHeader) : plan.distinct.HasHeader := fun c hc =>
  mapPrefix_ensures (h c hc) fun s hs => .pure (s.distinct_isSelection.vars_eq ▸ hs)

theorem HasHeader.slice (h : plan.HasHeader) (offset : Nat) (limit : Option Nat) :
    (plan.slice offset limit).HasHeader := fun c hc _ =>
  (h c hc _).bind fun s hs => .pure ((s.slice_isSelection offset limit).vars_eq ▸ hs)

theorem HasHeader.limit (h : plan.HasHeader) (count : Nat) : (plan.limit count).HasHeader :=
  fun c hc _ => (h c hc _).bind fun s hs => .pure ((s.truncate_isSelection count).vars_eq ▸ hs)

theorem HasHeader.orderBy (h : plan.HasHeader) (keys : List SortKey) :
    (plan.orderBy keys).HasHeader := fun c hc _ =>
  (h c hc none).bind fun s hs => by
    split
    · exact .pure hs
    · exact .after fun _ => .pure (ofRows_vars_ne_nil hs _)

theorem HasHeader.union (hl : left.HasHeader) (right : Plan) (vs : List Var) :
    (left.union right vs).HasHeader := fun c hc =>
  union_ensures (hl c hc) (fun _ => ensures_any _)
    (fun l hl => by
      rw [Solutions.vars_extendVariables hl]
      exact Solutions.mergeVariables_ne_nil_left hl _)
    fun l r hl _ => Solutions.vars_union_ne_nil hl r

/-! Other operators declare variables of their own. -/

theorem bgp_hasHeader (steps : List Step) (hvs : vs ≠ []) : (bgp steps vs).HasHeader := by
  intro c hc demand
  refine .read_bind ?_
  rw [hc]
  dsimp only
  have hown := Solutions.mergeVariables_ne_nil_right (Binding.empty).vars hvs
  split
  · exact .pure hown
  · exact .after fun m => .pure (ofRows_vars_ne_nil hown _)

theorem extend_hasHeader (plan : Plan) (v : Var) (f : Assignment) :
    (plan.extend v f).HasHeader := by
  have hown (vs : List Var) : mergeVariables vs [v] ≠ [] :=
    Solutions.mergeVariables_ne_nil_right vs (List.cons_ne_nil v [])
  intro c hc demand
  refine extend_ensures f (ensures_any _) (fun s _ hs => ?_) fun s rows _ _ =>
    ofRows_vars_ne_nil (hown _) rows
  cases s with
  | singleton ws => exact hown ws
  | identity | null | table => cases hs

theorem group_hasHeader (plan : Plan) {keys : List Var} {columns : List (Var × Column)}
    (h : keys ++ columns.map (·.1) ≠ []) : (plan.group keys columns).HasHeader :=
  fun _ _ _ => group_ensures keys columns (ensures_any _) (fun _ _ _ => h)
    fun rows _ => ofRows_vars_ne_nil h rows

theorem graphs_hasHeader (plan : Plan) (v : Var) (us : List Var) :
    (plan.graph (.var v) us).HasHeader := by
  have hown : mergeVariables us [v] ≠ [] :=
    Solutions.mergeVariables_ne_nil_right us (List.cons_ne_nil v [])
  intro c hc demand
  exact graphs_ensures (S := fun _ => True) (fun _ => hown)
    (fun _ _ _ _ _ _ _ _ => trivial) fun rows _ => ofRows_vars_ne_nil hown rows

theorem values_hasHeader (rows : List (List (Option Term))) (hvs : vs ≠ []) :
    (values vs rows).HasHeader := fun _ hc =>
  values_ensures (fun _ => hvs) fun _ => joinSeed_unseeded hc (ofRows_vars_ne_nil hvs _)

theorem pathSearch_hasHeader {s : Position} (search : PathSearch) {o : Position}
    (h : Position.vars [s, o] ≠ []) : (pathSearch s search o).HasHeader := by
  intro c hc
  refine leaf_ensures (fun _ => h) (.read_bind ?_)
  simp only [hc, Option.getD_none, Position.substitute_empty]
  exact .after fun rows => joinSeed_unseeded hc (ofRows_vars_ne_nil h _)

/-- Without a seed a projection yields what its input does, restricted to the variables. -/
theorem project_unseeded {c : Context} (hc : c.seed = none) {demand : Demand}
    {P : Solutions → Prop} (h : (plan demand).Ensures c P) (vs : List Var) :
    (plan.project vs demand).Ensures c fun s => ∃ found, P found ∧ s = found.project vs := by
  have hinner : (mapSeed (·.project vs) plan demand).Ensures c P := by
    have hsame : { c with seed := c.seed.map (·.project vs) } = c := by
      cases c
      cases hc
      rfl
    have hwithin : (plan demand).Ensures { c with seed := c.seed.map (·.project vs) } P :=
      hsame.symm ▸ h
    exact Ensures.within hwithin
  exact hinner.bind fun found hfound => joinSeed_unseeded hc ⟨found, hfound, rfl⟩

theorem HasHeader.project (h : plan.HasHeader) (hvs : vs ≠ []) : (plan.project vs).HasHeader := by
  intro c hc demand
  refine (project_unseeded hc (h c hc demand) vs).mono ?_
  rintro _ ⟨found, hfound, rfl⟩
  rwa [Solutions.vars_project (Solutions.ne_null_of_vars hfound)]

end Plan

/-! ## Trees -/

/-- The solutions of the tree always have variables: they come from an operator that declares
its variables also if it has no solution. -/
def Node.hasHeader : Node → Bool
  | n@(.bgp _) | n@(.values _ _) | n@(.pathSearch _ _ _) | n@(.group _ _ _) => !n.vars.isEmpty
  | .extend _ _ _ | .graph _ (.var _) => true
  | .project inner vs => inner.hasHeader && !vs.isEmpty
  | .union l _ | .existsJoin l _ _ => l.hasHeader
  | .filter inner _ | .having inner _ | .orderBy inner _ | .distinct inner | .reduced inner
  | .slice inner _ _ | .limit inner _ => inner.hasHeader
  | .join _ _ | .leftJoin _ _ _ | .minus _ _ | .graph _ (.iri _) | .service _ _ _ _ | .ask _
  | .custom _ _ _ => false

theorem Node.plan_hasHeader (operators : OperatorRegistry) :
    ∀ n : Node, n.hasHeader = true → (n.plan operators).HasHeader
  | .bgp es, h => by
    have hvs : (Node.bgp es).vars ≠ [] := by simpa [Node.hasHeader] using h
    exact (Plan.bgp_hasHeader _ hvs).observed _
  | .union l r, h => ((l.plan_hasHeader operators h).input 0 |>.union _ _).observed _
  | .existsJoin l _ _, h => ((l.plan_hasHeader operators h).input 0 |>.filter _).observed _
  | .filter inner _, h | .having inner _, h =>
    ((inner.plan_hasHeader operators h).input 0 |>.filter _).observed _
  | .extend _ v _, _ => (Plan.extend_hasHeader _ v _).observed _
  | .group _ keys columns, h => by
    have hvs : keys ++ columns.map GroupValue.target ≠ [] := by
      simpa [Node.hasHeader, Node.vars] using h
    rw [← @GroupValue.map_columns operators] at hvs
    exact (Plan.group_hasHeader _ hvs).observed _
  | .orderBy inner _, h => ((inner.plan_hasHeader operators h).input 0 |>.orderBy _).observed _
  | .distinct inner, h => ((inner.plan_hasHeader operators h).input 0).distinct.observed _
  | .reduced inner, h => ((inner.plan_hasHeader operators h).input 0).observed _
  | .project inner vs, h => by
    simp only [Node.hasHeader, Bool.and_eq_true] at h
    have hvs : vs ≠ [] := by simpa using h.2
    exact (((inner.plan_hasHeader operators h.1).input 0).project hvs).observed _
  | .slice inner offset count, h =>
    ((inner.plan_hasHeader operators h).input 0 |>.slice offset count).observed _
  | .limit inner count, h =>
    ((inner.plan_hasHeader operators h).input 0 |>.limit count).observed _
  | .graph inner (.var v), _ => (Plan.graphs_hasHeader _ v inner.vars).observed _
  | .values vs rows, h => by
    have hvs : vs ≠ [] := by simpa [Node.hasHeader, Node.vars] using h
    exact (Plan.values_hasHeader rows hvs).observed _
  | .pathSearch s search o, h => by
    have hvs : Position.vars [s, o] ≠ [] := by simpa [Node.hasHeader, Node.vars] using h
    exact (Plan.pathSearch_hasHeader search hvs).observed _

/-- Without a seed a projection that succeeds declares its variables, in their order: whether
or not there are solutions, unless its input is null, which has no variables to project. So
it does if there is a solution, and on every dataset if its input has a header. -/
theorem Node.project_header {operators : OperatorRegistry} {inner : Node} {vs : List Var}
    {c : Context} {p q : Progress} {s : Solutions} (hseed : c.seed = none)
    (hrun : ((Node.project inner vs).plan operators none).runFrom c p = (.ok s, q)) :
    (∃ found p' q', (inner.plan operators none).runFrom
        { c with depth := c.depth + 1, place := c.place.map (· ++ [0]) } p' = (.ok found, q') ∧
      (found = .null → s = .null) ∧ (found ≠ .null → s.vars = vs)) ∧
    (s.rows ≠ [] → s.vars = vs) ∧
    (inner.hasHeader = true → s.vars = vs) := by
  let here : Context := { c with depth := c.depth + 1 }
  let below : Context := { here with place := here.place.map (· ++ [0]) }
  have hhere : here.seed = none := hseed
  -- what the input yields is kept together with its run
  have hinput : (Plan.input 0 (inner.plan operators) none).Ensures here fun found =>
      ∃ p' q', (inner.plan operators none).runFrom below p' = (.ok found, q') :=
    fun p' found q' h => ⟨p', q', h⟩
  have hproject : ((Node.project inner vs).plan operators none).Ensures c fun s => ∃ found,
      (∃ p' q', (inner.plan operators none).runFrom below p' = (.ok found, q')) ∧
        s = found.project vs :=
    Plan.observed_ensures (Plan.project_unseeded hhere hinput vs) _
  obtain ⟨found, ⟨p', q', hfound⟩, rfl⟩ := hproject p s q hrun
  have hvars (hne : found ≠ .null) : (found.project vs).vars = vs :=
    Solutions.vars_project hne vs
  refine ⟨⟨found, p', q', hfound, by rintro rfl; rfl, hvars⟩, fun hrows => hvars ?_,
    fun h => hvars ?_⟩
  · rintro rfl
    exact hrows rfl
  · exact Solutions.ne_null_of_vars
      (inner.plan_hasHeader operators h below hseed none p' found q' hfound)

/-- Edges out of the start, with a name for it. -/
def sampleUnnamed : Node :=
  .filter (.bgp [.triple ⟨.var ⟨"x"⟩, .term (.iri ⟨"p"⟩), .var ⟨"y"⟩⟩]) (.bound ⟨"name"⟩)

theorem Node.project_header_sample :
    ∃ s q, ((Node.project sampleUnnamed [⟨"y"⟩, ⟨"x"⟩]).plan .empty none).runFrom sampleContext
        (.initial sampleContext.environment) = (.ok s, q) ∧ s.size = 0 ∧
      s.vars = [⟨"y"⟩, ⟨"x"⟩] := by
  have hsize : (((Node.project sampleUnnamed [⟨"y"⟩, ⟨"x"⟩]).plan .empty none).runFrom sampleContext
      (.initial sampleContext.environment)).1.toOption.map (·.size) = some 0 := by decide +kernel
  obtain ⟨s, q, hrun, hempty⟩ := exists_ok_of_map hsize
  exact ⟨s, q, hrun, hempty, (Node.project_header rfl hrun).2.2 (by decide)⟩

/-- Two edges, one behind the other; the end of the second and then the start. -/
def sampleTwoSteps : Node :=
  .project (.join (.bgp [.triple ⟨.var ⟨"x"⟩, .term (.iri ⟨"p"⟩), .var ⟨"y"⟩⟩])
    (.bgp [.triple ⟨.var ⟨"y"⟩, .term (.iri ⟨"p"⟩), .var ⟨"z"⟩⟩])) [⟨"z"⟩, ⟨"x"⟩]

/-- The query of `sampleContext` on no data. -/
def noDataContext : Context :=
  .initial ⟨(MemoryDataset.ofQuads []).toDataset, .default, none, []⟩ sampleContext.environment

/-- The same projection of a join, on data without edges and on data with two: it declares
its variables only on the latter. -/
theorem Node.header_depends_on_data :
    sampleTwoSteps.isCustomFree = true ∧ noDataContext.seed = none ∧
    (∃ s q, (sampleTwoSteps.plan .empty none).runFrom noDataContext
        (.initial noDataContext.environment) = (.ok s, q) ∧ s.vars = []) ∧
    ∃ s q, (sampleTwoSteps.plan .empty none).runFrom sampleContext
        (.initial sampleContext.environment) = (.ok s, q) ∧ s.vars = [⟨"z"⟩, ⟨"x"⟩] := by
  have hnone : ((sampleTwoSteps.plan .empty none).runFrom noDataContext
      (.initial noDataContext.environment)).1.toOption.map (·.vars) = some [] := by decide +kernel
  have hsome : ((sampleTwoSteps.plan .empty none).runFrom sampleContext
      (.initial sampleContext.environment)).1.toOption.map (·.vars) =
        some [⟨"z"⟩, ⟨"x"⟩] := by decide +kernel
  exact ⟨rfl, rfl, exists_ok_of_map hnone, exists_ok_of_map hsome⟩

end SparqlAlgebra
