import SparqlAlgebra.Proofs.BoundVariables
import SparqlAlgebra.Proofs.SteadyTrees

/-!
# Solutions that fit a seed

What holds of the solutions of every tree that is evaluated from a seed, or from none:
they stem from data, they declare variables of the tree and of the seed, and they bind
what they declare and variables of the seed. Without declared variables there is one
way to write down that there is no solution.

* `Solutions.Fits` is kept by the operations on solutions, and `Plan.Fits` by the
  operators;
* `Node.calls` are the calls of services in a tree, and `Environment.AnswersCall` is
  what is expected of their answers;
* `Node.plan_fits` is the induction over the tree.
-/

namespace SparqlAlgebra

open Eval

/-! ## Operations on solutions -/

namespace Solutions

variable {start : Binding} {us vs ws : List Var} {rows : List Binding} {a b m o : Solutions}
  {c : Context}

/-- What the solutions are that a tree with some variables has from a start. -/
structure Fits (start : Binding) (vs : List Var) (m : Solutions) : Prop where
  real : m.isSingleton = false
  declared : m.vars ⊆ start.vars ++ vs
  bound : ∀ row ∈ m.rows, row.vars ⊆ m.vars ++ start.vars
  isClosed : m.IsClosed
  isNormal : start.vars ≠ [] → m.vars = [] → m.rows = [] → m = null

theorem Fits.mono (h : m.Fits start us) (hsub : us ⊆ vs) : m.Fits start vs :=
  have hdeclared : start.vars ++ us ⊆ start.vars ++ vs :=
    List.append_subset.mpr
      ⟨List.subset_append_left _ _, List.subset_append_of_subset_right _ hsub⟩
  ⟨h.real, List.Subset.trans h.declared hdeclared, h.bound, h.isClosed, h.isNormal⟩

theorem null_fits : null.Fits start vs :=
  ⟨rfl, List.nil_subset _, fun _ hrow => absurd hrow List.not_mem_nil,
    fun _ _ hrow => absurd hrow List.not_mem_nil, fun _ _ _ => rfl⟩

theorem identity_fits : identity.Fits start vs := by
  refine ⟨rfl, List.nil_subset _, ?_, fun _ _ hrow => List.mem_singleton.mp hrow, ?_⟩
  · intro row hrow
    rw [List.mem_singleton.mp hrow, Binding.vars_empty]
    exact List.nil_subset _
  · intro _ _ hrows
    cases hrows

/-- There is only one form without variables and rows. -/
theorem ofRows_eq_null (hvars : us = []) (hrows : (ofRows us rows).rows = []) :
    ofRows us rows = null := by
  subst hvars
  match rows with
  | [] => rfl
  | [_] => cases hrows
  | _ :: _ :: _ => cases hrows

theorem ofRows_fits (hus : us ⊆ start.vars ++ vs)
    (hbound : ∀ row ∈ rows, row.vars ⊆ us ++ start.vars)
    (hclosed : us = [] → ∀ row ∈ rows, row = .empty) : (ofRows us rows).Fits start vs := by
  have hrows := rows_ofRows_of_empty hclosed
  constructor
  · exact isSingleton_ofRows us rows
  · rw [vars_ofRows]
    exact hus
  · rw [vars_ofRows, hrows]
    exact hbound
  · unfold IsClosed
    rw [vars_ofRows, hrows]
    exact hclosed
  · intro _ hvars hnone
    rw [vars_ofRows] at hvars
    exact ofRows_eq_null hvars hnone

theorem ofRows_fits_empty (hus : us ⊆ vs) (hrows : ∀ row ∈ rows, row.vars ⊆ us) :
    (ofRows us rows).Fits .empty vs := by
  refine ofRows_fits (List.subset_append_of_subset_right _ hus) ?_ ?_
  · intro row hrow
    exact List.subset_append_of_subset_left _ (hrows row hrow)
  · intro hnone row hrow
    exact Binding.eq_empty fun v hv => List.not_mem_nil (hnone ▸ hrows row hrow hv)

theorem Fits.of_selection (h : m.Fits start vs) (hsel : m.IsSelection o) : o.Fits start vs := by
  cases hsel with
  | refl => exact h
  | ofRows _ hrows =>
    exact ofRows_fits h.declared (fun row hrow => h.bound row (hrows hrow))
      fun hvars row hrow => h.isClosed hvars row (hrows hrow)

theorem mergeVariables_subset (ha : us ⊆ ws) (hb : vs ⊆ ws) : mergeVariables us vs ⊆ ws := by
  intro v hv
  rcases mem_mergeVariables.mp hv with hv | hv
  · exact ha hv
  · exact hb hv

theorem append_start_subset (h : us ⊆ vs) (start : Binding) :
    us ++ start.vars ⊆ vs ++ start.vars :=
  List.append_subset.mpr ⟨List.subset_append_of_subset_left _ h, List.subset_append_right _ _⟩

/-- What both sides bind is declared by one of them, or the start binds it. -/
theorem append_subset_merge (us vs : List Var) (start : Binding) :
    mergeVariables (us ++ start.vars) (vs ++ start.vars) ⊆ mergeVariables us vs ++ start.vars :=
  mergeVariables_subset (append_start_subset subset_mergeVariables_left start)
    (append_start_subset subset_mergeVariables_right start)

theorem mergeVariables_eq_nil (h : mergeVariables us vs = []) : us = [] ∧ vs = [] :=
  ⟨List.subset_nil.mp (h ▸ subset_mergeVariables_left),
    List.subset_nil.mp (h ▸ subset_mergeVariables_right)⟩

theorem Fits.join (ha : a.Fits start vs) (hb : b.Fits start vs) : (a.join b).Fits start vs := by
  rcases join_cases ha.real hb.real with ⟨-, h⟩ | ⟨-, h⟩ | ⟨-, h⟩ | ⟨-, -, h⟩
  · rw [h]
    exact null_fits
  · rw [h]
    exact hb
  · rw [h]
    exact ha
  · rw [h]
    refine ofRows_fits (mergeVariables_subset ha.declared hb.declared) ?_
      (pairRows_of_isClosed ha.isClosed hb.isClosed)
    intro row hrow
    exact List.Subset.trans (vars_of_mem_pairRows ha.bound hb.bound hrow)
      (append_subset_merge a.vars b.vars start)

/-- Without a start, declared variables are those of the tree. -/
theorem Fits.declared_of_unseeded (h : m.Fits .empty vs) : m.vars ⊆ vs := h.declared

theorem Fits.wellFormed_of_unseeded (h : m.Fits .empty vs) : m.WellFormed := by
  intro row hrow v hv
  have hmem := h.bound row hrow hv
  rwa [Binding.vars_empty, List.append_nil] at hmem

theorem ofBinding_fits (start : Binding) (vs : List Var) : (ofBinding start).Fits start vs := by
  refine ofRows_fits (List.subset_append_left _ _) ?_ ?_
  · intro row hrow
    rw [List.mem_singleton.mp hrow]
    exact List.subset_append_left _ _
  · intro hvars row hrow
    rw [List.mem_singleton.mp hrow]
    exact Binding.eq_empty fun v hv => List.not_mem_nil (hvars ▸ hv)

/-- What was computed without a start is joined with it. -/
theorem Fits.joinStart (h : m.Fits .empty vs) (start : Binding) :
    (m.join (ofBinding start)).Fits start vs := by
  have hstart := ofBinding_fits start vs
  rcases join_cases h.real hstart.real with ⟨-, hj⟩ | ⟨-, hj⟩ | ⟨hidentity, hj⟩ | ⟨-, -, hj⟩
  · rw [hj]
    exact null_fits
  · rw [hj]
    exact hstart
  · -- only the empty start is neutral
    have hvars : start.vars = [] := by
      rw [← vars_ofRows start.vars [start]]
      exact congrArg Solutions.vars hidentity
    have hempty : start = .empty := Binding.eq_empty fun v hv => List.not_mem_nil (hvars ▸ hv)
    rw [hj, hempty]
    exact h
  · rw [hj, ofBinding, vars_ofRows]
    refine ofRows_fits ?_ ?_ ?_
    · exact mergeVariables_subset (List.subset_append_of_subset_right _ h.declared_of_unseeded)
        (List.subset_append_left _ _)
    · intro row hrow
      have hsub := vars_of_mem_pairRows h.bound hstart.bound hrow
      rw [Binding.vars_empty, List.append_nil, ofBinding, vars_ofRows] at hsub
      refine List.Subset.trans hsub (mergeVariables_subset ?_ (List.append_subset.mpr ⟨?_, ?_⟩))
      · exact List.subset_append_of_subset_left _ subset_mergeVariables_left
      · exact List.subset_append_right _ _
      · exact List.subset_append_right _ _
    · have hclosed := pairRows_of_isClosed h.isClosed hstart.isClosed
      rwa [ofBinding, vars_ofRows] at hclosed

/-- Solutions without variables have the empty row only, and so has their left join. -/
theorem Fits.eq_empty_of_leftJoined {row : Binding} (ha : a.Fits start us)
    (hb : b.Fits start vs) (h : IsLeftJoined a.rows b.rows row)
    (hvars : mergeVariables a.vars b.vars = []) : row = .empty := by
  obtain ⟨hvars, hvars'⟩ := mergeVariables_eq_nil hvars
  obtain ⟨l, hl, rfl | ⟨r, hr, hmerge⟩⟩ := h
  · exact ha.isClosed hvars row hl
  · rw [ha.isClosed hvars l hl, hb.isClosed hvars' r hr, Binding.merge?_empty] at hmerge
    exact (Option.some.inj hmerge).symm

theorem Fits.leftJoinM (ha : a.Fits start vs) (hb : b.Fits start vs)
    (condition : Binding → Eval Bool) :
    (a.leftJoinM b condition).Ensures c (·.Fits start vs) := by
  by_cases hnull : a = null
  · subst hnull
    exact .pure null_fits
  by_cases hnull' : b = null
  · subst hnull'
    rw [leftJoinM_null]
    exact .pure ha
  rw [leftJoinM_eq_ofRows condition ha.real hb.real hnull hnull']
  refine (leftRowsM_ensures (JoinIndex.candidates_build _ b.rows) a.rows).bind
    fun rows hrows => .pure ?_
  refine ofRows_fits (mergeVariables_subset ha.declared hb.declared) ?_ ?_
  · intro row hrow
    exact List.Subset.trans ((hrows row hrow).vars_subset ha.bound hb.bound)
      (append_subset_merge a.vars b.vars start)
  · intro hvars row hrow
    exact ha.eq_empty_of_leftJoined hb (hrows row hrow) hvars

theorem Fits.union (ha : a.Fits start vs) (hb : b.Fits start vs) :
    (a.union b).Fits start vs := by
  by_cases hnull : a = null
  · subst hnull
    exact hb
  by_cases hnull' : b = null
  · subst hnull'
    rw [union_null]
    exact ha
  rw [union_eq_ofRows ha.real hb.real hnull hnull']
  refine ofRows_fits (mergeVariables_subset ha.declared hb.declared) ?_ ?_
  · refine List.forall_mem_append.mpr ⟨fun row hrow => ?_, fun row hrow => ?_⟩
    · exact List.Subset.trans (ha.bound row hrow)
        (append_start_subset subset_mergeVariables_left start)
    · exact List.Subset.trans (hb.bound row hrow)
        (append_start_subset subset_mergeVariables_right start)
  · intro hvars
    obtain ⟨hvars, hvars'⟩ := mergeVariables_eq_nil hvars
    exact List.forall_mem_append.mpr ⟨ha.isClosed hvars, hb.isClosed hvars'⟩

theorem Fits.extendVariables (h : m.Fits start vs) (hus : us ⊆ vs) :
    (m.extendVariables us).Fits start vs := by
  by_cases hnull : m = null
  · subst hnull
    exact null_fits
  rw [extendVariables_eq_ofRows h.real hnull]
  refine ofRows_fits ?_ ?_ ?_
  · exact mergeVariables_subset h.declared (List.subset_append_of_subset_right _ hus)
  · intro row hrow
    exact List.Subset.trans (h.bound row hrow)
      (append_start_subset subset_mergeVariables_left start)
  · intro hvars
    exact h.isClosed (mergeVariables_eq_nil hvars).1

theorem project_fits (h : m.isSingleton = false) (vs : List Var) :
    (m.project vs).Fits .empty vs := by
  have hrows : ∀ row ∈ m.rows.map (·.project vs), row.vars ⊆ vs := by
    intro row hrow v hv
    obtain ⟨row, -, rfl⟩ := List.mem_map.mp hrow
    exact (Binding.mem_vars_project.mp hv).1
  have hfits : (ofRows vs (m.rows.map (·.project vs))).Fits .empty vs :=
    ofRows_fits_empty (List.Subset.refl _) hrows
  cases m with
  | null => exact null_fits
  | singleton _ => cases h
  | identity | table => exact hfits

end Solutions

/-! ## Plans -/

namespace Plan

variable {c : Context} {e : Environment} {us vs ws : List Var} {plan left right : Plan}

/-- From every seed and from none, what the plan yields fits it. -/
def Fits (e : Environment) (vs : List Var) (plan : Plan) : Prop :=
  ∀ c, c.environment = e → ∀ demand, (plan demand).Ensures c (·.Fits c.start vs)

theorem Fits.of_subset (h : plan.Fits e us) (hsub : us ⊆ vs) : plan.Fits e vs := by
  intro c hc demand
  exact (h c hc demand).mono fun m hm => hm.mono hsub

theorem Fits.merge_left (h : plan.Fits e us) (vs : List Var) :
    plan.Fits e (mergeVariables us vs) := h.of_subset Solutions.subset_mergeVariables_left

theorem Fits.merge_right (h : plan.Fits e vs) (us : List Var) :
    plan.Fits e (mergeVariables us vs) := h.of_subset Solutions.subset_mergeVariables_right

theorem Fits.bindsOnly (h : plan.Fits e vs) : plan.BindsOnly e vs := by
  intro c hc demand
  refine (h c hc demand).mono fun m hm row hrow => ?_
  exact List.Subset.trans (hm.bound row hrow)
    (List.append_subset.mpr ⟨hm.declared, List.subset_append_left _ _⟩)

theorem Fits.input (h : plan.Fits e vs) (i : Nat) : (plan.input i).Fits e vs := by
  intro c hc demand
  apply Ensures.within
  exact h { c with place := c.place.map (· ++ [i]) } hc demand

theorem Fits.inExpression (h : plan.Fits e vs) : plan.inExpression.Fits e vs := by
  intro c hc demand
  apply Ensures.within
  exact h { c with place := none } hc demand

theorem Fits.observed (h : plan.Fits e vs) (name : String) : (plan.observed name).Fits e vs := by
  intro c hc demand
  exact observed_ensures (h { c with depth := c.depth + 1 } hc demand) name

theorem Fits.of_selects {selection : Plan} (h : plan.Fits e vs)
    (hselects : selection.Selects plan) : selection.Fits e vs := by
  intro c hc
  exact hselects c _ (fun _ _ hsel hm => hm.of_selection hsel) Solutions.null_fits (h c hc)

theorem joinSeed_fits {m : Solutions} (hm : m.Fits .empty vs) :
    (joinSeed m).Ensures c (·.Fits c.start vs) := by
  intro p o q hrun
  rw [runFrom_joinSeed] at hrun
  cases hrun
  exact hm.joinStart c.start

theorem Fits.join (hl : left.Fits e us) (hr : right.Fits e vs) :
    (left.join right).Fits e (mergeVariables us vs) := by
  intro c hc
  have hl := hl.merge_left vs c hc
  have hr := hr.merge_right us c hc none
  exact withRight_ensures hl hr Solutions.null_fits fun l r hl hr => .pure (hl.join hr)

theorem Fits.leftJoin (hl : left.Fits e us) (hr : right.Fits e vs)
    (condition : Binding → Eval Bool) :
    (left.leftJoin right condition).Fits e (mergeVariables us vs) := by
  intro c hc
  have hl := hl.merge_left vs c hc
  have hr := hr.merge_right us c hc none
  exact withRight_ensures hl hr Solutions.null_fits fun l r hl hr => hl.leftJoinM hr condition

theorem Fits.union (hl : left.Fits e us) (hr : right.Fits e vs) :
    (left.union right vs).Fits e (mergeVariables us vs) := by
  intro c hc
  have hl := hl.merge_left vs c hc
  have hr := hr.merge_right us c hc
  exact union_ensures hl hr
    (fun l hl => hl.extendVariables Solutions.subset_mergeVariables_right)
    fun l r hl hr => hl.union hr

theorem Fits.extend (h : plan.Fits e vs) (v : Var) (f : Assignment) :
    (plan.extend v f).Fits e (mergeVariables vs [v]) := by
  intro c hc demand
  have hinner := h { c with seed := c.seed.map (·.erase v) } hc demand
  rw [Context.start_mapSeed c (Binding.erase_empty v)] at hinner
  have herased : (c.start.erase v).vars ⊆ c.start.vars := c.start.vars_erase_subset v
  refine extend_ensures f hinner (fun m hm hdry => ?_) fun m rows hm hrows => ?_
  · rw [hm.real] at hdry
    cases hdry
  · have hv : v ∈ mergeVariables m.vars [v] := mem_mergeVariables.mpr (.inr List.mem_cons_self)
    refine Solutions.ofRows_fits ?_ ?_ ?_
    · apply Solutions.mergeVariables_subset
      · refine List.Subset.trans hm.declared (List.append_subset.mpr ⟨?_, ?_⟩)
        · exact List.subset_append_of_subset_left _ herased
        · exact List.subset_append_of_subset_right _ Solutions.subset_mergeVariables_left
      · exact List.subset_append_of_subset_right _ Solutions.subset_mergeVariables_right
    · have hb (b : Binding) (hb : b ∈ m.rows) :
          b.vars ⊆ mergeVariables m.vars [v] ++ c.start.vars := by
        refine List.Subset.trans (hm.bound b hb) (List.append_subset.mpr ⟨?_, ?_⟩)
        · exact List.subset_append_of_subset_left _ Solutions.subset_mergeVariables_left
        · exact List.subset_append_of_subset_right _ herased
      intro row hrow w hw
      obtain ⟨b, hmem, rfl | ⟨t, rfl⟩⟩ := hrows row hrow
      · exact hb row hmem hw
      · rcases Binding.mem_vars_insert.mp hw with rfl | hw
        · exact List.mem_append_left _ hv
        · exact hb b hmem hw
    · intro hnone
      rw [hnone] at hv
      exact absurd hv List.not_mem_nil

theorem Fits.group (h : plan.Fits e vs) (keys : List Var) (columns : List (Var × Column)) :
    (plan.group keys columns).Fits e (keys ++ columns.map (·.1)) := by
  intro c hc demand
  have hinner := h { c with seed := none } hc none
  refine group_ensures keys columns hinner (fun m hm hdry => ?_) fun rows hrows => ?_
  · rw [hm.real] at hdry
    cases hdry
  · refine Solutions.ofRows_fits (List.subset_append_right _ _) ?_ ?_
    · intro row hrow
      exact List.subset_append_of_subset_left _ (hrows row hrow)
    · intro hnone row hrow
      exact Binding.eq_empty fun v hv => List.not_mem_nil (hnone ▸ hrows row hrow hv)

theorem Fits.project (h : plan.Fits e vs) (ws : List Var) : (plan.project ws).Fits e ws := by
  intro c hc demand
  have hinner := h { c with seed := c.seed.map (·.project ws) } hc demand
  exact Ensures.bind hinner.within fun m hm => joinSeed_fits (Solutions.project_fits hm.real ws)

theorem ask_fits (plan : Plan) : plan.ask.Fits e [] := by
  intro c hc demand
  exact ask_ensures Solutions.null_fits Solutions.identity_fits

theorem Fits.graph (h : plan.Fits e vs) (i : Iri) (us : List Var) :
    (plan.graph (.iri i) us).Fits e vs := by
  intro c hc demand
  have hinner := h { c with view := c.view.enter (.named (.iri i)) } hc demand
  exact graph_ensures hinner Solutions.null_fits us

section Real

variable (he : e.isDryRun = false)

include he

theorem not_dryRun (hc : c.environment = e) {P : Prop} (hdry : c.environment.isDryRun = true) :
    P := by
  rw [hc, he] at hdry
  cases hdry

theorem Fits.graphs (h : plan.Fits e vs) (v : Var) :
    (plan.graph (.var v) vs).Fits e (mergeVariables vs [v]) := by
  intro c hc demand
  refine graphs_ensures (not_dryRun he hc) (h.bindsOnly.named hc v) fun rows hrows => ?_
  refine Solutions.ofRows_fits (List.subset_append_right _ _) ?_ ?_
  · intro row hrow
    exact List.Subset.trans (hrows row hrow)
      (List.append_subset.mpr ⟨List.subset_append_right _ _, List.subset_append_left _ _⟩)
  · intro hnone
    exact absurd (Solutions.mergeVariables_eq_nil hnone).2 (List.cons_ne_nil v [])

theorem values_fits (vs : List Var) (rows : List (List (Option Term))) :
    (values vs rows).Fits e vs := by
  intro c hc
  exact values_ensures (not_dryRun he hc) fun hrows =>
    joinSeed_fits (Solutions.ofRows_fits_empty (List.Subset.refl _) hrows)

theorem pathSearch_fits (s : Position) (search : PathSearch) (o : Position) :
    (pathSearch s search o).Fits e (Position.vars [s, o]) := by
  intro c hc
  exact pathSearch_ensures (not_dryRun he hc) fun ps hps rows hrows =>
    joinSeed_fits (Solutions.ofRows_fits_empty hps hrows)

theorem service_fits {name : NameRef} {silent : Bool} {pattern : Query.Pattern}
    (h : ∀ handler, e.services = some handler → ∀ i m, name.MayCall i →
      handler ⟨i, pattern⟩ e.base = .ok m → m.Fits .empty vs) :
    (service name vs silent pattern).Fits e vs := by
  intro c hc
  refine service_ensures (not_dryRun he hc) Solutions.null_fits fun handler hhandler i m hi _ hm =>
    joinSeed_fits ?_
  subst hc
  exact h handler hhandler i m hi hm

theorem bgp_fits {steps : List Step}
    (hsteps : ∀ c, c.environment = e → ∀ s ∈ steps, s.Widens c vs) : (bgp steps vs).Fits e vs := by
  intro c hc
  refine bgp_ensures (hsteps c hc) (not_dryRun he hc) fun rows hrows => ?_
  have hown (row : Binding) (hrow : row ∈ rows) : row.vars ⊆ mergeVariables c.start.vars vs := by
    intro v hv
    exact mem_mergeVariables.mpr (List.mem_append.mp ((hrows row hrow).2 hv))
  refine Solutions.ofRows_fits ?_ ?_ ?_
  · exact Solutions.mergeVariables_subset (List.subset_append_left _ _)
      (List.subset_append_right _ _)
  · intro row hrow
    exact List.subset_append_of_subset_left _ (hown row hrow)
  · intro hnone row hrow
    exact Binding.eq_empty fun v hv => List.not_mem_nil (hnone ▸ hown row hrow hv)

end Real

end Plan

/-! ## Trees -/

/-- A pattern that is sent to a service, with its variables. -/
structure SentPattern where
  name : NameRef
  vars : List Var
  pattern : Query.Pattern

mutual

/-- The calls of services in a tree and in its expressions. -/
def Node.calls : Node → List SentPattern
  | .bgp elements => Element.callsIn elements
  | .join l r | .leftJoin l r none | .union l r | .minus l r | .existsJoin l r _ =>
    l.calls ++ r.calls
  | .leftJoin l r (some e) => l.calls ++ r.calls ++ e.calls
  | .filter inner e | .extend inner _ e | .having inner e => inner.calls ++ e.calls
  | .group inner _ columns => inner.calls ++ GroupValue.callsIn columns
  | .orderBy inner keys => inner.calls ++ OrderKey.callsIn keys
  | .distinct inner | .reduced inner | .project inner _ | .slice inner _ _ | .graph inner _
  | .ask inner | .limit inner _ => inner.calls
  | .service name vs _ pattern => [⟨name, vs, pattern⟩]
  | .values _ _ | .pathSearch _ _ _ => []
  | .custom _ _ children => Node.callsIn children

def Node.callsIn : List Node → List SentPattern
  | [] => []
  | n :: rest => n.calls ++ Node.callsIn rest

def Element.callsIn : List Element → List SentPattern
  | [] => []
  | .triple _ :: rest | .path _ _ _ :: rest => Element.callsIn rest
  | .assign _ e :: rest | .filter e :: rest => e.calls ++ Element.callsIn rest
  | .subQuery query :: rest => query.calls ++ Element.callsIn rest

def GroupValue.callsIn : List GroupValue → List SentPattern
  | [] => []
  | .countRows _ _ :: rest => GroupValue.callsIn rest
  | .apply _ _ e _ :: rest => e.calls ++ GroupValue.callsIn rest

def OrderKey.callsIn : List OrderKey → List SentPattern
  | [] => []
  | .sortBy e _ :: rest => e.calls ++ OrderKey.callsIn rest

/-- The calls of services in the patterns of an expression. -/
def Expr.calls : Expr → List SentPattern
  | .constant _ | .var _ | .bound _ => []
  | .unary _ e => e.calls
  | .binary _ l r => l.calls ++ r.calls
  | .isIn e es => e.calls ++ Expr.callsIn es
  | .cond c t e => c.calls ++ t.calls ++ e.calls
  | .coalesce es | .call _ es => Expr.callsIn es
  | .hasMatch pattern => pattern.calls

def Expr.callsIn : List Expr → List SentPattern
  | [] => []
  | e :: rest => e.calls ++ Expr.callsIn rest

end

/-- A service answers a call with solutions that stem from data and have variables of the
call only. A service that is named by a variable may be any. -/
def Environment.AnswersCall (e : Environment) (call : SentPattern) : Prop :=
  ∀ handler, e.services = some handler → ∀ i m, call.name.MayCall i →
    handler ⟨i, call.pattern⟩ e.base = .ok m →
      m.isSingleton = false ∧ m.WellFormed ∧ m.vars ⊆ call.vars

theorem Environment.AnswersCall.fits {e : Environment} {call : SentPattern}
    (h : e.AnswersCall call) : ∀ handler, e.services = some handler →
      ∀ i m, call.name.MayCall i → handler ⟨i, call.pattern⟩ e.base = .ok m →
        m.Fits .empty call.vars := by
  intro handler hhandler i m hi hm
  obtain ⟨hreal, hwell, hvars⟩ := h handler hhandler i m hi hm
  exact ⟨hreal, List.subset_append_of_subset_right _ hvars,
    fun row hrow => List.subset_append_of_subset_left _ (hwell row hrow), hwell.isClosed,
    fun hstart => absurd Binding.vars_empty hstart⟩

variable {operators : OperatorRegistry} {e : Environment}

mutual

/-- From every seed and from none, the solutions of a tree fit it. -/
theorem Node.plan_fits (he : e.isDryRun = false) : ∀ n : Node, n.isRepeatable = true →
    (∀ call ∈ n.calls, e.AnswersCall call) → (n.plan operators).Fits e n.vars
  | .bgp es, h, ha => by
    have hqueries := Element.queries_fit he es h ha
    refine (Plan.bgp_fits he fun c hc => ?_).observed _
    exact Element.steps_widen (hc ▸ fun query hquery => (hqueries query hquery).bindsOnly)
      fun _ hv => mem_dedup.mpr hv
  | .join l r, h, ha => by
    simp only [Node.isRepeatable, Bool.and_eq_true] at h
    have hcalls := List.forall_mem_append.mp ha
    exact (((l.plan_fits he h.1 hcalls.1).input 0).join
      ((r.plan_fits he h.2 hcalls.2).input 1)).observed _
  | .leftJoin l r none, h, ha => by
    simp only [Node.isRepeatable, Bool.and_eq_true] at h
    have hcalls := List.forall_mem_append.mp ha
    exact (((l.plan_fits he h.1 hcalls.1).input 0).leftJoin
      ((r.plan_fits he h.2 hcalls.2).input 1) _).observed _
  | .leftJoin l r (some e), h, ha => by
    simp only [Node.isRepeatable, Bool.and_eq_true] at h
    have hcalls := List.forall_mem_append.mp (List.forall_mem_append.mp ha).1
    exact (((l.plan_fits he h.1.1 hcalls.1).input 0).leftJoin
      ((r.plan_fits he h.1.2 hcalls.2).input 1) _).observed _
  | .union l r, h, ha => by
    simp only [Node.isRepeatable, Bool.and_eq_true] at h
    have hcalls := List.forall_mem_append.mp ha
    exact (((l.plan_fits he h.1 hcalls.1).input 0).union
      ((r.plan_fits he h.2 hcalls.2).input 1)).observed _
  | .minus l r, h, ha => by
    simp only [Node.isRepeatable, Bool.and_eq_true] at h
    have hcalls := List.forall_mem_append.mp ha
    exact (((l.plan_fits he h.1 hcalls.1).input 0).of_selects (Plan.minus_selects _ _)).observed _
  | .existsJoin l r negated, h, ha => by
    simp only [Node.isRepeatable, Bool.and_eq_true] at h
    have hcalls := List.forall_mem_append.mp ha
    exact (((l.plan_fits he h.1 hcalls.1).input 0).of_selects
      (Plan.existsJoin_selects _ _ negated)).observed _
  | .filter inner _, h, ha | .having inner _, h, ha => by
    simp only [Node.isRepeatable, Bool.and_eq_true] at h
    have hcalls := List.forall_mem_append.mp ha
    exact (((inner.plan_fits he h.1 hcalls.1).input 0).of_selects
      (Plan.filter_selects _ _)).observed _
  | .extend inner v _, h, ha => by
    simp only [Node.isRepeatable, Bool.and_eq_true] at h
    have hcalls := List.forall_mem_append.mp ha
    exact (((inner.plan_fits he h.1 hcalls.1).input 0).extend v _).observed _
  | .group inner keys columns, h, ha => by
    simp only [Node.isRepeatable, Bool.and_eq_true] at h
    have hcalls := List.forall_mem_append.mp ha
    rw [Node.vars, ← @GroupValue.map_columns operators]
    exact (((inner.plan_fits he h.1 hcalls.1).input 0).group keys _).observed _
  | .orderBy inner _, h, ha => by
    simp only [Node.isRepeatable, Bool.and_eq_true] at h
    have hcalls := List.forall_mem_append.mp ha
    exact (((inner.plan_fits he h.1 hcalls.1).input 0).of_selects
      (Plan.orderBy_selects _ _)).observed _
  | .distinct inner, h, ha =>
    (((inner.plan_fits he h ha).input 0).of_selects (Plan.distinct_selects _)).observed _
  | .reduced inner, h, ha => ((inner.plan_fits he h ha).input 0).observed _
  | .slice inner offset limit, h, ha =>
    (((inner.plan_fits he h ha).input 0).of_selects (Plan.slice_selects _ offset limit)).observed _
  | .limit inner count, h, ha =>
    (((inner.plan_fits he h ha).input 0).of_selects (Plan.limit_selects _ count)).observed _
  | .project inner vs, h, ha => (((inner.plan_fits he h ha).input 0).project vs).observed _
  | .graph inner (.iri i), h, ha => (((inner.plan_fits he h ha).input 0).graph i _).observed _
  | .graph inner (.var v), h, ha => (((inner.plan_fits he h ha).input 0).graphs he v).observed _
  | .service _ _ _ _, _, ha => (Plan.service_fits he (ha _ List.mem_cons_self).fits).observed _
  | .ask _, _, _ => (Plan.ask_fits _).observed _
  | .values vs rows, _, _ => (Plan.values_fits he vs rows).observed _
  | .pathSearch s search o, _, _ => (Plan.pathSearch_fits he s search o).observed _
  | .custom _ _ _, h, _ => by cases h

theorem Element.queries_fit (he : e.isDryRun = false) : ∀ es : List Element,
    Element.areRepeatable es = true → (∀ call ∈ Element.callsIn es, e.AnswersCall call) →
    ∀ query, .subQuery query ∈ es → (query.plan operators).Fits e query.vars
  | [], _, _ => fun _ hquery => absurd hquery List.not_mem_nil
  | .triple _ :: rest, h, ha | .path _ _ _ :: rest, h, ha => fun query hquery =>
    Element.queries_fit he rest h ha query (by simpa using hquery)
  | .assign _ _ :: rest, h, ha | .filter _ :: rest, h, ha => fun query hquery => by
    simp only [Element.areRepeatable, Bool.and_eq_true] at h
    have hcalls := List.forall_mem_append.mp ha
    exact Element.queries_fit he rest h.2 hcalls.2 query (by simpa using hquery)
  | .subQuery first :: rest, h, ha => by
    simp only [Element.areRepeatable, Bool.and_eq_true] at h
    have hcalls := List.forall_mem_append.mp ha
    have hfirst := first.plan_fits he h.1 hcalls.1
    have hrest := Element.queries_fit he rest h.2 hcalls.2
    intro query hquery
    rcases List.mem_cons.mp hquery with heq | hquery
    · cases heq
      exact hfirst
    · exact hrest query hquery

end

end SparqlAlgebra
