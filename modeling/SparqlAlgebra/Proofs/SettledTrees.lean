import SparqlAlgebra.Proofs.EarlyStops
import SparqlAlgebra.Proofs.MappedTrees
import SparqlAlgebra.Proofs.SettledElements

/-!
# Optimizing twice

Each rule settles the trees that it changes, and the rules behind it keep them settled. So
all rules of a level leave an optimized tree alone.

* `PatternOrder.within_map`: the order of elements depends on their variables and not on
  what is inside of their sub-queries and expressions;
* `Node.LimitsInput`: what the rules for early stops do to a node, which keeps its variables;
* `Node.mapUpAll_isSettled`: rules that settle trees and keep each other's settled trees;
* `optimize_idempotent`: at every level, an optimized tree is optimized to itself.
-/

namespace SparqlAlgebra

open Element (conditions unfiltered)

namespace PatternOrder

/-! ## Elements with other parts -/

section Mapped

variable {g : Node → Node} {w : PatternWeights} {bound : List Var} {es seg : List Element}

theorem isMovable_mapNodes (e : Element) : isMovable (e.mapNodes g) = isMovable e := by
  cases e <;> rfl

theorem filterCondition_mapNodes (e : Element) :
    filterCondition? (e.mapNodes g) = (filterCondition? e).map (Expr.mapPatterns g) := by
  cases e <;> rfl

theorem cost_mapNodes (e : Element) : cost w bound (e.mapNodes g) = cost w bound e := by
  cases e <;> rfl

theorem unfiltered_map (es : List Element) :
    unfiltered (es.map (Element.mapNodes g)) = (unfiltered es).map (Element.mapNodes g) := by
  rw [unfiltered, List.filter_map]
  refine congrArg _ (List.filter_congr fun e _ => ?_)
  rw [Function.comp_apply, filterCondition_mapNodes, Option.isNone_map]

theorem conditions_map (es : List Element) :
    conditions (es.map (Element.mapNodes g)) = (conditions es).map (Expr.mapPatterns g) := by
  rw [conditions, List.filterMap_map, conditions, List.map_filterMap]
  exact List.filterMap_congr fun e _ => filterCondition_mapNodes e

variable (hg : ∀ n, (g n).SameVariables n)

include hg

theorem bindsAny_mapNodes (e : Element) (vs : List Var) :
    bindsAny (e.mapNodes g) vs = bindsAny e vs := by
  rw [bindsAny, e.boundVariables_mapNodes fun k _ => hg k]
  rfl

theorem takeBest_map (e : Element) (rest : List Element) :
    takeBest w bound (e.mapNodes g) (rest.map (Element.mapNodes g)) =
      ((takeBest w bound e rest).1.mapNodes g,
        (takeBest w bound e rest).2.map (Element.mapNodes g)) := by
  have hprecedes (e f : Element) :
      precedes w bound (e.mapNodes g) (f.mapNodes g) = precedes w bound e f := by
    rw [Bool.eq_iff_iff, precedes_iff, precedes_iff, bindsAny_mapNodes hg, bindsAny_mapNodes hg,
      cost_mapNodes, cost_mapNodes]
  induction rest generalizing e with
  | nil => rfl
  | cons f rest ih =>
    rw [List.map_cons, takeBest, ih, takeBest]
    dsimp only
    rw [hprecedes]
    split <;> rfl

theorem orderSegment_map (bound : List Var) (seg : List Element) :
    orderSegment w bound (seg.map (Element.mapNodes g)) =
      (orderSegment w bound seg).map (Element.mapNodes g) := by
  induction bound, seg using orderSegment.induct w with
  | case1 bound => rw [List.map_nil, orderSegment, List.map_nil]
  | case2 bound e rest next ih =>
    rw [List.map_cons, orderSegment, orderSegment, takeBest_map hg]
    dsimp only
    rw [Element.boundVariables_mapNodes _ fun k _ => hg k, ih]
    rfl

theorem orderSegments_map (bound : List Var) (seg es : List Element) :
    orderSegments w bound (seg.map (Element.mapNodes g)) (es.map (Element.mapNodes g)) =
      (orderSegments w bound seg es).map (Element.mapNodes g) := by
  induction es generalizing bound seg with
  | nil => exact orderSegment_map hg bound seg
  | cons e rest ih =>
    rw [List.map_cons, orderSegments, orderSegments, isMovable_mapNodes]
    split
    · rw [← ih, List.map_append]
      rfl
    · rw [List.map_append, List.map_cons, ← ih, orderSegment_map hg,
        Element.boundByAll_map _ fun k _ => hg k, Element.boundVariables_mapNodes _ fun k _ => hg k]
      rfl

theorem ordered_map (es : List Element) :
    ordered w (es.map (Element.mapNodes g)) = (ordered w es).map (Element.mapNodes g) := by
  rw [ordered, unfiltered_map]
  exact orderSegments_map hg [] [] _

theorem mem_vars_mapPatterns (e : Expr) (v : Var) : v ∈ (e.mapPatterns g).vars ↔ v ∈ e.vars := by
  rw [Expr.vars, Expr.vars, mem_dedup, mem_dedup]
  exact e.mem_occurrences_mapPatterns fun k _ => hg k

/-- A filter has the same number among the elements. -/
theorem lastBinder_map (e : Expr) (es : List Element) :
    lastBinder (e.mapPatterns g).vars (es.map (Element.mapNodes g)) = lastBinder e.vars es := by
  induction es with
  | nil => rfl
  | cons x rest ih =>
    rw [List.map_cons, lastBinder, lastBinder, ih, bindsAny_mapNodes hg,
      bindsAny_congr (mem_vars_mapPatterns hg e)]

theorem isProvided_map (e : Expr) (es : List Element) :
    isProvided (es.map (Element.mapNodes g)) (e.mapPatterns g) = isProvided es e := by
  rw [isProvided, Element.boundByAll_map _ fun k _ => hg k, isProvided, Bool.eq_iff_iff,
    List.all_eq_true, List.all_eq_true]
  exact forall_congr' fun v => imp_congr_left (mem_vars_mapPatterns hg e v)

omit hg in
theorem insertFilters_map (placed : List (Nat × Expr)) (k : Nat) (es : List Element) :
    insertFilters (placed.map fun p => (p.1, p.2.mapPatterns g)) k
      (es.map (Element.mapNodes g)) = (insertFilters placed k es).map (Element.mapNodes g) := by
  have hhere (k : Nat) : ((conditionsAt (placed.map fun p => (p.1, p.2.mapPatterns g)) k).map
      Element.filter) = ((conditionsAt placed k).map Element.filter).map (Element.mapNodes g) := by
    rw [conditionsAt, List.filter_map, conditionsAt, List.map_map, List.map_map, List.map_map,
      List.map_map]
    rfl
  induction es generalizing k with
  | nil =>
    rw [List.map_nil, insertFilters_nil, insertFilters_nil, List.append_nil, List.append_nil, hhere]
  | cons e rest ih =>
    rw [List.map_cons, insertFilters_cons, insertFilters_cons, hhere, ih, List.map_append]
    rfl

theorem filter_isProvided_map (cs : List Expr) (es : List Element) :
    (cs.map (Expr.mapPatterns g)).filter (isProvided (es.map (Element.mapNodes g))) =
      (cs.filter (isProvided es)).map (Expr.mapPatterns g) := by
  rw [List.filter_map]
  exact congrArg _ (List.filter_congr fun e _ => isProvided_map hg e es)

/-- The rule puts elements with other parts in the same order, if the parts have the same
variables. -/
theorem within_map (es : List Element) :
    within w (es.map (Element.mapNodes g)) = (within w es).map (Element.mapNodes g) := by
  have hplaces : placesWithin w (es.map (Element.mapNodes g)) =
      (placesWithin w es).map fun p => (p.1, p.2.mapPatterns g) := by
    rw [placesWithin, conditions_map, ordered_map hg, filter_isProvided_map hg, List.map_map,
      placesWithin, List.map_map]
    exact List.map_congr_left fun e _ => congrArg (·, _) (lastBinder_map hg e _)
  rw [within, hplaces, ordered_map hg, insertFilters_map]
  rfl

theorem around_map (es : List Element) :
    around w (es.map (Element.mapNodes g)) = (around w es).map (Expr.mapPatterns g) := by
  rw [around, conditions_map, ordered_map hg, List.filter_map]
  exact congrArg _ (List.filter_congr fun e _ => congrArg _ (isProvided_map hg e _))

end Mapped

/-! ## Patterns in order -/

variable {w : PatternWeights} {es : List Element}

/-- What the rule does to a node. -/
def change (w : PatternWeights) : Node → Node
  | .bgp es => reorder w es
  | n => n

/-- Filters are put around a pattern one by one. -/
theorem foldl_filter_eq_bgp {cs : List Expr} {n : Node}
    (h : cs.foldl Node.filter n = .bgp es) : cs = [] ∧ n = .bgp es := by
  induction cs generalizing n with
  | nil => exact ⟨rfl, h⟩
  | cons e rest ih => nomatch (ih h).2

/-- The elements of a pattern that the rule leaves alone are in order. -/
theorem reorder_eq_bgp_iff :
    reorder w es = .bgp es ↔ around w es = [] ∧ within w es = es := by
  rw [reorder_eq_foldl]
  constructor
  · intro h
    obtain ⟨haround, hwithin⟩ := foldl_filter_eq_bgp h
    exact ⟨haround, Node.bgp.inj hwithin⟩
  · rintro ⟨haround, hwithin⟩
    rw [haround, hwithin]
    rfl

/-- A pattern stays in order if its parts are replaced by others with the same variables. -/
theorem change_mapBranches {g : Node → Node} (hg : ∀ n, (g n).SameVariables n) {n : Node}
    (h : change w n = n) : change w (n.mapBranches g) = n.mapBranches g := by
  cases n with
  | bgp es =>
    obtain ⟨haround, hwithin⟩ := reorder_eq_bgp_iff.mp h
    rw [Node.mapBranches_bgp]
    refine reorder_eq_bgp_iff.mpr ⟨?_, ?_⟩
    · rw [around_map hg, haround, List.map_nil]
    · rw [within_map hg, hwithin]
  | leftJoin l r condition => cases condition <;> rfl
  | _ => rfl

/-- Filters around a settled pattern are settled if their conditions are. -/
theorem isSettled_foldl_filter {cs : List Expr} {n : Node} (hn : n.IsSettled (change w))
    (hcs : ∀ k ∈ cs.flatMap Expr.patterns, k.IsSettled (change w)) :
    (cs.foldl Node.filter n).IsSettled (change w) := by
  induction cs generalizing n with
  | nil => exact hn
  | cons e rest ih =>
    rw [List.flatMap_cons] at hcs
    obtain ⟨he, hrest⟩ := List.forall_mem_append.mp hcs
    exact ih (Node.isSettled_iff.mpr ⟨rfl, List.forall_mem_cons.mpr ⟨hn, he⟩⟩) hrest

/-- The rule puts a pattern in order. -/
theorem change_isSettled {n : Node} (h : ∀ k ∈ n.branches, k.IsSettled (change w)) :
    (change w n).IsSettled (change w) := by
  cases n with
  | bgp es =>
    -- the parts of the new elements and of the filters around them are those of the old ones
    have hparts := (within_perm w es).flatMap_right Element.branches
    rw [List.flatMap_append, List.flatMap_map] at hparts
    have hall : ∀ k ∈ (within w es).flatMap Element.branches ++
        (around w es).flatMap Expr.patterns, k.IsSettled (change w) :=
      fun k hk => h k (hparts.subset hk)
    obtain ⟨hwithin, haround⟩ := List.forall_mem_append.mp hall
    refine isSettled_foldl_filter (Node.isSettled_iff.mpr ⟨?_, hwithin⟩) haround
    exact reorder_within w es
  | _ => exact Node.isSettled_iff.mpr ⟨rfl, h⟩

end PatternOrder

/-! ## Limits below a node -/

/-- The first node is the second one with a limit put below it, or the same. -/
inductive Node.LimitsInput : Node → Node → Prop
  | same (n : Node) : Node.LimitsInput n n
  | ask (inner : Node) : Node.LimitsInput (.ask (.limit inner 1)) (.ask inner)
  | slice (inner : Node) (offset count : Nat) :
    Node.LimitsInput (.slice (.limit inner (addCounts offset count)) offset (some count))
      (.slice inner offset (some count))

/-- A limit mentions nothing new, as it binds what its input binds. -/
theorem Node.limit_sameVariables (n : Node) (count : Nat) : (limit n count).SameVariables n := by
  refine ⟨rfl, fun v => ?_⟩
  rw [Node.occurrences, List.mem_append]
  exact or_iff_left_of_imp fun hv => n.vars_subset_occurrences hv

theorem Node.LimitsInput.sameVariables {n' n : Node} (h : n'.LimitsInput n) :
    n'.SameVariables n := by
  cases h with
  | same => exact .refl _
  | ask inner =>
    exact .of_vars_last rfl rfl rfl (inner.limit_sameVariables 1).occurrences
  | slice inner offset count =>
    exact .of_vars_last rfl rfl rfl
      (inner.limit_sameVariables (addCounts offset count)).occurrences

/-- A function that leaves the new node and limits alone leaves all alone that is visited in
the new node, if it does so in the branches of the old one. -/
theorem Node.LimitsInput.isSettled {f : Node → Node} {n' n : Node} (h : n'.LimitsInput n)
    (hlimit : ∀ inner count, f (.limit inner count) = .limit inner count) (hn' : f n' = n')
    (hbranches : ∀ k ∈ n.branches, k.IsSettled f) : n'.IsSettled f := by
  refine Node.isSettled_iff.mpr ⟨hn', ?_⟩
  cases h with
  | same => exact hbranches
  | ask inner | slice inner =>
    exact List.forall_mem_singleton.mpr (Node.isSettled_iff.mpr ⟨hlimit _ _, hbranches⟩)

namespace EarlyStop

theorem limitAsk_limitsInput (n : Node) : (limitAsk n).LimitsInput n := by
  cases n with
  | ask inner =>
    cases inner with
    | limit inner count => exact .same _
    | _ => exact .ask _
  | _ => exact .same _

theorem limitSlice_limitsInput (n : Node) : (limitSlice n).LimitsInput n := by
  cases n with
  | slice inner offset count =>
    cases count with
    | none => exact .same _
    | some count =>
      rw [limitSlice]
      split
      · exact .slice inner offset count
      · exact .same _
  | _ => exact .same _

/-- A change that puts limits below nodes, does so once, and leaves limits alone. -/
structure StopsEarly (h : Node → Node) : Prop where
  limitsInput : ∀ n, (h n).LimitsInput n
  again : ∀ n, h (h n) = h n
  limit : ∀ inner count, h (.limit inner count) = .limit inner count

theorem limitAsk_stopsEarly : StopsEarly limitAsk where
  limitsInput := limitAsk_limitsInput
  again n := by
    cases n with
    | ask inner => cases inner <;> rfl
    | _ => rfl
  limit _ _ := rfl

theorem limitSlice_stopsEarly : StopsEarly limitSlice where
  limitsInput := limitSlice_limitsInput
  again n := by
    cases n with
    | slice inner offset count =>
      cases count with
      | none => rfl
      | some count =>
        rw [limitSlice]
        split
        · rfl
        · rename_i hstop
          exact if_neg hstop
    | _ => rfl
  limit _ _ := rfl

/-- A function that leaves the nodes alone that limits are put below. -/
structure LeavesLimits (f : Node → Node) : Prop where
  limit : ∀ inner count, f (.limit inner count) = .limit inner count
  ask : ∀ inner, f (.ask (.limit inner 1)) = .ask (.limit inner 1)
  slice : ∀ inner offset count, f (.slice inner offset count) = .slice inner offset count

theorem LeavesLimits.eq_self {f : Node → Node} (hf : LeavesLimits f) {n' n : Node}
    (h : n'.LimitsInput n) (hn : f n = n) : f n' = n' := by
  cases h with
  | same => exact hn
  | ask inner => exact hf.ask inner
  | slice inner offset count => exact hf.slice _ _ _

variable {f h : Node → Node} (hh : StopsEarly h)

include hh

theorem StopsEarly.settles (n : Node) : (n.mapUp h).IsSettled h :=
  Node.mapUp_isSettled (fun n hn => (hh.limitsInput n).isSettled hh.limit (hh.again n) hn) n

/-- A walk that puts limits below nodes keeps a tree settled for a function that leaves nodes
with limits alone. -/
theorem StopsEarly.keeps (hf : LeavesLimits f)
    (hbranches : ∀ n, f n = n → f (n.mapBranches (Node.mapUp h)) = n.mapBranches (Node.mapUp h))
    {n : Node} (hn : n.IsSettled f) : (n.mapUp h).IsSettled f := by
  induction n using Node.visited.induct with
  | case1 n ih =>
    obtain ⟨hroot, hbelow⟩ := Node.isSettled_iff.mp hn
    have hinput := hh.limitsInput (n.mapBranches (Node.mapUp h))
    rw [Node.mapUp_eq]
    refine hinput.isSettled hf.limit (hf.eq_self hinput (hbranches n hroot)) ?_
    exact Node.forall_mem_branches_mapBranches fun k hk => ih ⟨k, hk⟩ (hbelow k hk)

/-- Patterns stay in order. -/
theorem StopsEarly.keeps_order (w : PatternWeights) {n : Node}
    (hn : n.IsSettled (PatternOrder.change w)) :
    (n.mapUp h).IsSettled (PatternOrder.change w) := by
  have hvars := Node.sameVariables_mapUp fun n => (hh.limitsInput n).sameVariables
  exact hh.keeps ⟨fun _ _ => rfl, fun _ => rfl, fun _ _ _ => rfl⟩
    (fun n => PatternOrder.change_mapBranches hvars) hn

/-- The limits below questions stay. -/
theorem StopsEarly.keeps_limitAsk {n : Node} (hn : n.IsSettled limitAsk) :
    (n.mapUp h).IsSettled limitAsk := by
  refine hh.keeps ⟨fun _ _ => rfl, fun _ => rfl, fun _ _ _ => rfl⟩ (fun n hroot => ?_) hn
  cases n with
  | ask inner =>
    cases inner with
    | limit inner count =>
      have hlimit : (Node.limit inner count).mapUp h = .limit (inner.mapUp h) count :=
        (Node.mapUp_eq h _).trans (hh.limit _ _)
      have hask : (Node.ask (.limit inner count)).mapBranches (Node.mapUp h) =
          .ask ((Node.limit inner count).mapUp h) := rfl
      rw [hask, hlimit]
      rfl
    | _ => nomatch hroot
  | leftJoin l r condition => cases condition <;> rfl
  | _ => rfl

end EarlyStop

/-! ## Levels -/

/-- What the rules of a level do to a node, in the order of the rules. Looking for cross
products does nothing. -/
def OptimizationLevel.changes (w : PatternWeights) : OptimizationLevel → List (Node → Node)
  | none => []
  | default => [EarlyStop.limitAsk, EarlyStop.limitSlice]
  | full => [PatternOrder.change w, EarlyStop.limitAsk, EarlyStop.limitSlice]

/-- Walks up with one function after the other. -/
def Node.mapUpAll (fs : List (Node → Node)) (n : Node) : Node := fs.foldl (fun n f => n.mapUp f) n

theorem optimize_eq (level : OptimizationLevel) (w : PatternWeights) (n : Node) :
    ∃ report : OptimizerReport,
      optimize level w n = .ok (n.mapUpAll (level.changes w), report) := by
  cases level with
  | none => exact ⟨_, rfl⟩
  | default => exact optimize_default_eq w n
  | full => exact applyRules_default_eq w (n.mapUp (PatternOrder.change w)) _

/-- Walks settle a tree for all of their functions if each walk does so for its own function
and keeps the tree settled for those before it. -/
theorem Node.mapUpAll_isSettled {fs : List (Node → Node)}
    (hsettles : ∀ f ∈ fs, ∀ n : Node, (n.mapUp f).IsSettled f)
    (hkeeps : fs.Pairwise fun f h => ∀ n : Node, n.IsSettled f → (n.mapUp h).IsSettled f)
    (n : Node) : ∀ f ∈ fs, (n.mapUpAll fs).IsSettled f := by
  have hlater {f : Node → Node} {fs : List (Node → Node)}
      (hfs : ∀ h ∈ fs, ∀ n : Node, n.IsSettled f → (n.mapUp h).IsSettled f) {n : Node}
      (hn : n.IsSettled f) : (n.mapUpAll fs).IsSettled f := by
    induction fs generalizing n with
    | nil => exact hn
    | cons h rest ih =>
      obtain ⟨hh, hrest⟩ := List.forall_mem_cons.mp hfs
      exact ih hrest (hh n hn)
  induction fs generalizing n with
  | nil => exact List.forall_mem_nil _
  | cons f rest ih =>
    obtain ⟨hf, hrest⟩ := List.forall_mem_cons.mp hsettles
    obtain ⟨hfirst, hpairs⟩ := List.pairwise_cons.mp hkeeps
    exact List.forall_mem_cons.mpr ⟨hlater hfirst (hf n), ih hrest hpairs _⟩

/-- Walks change nothing in a tree that is settled for all of their functions. -/
theorem Node.mapUpAll_eq_self {fs : List (Node → Node)} {n : Node}
    (h : ∀ f ∈ fs, n.IsSettled f) : n.mapUpAll fs = n := by
  induction fs with
  | nil => rfl
  | cons f rest ih =>
    obtain ⟨hf, hrest⟩ := List.forall_mem_cons.mp h
    have hwalk : n.mapUpAll (f :: rest) = (n.mapUp f).mapUpAll rest := rfl
    rw [hwalk, hf.mapUp_eq, ih hrest]

/-- The rules of a level settle a tree for all of them. -/
theorem OptimizationLevel.changes_settle (level : OptimizationLevel) (w : PatternWeights)
    (n : Node) : ∀ f ∈ level.changes w, (n.mapUpAll (level.changes w)).IsSettled f := by
  have hask := EarlyStop.limitAsk_stopsEarly
  have hslice := EarlyStop.limitSlice_stopsEarly
  have horder (n : Node) : (n.mapUp (PatternOrder.change w)).IsSettled (PatternOrder.change w) :=
    Node.mapUp_isSettled (fun _ => PatternOrder.change_isSettled) n
  -- the rules of the full level have those of the others among them
  have hfull : ∀ f ∈ full.changes w, ∀ n : Node, (n.mapUp f).IsSettled f := by
    simp only [changes, List.forall_mem_cons]
    exact ⟨horder, hask.settles, hslice.settles, List.forall_mem_nil _⟩
  have hpairs : (full.changes w).Pairwise fun f h =>
      ∀ n : Node, n.IsSettled f → (n.mapUp h).IsSettled f := by
    simp only [changes, List.pairwise_cons, List.forall_mem_cons]
    exact ⟨⟨fun _ => hask.keeps_order w, fun _ => hslice.keeps_order w, List.forall_mem_nil _⟩,
      ⟨fun _ => hslice.keeps_limitAsk, List.forall_mem_nil _⟩, List.forall_mem_nil _, .nil⟩
  have hlevel : (level.changes w).Sublist (full.changes w) := by
    cases level with
    | none => exact List.nil_sublist _
    | default => exact List.sublist_cons_self _ _
    | full => exact .refl _
  exact Node.mapUpAll_isSettled (fun f hf => hfull f (hlevel.subset hf)) (hpairs.sublist hlevel) n

/-- **Optimizing is idempotent.** At every level and with every table of weights, a tree is
optimized to a tree that is optimized to itself. -/
theorem optimize_idempotent (level : OptimizationLevel) (w : PatternWeights) (n : Node) :
    ∃ (m : Node) (report again : OptimizerReport),
      optimize level w n = .ok (m, report) ∧ optimize level w m = .ok (m, again) := by
  obtain ⟨report, hfirst⟩ := optimize_eq level w n
  obtain ⟨again, hsecond⟩ := optimize_eq level w (n.mapUpAll (level.changes w))
  rw [Node.mapUpAll_eq_self (level.changes_settle w n)] at hsecond
  exact ⟨_, report, again, hfirst, hsecond⟩

end SparqlAlgebra
