import SparqlAlgebra.Proofs.Influences
import SparqlAlgebra.Proofs.VisitedNodes

/-!
# Trees that a walk changes

A walk up with a function without effects puts other nodes in the place of the branches of a
node and then applies the function to the node.

* `Node.mapBranches` is one level of the walk, and `Node.mapUp_eq` the walk by levels;
* `Node.IsSettled`: the function leaves all visited nodes alone, so the walk does nothing;
* `Node.mapUp_isSettled`: a walk settles a tree if its function settles a node with settled
  branches;
* `Node.SameVariables`: a tree that binds and mentions the same variables as another, and
  what this means for the expressions and elements that the tree is part of.
-/

namespace SparqlAlgebra

/-! ## Other branches -/

/-- Puts other patterns in the place of those of an expression. -/
def Expr.mapPatterns (g : Node → Node) (e : Expr) : Expr :=
  Id.run (e.mapPatternsM fun k => pure (g k))

/-- Puts other nodes in the place of those of an element. -/
def Element.mapNodes (g : Node → Node) (e : Element) : Element :=
  Id.run (e.mapNodesM fun k => pure (g k))

/-- Puts other nodes in the place of the branches of a node. -/
def Node.mapBranches (g : Node → Node) (n : Node) : Node :=
  Id.run (n.mapChildrenM fun k => pure (g k))

variable {f g : Node → Node} {n k : Node}

mutual

theorem Expr.patterns_mapPatterns : ∀ e : Expr, (e.mapPatterns g).patterns = e.patterns.map g
  | .constant _ | .var _ | .bound _ | .hasMatch _ => rfl
  | .unary _ e => e.patterns_mapPatterns
  | .binary _ l r => by
    rw [Expr.patterns, List.map_append, ← l.patterns_mapPatterns, ← r.patterns_mapPatterns]
    rfl
  | .isIn e es => by
    rw [Expr.patterns, List.map_append, ← e.patterns_mapPatterns,
      ← Expr.patternsOfAll_mapPatterns es]
    rfl
  | .cond c t e => by
    rw [Expr.patterns, List.map_append, List.map_append, ← c.patterns_mapPatterns,
      ← t.patterns_mapPatterns, ← e.patterns_mapPatterns]
    rfl
  | .coalesce es | .call _ es => Expr.patternsOfAll_mapPatterns es

theorem Expr.patternsOfAll_mapPatterns : ∀ es : List Expr,
    Expr.patternsOfAll (Id.run (Expr.mapAllPatternsM (fun k => pure (g k)) es)) =
      (Expr.patternsOfAll es).map g
  | [] => rfl
  | e :: rest => by
    rw [Expr.patternsOfAll, List.map_append, ← e.patterns_mapPatterns,
      ← Expr.patternsOfAll_mapPatterns rest]
    rfl

end

theorem Element.branches_mapNodes (e : Element) :
    (e.mapNodes g).branches = e.branches.map g := by
  cases e with
  | subQuery query => rfl
  | assign v e | filter e => exact e.patterns_mapPatterns
  | triple | path => rfl

theorem Element.mapAllNodesM_eq_map (es : List Element) :
    Id.run (Element.mapAllNodesM (fun k => pure (g k)) es) = es.map (Element.mapNodes g) := by
  induction es with
  | nil => rfl
  | cons e rest ih => exact congrArg (e.mapNodes g :: ·) ih

theorem Node.mapBranches_bgp (es : List Element) :
    (Node.bgp es).mapBranches g = .bgp (es.map (Element.mapNodes g)) :=
  congrArg Node.bgp (Element.mapAllNodesM_eq_map es)

theorem OrderKey.patterns_mapAllPatternsM (keys : List OrderKey) :
    ((Id.run (OrderKey.mapAllPatternsM (fun k => pure (g k)) keys)).flatMap fun key =>
      key.expression.patterns) = (keys.flatMap fun key => key.expression.patterns).map g := by
  induction keys with
  | nil => rfl
  | cons key rest ih =>
    obtain ⟨e, descending⟩ := key
    rw [List.flatMap_cons, List.map_append, ← ih]
    exact congrArg (· ++ _) e.patterns_mapPatterns

theorem Node.branches_mapBranches (n : Node) : (n.mapBranches g).branches = n.branches.map g := by
  cases n with
  | bgp es =>
    rw [Node.mapBranches_bgp, Node.branches, Node.branches, List.flatMap_map, List.map_flatMap]
    exact List.flatMap_congr fun e _ => e.branches_mapNodes
  | leftJoin l r condition =>
    cases condition with
    | none => rfl
    | some e => exact congrArg (g l :: g r :: ·) e.patterns_mapPatterns
  | filter inner e | extend inner _ e | having inner e =>
    exact congrArg (g inner :: ·) e.patterns_mapPatterns
  | orderBy inner keys => exact congrArg (g inner :: ·) (OrderKey.patterns_mapAllPatternsM keys)
  | _ => rfl

/-- Without other branches a node stays as it is. -/
theorem Node.mapBranches_eq_self (h : ∀ k ∈ n.branches, g k = k) : n.mapBranches g = n := by
  -- a level of a walk that does nothing at the branches and returns each of them
  let visit : Node → Id Unit := fun _ => pure ()
  have hvisits : Visits visit (n.mapChildrenM fun k => (pure (g k) : Id Node))
      (n.branches.flatMap fun _ => []) n :=
    n.mapChildrenM_visits fun k hk => by
      rw [h k hk]
      exact .pure k
  have hnone : (n.branches.flatMap fun _ => ([] : List Node)) = [] :=
    List.flatMap_eq_nil_iff.mpr fun _ _ => rfl
  rw [hnone] at hvisits
  exact congrArg Id.run hvisits

/-- A walk goes through the branches, and then the function is applied to the node. -/
theorem Node.mapUp_eq (f : Node → Node) (n : Node) :
    n.mapUp f = f (n.mapBranches (Node.mapUp f)) :=
  congrArg Id.run (n.mapUpM_eq fun k => pure (f k))

/-! ## Settled trees -/

/-- The function leaves all nodes alone that a walk visits. -/
def Node.IsSettled (f : Node → Node) (n : Node) : Prop := ∀ k ∈ n.visited, f k = k

theorem Node.isSettled_iff : n.IsSettled f ↔ f n = n ∧ ∀ k ∈ n.branches, k.IsSettled f := by
  rw [Node.IsSettled, n.visited_eq, List.forall_mem_cons, List.forall_mem_flatMap]
  rfl

/-- A walk through a settled tree changes nothing. -/
theorem Node.IsSettled.mapUp_eq (h : n.IsSettled f) : n.mapUp f = n := by
  induction n using Node.visited.induct with
  | case1 n ih =>
    obtain ⟨hn, hbranches⟩ := Node.isSettled_iff.mp h
    rw [Node.mapUp_eq, Node.mapBranches_eq_self fun k hk => ih ⟨k, hk⟩ (hbranches k hk), hn]

/-- A property of nodes that follows from that of the branches holds after a walk, at every
branch of every node. -/
theorem Node.forall_mem_branches_mapBranches {P : Node → Prop}
    (h : ∀ k ∈ n.branches, P (g k)) : ∀ k ∈ (n.mapBranches g).branches, P k := by
  rw [n.branches_mapBranches]
  exact List.forall_mem_map.mpr h

/-- A walk settles a tree if its function settles a node with settled branches. -/
theorem Node.mapUp_isSettled
    (hf : ∀ n : Node, (∀ k ∈ n.branches, k.IsSettled f) → (f n).IsSettled f) (n : Node) :
    (n.mapUp f).IsSettled f := by
  induction n using Node.visited.induct with
  | case1 n ih =>
    rw [Node.mapUp_eq]
    exact hf _ (Node.forall_mem_branches_mapBranches fun k hk => ih ⟨k, hk⟩)

/-! ## Variables -/

/-- A tree binds and mentions the same variables as another. -/
structure Node.SameVariables (n' n : Node) : Prop where
  vars : n'.vars = n.vars
  occurrences : ∀ v, v ∈ n'.occurrences ↔ v ∈ n.occurrences

theorem Node.SameVariables.refl (n : Node) : n.SameVariables n := ⟨rfl, fun _ => Iff.rfl⟩

theorem Node.SameVariables.trans {n₁ n₂ n₃ : Node} (h : n₁.SameVariables n₂)
    (h' : n₂.SameVariables n₃) : n₁.SameVariables n₃ :=
  ⟨h.vars.trans h'.vars, fun v => (h.occurrences v).trans (h'.occurrences v)⟩

theorem mem_append_congr {v : Var} {as as' bs bs' : List Var} (ha : v ∈ as' ↔ v ∈ as)
    (hb : v ∈ bs' ↔ v ∈ bs) : v ∈ as' ++ bs' ↔ v ∈ as ++ bs := by
  rw [List.mem_append, List.mem_append, ha, hb]

mutual

/-- An expression mentions the same variables if its patterns do. -/
theorem Expr.mem_occurrences_mapPatterns {v : Var} : ∀ e : Expr,
    (∀ k ∈ e.patterns, (g k).SameVariables k) →
    (v ∈ (e.mapPatterns g).occurrences ↔ v ∈ e.occurrences)
  | .constant _, _ | .var _, _ | .bound _, _ => Iff.rfl
  | .unary _ e, h => e.mem_occurrences_mapPatterns h
  | .binary _ l r, h =>
    have ⟨hl, hr⟩ := List.forall_mem_append.mp h
    mem_append_congr (l.mem_occurrences_mapPatterns hl) (r.mem_occurrences_mapPatterns hr)
  | .isIn e es, h =>
    have ⟨he, hes⟩ := List.forall_mem_append.mp h
    mem_append_congr (e.mem_occurrences_mapPatterns he)
      (Expr.mem_occurrencesIn_mapPatterns es hes)
  | .cond c t e, h =>
    have ⟨hc, h⟩ := List.forall_mem_append.mp h
    have ⟨ht, he⟩ := List.forall_mem_append.mp h
    mem_append_congr (mem_append_congr (c.mem_occurrences_mapPatterns hc)
      (t.mem_occurrences_mapPatterns ht)) (e.mem_occurrences_mapPatterns he)
  | .coalesce es, h | .call _ es, h => Expr.mem_occurrencesIn_mapPatterns es h
  | .hasMatch pattern, h => (h pattern List.mem_cons_self).occurrences v

theorem Expr.mem_occurrencesIn_mapPatterns {v : Var} : ∀ es : List Expr,
    (∀ k ∈ Expr.patternsOfAll es, (g k).SameVariables k) →
    (v ∈ Expr.occurrencesIn (Id.run (Expr.mapAllPatternsM (fun k => pure (g k)) es)) ↔
      v ∈ Expr.occurrencesIn es)
  | [], _ => Iff.rfl
  | e :: rest, h =>
    have ⟨he, hrest⟩ := List.forall_mem_append.mp h
    mem_append_congr (e.mem_occurrences_mapPatterns he)
      (Expr.mem_occurrencesIn_mapPatterns rest hrest)

end

theorem OrderKey.mem_occurrencesIn_mapPatterns {v : Var} (keys : List OrderKey)
    (h : ∀ k ∈ keys.flatMap fun key => key.expression.patterns, (g k).SameVariables k) :
    v ∈ OrderKey.occurrencesIn (Id.run (OrderKey.mapAllPatternsM (fun k => pure (g k)) keys)) ↔
      v ∈ OrderKey.occurrencesIn keys := by
  induction keys with
  | nil => rfl
  | cons key rest ih =>
    obtain ⟨e, descending⟩ := key
    rw [List.flatMap_cons] at h
    obtain ⟨he, hrest⟩ := List.forall_mem_append.mp h
    exact mem_append_congr (e.mem_occurrences_mapPatterns he) (ih hrest)

theorem Element.boundVariables_mapNodes (e : Element)
    (h : ∀ k ∈ e.branches, (g k).SameVariables k) :
    (e.mapNodes g).boundVariables = e.boundVariables := by
  cases e with
  | subQuery query => exact (h query List.mem_cons_self).vars
  | triple | path | assign | filter => rfl

theorem Element.boundByAll_map (es : List Element)
    (h : ∀ k ∈ es.flatMap Element.branches, (g k).SameVariables k) :
    Element.boundByAll (es.map (Element.mapNodes g)) = Element.boundByAll es := by
  induction es with
  | nil => rfl
  | cons e rest ih =>
    rw [List.flatMap_cons] at h
    obtain ⟨he, hrest⟩ := List.forall_mem_append.mp h
    rw [List.map_cons, Element.boundByAll, Element.boundByAll, e.boundVariables_mapNodes he,
      ih hrest]

theorem Element.mem_occurrencesIn_map {v : Var} (es : List Element)
    (h : ∀ k ∈ es.flatMap Element.branches, (g k).SameVariables k) :
    v ∈ Element.occurrencesIn (es.map (Element.mapNodes g)) ↔ v ∈ Element.occurrencesIn es := by
  induction es with
  | nil => rfl
  | cons e rest ih =>
    rw [List.flatMap_cons] at h
    obtain ⟨he, hrest⟩ := List.forall_mem_append.mp h
    have ih := ih hrest
    cases e with
    | triple p => exact mem_append_congr Iff.rfl ih
    | path s p o => exact mem_append_congr Iff.rfl ih
    | subQuery query => exact mem_append_congr ((he query List.mem_cons_self).occurrences v) ih
    | filter e => exact mem_append_congr (e.mem_occurrences_mapPatterns he) ih
    | assign w e =>
      have hassign : v ∈ w :: (e.mapPatterns g).occurrences ↔ v ∈ w :: e.occurrences := by
        rw [List.mem_cons, List.mem_cons, e.mem_occurrences_mapPatterns he]
      exact mem_append_congr hassign ih

/-- Most nodes mention first what their parts mention and then what they bind. -/
theorem Node.SameVariables.of_vars_last {n' n : Node} {vs' vs : List Var}
    (hvars : n'.vars = n.vars) (hn' : n'.occurrences = vs' ++ n'.vars)
    (hn : n.occurrences = vs ++ n.vars) (h : ∀ v, v ∈ vs' ↔ v ∈ vs) : n'.SameVariables n := by
  refine ⟨hvars, fun v => ?_⟩
  rw [hn', hn, hvars]
  exact mem_append_congr (h v) Iff.rfl

/-- A node binds and mentions the same variables if its branches do. -/
theorem Node.sameVariables_mapBranches (n : Node)
    (h : ∀ k ∈ n.branches, (g k).SameVariables k) : (n.mapBranches g).SameVariables n := by
  cases n with
  | bgp es =>
    rw [Node.mapBranches_bgp]
    refine ⟨?_, fun v => Element.mem_occurrencesIn_map es h⟩
    rw [Node.vars, Node.vars, Element.boundByAll_map es h]
  | join l r | union l r =>
    obtain ⟨hl, hr⟩ := List.forall_mem_cons.mp h
    have hr := hr r List.mem_cons_self
    exact .of_vars_last (congrArg₂ mergeVariables hl.vars hr.vars) rfl rfl
      fun v => mem_append_congr (hl.occurrences v) (hr.occurrences v)
  | minus l r | existsJoin l r _ =>
    obtain ⟨hl, hr⟩ := List.forall_mem_cons.mp h
    have hr := hr r List.mem_cons_self
    exact .of_vars_last hl.vars rfl rfl
      fun v => mem_append_congr (hl.occurrences v) (hr.occurrences v)
  | leftJoin l r condition =>
    cases condition with
    | none =>
      obtain ⟨hl, hr⟩ := List.forall_mem_cons.mp h
      have hr := hr r List.mem_cons_self
      exact .of_vars_last (congrArg₂ mergeVariables hl.vars hr.vars) rfl rfl
        fun v => mem_append_congr (hl.occurrences v) (hr.occurrences v)
    | some e =>
      obtain ⟨hl, h⟩ := List.forall_mem_cons.mp h
      obtain ⟨hr, he⟩ := List.forall_mem_cons.mp h
      exact .of_vars_last (congrArg₂ mergeVariables hl.vars hr.vars) rfl rfl
        fun v => mem_append_congr (mem_append_congr (hl.occurrences v) (hr.occurrences v))
          (e.mem_occurrences_mapPatterns he)
  | filter inner e | having inner e =>
    obtain ⟨hinner, he⟩ := List.forall_mem_cons.mp h
    exact .of_vars_last hinner.vars rfl rfl
      fun v => mem_append_congr (hinner.occurrences v) (e.mem_occurrences_mapPatterns he)
  | extend inner v e =>
    obtain ⟨hinner, he⟩ := List.forall_mem_cons.mp h
    exact .of_vars_last (congrArg (mergeVariables · [v]) hinner.vars) rfl rfl
      fun v => mem_append_congr (hinner.occurrences v) (e.mem_occurrences_mapPatterns he)
  | orderBy inner keys =>
    obtain ⟨hinner, hkeys⟩ := List.forall_mem_cons.mp h
    exact .of_vars_last hinner.vars rfl rfl fun v =>
      mem_append_congr (hinner.occurrences v) (OrderKey.mem_occurrencesIn_mapPatterns keys hkeys)
  | group inner keys columns =>
    have hinner := h inner List.mem_cons_self
    exact ⟨rfl, fun v => mem_append_congr (mem_append_congr (hinner.occurrences v) Iff.rfl) Iff.rfl⟩
  | distinct inner | reduced inner | slice inner _ _ | limit inner _ =>
    have hinner := h inner List.mem_cons_self
    exact .of_vars_last hinner.vars rfl rfl hinner.occurrences
  | project inner _ | ask inner =>
    exact .of_vars_last rfl rfl rfl (h inner List.mem_cons_self).occurrences
  | graph inner name =>
    have hinner := h inner List.mem_cons_self
    cases name with
    | iri _ => exact .of_vars_last hinner.vars rfl rfl hinner.occurrences
    | var v =>
      exact .of_vars_last (congrArg (mergeVariables · [v]) hinner.vars) rfl rfl hinner.occurrences
  | service | values | pathSearch | custom => exact .refl _

/-- A walk keeps the variables of a tree if its function keeps those of every node. -/
theorem Node.sameVariables_mapUp (hf : ∀ n, (f n).SameVariables n) (n : Node) :
    (n.mapUp f).SameVariables n := by
  induction n using Node.visited.induct with
  | case1 n ih =>
    rw [Node.mapUp_eq]
    exact (hf _).trans (n.sameVariables_mapBranches fun k hk => ih ⟨k, hk⟩)

end SparqlAlgebra
