import SparqlAlgebra.Algebra.Structure
import SparqlAlgebra.Algebra.Traversal
import SparqlAlgebra.Proofs.UniformTrees
import Mathlib.Data.List.Flatten
import Mathlib.Data.List.Perm.Basic

/-!
# The nodes that a walk visits

A tree has more nodes than those below its root: also the patterns that its
expressions ask about, at any depth. A walk with a function that changes nothing
calls it once for each node that it visits, and returns the tree. It visits all
nodes but those in what a node leaves out of the walk.

* `Node.nodes`: all nodes; `Node.branches` and `Node.skipped`: the parts of a node
  that a walk goes through, and the others;
* `Node.parts_perm`: there are no further parts;
* `Visits`: what a computation does at nodes, closed under sequencing;
  `Node.mapChildrenM_visits` is one level of a walk, and both walks are inductions
  over it;
* `Node.walks_exact`: the calls of both walks, and when these are all nodes;
  `Node.walks_miss_argument`: an aggregate with a pattern in its argument.
-/

namespace SparqlAlgebra

/-! ## The nodes of a tree -/

mutual

/-- The patterns that an expression asks about, but not those inside of them. -/
def Expr.patterns : Expr → List Node
  | .constant _ | .var _ | .bound _ => []
  | .unary _ e => e.patterns
  | .binary _ l r => l.patterns ++ r.patterns
  | .isIn e es => e.patterns ++ Expr.patternsOfAll es
  | .cond c t e => c.patterns ++ (t.patterns ++ e.patterns)
  | .coalesce es | .call _ es => Expr.patternsOfAll es
  | .hasMatch pattern => [pattern]

def Expr.patternsOfAll : List Expr → List Node
  | [] => []
  | e :: rest => e.patterns ++ Expr.patternsOfAll rest

end

/-- The inputs of a node and the patterns in its expressions. -/
def Node.parts (n : Node) : List Node := n.children ++ n.expressions.flatMap Expr.patterns

mutual

theorem Expr.sizeOf_lt_of_mem_patterns {k : Node} : ∀ e : Expr, k ∈ e.patterns →
    sizeOf k < sizeOf e
  | .constant _, h | .var _, h | .bound _, h => absurd h List.not_mem_nil
  | .unary _ e, h => by
    have := e.sizeOf_lt_of_mem_patterns h
    simp only [Expr.unary.sizeOf_spec]
    omega
  | .binary _ l r, h => by
    simp only [Expr.binary.sizeOf_spec]
    rcases List.mem_append.mp h with h | h
    · have := l.sizeOf_lt_of_mem_patterns h
      omega
    · have := r.sizeOf_lt_of_mem_patterns h
      omega
  | .isIn e es, h => by
    simp only [Expr.isIn.sizeOf_spec]
    rcases List.mem_append.mp h with h | h
    · have := e.sizeOf_lt_of_mem_patterns h
      omega
    · have := Expr.sizeOf_lt_of_mem_patternsOfAll es h
      omega
  | .cond c t e, h => by
    simp only [Expr.cond.sizeOf_spec]
    rcases List.mem_append.mp h with h | h
    · have := c.sizeOf_lt_of_mem_patterns h
      omega
    rcases List.mem_append.mp h with h | h
    · have := t.sizeOf_lt_of_mem_patterns h
      omega
    · have := e.sizeOf_lt_of_mem_patterns h
      omega
  | .coalesce es, h | .call _ es, h => by
    have := Expr.sizeOf_lt_of_mem_patternsOfAll es h
    simp only [Expr.coalesce.sizeOf_spec, Expr.call.sizeOf_spec]
    omega
  | .hasMatch pattern, h => by
    obtain rfl := List.mem_singleton.mp h
    simp only [Expr.hasMatch.sizeOf_spec]
    omega

theorem Expr.sizeOf_lt_of_mem_patternsOfAll {k : Node} : ∀ es : List Expr,
    k ∈ Expr.patternsOfAll es → sizeOf k < sizeOf es
  | [], h => absurd h List.not_mem_nil
  | e :: rest, h => by
    simp only [List.cons.sizeOf_spec]
    rcases List.mem_append.mp h with h | h
    · have := e.sizeOf_lt_of_mem_patterns h
      omega
    · have := Expr.sizeOf_lt_of_mem_patternsOfAll rest h
      omega

end

theorem Node.sizeOf_lt_of_mem_children {n k : Node} (h : k ∈ n.children) :
    sizeOf k < sizeOf n := by
  cases n with
  | bgp elements =>
    obtain ⟨element, helement, hquery⟩ := List.mem_filterMap.mp h
    have := List.sizeOf_lt_of_mem helement
    cases element with
    | subQuery query =>
      cases hquery
      simp only [Element.subQuery.sizeOf_spec, Node.bgp.sizeOf_spec] at this ⊢
      omega
    | triple | path | assign | filter => cases hquery
  | join | leftJoin | union | minus | existsJoin =>
    simp only [Node.children, List.mem_cons, List.not_mem_nil, or_false] at h
    rcases h with rfl | rfl <;> simp +arith
  | filter | extend | group | having | orderBy | distinct | reduced | project | slice
  | graph | ask | limit =>
    obtain rfl := List.mem_singleton.mp h
    simp +arith
  | service | values | pathSearch => cases h
  | custom _ _ children =>
    have : sizeOf k < sizeOf children := List.sizeOf_lt_of_mem h
    simp only [Node.custom.sizeOf_spec]
    omega

theorem Node.sizeOf_lt_of_mem_expressions {n : Node} {e : Expr} (h : e ∈ n.expressions) :
    sizeOf e < sizeOf n := by
  cases n with
  | bgp elements =>
    obtain ⟨element, helement, he⟩ := List.mem_filterMap.mp h
    have := List.sizeOf_lt_of_mem helement
    cases element with
    | assign | filter =>
      cases he
      simp only [Element.assign.sizeOf_spec, Element.filter.sizeOf_spec,
        Node.bgp.sizeOf_spec] at this ⊢
      omega
    | triple | path | subQuery => cases he
  | leftJoin _ _ condition =>
    obtain rfl := Option.mem_toList.mp h
    simp +arith
  | filter | extend | having =>
    obtain rfl := List.mem_singleton.mp h
    simp +arith
  | group _ _ columns =>
    obtain ⟨column, hcolumn, he⟩ := List.mem_filterMap.mp h
    have := List.sizeOf_lt_of_mem hcolumn
    cases column with
    | countRows => cases he
    | apply =>
      cases he
      simp only [GroupValue.apply.sizeOf_spec, Node.group.sizeOf_spec] at this ⊢
      omega
  | orderBy _ keys =>
    obtain ⟨⟨_, _⟩, hkey, rfl⟩ := List.mem_map.mp h
    have := List.sizeOf_lt_of_mem hkey
    simp only [OrderKey.expression, OrderKey.sortBy.sizeOf_spec,
      Node.orderBy.sizeOf_spec] at this ⊢
    omega
  | _ => cases h

theorem Node.sizeOf_lt_of_mem_parts {n k : Node} (h : k ∈ n.parts) : sizeOf k < sizeOf n := by
  rcases List.mem_append.mp h with h | h
  · exact Node.sizeOf_lt_of_mem_children h
  · obtain ⟨e, he, hk⟩ := List.mem_flatMap.mp h
    exact (e.sizeOf_lt_of_mem_patterns hk).trans (Node.sizeOf_lt_of_mem_expressions he)

-- The parts go through lists of expressions, elements and columns, so that the
-- recursion is on the size and not on the structure.

/-- The nodes of a tree: the root and, for every node, its parts. -/
def Node.nodes (n : Node) : List Node := n :: n.parts.attach.flatMap fun k => k.1.nodes
termination_by sizeOf n
decreasing_by exact Node.sizeOf_lt_of_mem_parts k.2

theorem Node.nodes_eq (n : Node) : n.nodes = n :: n.parts.flatMap Node.nodes := by
  rw [Node.nodes, List.flatMap_subtype fun _ _ => rfl, List.unattach_attach]

/-! ## What a walk goes through -/

def Element.branches : Element → List Node
  | .subQuery query => [query]
  | .assign _ e | .filter e => e.patterns
  | .triple _ | .path _ _ _ => []

/-- The parts of a node that a walk goes through, in its order. -/
def Node.branches : Node → List Node
  | .bgp elements => elements.flatMap Element.branches
  | .join l r | .leftJoin l r none | .union l r | .minus l r | .existsJoin l r _ => [l, r]
  | .leftJoin l r (some e) => l :: r :: e.patterns
  | .filter inner e | .extend inner _ e | .having inner e => inner :: e.patterns
  | .orderBy inner keys => inner :: keys.flatMap fun key => key.expression.patterns
  | .group inner _ _ | .distinct inner | .reduced inner | .project inner _
  | .slice inner _ _ | .graph inner _ | .ask inner | .limit inner _ => [inner]
  | .service _ _ _ _ | .values _ _ | .pathSearch _ _ _ | .custom _ _ _ => []

/-- The parts that a walk leaves out: what a custom node contains, and the patterns
in the arguments of a grouping's aggregates. -/
def Node.skipped : Node → List Node
  | .group _ _ columns => (columns.filterMap GroupValue.argument?).flatMap Expr.patterns
  | .custom _ _ children => children
  | _ => []

theorem Element.branches_perm (elements : List Element) :
    (elements.filterMap Element.query? ++
      (elements.filterMap Element.expression?).flatMap Expr.patterns).Perm
    (elements.flatMap Element.branches) := by
  induction elements with
  | nil => exact .refl _
  | cons element rest ih =>
    cases element with
    | subQuery query => exact ih.cons query
    | assign _ e | filter e =>
      exact (List.perm_append_comm_assoc ..).trans (ih.append_left e.patterns)
    | triple | path => exact ih

/-- Every part is either gone through or left out. -/
theorem Node.parts_perm (n : Node) : n.parts.Perm (n.branches ++ n.skipped) := by
  cases n with
  | bgp elements =>
    simpa [Node.parts, Node.children, Node.expressions, Node.branches, Node.skipped] using
      Element.branches_perm elements
  | orderBy inner keys =>
    simp [Node.parts, Node.children, Node.expressions, Node.branches, Node.skipped,
      List.flatMap_map]
  | leftJoin _ _ condition =>
    cases condition <;>
      simp [Node.parts, Node.children, Node.expressions, Node.branches, Node.skipped]
  | _ => simp [Node.parts, Node.children, Node.expressions, Node.branches, Node.skipped]

theorem Node.sizeOf_lt_of_mem_branches {n k : Node} (h : k ∈ n.branches) :
    sizeOf k < sizeOf n :=
  Node.sizeOf_lt_of_mem_parts (n.parts_perm.mem_iff.mpr (List.mem_append_left _ h))

/-- The nodes that a walk visits, a node before its branches. -/
def Node.visited (n : Node) : List Node := n :: n.branches.attach.flatMap fun k => k.1.visited
termination_by sizeOf n
decreasing_by exact Node.sizeOf_lt_of_mem_branches k.2

/-- The nodes that a walk visits, a node after its branches. -/
def Node.visitedUp (n : Node) : List Node :=
  (n.branches.attach.flatMap fun k => k.1.visitedUp) ++ [n]
termination_by sizeOf n
decreasing_by exact Node.sizeOf_lt_of_mem_branches k.2

theorem Node.visited_eq (n : Node) : n.visited = n :: n.branches.flatMap Node.visited := by
  rw [Node.visited, List.flatMap_subtype fun _ _ => rfl, List.unattach_attach]

theorem Node.visitedUp_eq (n : Node) :
    n.visitedUp = n.branches.flatMap Node.visitedUp ++ [n] := by
  rw [Node.visitedUp, List.flatMap_subtype fun _ _ => rfl, List.unattach_attach]

theorem Node.visitedUp_perm (n : Node) : n.visitedUp.Perm n.visited := by
  induction n using Node.visited.induct with
  | case1 n ih =>
    rw [n.visitedUp_eq, n.visited_eq]
    exact (List.perm_append_singleton ..).trans
      ((List.Perm.flatMap_left _ fun k hk => ih ⟨k, hk⟩).cons n)

/-- The nodes in the parts that a walk leaves out. -/
def Node.overlooked (n : Node) : List Node :=
  n.visited.flatMap fun k => k.skipped.flatMap Node.nodes

theorem Node.overlooked_eq (n : Node) :
    n.overlooked = n.skipped.flatMap Node.nodes ++ n.branches.flatMap Node.overlooked := by
  rw [Node.overlooked, n.visited_eq, List.flatMap_cons, List.flatMap_assoc]
  rfl

theorem Node.nodes_perm (n : Node) : n.nodes.Perm (n.visited ++ n.overlooked) := by
  induction n using Node.visited.induct with
  | case1 n ih =>
    have hbranches : (n.branches.flatMap Node.nodes).Perm
        (n.branches.flatMap Node.visited ++ n.branches.flatMap Node.overlooked) :=
      (List.Perm.flatMap_left _ fun k hk => ih ⟨k, hk⟩).trans
        (List.flatMap_append_perm ..).symm
    have hparts : (n.parts.flatMap Node.nodes).Perm
        (n.branches.flatMap Node.nodes ++ n.skipped.flatMap Node.nodes) := by
      simpa only [List.flatMap_append] using n.parts_perm.flatMap_right Node.nodes
    rw [n.nodes_eq, n.visited_eq, n.overlooked_eq, List.cons_append]
    refine (hparts.trans ((hbranches.append_right _).trans ?_)).cons n
    rw [List.append_assoc]
    exact List.perm_append_comm.append_left _

theorem Node.overlooked_eq_nil_iff {n : Node} :
    n.overlooked = [] ↔ ∀ k ∈ n.visited, k.skipped = [] := by
  have hnodes (k : Node) : k.nodes ≠ [] := by simp [k.nodes_eq]
  simp [Node.overlooked, hnodes, ← List.eq_nil_iff_forall_not_mem]

/-- A walk reaches all nodes if nothing it visits has parts that it leaves out. -/
theorem Node.visited_perm_iff {n : Node} :
    n.visited.Perm n.nodes ↔ ∀ k ∈ n.visited, k.skipped = [] := by
  rw [← Node.overlooked_eq_nil_iff]
  constructor
  · intro h
    have := (h.trans n.nodes_perm).length_eq
    rw [List.length_append] at this
    exact List.eq_nil_of_length_eq_zero (by omega)
  · intro h
    simpa [h] using n.nodes_perm.symm

/-! ## Walks that do something at every node -/

variable {m : Type → Type} [Monad m]

/-- Does something at a node and leaves the node as it is. -/
def Node.marking (visit : Node → m Unit) (n : Node) : m Node := do
  visit n
  return n

/-- A computation does what is to be done at these nodes, one after the other, and
nothing else, and its result is `a`. -/
def Visits {α : Type} (visit : Node → m Unit) (x : m α) (ns : List Node) (a : α) : Prop :=
  x = do ns.forM visit; return a

section Visits

variable [LawfulMonad m] {visit : Node → m Unit} {α β : Type}

theorem Visits.pure (a : α) : Visits visit (pure a) [] a := by
  simp [Visits]

theorem Visits.marking (n : Node) : Visits visit (n.marking visit) [n] n := by
  simp [Visits, Node.marking]

theorem Visits.bind {x : m α} {f : α → m β} {ns ks : List Node} {a : α} {b : β}
    (hx : Visits visit x ns a) (hf : Visits visit (f a) ks b) :
    Visits visit (x >>= f) (ns ++ ks) b := by
  simp only [Visits] at hx hf ⊢
  simp [hx, hf]

theorem Visits.map {x : m α} {ns : List Node} {a : α} {f : α → β}
    (hx : Visits visit x ns a) : Visits visit (x >>= fun a => Pure.pure (f a)) ns (f a) := by
  simp only [Visits] at hx ⊢
  simp [hx]

end Visits

/-! ## One level -/

section Level

variable [LawfulMonad m] {visit : Node → m Unit} {f : Node → m Node} {g : Node → List Node}

mutual

theorem Expr.mapPatternsM_visits : ∀ e : Expr,
    (∀ k ∈ e.patterns, Visits visit (f k) (g k) k) →
    Visits visit (e.mapPatternsM f) (e.patterns.flatMap g) e
  | .constant t, _ => .pure _
  | .var v, _ => .pure _
  | .bound v, _ => .pure _
  | .unary op e, h => (e.mapPatternsM_visits h).map
  | .binary op l r, h => by
    simp only [Expr.patterns, List.forall_mem_append, List.flatMap_append] at h ⊢
    exact (l.mapPatternsM_visits h.1).bind ((r.mapPatternsM_visits h.2).map)
  | .isIn e es, h => by
    simp only [Expr.patterns, List.forall_mem_append, List.flatMap_append] at h ⊢
    exact (e.mapPatternsM_visits h.1).bind ((Expr.mapAllPatternsM_visits es h.2).map)
  | .cond c t e, h => by
    simp only [Expr.patterns, List.forall_mem_append, List.flatMap_append] at h ⊢
    exact (c.mapPatternsM_visits h.1).bind
      ((t.mapPatternsM_visits h.2.1).bind ((e.mapPatternsM_visits h.2.2).map))
  | .coalesce es, h => (Expr.mapAllPatternsM_visits es h).map
  | .call name es, h => (Expr.mapAllPatternsM_visits es h).map
  | .hasMatch pattern, h => by
    rw [Expr.patterns, List.flatMap_singleton]
    exact (h pattern List.mem_cons_self).map

theorem Expr.mapAllPatternsM_visits : ∀ es : List Expr,
    (∀ k ∈ Expr.patternsOfAll es, Visits visit (f k) (g k) k) →
    Visits visit (Expr.mapAllPatternsM f es) ((Expr.patternsOfAll es).flatMap g) es
  | [], _ => .pure _
  | e :: rest, h => by
    simp only [Expr.patternsOfAll, List.forall_mem_append, List.flatMap_append] at h ⊢
    exact (e.mapPatternsM_visits h.1).bind ((Expr.mapAllPatternsM_visits rest h.2).map)

end

theorem Element.mapNodesM_visits : ∀ element : Element,
    (∀ k ∈ element.branches, Visits visit (f k) (g k) k) →
    Visits visit (element.mapNodesM f) (element.branches.flatMap g) element
  | .subQuery query, h => by
    rw [Element.branches, List.flatMap_singleton]
    exact (h query List.mem_cons_self).map
  | .assign v e, h => (e.mapPatternsM_visits h).map
  | .filter e, h => (e.mapPatternsM_visits h).map
  | .triple pattern, _ => .pure _
  | .path s p o, _ => .pure _

theorem Element.mapAllNodesM_visits : ∀ elements : List Element,
    (∀ k ∈ elements.flatMap Element.branches, Visits visit (f k) (g k) k) →
    Visits visit (Element.mapAllNodesM f elements)
      ((elements.flatMap Element.branches).flatMap g) elements
  | [], _ => .pure _
  | element :: rest, h => by
    simp only [List.flatMap_cons, List.forall_mem_append, List.flatMap_append] at h ⊢
    exact (element.mapNodesM_visits h.1).bind
      ((Element.mapAllNodesM_visits rest h.2).map)

theorem OrderKey.mapAllPatternsM_visits : ∀ keys : List OrderKey,
    (∀ k ∈ keys.flatMap fun key => key.expression.patterns, Visits visit (f k) (g k) k) →
    Visits visit (OrderKey.mapAllPatternsM f keys)
      ((keys.flatMap fun key => key.expression.patterns).flatMap g) keys
  | [], _ => .pure _
  | .sortBy e descending :: rest, h => by
    simp only [List.flatMap_cons, List.forall_mem_append, List.flatMap_append] at h ⊢
    exact (e.mapPatternsM_visits h.1).bind
      ((OrderKey.mapAllPatternsM_visits rest h.2).map)

theorem Node.mapChildrenM_visits (n : Node)
    (h : ∀ k ∈ n.branches, Visits visit (f k) (g k) k) :
    Visits visit (n.mapChildrenM f) (n.branches.flatMap g) n := by
  cases n with
  | bgp elements => exact (Element.mapAllNodesM_visits elements h).map
  | leftJoin l r condition =>
    cases condition with
    | none =>
      simp only [Node.branches, List.forall_mem_cons, List.flatMap_cons, List.flatMap_nil,
        List.append_nil] at h ⊢
      exact h.1.bind h.2.1.map
    | some e =>
      simp only [Node.branches, List.forall_mem_cons, List.flatMap_cons] at h ⊢
      exact h.1.bind (h.2.1.bind (e.mapPatternsM_visits h.2.2).map)
  | join | union | minus | existsJoin =>
    simp only [Node.branches, List.forall_mem_cons, List.flatMap_cons, List.flatMap_nil,
      List.append_nil] at h ⊢
    exact h.1.bind h.2.1.map
  | filter _ e | extend _ _ e | having _ e =>
    simp only [Node.branches, List.forall_mem_cons, List.flatMap_cons] at h ⊢
    exact h.1.bind (e.mapPatternsM_visits h.2).map
  | orderBy _ keys =>
    simp only [Node.branches, List.forall_mem_cons, List.flatMap_cons] at h ⊢
    exact h.1.bind (OrderKey.mapAllPatternsM_visits keys h.2).map
  | group | distinct | reduced | project | slice | graph | ask | limit =>
    rw [Node.branches, List.flatMap_singleton]
    exact (h _ List.mem_cons_self).map
  | service | values | pathSearch | custom => exact .pure _

end Level

/-! ## Whole walks

A walk up is one level of itself and then the function. A walk down has as many
levels as the tree, and a branch has fewer. -/

section Bottom

variable (f : Node → m Node)

mutual

theorem Expr.mapUpM_eq : ∀ e : Expr, e.mapUpM f = e.mapPatternsM (Node.mapUpM f)
  | .constant _ | .var _ | .bound _ | .hasMatch _ => rfl
  | .unary op e => by
    rw [Expr.mapUpM, Expr.mapPatternsM, e.mapUpM_eq]
  | .binary op l r => by
    rw [Expr.mapUpM, Expr.mapPatternsM, l.mapUpM_eq, r.mapUpM_eq]
  | .isIn e es => by
    rw [Expr.mapUpM, Expr.mapPatternsM, e.mapUpM_eq, Expr.mapAllUpM_eq es]
  | .cond c t e => by
    rw [Expr.mapUpM, Expr.mapPatternsM, c.mapUpM_eq, t.mapUpM_eq, e.mapUpM_eq]
  | .coalesce es | .call _ es => by
    rw [Expr.mapUpM, Expr.mapPatternsM, Expr.mapAllUpM_eq es]

theorem Expr.mapAllUpM_eq : ∀ es : List Expr,
    Expr.mapAllUpM f es = Expr.mapAllPatternsM (Node.mapUpM f) es
  | [] => rfl
  | e :: rest => by
    rw [Expr.mapAllUpM, Expr.mapAllPatternsM, e.mapUpM_eq, Expr.mapAllUpM_eq rest]

end

theorem OrderKey.mapAllUpM_eq (keys : List OrderKey) :
    OrderKey.mapAllUpM f keys = OrderKey.mapAllPatternsM (Node.mapUpM f) keys := by
  induction keys with
  | nil => rfl
  | cons key rest ih =>
    obtain ⟨e, _⟩ := key
    rw [OrderKey.mapAllUpM, OrderKey.mapAllPatternsM, e.mapUpM_eq, ih]

variable [LawfulMonad m]

theorem Element.mapAllUpM_eq (elements : List Element) :
    Element.mapAllUpM f elements = Element.mapAllNodesM (Node.mapUpM f) elements := by
  induction elements with
  | nil => rfl
  | cons element rest ih =>
    cases element <;>
      simp [Element.mapAllUpM, Element.mapAllNodesM, Element.mapNodesM, Expr.mapUpM_eq, ih]

theorem Node.mapUpM_eq (n : Node) : n.mapUpM f = n.mapChildrenM (Node.mapUpM f) >>= f := by
  cases n with
  | leftJoin _ _ condition =>
    cases condition <;> simp [Node.mapUpM, Node.mapChildrenM, Expr.mapUpM_eq]
  | _ =>
    simp [Node.mapUpM, Node.mapChildrenM, Expr.mapUpM_eq, OrderKey.mapAllUpM_eq,
      Element.mapAllUpM_eq]

end Bottom

mutual

theorem Expr.levels_le_of_mem_patterns {k : Node} : ∀ e : Expr, k ∈ e.patterns →
    k.levels ≤ e.levels
  | .constant _, h | .var _, h | .bound _, h => absurd h List.not_mem_nil
  | .unary _ e, h => e.levels_le_of_mem_patterns h
  | .binary _ l r, h => by
    rcases List.mem_append.mp h with h | h
    · exact (l.levels_le_of_mem_patterns h).trans (Nat.le_max_left ..)
    · exact (r.levels_le_of_mem_patterns h).trans (Nat.le_max_right ..)
  | .isIn e es, h => by
    rcases List.mem_append.mp h with h | h
    · exact (e.levels_le_of_mem_patterns h).trans (Nat.le_max_left ..)
    · exact (Expr.levels_le_of_mem_patternsOfAll es h).trans (Nat.le_max_right ..)
  | .cond c t e, h => by
    rcases List.mem_append.mp h with h | h
    · exact (c.levels_le_of_mem_patterns h).trans (Nat.le_max_left ..) |>.trans (Nat.le_max_left ..)
    rcases List.mem_append.mp h with h | h
    · exact (t.levels_le_of_mem_patterns h).trans (Nat.le_max_right ..)
        |>.trans (Nat.le_max_left ..)
    · exact (e.levels_le_of_mem_patterns h).trans (Nat.le_max_right ..)
  | .coalesce es, h | .call _ es, h => Expr.levels_le_of_mem_patternsOfAll es h
  | .hasMatch pattern, h => by
    obtain rfl := List.mem_singleton.mp h
    exact le_rfl

theorem Expr.levels_le_of_mem_patternsOfAll {k : Node} : ∀ es : List Expr,
    k ∈ Expr.patternsOfAll es → k.levels ≤ Expr.levelsOfAll es
  | [], h => absurd h List.not_mem_nil
  | e :: rest, h => by
    rcases List.mem_append.mp h with h | h
    · exact (e.levels_le_of_mem_patterns h).trans (Nat.le_max_left ..)
    · exact (Expr.levels_le_of_mem_patternsOfAll rest h).trans (Nat.le_max_right ..)

end

theorem OrderKey.levels_le_of_mem_patterns {k : Node} : ∀ keys : List OrderKey,
    (k ∈ keys.flatMap fun key => key.expression.patterns) → k.levels ≤ OrderKey.levelsOfAll keys
  | [], h => absurd h List.not_mem_nil
  | .sortBy e _ :: rest, h => by
    rcases List.mem_append.mp h with h | h
    · exact (e.levels_le_of_mem_patterns h).trans (Nat.le_max_left ..)
    · exact (OrderKey.levels_le_of_mem_patterns rest h).trans (Nat.le_max_right ..)

theorem Element.levels_le_of_mem_branches {k : Node} : ∀ elements : List Element,
    k ∈ elements.flatMap Element.branches → k.levels ≤ Element.levelsOfAll elements
  | [], h => absurd h List.not_mem_nil
  | .subQuery query :: rest, h => by
    rcases List.mem_cons.mp h with rfl | h
    · exact Nat.le_max_left ..
    · exact (Element.levels_le_of_mem_branches rest h).trans (Nat.le_max_right ..)
  | .assign _ e :: rest, h | .filter e :: rest, h => by
    rcases List.mem_append.mp h with h | h
    · exact (e.levels_le_of_mem_patterns h).trans (Nat.le_max_left ..)
    · exact (Element.levels_le_of_mem_branches rest h).trans (Nat.le_max_right ..)
  | .triple _ :: rest, h | .path _ _ _ :: rest, h => Element.levels_le_of_mem_branches rest h

theorem Node.levels_lt_of_mem_branches {n k : Node} (h : k ∈ n.branches) :
    k.levels < n.levels := by
  cases n with
  | bgp elements => exact Nat.lt_succ_of_le (Element.levels_le_of_mem_branches elements h)
  | leftJoin l r condition =>
    cases condition with
    | none =>
      simp only [Node.branches, List.mem_cons, List.not_mem_nil, or_false] at h
      rcases h with rfl | rfl <;> simp only [Node.levels] <;> omega
    | some e =>
      simp only [Node.branches, List.mem_cons] at h
      simp only [Node.levels]
      rcases h with rfl | rfl | h
      · omega
      · omega
      · have := e.levels_le_of_mem_patterns h
        omega
  | join | union | minus | existsJoin =>
    simp only [Node.branches, List.mem_cons, List.not_mem_nil, or_false] at h
    rcases h with rfl | rfl <;> simp only [Node.levels] <;> omega
  | filter _ e | extend _ _ e | having _ e =>
    simp only [Node.levels]
    rcases List.mem_cons.mp h with rfl | h
    · omega
    · have := e.levels_le_of_mem_patterns h
      omega
  | orderBy _ keys =>
    simp only [Node.levels]
    rcases List.mem_cons.mp h with rfl | h
    · omega
    · have := OrderKey.levels_le_of_mem_patterns keys h
      omega
  | group | distinct | reduced | project | slice | graph | ask | limit =>
    obtain rfl := List.mem_singleton.mp h
    exact Nat.lt_succ_self _
  | service | values | pathSearch | custom => cases h

theorem Node.levels_pos (n : Node) : 0 < n.levels := by
  cases n with
  | leftJoin _ _ condition => cases condition <;> exact Nat.succ_pos _
  | _ => exact Nat.succ_pos _

section Walks

variable [LawfulMonad m] (visit : Node → m Unit)

theorem Node.mapUpM_visits (n : Node) :
    Visits visit (n.mapUpM (Node.marking visit)) n.visitedUp n := by
  induction n using Node.visitedUp.induct with
  | case1 n ih =>
    rw [n.mapUpM_eq, n.visitedUp_eq]
    exact (n.mapChildrenM_visits fun k hk => ih ⟨k, hk⟩).bind (.marking n)

/-- A walk down visits the whole tree as soon as it has a level for every level of the
tree. -/
theorem Node.mapLevelsM_visits {levels : Nat} : ∀ {n : Node}, n.levels ≤ levels →
    Visits visit (n.mapLevelsM (Node.marking visit) levels) n.visited n := by
  induction levels with
  | zero => exact fun {n} h => absurd n.levels_pos (by omega)
  | succ levels ih =>
    intro n h
    rw [n.visited_eq]
    exact (Visits.marking n).bind <| n.mapChildrenM_visits fun k hk =>
      ih (by have := Node.levels_lt_of_mem_branches hk; omega)

theorem Node.mapDownM_visits (n : Node) :
    Visits visit (n.mapDownM (Node.marking visit)) n.visited n :=
  Node.mapLevelsM_visits visit le_rfl

/-- With a function that leaves its argument as it is, both walks call it and do
nothing else, return the tree itself, and call it for the same nodes. With the nodes
in the parts that they leave out these are the nodes of the tree, each as often as it
occurs: all are reached exactly if no node that is visited has parts that are left
out. -/
theorem Node.walks_exact (n : Node) :
    n.mapUpM (Node.marking visit) = (do n.visitedUp.forM visit; return n) ∧
    n.mapDownM (Node.marking visit) = (do n.visited.forM visit; return n) ∧
    n.visitedUp.Perm n.visited ∧
    n.nodes.Perm (n.visited ++ n.overlooked) ∧
    (n.visited.Perm n.nodes ↔ ∀ k ∈ n.visited, k.skipped = []) :=
  ⟨n.mapUpM_visits visit, n.mapDownM_visits visit, n.visitedUp_perm, n.nodes_perm,
    Node.visited_perm_iff⟩

end Walks

/-- Notes the node. -/
def Node.record (n : Node) : StateM (List Node) Unit := modify (· ++ [n])

/-- A filter with a pattern under a negation, in which there is another filter with
a pattern. -/
def Node.sampleFilter : Node :=
  .filter (.values [] []) (.unary .not
    (.hasMatch (.filter (.bgp []) (.hasMatch (.distinct (.values [] []))))))

theorem Node.walks_exact_sample :
    (Node.sampleFilter.mapUpM (Node.marking Node.record)).run [] =
      (Node.sampleFilter, Node.sampleFilter.visitedUp) ∧
    Node.sampleFilter.visitedUp.map Node.name =
      ["Values", "Bgp", "Values", "Distinct", "Filter", "Filter"] ∧
    Node.sampleFilter.visitedUp.Perm Node.sampleFilter.nodes := by
  obtain ⟨hup, -, hperm, -, hall⟩ := Node.walks_exact Node.record Node.sampleFilter
  have hvisited : Node.sampleFilter.visitedUp.map Node.name =
      ["Values", "Bgp", "Values", "Distinct", "Filter", "Filter"] := by
    simp [Node.sampleFilter, Node.visitedUp_eq, Node.branches, Expr.patterns, Node.name]
  refine ⟨?_, hvisited, hperm.trans (hall.mpr ?_)⟩
  · rw [hup]
    simp [Node.sampleFilter, Node.visitedUp_eq, Node.branches, Expr.patterns]
    rfl
  · simp [Node.sampleFilter, Node.visited_eq, Node.branches, Expr.patterns, Node.skipped]

/-- Counts the solutions for which a pattern has a match. -/
def Node.sampleGroup : Node :=
  .group (.bgp []) [] [.apply ⟨"n"⟩ .count (.hasMatch (.values [] [])) false]

/-- The pattern in the argument of an aggregate is a node of the tree, and neither
walk calls its function for it. -/
theorem Node.walks_miss_argument :
    Node.sampleGroup.isCustomFree = true ∧
    ¬ ((Node.sampleGroup.mapUpM (Node.marking Node.record)).run []).2.Perm
      Node.sampleGroup.nodes ∧
    ¬ ((Node.sampleGroup.mapDownM (Node.marking Node.record)).run []).2.Perm
      Node.sampleGroup.nodes := by
  have hnodes : Node.sampleGroup.nodes.length = 3 := by
    simp [Node.sampleGroup, Node.nodes_eq, Node.parts, Node.children, Node.expressions,
      GroupValue.argument?, Expr.patterns]
  refine ⟨rfl, fun h => ?_, fun h => ?_⟩
  · have : 2 = Node.sampleGroup.nodes.length := h.length_eq
    omega
  · have : 2 = Node.sampleGroup.nodes.length := h.length_eq
    omega

end SparqlAlgebra
