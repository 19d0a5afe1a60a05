import SparqlAlgebra.Proofs.UniformPaths

/-!
# Uniform trees

Trees without operators that are defined elsewhere do the same over alike views.
Every other operator is uniform if its parts are, and nothing is asked of the
expressions: also random and custom functions do the same, as both runs make the
same calls under the same numbers.

* `Node.isCustomFree`: there is no operator that is defined elsewhere, in the tree
  and in the patterns of its expressions;
* `Node.plan_uniform` and `Expr.meaning_uniform` by induction over the tree.
-/

namespace SparqlAlgebra

mutual

/-- Whether no operator is defined elsewhere, in the tree and in the patterns of
its expressions. -/
def Node.isCustomFree : Node → Bool
  | .bgp elements => Element.areCustomFree elements
  | .leftJoin l r (some e) => l.isCustomFree && r.isCustomFree && e.isCustomFree
  | .join l r | .leftJoin l r none | .union l r | .minus l r | .existsJoin l r _ =>
    l.isCustomFree && r.isCustomFree
  | .filter inner e | .extend inner _ e | .having inner e =>
    inner.isCustomFree && e.isCustomFree
  | .group inner _ columns => inner.isCustomFree && GroupValue.areCustomFree columns
  | .orderBy inner keys => inner.isCustomFree && OrderKey.areCustomFree keys
  | .distinct inner | .reduced inner | .project inner _ | .slice inner _ _
  | .graph inner _ | .ask inner | .limit inner _ => inner.isCustomFree
  | .service _ _ _ _ | .values _ _ | .pathSearch _ _ _ => true
  | .custom _ _ _ => false

def Element.areCustomFree : List Element → Bool
  | [] => true
  | .triple _ :: rest | .path _ _ _ :: rest => Element.areCustomFree rest
  | .assign _ e :: rest | .filter e :: rest =>
    e.isCustomFree && Element.areCustomFree rest
  | .subQuery query :: rest => query.isCustomFree && Element.areCustomFree rest

def GroupValue.areCustomFree : List GroupValue → Bool
  | [] => true
  | .countRows _ _ :: rest => GroupValue.areCustomFree rest
  | .apply _ _ e _ :: rest => e.isCustomFree && GroupValue.areCustomFree rest

def OrderKey.areCustomFree : List OrderKey → Bool
  | [] => true
  | .sortBy e _ :: rest => e.isCustomFree && OrderKey.areCustomFree rest

/-- Whether no operator is defined elsewhere in the patterns of an expression. -/
def Expr.isCustomFree : Expr → Bool
  | .constant _ | .var _ | .bound _ => true
  | .unary _ e => e.isCustomFree
  | .binary _ l r => l.isCustomFree && r.isCustomFree
  | .isIn e es => e.isCustomFree && Expr.areCustomFree es
  | .cond c t e => c.isCustomFree && t.isCustomFree && e.isCustomFree
  | .coalesce es | .call _ es => Expr.areCustomFree es
  | .hasMatch pattern => pattern.isCustomFree

def Expr.areCustomFree : List Expr → Bool
  | [] => true
  | e :: rest => e.isCustomFree && Expr.areCustomFree rest

end

variable {L : Likeness} {operators : OperatorRegistry}

mutual

/-- A tree without operators that are defined elsewhere does the same over alike
views. -/
theorem Node.plan_uniform : ∀ n : Node, n.isCustomFree = true →
    (n.plan operators).Uniform L
  | .bgp elements, h => (Plan.bgp_uniform (Element.steps_uniform elements 0 h) _).observed _
  | .join l r, h => by
    simp only [Node.isCustomFree, Bool.and_eq_true] at h
    exact (((l.plan_uniform h.1).input 0).join ((r.plan_uniform h.2).input 1)).observed _
  | .leftJoin l r none, h => by
    simp only [Node.isCustomFree, Bool.and_eq_true] at h
    exact (((l.plan_uniform h.1).input 0).leftJoin ((r.plan_uniform h.2).input 1)
      fun _ => .pure _).observed _
  | .leftJoin l r (some e), h => by
    simp only [Node.isCustomFree, Bool.and_eq_true] at h
    exact (((l.plan_uniform h.1.1).input 0).leftJoin ((r.plan_uniform h.1.2).input 1)
      (e.meaning_uniform h.2).holds).observed _
  | .union l r, h => by
    simp only [Node.isCustomFree, Bool.and_eq_true] at h
    exact (((l.plan_uniform h.1).input 0).union ((r.plan_uniform h.2).input 1) _).observed _
  | .minus l r, h => by
    simp only [Node.isCustomFree, Bool.and_eq_true] at h
    exact (((l.plan_uniform h.1).input 0).minus ((r.plan_uniform h.2).input 1)).observed _
  | .existsJoin l r negated, h => by
    simp only [Node.isCustomFree, Bool.and_eq_true] at h
    exact (((l.plan_uniform h.1).input 0).existsJoin ((r.plan_uniform h.2).input 1)
      negated).observed _
  | .filter inner e, h | .having inner e, h => by
    simp only [Node.isCustomFree, Bool.and_eq_true] at h
    exact (((inner.plan_uniform h.1).input 0).filter (e.meaning_uniform h.2).holds).observed _
  | .extend inner v e, h => by
    simp only [Node.isCustomFree, Bool.and_eq_true] at h
    exact (((inner.plan_uniform h.1).input 0).extend
      (e.assignment_uniform (e.meaning_uniform h.2)) v).observed _
  | .group inner keys columns, h => by
    simp only [Node.isCustomFree, Bool.and_eq_true] at h
    exact (((inner.plan_uniform h.1).input 0).group keys
      (GroupValue.columns_uniform columns h.2)).observed _
  | .orderBy inner keys, h => by
    simp only [Node.isCustomFree, Bool.and_eq_true] at h
    exact (((inner.plan_uniform h.1).input 0).orderBy
      (OrderKey.sortKeys_uniform keys h.2)).observed _
  | .distinct inner, h => ((inner.plan_uniform h).input 0).distinct.observed _
  | .reduced inner, h => ((inner.plan_uniform h).input 0).observed _
  | .project inner vs, h => (((inner.plan_uniform h).input 0).project vs).observed _
  | .slice inner offset count, h =>
    (((inner.plan_uniform h).input 0).slice offset count).observed _
  | .graph inner name, h => (((inner.plan_uniform h).input 0).graph name _).observed _
  | .ask inner, h => ((inner.plan_uniform h).input 0).ask.observed _
  | .limit inner count, h => (((inner.plan_uniform h).input 0).limit count).observed _
  | .service name vs silent pattern, _ => (Plan.service_uniform name vs silent pattern).observed _
  | .values vs rows, _ => (Plan.values_uniform vs rows).observed _
  | .pathSearch s search o, _ => (Plan.pathSearch_uniform s search o).observed _
  | .custom _ _ _, h => by cases h

theorem Element.steps_uniform : ∀ (elements : List Element) (i : Nat),
    Element.areCustomFree elements = true →
    ∀ s ∈ Element.steps operators i elements, s.Uniform L
  | [], _, _ => by simp [Element.steps]
  | .triple pattern :: rest, i, h =>
    List.forall_mem_cons.mpr ⟨Step.matchTriple_uniform pattern,
      Element.steps_uniform rest i h⟩
  | .path s path o :: rest, i, h =>
    List.forall_mem_cons.mpr ⟨Step.matchPath_uniform s path o,
      Element.steps_uniform rest i h⟩
  | .assign v e :: rest, i, h => by
    simp only [Element.areCustomFree, Bool.and_eq_true] at h
    exact List.forall_mem_cons.mpr ⟨e.assignment_uniform (e.meaning_uniform h.1),
      Element.steps_uniform rest i h.2⟩
  | .subQuery query :: rest, i, h => by
    simp only [Element.areCustomFree, Bool.and_eq_true] at h
    exact List.forall_mem_cons.mpr ⟨(query.plan_uniform h.1).input i,
      Element.steps_uniform rest (i + 1) h.2⟩
  | .filter e :: rest, i, h => by
    simp only [Element.areCustomFree, Bool.and_eq_true] at h
    exact List.forall_mem_cons.mpr ⟨(e.meaning_uniform h.1).holds,
      Element.steps_uniform rest i h.2⟩

theorem GroupValue.columns_uniform : ∀ values : List GroupValue,
    GroupValue.areCustomFree values = true →
    ∀ c ∈ GroupValue.columns operators values, c.2.Uniform L
  | [], _ => by simp [GroupValue.columns]
  | .countRows v distinct :: rest, h =>
    List.forall_mem_cons.mpr ⟨trivial, GroupValue.columns_uniform rest h⟩
  | .apply v function e distinct :: rest, h => by
    simp only [GroupValue.areCustomFree, Bool.and_eq_true] at h
    exact List.forall_mem_cons.mpr ⟨e.meaning_uniform h.1,
      GroupValue.columns_uniform rest h.2⟩

theorem OrderKey.sortKeys_uniform : ∀ keys : List OrderKey,
    OrderKey.areCustomFree keys = true →
    ∀ k ∈ OrderKey.sortKeys operators keys, k.key.Uniform L
  | [], _ => by simp [OrderKey.sortKeys]
  | .sortBy e descending :: rest, h => by
    simp only [OrderKey.areCustomFree, Bool.and_eq_true] at h
    exact List.forall_mem_cons.mpr ⟨e.meaning_uniform h.1,
      OrderKey.sortKeys_uniform rest h.2⟩

/-- Value and truth of an expression are the same over alike views. -/
theorem Expr.meaning_uniform : ∀ e : Expr, e.isCustomFree = true →
    (e.meaning operators).Uniform L
  | .constant t, _ => .constant t
  | .var v, _ => .var v
  | .bound v, _ => .bound v
  | .unary op e, h => op.uniform (e.meaning_uniform h)
  | .binary op l r, h => by
    simp only [Expr.isCustomFree, Bool.and_eq_true] at h
    exact op.uniform (l.meaning_uniform h.1) (r.meaning_uniform h.2)
  | .isIn e es, h => by
    simp only [Expr.isCustomFree, Bool.and_eq_true] at h
    exact (e.meaning_uniform h.1).isIn (Expr.meanings_uniform es h.2)
  | .cond c t e, h => by
    simp only [Expr.isCustomFree, Bool.and_eq_true] at h
    exact .cond (c.meaning_uniform h.1.1) (t.meaning_uniform h.1.2) (e.meaning_uniform h.2)
  | .coalesce es, h => .coalesce (Expr.meanings_uniform es h)
  | .call f es, h => .call f (Expr.meanings_uniform es h)
  | .hasMatch pattern, h =>
    .ofTest fun row => Plan.hasMatch_uniform (pattern.plan_uniform h).inExpression row.binding

theorem Expr.meanings_uniform : ∀ es : List Expr, Expr.areCustomFree es = true →
    ∀ m ∈ Expr.meanings operators es, m.Uniform L
  | [], _ => by simp [Expr.meanings]
  | e :: rest, h => by
    simp only [Expr.areCustomFree, Bool.and_eq_true] at h
    exact List.forall_mem_cons.mpr ⟨e.meaning_uniform h.1, Expr.meanings_uniform rest h.2⟩

end

end SparqlAlgebra
