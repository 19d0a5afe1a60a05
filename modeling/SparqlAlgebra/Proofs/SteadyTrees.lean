import SparqlAlgebra.Proofs.PathNames
import SparqlAlgebra.Proofs.SteadyOperators

/-!
# Steady trees

Evaluating a tree is repeatable if it calls no random and no custom function and
has no custom operator, wherever in the tree, patterns of expressions included,
and if it mentions no variable that looks like one made for a path.

* `Node.plan_steady`: the outcome of such a tree does not depend on what was
  counted before it;
* `Expr.meaning_steady`: neither do value and truth of such an expression.
-/

namespace SparqlAlgebra

/-! ## Paths in trees -/

/-- The variable looks like one that is made for the inner nodes of paths. -/
def Var.IsGenerated (v : Var) : Prop := ∃ k, v = generated k

/-- None of the variables looks like a made one. -/
def Var.AreGiven (vs : List Var) : Prop := ∀ v ∈ vs, ¬ v.IsGenerated

theorem Var.AreGiven.of_subset {vs ws : List Var} (h : AreGiven ws)
    (hvs : ∀ v ∈ vs, v ∈ ws) : AreGiven vs := fun v hv => h v (hvs v hv)

/-- Names that begin in another way are given. -/
theorem Var.AreGiven.of_all {vs : List Var}
    (h : vs.all (fun v => !"__path".toList.isPrefixOf v.name.toList) = true) :
    AreGiven vs := by
  rintro v hv ⟨k, rfl⟩
  have hname := List.all_eq_true.mp h _ hv
  have hbegin : "__path".toList <+: ("__path" ++ toString k).toList := by
    rw [String.toList_append]
    exact List.prefix_append _ _
  rw [Var.generated, List.isPrefixOf_iff_prefix.mpr hbegin] at hname
  cases hname

theorem Var.areGiven_append {vs ws : List Var} :
    AreGiven (vs ++ ws) ↔ AreGiven vs ∧ AreGiven ws := by
  simp only [AreGiven, List.mem_append, or_imp, forall_and]

/-- The position is old whatever has been made. -/
def Position.IsGiven (p : Position) : Prop := ∀ k, p ≠ .var (.generated k)

theorem Position.IsGiven.isOld {p : Position} (h : p.IsGiven) (n : Nat) :
    p.IsOld n := fun k _ => h k

theorem Position.IsGiven.substitute {p : Position} (h : p.IsGiven) (b : Binding) :
    (p.substitute b).IsGiven := by
  unfold Position.substitute
  split
  · exact fun k hk => Position.noConfusion hk
  · exact h

theorem Position.isGiven_of_mem {ps : List Position} {p : Position}
    (h : Var.AreGiven (vars ps)) (hp : p ∈ ps) : p.IsGiven := by
  rintro k rfl
  exact h _ (mem_vars.mpr hp) ⟨k, rfl⟩

/-- Given ends keep their names, so that the solutions are the same. -/
theorem Relation.Equivariant.alongside {r : Relation} (h : r.Equivariant) {s o : Position}
    (hs : s.IsGiven) (ho : o.IsGiven) : (r s o).AgreeIn Context.Alongside (r s o) := by
  intro c c' hc hc' p q
  have hold (e : Position) (he : e.IsGiven) : e.OldUnder 1 p q := by
    constructor
    · exact he.isOld p.vars
    · rw [Position.rename_one]
      exact he.isOld q.vars
  have hboth := h c c' hc hc' 1 p q s o (hold s hs) (hold o ho)
  rw [Position.rename_one, Position.rename_one] at hboth
  refine hboth.mono (fun q q' hlater => ?_) (fun _ he => he) fun bs bs' hnames => ?_
  · exact ⟨hlater.1.log_eq ▸ List.suffix_rfl, hlater.2.log_eq ▸ List.suffix_rfl⟩
  · rw [hnames, funext Binding.rename_one, List.map_id']

theorem Relation.Equivariant.steady {r : Relation} (h : r.Equivariant) {s o : Position}
    (hs : s.IsGiven) (ho : o.IsGiven) : (r s o).Steady := (h.alongside hs ho).agree

theorem Position.substitute_empty (p : Position) : p.substitute .empty = p := by
  cases p <;> rfl

theorem Step.matchPath_steady {s o : Position} (path : Path) (hs : s.IsGiven)
    (ho : o.IsGiven) (b : Binding) : (matchPath s path o b).Steady :=
  Eval.AgreeIn.bind
    ((path.relation_equivariant.steady (hs.substitute b) (ho.substitute b)).bind
      fun _ => .pure _)
    fun _ => .pure _

theorem Plan.pathSearch_steady {s o : Position} (search : PathSearch)
    (hs : s.IsGiven) (ho : o.IsGiven) : (Plan.pathSearch s search o).Steady := by
  refine leaf_steady _ (Eval.RelatedIn.read_bind fun c c' _ hc => ?_)
  dsimp only
  rw [hc.seed_eq]
  have hsearch := search.relation_equivariant.steady
    (hs.substitute (c.seed.getD .empty)) (ho.substitute (c.seed.getD .empty))
  exact hsearch.bind fun _ => joinSeed_steady _

/-! ## Repeatable trees -/

mutual

/-- Whether no expression calls a random or custom function and no operator is
defined elsewhere, in the tree and in the patterns of its expressions. -/
def Node.isRepeatable : Node → Bool
  | .bgp elements => Element.areRepeatable elements
  | .leftJoin l r (some e) =>
    l.isRepeatable && r.isRepeatable && e.isRepeatable
  | .join l r | .leftJoin l r none | .union l r | .minus l r
  | .existsJoin l r _ => l.isRepeatable && r.isRepeatable
  | .filter inner e | .extend inner _ e | .having inner e =>
    inner.isRepeatable && e.isRepeatable
  | .group inner _ columns =>
    inner.isRepeatable && GroupValue.areRepeatable columns
  | .orderBy inner keys => inner.isRepeatable && OrderKey.areRepeatable keys
  | .distinct inner | .reduced inner | .project inner _ | .slice inner _ _
  | .graph inner _ | .ask inner | .limit inner _ => inner.isRepeatable
  | .service _ _ _ _ | .values _ _ | .pathSearch _ _ _ => true
  | .custom _ _ _ => false

def Element.areRepeatable : List Element → Bool
  | [] => true
  | .triple _ :: rest | .path _ _ _ :: rest => Element.areRepeatable rest
  | .assign _ e :: rest | .filter e :: rest =>
    e.isRepeatable && Element.areRepeatable rest
  | .subQuery query :: rest => query.isRepeatable && Element.areRepeatable rest

def GroupValue.areRepeatable : List GroupValue → Bool
  | [] => true
  | .countRows _ _ :: rest => GroupValue.areRepeatable rest
  | .apply _ _ e _ :: rest => e.isRepeatable && GroupValue.areRepeatable rest

def OrderKey.areRepeatable : List OrderKey → Bool
  | [] => true
  | .sortBy e _ :: rest => e.isRepeatable && OrderKey.areRepeatable rest

/-- Whether an expression and the patterns in it call no random or custom
function and have no operator that is defined elsewhere. -/
def Expr.isRepeatable : Expr → Bool
  | .constant _ | .var _ | .bound _ => true
  | .unary _ e => e.isRepeatable
  | .binary _ l r => l.isRepeatable && r.isRepeatable
  | .isIn e es => e.isRepeatable && Expr.areRepeatable es
  | .cond c t e => c.isRepeatable && t.isRepeatable && e.isRepeatable
  | .coalesce es => Expr.areRepeatable es
  | .call f es => f.isRepeatable && Expr.areRepeatable es
  | .hasMatch pattern => pattern.isRepeatable

def Expr.areRepeatable : List Expr → Bool
  | [] => true
  | e :: rest => e.isRepeatable && Expr.areRepeatable rest

end

open Var (AreGiven areGiven_append)

variable {operators : OperatorRegistry}

mutual

/-- The outcome of a repeatable tree is the same whatever was counted before. -/
theorem Node.plan_steady : ∀ n : Node, n.isRepeatable = true →
    AreGiven n.occurrences → (n.plan operators).Steady
  | .bgp elements, h, hv =>
    (Plan.bgp_steady (Element.steps_steady elements 0 h hv) _).observed _
  | .join l r, h, hv => by
    simp only [Node.isRepeatable, Bool.and_eq_true] at h
    simp only [Node.occurrences, areGiven_append] at hv
    exact (((l.plan_steady h.1 hv.1.1).input 0).join
      ((r.plan_steady h.2 hv.1.2).input 1)).observed _
  | .leftJoin l r none, h, hv => by
    simp only [Node.isRepeatable, Bool.and_eq_true] at h
    simp only [Node.occurrences, areGiven_append] at hv
    exact (((l.plan_steady h.1 hv.1.1).input 0).leftJoin
      ((r.plan_steady h.2 hv.1.2).input 1) fun _ => .pure _).observed _
  | .leftJoin l r (some e), h, hv => by
    simp only [Node.isRepeatable, Bool.and_eq_true] at h
    simp only [Node.occurrences, areGiven_append] at hv
    exact (((l.plan_steady h.1.1 hv.1.1.1).input 0).leftJoin
      ((r.plan_steady h.1.2 hv.1.1.2).input 1)
      (e.meaning_steady h.2 hv.1.2).holds).observed _
  | .union l r, h, hv => by
    simp only [Node.isRepeatable, Bool.and_eq_true] at h
    simp only [Node.occurrences, areGiven_append] at hv
    exact (((l.plan_steady h.1 hv.1.1).input 0).union
      ((r.plan_steady h.2 hv.1.2).input 1) _).observed _
  | .minus l r, h, hv => by
    simp only [Node.isRepeatable, Bool.and_eq_true] at h
    simp only [Node.occurrences, areGiven_append] at hv
    exact (((l.plan_steady h.1 hv.1.1).input 0).minus
      ((r.plan_steady h.2 hv.1.2).input 1)).observed _
  | .existsJoin l r negated, h, hv => by
    simp only [Node.isRepeatable, Bool.and_eq_true] at h
    simp only [Node.occurrences, areGiven_append] at hv
    exact (((l.plan_steady h.1 hv.1.1).input 0).existsJoin
      ((r.plan_steady h.2 hv.1.2).input 1) negated).observed _
  | .filter inner e, h, hv | .having inner e, h, hv => by
    simp only [Node.isRepeatable, Bool.and_eq_true] at h
    simp only [Node.occurrences, areGiven_append] at hv
    exact (((inner.plan_steady h.1 hv.1.1).input 0).filter
      (e.meaning_steady h.2 hv.1.2).holds).observed _
  | .extend inner v e, h, hv => by
    simp only [Node.isRepeatable, Bool.and_eq_true] at h
    simp only [Node.occurrences, areGiven_append] at hv
    exact (((inner.plan_steady h.1 hv.1.1).input 0).extend
      (e.assignment_steady (e.meaning_steady h.2 hv.1.2)) v).observed _
  | .group inner keys columns, h, hv => by
    simp only [Node.isRepeatable, Bool.and_eq_true] at h
    simp only [Node.occurrences, areGiven_append] at hv
    exact (((inner.plan_steady h.1 hv.1.1).input 0).group keys
      (GroupValue.columns_steady columns h.2 hv.2)).observed _
  | .orderBy inner keys, h, hv => by
    simp only [Node.isRepeatable, Bool.and_eq_true] at h
    simp only [Node.occurrences, areGiven_append] at hv
    exact (((inner.plan_steady h.1 hv.1.1).input 0).orderBy
      (OrderKey.sortKeys_steady keys h.2 hv.1.2)).observed _
  | .distinct inner, h, hv => by
    simp only [Node.occurrences, areGiven_append] at hv
    exact ((inner.plan_steady h hv.1).input 0).distinct.observed _
  | .reduced inner, h, hv => by
    simp only [Node.occurrences, areGiven_append] at hv
    exact ((inner.plan_steady h hv.1).input 0).observed _
  | .project inner vs, h, hv => by
    simp only [Node.occurrences, areGiven_append] at hv
    exact (((inner.plan_steady h hv.1).input 0).project vs).observed _
  | .slice inner offset count, h, hv => by
    simp only [Node.occurrences, areGiven_append] at hv
    exact (((inner.plan_steady h hv.1).input 0).slice offset count).observed _
  | .graph inner name, h, hv => by
    simp only [Node.occurrences, areGiven_append] at hv
    exact (((inner.plan_steady h hv.1).input 0).graph name _).observed _
  | .ask inner, h, hv => by
    simp only [Node.occurrences, areGiven_append] at hv
    exact ((inner.plan_steady h hv.1).input 0).ask.observed _
  | .limit inner count, h, hv => by
    simp only [Node.occurrences, areGiven_append] at hv
    exact (((inner.plan_steady h hv.1).input 0).limit count).observed _
  | .service name vs silent pattern, _, _ =>
    (Plan.service_steady name vs silent pattern).observed _
  | .values vs rows, _, _ => (Plan.values_steady vs rows).observed _
  | .pathSearch s search o, _, hv => by
    have hs : s.IsGiven := Position.isGiven_of_mem hv (by simp)
    have ho : o.IsGiven := Position.isGiven_of_mem hv (by simp)
    exact (Plan.pathSearch_steady search hs ho).observed _
  | .custom _ _ _, h, _ => by cases h

theorem Element.steps_steady : ∀ (elements : List Element) (i : Nat),
    Element.areRepeatable elements = true →
    AreGiven (Element.occurrencesIn elements) →
    ∀ s ∈ Element.steps operators i elements, s.Steady
  | [], _, _, _ => by simp [Element.steps]
  | .triple pattern :: rest, i, h, hv => by
    simp only [Element.occurrencesIn, areGiven_append] at hv
    exact List.forall_mem_cons.mpr ⟨Step.matchTriple_steady pattern,
      Element.steps_steady rest i h hv.2⟩
  | .path s path o :: rest, i, h, hv => by
    simp only [Element.occurrencesIn, areGiven_append] at hv
    have hs : s.IsGiven := Position.isGiven_of_mem hv.1 (by simp)
    have ho : o.IsGiven := Position.isGiven_of_mem hv.1 (by simp)
    exact List.forall_mem_cons.mpr ⟨Step.matchPath_steady path hs ho,
      Element.steps_steady rest i h hv.2⟩
  | .assign v e :: rest, i, h, hv => by
    simp only [Element.areRepeatable, Bool.and_eq_true] at h
    simp only [Element.occurrencesIn, areGiven_append] at hv
    have he : AreGiven e.occurrences :=
      hv.1.of_subset fun _ => List.mem_cons_of_mem _
    exact List.forall_mem_cons.mpr
      ⟨e.assignment_steady (e.meaning_steady h.1 he),
        Element.steps_steady rest i h.2 hv.2⟩
  | .subQuery query :: rest, i, h, hv => by
    simp only [Element.areRepeatable, Bool.and_eq_true] at h
    simp only [Element.occurrencesIn, areGiven_append] at hv
    exact List.forall_mem_cons.mpr ⟨(query.plan_steady h.1 hv.1).input i,
      Element.steps_steady rest (i + 1) h.2 hv.2⟩
  | .filter e :: rest, i, h, hv => by
    simp only [Element.areRepeatable, Bool.and_eq_true] at h
    simp only [Element.occurrencesIn, areGiven_append] at hv
    exact List.forall_mem_cons.mpr ⟨(e.meaning_steady h.1 hv.1).holds,
      Element.steps_steady rest i h.2 hv.2⟩

theorem GroupValue.columns_steady : ∀ values : List GroupValue,
    GroupValue.areRepeatable values = true →
    AreGiven (GroupValue.occurrencesIn values) →
    ∀ c ∈ GroupValue.columns operators values, c.2.Steady
  | [], _, _ => by simp [GroupValue.columns]
  | .countRows v distinct :: rest, h, hv =>
    List.forall_mem_cons.mpr ⟨trivial, GroupValue.columns_steady rest h
      (hv.of_subset fun _ => List.mem_cons_of_mem _)⟩
  | .apply v function e distinct :: rest, h, hv => by
    simp only [GroupValue.areRepeatable, Bool.and_eq_true] at h
    simp only [GroupValue.occurrencesIn, areGiven_append] at hv
    have he : AreGiven e.occurrences :=
      hv.1.of_subset fun _ => List.mem_cons_of_mem _
    exact List.forall_mem_cons.mpr ⟨e.meaning_steady h.1 he,
      GroupValue.columns_steady rest h.2 hv.2⟩

theorem OrderKey.sortKeys_steady : ∀ keys : List OrderKey,
    OrderKey.areRepeatable keys = true →
    AreGiven (OrderKey.occurrencesIn keys) →
    ∀ k ∈ OrderKey.sortKeys operators keys, k.key.Steady
  | [], _, _ => by simp [OrderKey.sortKeys]
  | .sortBy e descending :: rest, h, hv => by
    simp only [OrderKey.areRepeatable, Bool.and_eq_true] at h
    simp only [OrderKey.occurrencesIn, areGiven_append] at hv
    exact List.forall_mem_cons.mpr ⟨e.meaning_steady h.1 hv.1,
      OrderKey.sortKeys_steady rest h.2 hv.2⟩

/-- Value and truth of a repeatable expression depend on the binding only. -/
theorem Expr.meaning_steady : ∀ e : Expr, e.isRepeatable = true →
    AreGiven e.occurrences → (e.meaning operators).Steady
  | .constant t, _, _ => .constant t
  | .var v, _, _ => .var fun hb => congrArg (·.get? v) hb
  | .bound v, _, _ => .bound fun hb => congrArg (·.get? v) hb
  | .unary op e, h, hv => op.respects (e.meaning_steady h hv)
  | .binary op l r, h, hv => by
    simp only [Expr.isRepeatable, Bool.and_eq_true] at h
    simp only [Expr.occurrences, areGiven_append] at hv
    exact op.respects (l.meaning_steady h.1 hv.1) (r.meaning_steady h.2 hv.2)
  | .isIn e es, h, hv => by
    simp only [Expr.isRepeatable, Bool.and_eq_true] at h
    simp only [Expr.occurrences, areGiven_append] at hv
    exact (e.meaning_steady h.1 hv.1).isIn (Expr.meanings_steady es h.2 hv.2)
  | .cond c t e, h, hv => by
    simp only [Expr.isRepeatable, Bool.and_eq_true] at h
    simp only [Expr.occurrences, areGiven_append] at hv
    exact .cond (c.meaning_steady h.1.1 hv.1.1) (t.meaning_steady h.1.2 hv.1.2)
      (e.meaning_steady h.2 hv.2)
  | .coalesce es, h, hv => .coalesce (Expr.meanings_steady es h hv)
  | .call f es, h, hv => by
    simp only [Expr.isRepeatable, Bool.and_eq_true] at h
    exact .call (fun _ _ hs => hs) h.1 (Expr.meanings_steady es h.2 hv)
  | .hasMatch pattern, h, hv =>
    .ofTest fun {b _} hb _ _ =>
      hb ▸ Plan.hasMatch_alongside (pattern.plan_steady h hv).inExpression b

theorem Expr.meanings_steady : ∀ es : List Expr,
    Expr.areRepeatable es = true → AreGiven (Expr.occurrencesIn es) →
    ∀ m ∈ Expr.meanings operators es, m.Steady
  | [], _, _ => by simp [Expr.meanings]
  | e :: rest, h, hv => by
    simp only [Expr.areRepeatable, Bool.and_eq_true] at h
    simp only [Expr.occurrencesIn, areGiven_append] at hv
    exact List.forall_mem_cons.mpr ⟨e.meaning_steady h.1 hv.1,
      Expr.meanings_steady rest h.2 hv.2⟩

end

end SparqlAlgebra
