import SparqlAlgebra.Proofs.RenamedPatterns

/-!
# Trees under other names

A renaming of variables goes through a whole tree, the patterns of its expressions
included. Both trees do the same up to the names: every operator does, and the only names
that an evaluation tells are those in the errors of a variable that is unbound, or that is
bound when it is assigned.

* `Node.rename` and `Node.vars_rename`: the new tree declares the variables of the old one
  under their other names;
* `Node.KeepsReported`: the variables that errors can name keep their names, and no
  operator is defined elsewhere;
* `Node.plan_parallel` and `Expr.meaning_parallel` by induction over the tree.
-/

namespace SparqlAlgebra

open List (Forall₂)

variable {ρ : Equiv.Perm Var}

/-! ## Renamed trees -/

mutual

/-- The tree with other names for its variables. Services are sent patterns with the labels
that go with these. -/
def Node.rename (ρ : Equiv.Perm Var) : Node → Node
  | .bgp elements => .bgp (Element.renameAll ρ elements)
  | .join l r => .join (l.rename ρ) (r.rename ρ)
  | .leftJoin l r none => .leftJoin (l.rename ρ) (r.rename ρ) none
  | .leftJoin l r (some e) => .leftJoin (l.rename ρ) (r.rename ρ) (some (e.rename ρ))
  | .union l r => .union (l.rename ρ) (r.rename ρ)
  | .minus l r => .minus (l.rename ρ) (r.rename ρ)
  | .existsJoin l r negated => .existsJoin (l.rename ρ) (r.rename ρ) negated
  | .filter inner e => .filter (inner.rename ρ) (e.rename ρ)
  | .extend inner v e => .extend (inner.rename ρ) (ρ v) (e.rename ρ)
  | .group inner keys columns =>
    .group (inner.rename ρ) (keys.map ρ) (GroupValue.renameAll ρ columns)
  | .having inner e => .having (inner.rename ρ) (e.rename ρ)
  | .orderBy inner keys => .orderBy (inner.rename ρ) (OrderKey.renameAll ρ keys)
  | .distinct inner => .distinct (inner.rename ρ)
  | .reduced inner => .reduced (inner.rename ρ)
  | .project inner vs => .project (inner.rename ρ) (vs.map ρ)
  | .slice inner offset count => .slice (inner.rename ρ) offset count
  | .graph inner name => .graph (inner.rename ρ) (name.rename ρ)
  | .service name vs silent pattern =>
    .service (name.rename ρ) (vs.map ρ) silent (pattern.relabel (Query.labelUnder ρ))
  | .ask inner => .ask (inner.rename ρ)
  | .values vs rows => .values (vs.map ρ) rows
  | .pathSearch s search o => .pathSearch (s.rename ρ) search (o.rename ρ)
  | .limit inner count => .limit (inner.rename ρ) count
  | .custom name vs children => .custom name (vs.map ρ) (Node.renameAll ρ children)

def Node.renameAll (ρ : Equiv.Perm Var) : List Node → List Node
  | [] => []
  | n :: rest => n.rename ρ :: Node.renameAll ρ rest

def Element.renameAll (ρ : Equiv.Perm Var) : List Element → List Element
  | [] => []
  | .triple pattern :: rest => .triple (pattern.rename ρ) :: Element.renameAll ρ rest
  | .path s path o :: rest =>
    .path (s.rename ρ) path (o.rename ρ) :: Element.renameAll ρ rest
  | .assign v e :: rest => .assign (ρ v) (e.rename ρ) :: Element.renameAll ρ rest
  | .subQuery query :: rest => .subQuery (query.rename ρ) :: Element.renameAll ρ rest
  | .filter e :: rest => .filter (e.rename ρ) :: Element.renameAll ρ rest

def GroupValue.renameAll (ρ : Equiv.Perm Var) : List GroupValue → List GroupValue
  | [] => []
  | .countRows v distinct :: rest => .countRows (ρ v) distinct :: GroupValue.renameAll ρ rest
  | .apply v function e distinct :: rest =>
    .apply (ρ v) function (e.rename ρ) distinct :: GroupValue.renameAll ρ rest

def OrderKey.renameAll (ρ : Equiv.Perm Var) : List OrderKey → List OrderKey
  | [] => []
  | .sortBy e descending :: rest =>
    .sortBy (e.rename ρ) descending :: OrderKey.renameAll ρ rest

/-- The expression with other names for its variables. -/
def Expr.rename (ρ : Equiv.Perm Var) : Expr → Expr
  | .constant t => .constant t
  | .var v => .var (ρ v)
  | .bound v => .bound (ρ v)
  | .unary op e => .unary op (e.rename ρ)
  | .binary op l r => .binary op (l.rename ρ) (r.rename ρ)
  | .isIn e es => .isIn (e.rename ρ) (Expr.renameAll ρ es)
  | .cond c t e => .cond (c.rename ρ) (t.rename ρ) (e.rename ρ)
  | .coalesce es => .coalesce (Expr.renameAll ρ es)
  | .call f es => .call f (Expr.renameAll ρ es)
  | .hasMatch pattern => .hasMatch (pattern.rename ρ)

def Expr.renameAll (ρ : Equiv.Perm Var) : List Expr → List Expr
  | [] => []
  | e :: rest => e.rename ρ :: Expr.renameAll ρ rest

end

/-! ## Variables of renamed trees -/

theorem mergeVariables_map (vs ws : List Var) :
    mergeVariables (vs.map ρ) (ws.map ρ) = (mergeVariables vs ws).map ρ := by
  unfold mergeVariables
  rw [Relation.dedup_map ρ fun _ _ _ _ h => ρ.injective h, List.map_append, List.filter_map]
  congr 2
  refine List.filter_congr fun v _ => ?_
  simp only [Function.comp_apply, List.contains_eq_mem, List.mem_map_of_injective ρ.injective]

theorem GroupValue.targets_rename (columns : List GroupValue) :
    (GroupValue.renameAll ρ columns).map GroupValue.target =
      (columns.map GroupValue.target).map ρ := by
  induction columns with
  | nil => rfl
  | cons column rest ih => cases column <;> exact congrArg (_ :: ·) ih

mutual

theorem Node.vars_rename : ∀ n : Node, (n.rename ρ).vars = n.vars.map ρ
  | .bgp elements => by
    simp only [Node.rename, Node.vars]
    rw [Element.boundByAll_rename elements, Relation.dedup_map ρ fun _ _ _ _ h => ρ.injective h]
  | .join l r | .leftJoin l r none | .leftJoin l r (some _) | .union l r => by
    simp only [Node.rename, Node.vars, l.vars_rename, r.vars_rename, mergeVariables_map]
  | .minus l _ | .existsJoin l _ _ => by simp only [Node.rename, Node.vars, l.vars_rename]
  | .filter inner _ | .having inner _ | .orderBy inner _ | .distinct inner | .reduced inner
  | .slice inner _ _ | .limit inner _ | .graph inner (.iri _) => by
    simp only [Node.rename, NameRef.rename, Node.vars, inner.vars_rename]
  | .extend inner v _ | .graph inner (.var v) => by
    simp only [Node.rename, NameRef.rename, Node.vars, inner.vars_rename]
    exact mergeVariables_map inner.vars [v]
  | .group _ keys columns => by
    simp only [Node.rename, Node.vars, GroupValue.targets_rename, List.map_append]
  | .project _ _ | .values _ _ | .service _ _ _ _ | .custom _ _ _ | .ask _ => by
    simp only [Node.rename, Node.vars, List.map_nil]
  | .pathSearch s _ o => by
    simp only [Node.rename, Node.vars]
    exact Position.vars_rename ρ [s, o]

theorem Element.boundByAll_rename : ∀ elements : List Element,
    Element.boundByAll (Element.renameAll ρ elements) = (Element.boundByAll elements).map ρ
  | [] => rfl
  | .triple pattern :: rest => by
    simp only [Element.renameAll, Element.boundByAll, Element.boundVariables, List.map_append,
      pattern.vars_rename, Element.boundByAll_rename rest]
  | .path s _ o :: rest => by
    simp only [Element.renameAll, Element.boundByAll, Element.boundVariables, List.map_append,
      Element.boundByAll_rename rest]
    exact congrArg (· ++ _) (Position.vars_rename ρ [s, o])
  | .assign _ _ :: rest | .filter _ :: rest => by
    simp only [Element.renameAll, Element.boundByAll, Element.boundVariables, List.map_append,
      List.map_cons, List.map_nil, Element.boundByAll_rename rest]
  | .subQuery query :: rest => by
    simp only [Element.renameAll, Element.boundByAll, Element.boundVariables, List.map_append,
      query.vars_rename, Element.boundByAll_rename rest]

end

mutual

theorem Expr.occurrences_rename : ∀ e : Expr, (e.rename ρ).occurrences = e.occurrences.map ρ
  | .constant _ | .var _ | .bound _ => rfl
  | .unary _ e => e.occurrences_rename
  | .binary _ l r => by
    simp only [Expr.rename, Expr.occurrences, List.map_append, l.occurrences_rename,
      r.occurrences_rename]
  | .isIn e es => by
    simp only [Expr.rename, Expr.occurrences, List.map_append, e.occurrences_rename,
      Expr.occurrencesIn_rename es]
  | .cond c t e => by
    simp only [Expr.rename, Expr.occurrences, List.map_append, c.occurrences_rename,
      t.occurrences_rename, e.occurrences_rename]
  | .coalesce es | .call _ es => Expr.occurrencesIn_rename es
  | .hasMatch pattern => pattern.occurrences_rename

theorem Expr.occurrencesIn_rename : ∀ es : List Expr,
    Expr.occurrencesIn (Expr.renameAll ρ es) = (Expr.occurrencesIn es).map ρ
  | [] => rfl
  | e :: rest => by
    simp only [Expr.renameAll, Expr.occurrencesIn, List.map_append, e.occurrences_rename,
      Expr.occurrencesIn_rename rest]

theorem GroupValue.occurrencesIn_rename : ∀ columns : List GroupValue,
    GroupValue.occurrencesIn (GroupValue.renameAll ρ columns) =
      (GroupValue.occurrencesIn columns).map ρ
  | [] => rfl
  | .countRows _ _ :: rest => by
    simp only [GroupValue.renameAll, GroupValue.occurrencesIn, List.map_cons,
      GroupValue.occurrencesIn_rename rest]
  | .apply _ _ e _ :: rest => by
    simp only [GroupValue.renameAll, GroupValue.occurrencesIn, List.map_append, List.map_cons,
      e.occurrences_rename, GroupValue.occurrencesIn_rename rest]

theorem OrderKey.occurrencesIn_rename : ∀ keys : List OrderKey,
    OrderKey.occurrencesIn (OrderKey.renameAll ρ keys) = (OrderKey.occurrencesIn keys).map ρ
  | [] => rfl
  | .sortBy e _ :: rest => by
    simp only [OrderKey.renameAll, OrderKey.occurrencesIn, List.map_append,
      e.occurrences_rename, OrderKey.occurrencesIn_rename rest]

theorem Element.occurrencesIn_rename : ∀ elements : List Element,
    Element.occurrencesIn (Element.renameAll ρ elements) =
      (Element.occurrencesIn elements).map ρ
  | [] => rfl
  | .triple pattern :: rest => by
    simp only [Element.renameAll, Element.occurrencesIn, List.map_append, pattern.vars_rename,
      Element.occurrencesIn_rename rest]
  | .path s _ o :: rest => by
    simp only [Element.renameAll, Element.occurrencesIn, List.map_append,
      Element.occurrencesIn_rename rest]
    exact congrArg (· ++ _) (Position.vars_rename ρ [s, o])
  | .assign _ e :: rest => by
    simp only [Element.renameAll, Element.occurrencesIn, List.map_append, List.map_cons,
      e.occurrences_rename, Element.occurrencesIn_rename rest]
  | .subQuery query :: rest => by
    simp only [Element.renameAll, Element.occurrencesIn, List.map_append,
      query.occurrences_rename, Element.occurrencesIn_rename rest]
  | .filter e :: rest => by
    simp only [Element.renameAll, Element.occurrencesIn, List.map_append,
      e.occurrences_rename, Element.occurrencesIn_rename rest]

/-- The new tree mentions the variables of the old one, in the same order. -/
theorem Node.occurrences_rename : ∀ n : Node, (n.rename ρ).occurrences = n.occurrences.map ρ
  | .bgp elements => Element.occurrencesIn_rename elements
  | .leftJoin l r (some e) => by
    simp only [Node.rename, Node.occurrences, Node.vars, List.map_append, l.occurrences_rename,
      r.occurrences_rename, e.occurrences_rename, l.vars_rename, r.vars_rename,
      mergeVariables_map]
  | .join l r | .leftJoin l r none | .union l r | .minus l r | .existsJoin l r _ => by
    simp only [Node.rename, Node.occurrences, Node.vars, List.map_append, l.occurrences_rename,
      r.occurrences_rename, l.vars_rename, r.vars_rename, mergeVariables_map]
  | .filter inner e | .having inner e => by
    simp only [Node.rename, Node.occurrences, Node.vars, List.map_append,
      inner.occurrences_rename, e.occurrences_rename, inner.vars_rename]
  | .extend inner _ e => by
    simp only [Node.rename, Node.occurrences, Node.vars, List.map_append,
      inner.occurrences_rename, e.occurrences_rename, inner.vars_rename,
      ← mergeVariables_map, List.map_cons, List.map_nil]
  | .group inner _ columns => by
    simp only [Node.rename, Node.occurrences, List.map_append, inner.occurrences_rename,
      GroupValue.occurrencesIn_rename columns]
  | .orderBy inner keys => by
    simp only [Node.rename, Node.occurrences, Node.vars, List.map_append,
      inner.occurrences_rename, OrderKey.occurrencesIn_rename keys, inner.vars_rename]
  | .distinct inner | .reduced inner | .project inner _ | .slice inner _ _ | .ask inner
  | .limit inner _ | .graph inner (.iri _) | .graph inner (.var _) => by
    simp only [Node.rename, NameRef.rename, Node.occurrences, Node.vars, List.map_append,
      inner.occurrences_rename, inner.vars_rename, ← mergeVariables_map, List.map_cons,
      List.map_nil]
  | .service name vs silent pattern => (Node.service name vs silent pattern).vars_rename
  | .values vs rows => (Node.values vs rows).vars_rename
  | .pathSearch s search o => (Node.pathSearch s search o).vars_rename
  | .custom _ _ children => by
    simp only [Node.rename, Node.occurrences, List.map_append,
      Node.occurrencesIn_rename children]

theorem Node.occurrencesIn_rename : ∀ ns : List Node,
    Node.occurrencesIn (Node.renameAll ρ ns) = (Node.occurrencesIn ns).map ρ
  | [] => rfl
  | n :: rest => by
    simp only [Node.renameAll, Node.occurrencesIn, List.map_append, n.occurrences_rename,
      Node.occurrencesIn_rename rest]

end

theorem Expr.vars_rename (e : Expr) : (e.rename ρ).vars = e.vars.map ρ := by
  unfold Expr.vars
  rw [e.occurrences_rename, Relation.dedup_map ρ fun _ _ _ _ h => ρ.injective h]

theorem Node.sameVars_rename (n : Node) : SameVars ρ n.vars (n.rename ρ).vars :=
  n.vars_rename ▸ .map n.vars

/-! ## Names in errors -/

mutual

/-- The variables that errors can name keep their names: those that are assigned, and those
that expressions look up. No operator is defined elsewhere. -/
def Node.KeepsReported (ρ : Equiv.Perm Var) : Node → Prop
  | .bgp elements => Element.KeepReported ρ elements
  | .leftJoin l r (some e) => l.KeepsReported ρ ∧ r.KeepsReported ρ ∧ e.KeepsReported ρ
  | .join l r | .leftJoin l r none | .union l r | .minus l r | .existsJoin l r _ =>
    l.KeepsReported ρ ∧ r.KeepsReported ρ
  | .filter inner e | .having inner e => inner.KeepsReported ρ ∧ e.KeepsReported ρ
  | .extend inner v e => inner.KeepsReported ρ ∧ ρ v = v ∧ e.KeepsReported ρ
  | .group inner _ columns => inner.KeepsReported ρ ∧ GroupValue.KeepReported ρ columns
  | .orderBy inner keys => inner.KeepsReported ρ ∧ OrderKey.KeepReported ρ keys
  | .distinct inner | .reduced inner | .project inner _ | .slice inner _ _ | .graph inner _
  | .ask inner | .limit inner _ => inner.KeepsReported ρ
  | .service _ _ _ _ | .values _ _ | .pathSearch _ _ _ => True
  | .custom _ _ _ => False

def Element.KeepReported (ρ : Equiv.Perm Var) : List Element → Prop
  | [] => True
  | .triple _ :: rest | .path _ _ _ :: rest => Element.KeepReported ρ rest
  | .assign v e :: rest => (ρ v = v ∧ e.KeepsReported ρ) ∧ Element.KeepReported ρ rest
  | .subQuery query :: rest => query.KeepsReported ρ ∧ Element.KeepReported ρ rest
  | .filter e :: rest => e.KeepsReported ρ ∧ Element.KeepReported ρ rest

def GroupValue.KeepReported (ρ : Equiv.Perm Var) : List GroupValue → Prop
  | [] => True
  | .countRows _ _ :: rest => GroupValue.KeepReported ρ rest
  | .apply _ _ e _ :: rest => e.KeepsReported ρ ∧ GroupValue.KeepReported ρ rest

def OrderKey.KeepReported (ρ : Equiv.Perm Var) : List OrderKey → Prop
  | [] => True
  | .sortBy e _ :: rest => e.KeepsReported ρ ∧ OrderKey.KeepReported ρ rest

/-- The variables that the expression looks up, or its patterns, keep their names. -/
def Expr.KeepsReported (ρ : Equiv.Perm Var) : Expr → Prop
  | .constant _ | .bound _ => True
  | .var v => ρ v = v
  | .unary _ e => e.KeepsReported ρ
  | .binary _ l r => l.KeepsReported ρ ∧ r.KeepsReported ρ
  | .isIn e es => e.KeepsReported ρ ∧ Expr.KeepReported ρ es
  | .cond c t e => c.KeepsReported ρ ∧ t.KeepsReported ρ ∧ e.KeepsReported ρ
  | .coalesce es | .call _ es => Expr.KeepReported ρ es
  | .hasMatch pattern => pattern.KeepsReported ρ

def Expr.KeepReported (ρ : Equiv.Perm Var) : List Expr → Prop
  | [] => True
  | e :: rest => e.KeepsReported ρ ∧ Expr.KeepReported ρ rest

end

/-! ## Evaluation -/

theorem Expr.assignment_parallel (e : Expr) {m m' : Meaning} (h : m.Parallel ρ m') :
    Eval.ParallelOn ρ (e.assignment m) ((e.rename ρ).assignment m') := by
  have hstrict : Eval.ParallelOn ρ (Assignment.strict m) (Assignment.strict m') :=
    fun c c' hc b => Eval.Parallel.newSolutionId.bind_same fun i =>
      (h.value i c c' hc b).bind_same fun _ => .pure rfl
  cases e with
  | var v =>
    exact fun c c' _ b => Eval.Parallel.newSolutionId.bind_same fun _ =>
      .pure (Binding.get?_rename_apply ρ b v).symm
  | _ => exact hstrict

variable {operators : OperatorRegistry}

mutual

/-- A tree does under other names what it does, up to these names. -/
theorem Node.plan_parallel (hρ : Var.KeepsMade ρ) : ∀ n : Node, n.KeepsReported ρ →
    (n.plan operators).Parallel ρ ((n.rename ρ).plan operators)
  | .bgp elements, h => (Plan.bgp_parallel (Element.steps_parallel hρ elements 0 h)
      (Node.bgp elements).sameVars_rename).observed _
  | .join l r, ⟨hl, hr⟩ =>
    (((l.plan_parallel hρ hl).input 0).join ((r.plan_parallel hρ hr).input 1)).observed _
  | .leftJoin l r none, ⟨hl, hr⟩ =>
    (((l.plan_parallel hρ hl).input 0).leftJoin ((r.plan_parallel hρ hr).input 1)
      fun _ _ _ _ => .pure rfl).observed _
  | .leftJoin l r (some e), ⟨hl, hr, he⟩ =>
    (((l.plan_parallel hρ hl).input 0).leftJoin ((r.plan_parallel hρ hr).input 1)
      (e.meaning_parallel hρ he).holds).observed _
  | .union l r, ⟨hl, hr⟩ => by
    have hunion := ((l.plan_parallel hρ hl).input 0).union ((r.plan_parallel hρ hr).input 1)
      r.vars
    rw [← r.vars_rename] at hunion
    exact hunion.observed _
  | .minus l r, ⟨hl, hr⟩ =>
    (((l.plan_parallel hρ hl).input 0).minus ((r.plan_parallel hρ hr).input 1)).observed _
  | .existsJoin l r negated, ⟨hl, hr⟩ => by
    have hjoin := ((l.plan_parallel hρ hl).input 0).existsJoin
      ((r.plan_parallel hρ hr).input 1) negated
    cases negated <;> exact hjoin.observed _
  | .filter inner e, ⟨hi, he⟩ | .having inner e, ⟨hi, he⟩ =>
    (((inner.plan_parallel hρ hi).input 0).filter (e.meaning_parallel hρ he).holds).observed _
  | .extend inner v e, ⟨hi, hv, he⟩ =>
    (((inner.plan_parallel hρ hi).input 0).extend hv
      (e.assignment_parallel (e.meaning_parallel hρ he))).observed _
  | .group inner keys columns, ⟨hi, hc⟩ =>
    (((inner.plan_parallel hρ hi).input 0).group keys
      (GroupValue.columns_parallel hρ columns hc)).observed _
  | .orderBy inner keys, ⟨hi, hk⟩ =>
    (((inner.plan_parallel hρ hi).input 0).orderBy
      (OrderKey.sortKeys_parallel hρ keys hk)).observed _
  | .distinct inner, h => ((inner.plan_parallel hρ h).input 0).distinct.observed _
  | .reduced inner, h => ((inner.plan_parallel hρ h).input 0).observed _
  | .project inner vs, h => (((inner.plan_parallel hρ h).input 0).project vs).observed _
  | .slice inner offset count, h =>
    (((inner.plan_parallel hρ h).input 0).slice offset count).observed _
  | .graph inner name, h => by
    have hgraph := ((inner.plan_parallel hρ h).input 0).graph name inner.vars
    rw [← inner.vars_rename] at hgraph
    exact hgraph.observed _
  | .ask inner, h => ((inner.plan_parallel hρ h).input 0).ask.observed _
  | .limit inner count, h => (((inner.plan_parallel hρ h).input 0).limit count).observed _
  | .service name vs silent pattern, _ => (Plan.service_parallel name vs silent pattern).observed _
  | .values vs rows, _ => (Plan.values_parallel vs rows).observed _
  | .pathSearch s search o, _ => by
    have hsearch := Plan.pathSearch_parallel hρ s search o
    cases search <;> exact hsearch.observed _
  | .custom _ _ _, h => h.elim

theorem Element.steps_parallel (hρ : Var.KeepsMade ρ) : ∀ (elements : List Element) (i : Nat),
    Element.KeepReported ρ elements →
    Forall₂ (Step.Parallel ρ) (Element.steps operators i elements)
      (Element.steps operators i (Element.renameAll ρ elements))
  | [], _, _ => .nil
  | .triple pattern :: rest, i, h =>
    .cons (.extend fun _ _ hc => Step.matchTriple_parallel hc pattern)
      (Element.steps_parallel hρ rest i h)
  | .path s path o :: rest, i, h =>
    .cons (.extend fun _ _ hc => Step.matchPath_parallel hρ hc s path o)
      (Element.steps_parallel hρ rest i h)
  | .assign _ e :: rest, i, ⟨⟨hv, he⟩, h⟩ =>
    .cons (.assign hv (e.assignment_parallel (e.meaning_parallel hρ he)))
      (Element.steps_parallel hρ rest i h)
  | .subQuery query :: rest, i, ⟨hq, h⟩ =>
    .cons (.subQuery i ((query.plan_parallel hρ hq).input i))
      (Element.steps_parallel hρ rest (i + 1) h)
  | .filter e :: rest, i, ⟨he, h⟩ =>
    .cons (.filter (e.meaning_parallel hρ he).holds) (Element.steps_parallel hρ rest i h)

theorem GroupValue.columns_parallel (hρ : Var.KeepsMade ρ) : ∀ values : List GroupValue,
    GroupValue.KeepReported ρ values →
    Forall₂ (Column.ParallelAt ρ) (GroupValue.columns operators values)
      (GroupValue.columns operators (GroupValue.renameAll ρ values))
  | [], _ => .nil
  | .countRows _ distinct :: rest, h =>
    .cons ⟨rfl, .countRows distinct⟩ (GroupValue.columns_parallel hρ rest h)
  | .apply _ function e distinct :: rest, ⟨he, h⟩ =>
    .cons ⟨rfl, .apply function (e.meaning_parallel hρ he) distinct⟩
      (GroupValue.columns_parallel hρ rest h)

theorem OrderKey.sortKeys_parallel (hρ : Var.KeepsMade ρ) : ∀ keys : List OrderKey,
    OrderKey.KeepReported ρ keys →
    Forall₂ (SortKey.Parallel ρ) (OrderKey.sortKeys operators keys)
      (OrderKey.sortKeys operators (OrderKey.renameAll ρ keys))
  | [], _ => .nil
  | .sortBy e _ :: rest, ⟨he, h⟩ =>
    .cons ⟨e.meaning_parallel hρ he, rfl⟩ (OrderKey.sortKeys_parallel hρ rest h)

/-- An expression has the same value for a row under other names. -/
theorem Expr.meaning_parallel (hρ : Var.KeepsMade ρ) : ∀ e : Expr, e.KeepsReported ρ →
    (e.meaning operators).Parallel ρ ((e.rename ρ).meaning operators)
  | .constant t, _ => .constant t
  | .var _, h => .var h
  | .bound v, _ => .bound v
  | .unary op e, h => op.parallel (e.meaning_parallel hρ h)
  | .binary op l r, ⟨hl, hr⟩ =>
    op.parallel (l.meaning_parallel hρ hl) (r.meaning_parallel hρ hr)
  | .isIn e es, ⟨he, hes⟩ =>
    (e.meaning_parallel hρ he).isIn (Expr.meanings_parallel hρ es hes)
  | .cond c t e, ⟨hc, ht, he⟩ =>
    .cond (c.meaning_parallel hρ hc) (t.meaning_parallel hρ ht) (e.meaning_parallel hρ he)
  | .coalesce es, h => .coalesce (Expr.meanings_parallel hρ es h)
  | .call f es, h => .call f (Expr.meanings_parallel hρ es h)
  | .hasMatch pattern, h =>
    .ofTest fun _ c c' hc b => (pattern.plan_parallel hρ h).inExpression.hasMatch c c' hc b

theorem Expr.meanings_parallel (hρ : Var.KeepsMade ρ) : ∀ es : List Expr,
    Expr.KeepReported ρ es → Forall₂ (Meaning.Parallel ρ) (Expr.meanings operators es)
      (Expr.meanings operators (Expr.renameAll ρ es))
  | [], _ => .nil
  | e :: rest, ⟨he, h⟩ =>
    .cons (e.meaning_parallel hρ he) (Expr.meanings_parallel hρ rest h)

end

/-- A projection to variables that keep their names has the same solutions for both trees. -/
theorem Node.project_parallel (hρ : Var.KeepsMade ρ) {n : Node} (h : n.KeepsReported ρ)
    {vs : List Var} (hvs : ∀ v ∈ vs, ρ v = v) {c : Context} (hseed : c.seed = none)
    (hc : c.ServedBy ρ c) (demand : Demand) :
    Eval.Parallel Eq c c ((Node.project n vs).plan operators demand)
      ((Node.project (n.rename ρ) vs).plan operators demand) := by
  refine Plan.observed_parallel hc.toSameData ?_ _
  set d : Context := { c with depth := c.depth + 1 }
  have hdseed : d.seed = none := hseed
  have hd : d.RenamedBy ρ d :=
    ⟨⟨.refl d, hc.answers, hc.labels⟩, by rw [hdseed, Option.map_none]⟩
  have hplan : (n.plan operators).Parallel ρ ((n.rename ρ).plan operators) :=
    n.plan_parallel hρ h
  have hinner := (hplan.input 0).mapSeed (·.project vs) (·.project (vs.map ρ))
    (fun b => (Binding.rename_project ρ b vs).symm) d d hd demand
  -- the names in the solutions may differ, those of the variables projected to do not
  rw [map_eq_self hvs] at hinner
  refine hinner.bind fun s s' hs => ?_
  rw [hs.project_eq hvs]
  -- both runs join the same solutions with the seed, which is the same
  intro p p' hp
  rw [Eval.act_eval, Plan.runFrom_joinSeed, Plan.runFrom_joinSeed]
  exact .ok rfl hp

end SparqlAlgebra
