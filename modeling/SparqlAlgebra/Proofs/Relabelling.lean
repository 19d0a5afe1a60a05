import Mathlib.Logic.Equiv.Defs
import SparqlAlgebra.Query.Lowering

/-!
# Patterns with other labels

A blank node of a pattern is an unknown node, and its label is a local name for it. Here a
pattern is given other labels. Services are sent patterns as they are written, so variables
under other names, which stand for blank nodes, come with labels of their own.

* `Pattern.relabel` and `Pattern.occurrences`: other labels, and what is written where a
  pattern has a term or a variable;
* `Pattern.relabel_congr`: the new pattern depends on the new labels of its own blank nodes
  only;
* `labelUnder`: the label of a blank node whose variable has another name.
-/

namespace SparqlAlgebra

namespace Query

/-! ## Other labels -/

/-- The blank node with another label. -/
def relabelBlank (r : String → String) : BlankNode → BlankNode
  | .labelled label => .labelled (r label)
  | .fresh key => .fresh (r key)

/-- The position with another label for its blank node. -/
def relabelPosition (r : String → String) : Position → Position
  | .term (.blank b) => .term (.blank (relabelBlank r b))
  | p => p

/-- The triple with other labels. Predicates are no blank nodes. -/
def relabelTriple (r : String → String) (t : TriplePattern) : TriplePattern :=
  ⟨relabelPosition r t.subject, t.predicate, relabelPosition r t.object⟩

mutual

/-- The pattern with other labels for its blank nodes. -/
def Pattern.relabel (r : String → String) : Pattern → Pattern
  | .bgp patterns => .bgp (patterns.map (relabelTriple r))
  | .path s p o => .path (relabelPosition r s) p (relabelPosition r o)
  | .join left right => .join (left.relabel r) (right.relabel r)
  | .leftJoin left right none => .leftJoin (left.relabel r) (right.relabel r) none
  | .leftJoin left right (some e) =>
    .leftJoin (left.relabel r) (right.relabel r) (some (e.relabel r))
  | .filter inner e => .filter (inner.relabel r) (e.relabel r)
  | .union left right => .union (left.relabel r) (right.relabel r)
  | .graph inner name => .graph (inner.relabel r) name
  | .extend inner v e => .extend (inner.relabel r) v (e.relabel r)
  | .minus left right => .minus (left.relabel r) (right.relabel r)
  | .values vs rows => .values vs rows
  | .orderBy inner keys => .orderBy (inner.relabel r) (OrderKey.relabelAll r keys)
  | .project inner vs => .project (inner.relabel r) vs
  | .distinct inner => .distinct (inner.relabel r)
  | .reduced inner => .reduced (inner.relabel r)
  | .slice inner offset count => .slice (inner.relabel r) offset count
  | .group inner keys columns =>
    .group (inner.relabel r) keys (GroupValue.relabelAll r columns)
  | .service inner name silent => .service (inner.relabel r) name silent

/-- The expression with other labels in its patterns. -/
def Expression.relabel (r : String → String) : Expression → Expression
  | .constant t => .constant t
  | .var v => .var v
  | .bound v => .bound v
  | .unary op e => .unary op (e.relabel r)
  | .binary op left right => .binary op (left.relabel r) (right.relabel r)
  | .isIn e es => .isIn (e.relabel r) (Expression.relabelAll r es)
  | .cond c t e => .cond (c.relabel r) (t.relabel r) (e.relabel r)
  | .coalesce es => .coalesce (Expression.relabelAll r es)
  | .call f es => .call f (Expression.relabelAll r es)
  | .hasMatch pattern => .hasMatch (pattern.relabel r)

def Expression.relabelAll (r : String → String) : List Expression → List Expression
  | [] => []
  | e :: rest => e.relabel r :: Expression.relabelAll r rest

def OrderKey.relabelAll (r : String → String) : List OrderKey → List OrderKey
  | [] => []
  | .sortBy e descending :: rest =>
    .sortBy (e.relabel r) descending :: OrderKey.relabelAll r rest

def GroupValue.relabelAll (r : String → String) : List GroupValue → List GroupValue
  | [] => []
  | .countRows v distinct :: rest => .countRows v distinct :: GroupValue.relabelAll r rest
  | .apply v function e distinct :: rest =>
    .apply v function (e.relabel r) distinct :: GroupValue.relabelAll r rest

end

/-! ## What is written in a pattern -/

/-- The variable of a reference, as a position. -/
def occurrencesOfName : NameRef → List Position
  | .iri _ => []
  | .var v => [.var v]

mutual

/-- What is written where the pattern has a term or a variable. -/
def Pattern.occurrences : Pattern → List Position
  | .bgp patterns => patterns.flatMap TriplePattern.positions
  | .path s _ o => [s, o]
  | .join left right | .leftJoin left right none | .union left right | .minus left right =>
    left.occurrences ++ right.occurrences
  | .leftJoin left right (some e) => left.occurrences ++ (right.occurrences ++ e.occurrences)
  | .filter inner e => inner.occurrences ++ e.occurrences
  | .graph inner name | .service inner name _ => inner.occurrences ++ occurrencesOfName name
  | .extend inner v e => .var v :: (inner.occurrences ++ e.occurrences)
  | .values vs _ => vs.map .var
  | .orderBy inner keys => inner.occurrences ++ OrderKey.occurrencesIn keys
  | .project inner vs => inner.occurrences ++ vs.map .var
  | .distinct inner | .reduced inner | .slice inner _ _ => inner.occurrences
  | .group inner keys columns =>
    inner.occurrences ++ (keys.map .var ++ GroupValue.occurrencesIn columns)

/-- The variables of the expression, and what is written in its patterns. -/
def Expression.occurrences : Expression → List Position
  | .constant _ => []
  | .var v | .bound v => [.var v]
  | .unary _ e => e.occurrences
  | .binary _ left right => left.occurrences ++ right.occurrences
  | .isIn e es => e.occurrences ++ Expression.occurrencesIn es
  | .cond c t e => c.occurrences ++ (t.occurrences ++ e.occurrences)
  | .coalesce es | .call _ es => Expression.occurrencesIn es
  | .hasMatch pattern => pattern.occurrences

def Expression.occurrencesIn : List Expression → List Position
  | [] => []
  | e :: rest => e.occurrences ++ Expression.occurrencesIn rest

def OrderKey.occurrencesIn : List OrderKey → List Position
  | [] => []
  | .sortBy e _ :: rest => e.occurrences ++ OrderKey.occurrencesIn rest

def GroupValue.occurrencesIn : List GroupValue → List Position
  | [] => []
  | .countRows v _ :: rest => .var v :: GroupValue.occurrencesIn rest
  | .apply v _ e _ :: rest => .var v :: (e.occurrences ++ GroupValue.occurrencesIn rest)

end

/-- The label of a blank node. -/
def labelOf? : Position → Option String
  | .term (.blank b) => some b.label
  | _ => none

/-- The labels of the blank nodes of the pattern. -/
def Pattern.labels (pattern : Pattern) : List String :=
  pattern.occurrences.filterMap labelOf?

/-- The variables that are written in the pattern. -/
def Pattern.variables (pattern : Pattern) : List Var := Position.vars pattern.occurrences

/-! ## Equal labels -/

variable {r r' : String → String}

theorem relabelTriples_congr {ts : List TriplePattern}
    (h : ∀ p ∈ ts.flatMap TriplePattern.positions,
      relabelPosition r p = relabelPosition r' p) :
    ts.map (relabelTriple r) = ts.map (relabelTriple r') := by
  refine List.map_congr_left fun t ht => ?_
  have hposition (p : Position) (hp : p ∈ t.positions) :
      relabelPosition r p = relabelPosition r' p := h p (List.mem_flatMap.mpr ⟨t, ht, hp⟩)
  unfold relabelTriple
  rw [hposition t.subject (by simp [TriplePattern.positions]),
    hposition t.object (by simp [TriplePattern.positions])]

mutual

/-- Labels that no blank node of the pattern has do not matter. -/
theorem Pattern.relabel_congr : ∀ pattern : Pattern,
    (∀ p ∈ pattern.occurrences, relabelPosition r p = relabelPosition r' p) →
    pattern.relabel r = pattern.relabel r'
  | .bgp ts, h => congrArg Pattern.bgp (relabelTriples_congr h)
  | .path s p o, h => by
    rw [Pattern.relabel, Pattern.relabel, h s (by simp [Pattern.occurrences]),
      h o (by simp [Pattern.occurrences])]
  | .join left right, h | .union left right, h | .minus left right, h
  | .leftJoin left right none, h => by
    obtain ⟨hl, hr⟩ := List.forall_mem_append.mp h
    rw [Pattern.relabel, Pattern.relabel, left.relabel_congr hl, right.relabel_congr hr]
  | .leftJoin left right (some e), h => by
    obtain ⟨hl, h⟩ := List.forall_mem_append.mp h
    obtain ⟨hr, he⟩ := List.forall_mem_append.mp h
    rw [Pattern.relabel, Pattern.relabel, left.relabel_congr hl, right.relabel_congr hr,
      e.relabel_congr he]
  | .filter inner e, h => by
    obtain ⟨hi, he⟩ := List.forall_mem_append.mp h
    rw [Pattern.relabel, Pattern.relabel, inner.relabel_congr hi, e.relabel_congr he]
  | .extend inner v e, h => by
    obtain ⟨hi, he⟩ := List.forall_mem_append.mp (List.forall_mem_cons.mp h).2
    rw [Pattern.relabel, Pattern.relabel, inner.relabel_congr hi, e.relabel_congr he]
  | .values _ _, _ => rfl
  | .orderBy inner keys, h => by
    obtain ⟨hi, hk⟩ := List.forall_mem_append.mp h
    rw [Pattern.relabel, Pattern.relabel, inner.relabel_congr hi,
      OrderKey.relabelAll_congr keys hk]
  | .graph inner _, h | .service inner _ _, h | .project inner _, h => by
    rw [Pattern.relabel, Pattern.relabel, inner.relabel_congr (List.forall_mem_append.mp h).1]
  | .distinct inner, h | .reduced inner, h | .slice inner _ _, h => by
    rw [Pattern.relabel, Pattern.relabel, inner.relabel_congr h]
  | .group inner keys columns, h => by
    obtain ⟨hi, h⟩ := List.forall_mem_append.mp h
    rw [Pattern.relabel, Pattern.relabel, inner.relabel_congr hi,
      GroupValue.relabelAll_congr columns (List.forall_mem_append.mp h).2]

theorem Expression.relabel_congr : ∀ e : Expression,
    (∀ p ∈ e.occurrences, relabelPosition r p = relabelPosition r' p) →
    e.relabel r = e.relabel r'
  | .constant _, _ | .var _, _ | .bound _, _ => rfl
  | .unary op e, h => congrArg (Expression.unary op) (e.relabel_congr h)
  | .binary op left right, h => by
    obtain ⟨hl, hr⟩ := List.forall_mem_append.mp h
    rw [Expression.relabel, Expression.relabel, left.relabel_congr hl, right.relabel_congr hr]
  | .isIn e es, h => by
    obtain ⟨he, hes⟩ := List.forall_mem_append.mp h
    rw [Expression.relabel, Expression.relabel, e.relabel_congr he,
      Expression.relabelAll_congr es hes]
  | .cond c t e, h => by
    obtain ⟨hc, h⟩ := List.forall_mem_append.mp h
    obtain ⟨ht, he⟩ := List.forall_mem_append.mp h
    rw [Expression.relabel, Expression.relabel, c.relabel_congr hc, t.relabel_congr ht,
      e.relabel_congr he]
  | .coalesce es, h => congrArg Expression.coalesce (Expression.relabelAll_congr es h)
  | .call f es, h => congrArg (Expression.call f) (Expression.relabelAll_congr es h)
  | .hasMatch pattern, h => congrArg Expression.hasMatch (pattern.relabel_congr h)

theorem Expression.relabelAll_congr : ∀ es : List Expression,
    (∀ p ∈ Expression.occurrencesIn es, relabelPosition r p = relabelPosition r' p) →
    Expression.relabelAll r es = Expression.relabelAll r' es
  | [], _ => rfl
  | e :: rest, h => by
    obtain ⟨he, hrest⟩ := List.forall_mem_append.mp h
    rw [Expression.relabelAll, Expression.relabelAll, e.relabel_congr he,
      Expression.relabelAll_congr rest hrest]

theorem OrderKey.relabelAll_congr : ∀ keys : List OrderKey,
    (∀ p ∈ OrderKey.occurrencesIn keys, relabelPosition r p = relabelPosition r' p) →
    OrderKey.relabelAll r keys = OrderKey.relabelAll r' keys
  | [], _ => rfl
  | .sortBy e _ :: rest, h => by
    obtain ⟨he, hrest⟩ := List.forall_mem_append.mp h
    rw [OrderKey.relabelAll, OrderKey.relabelAll, e.relabel_congr he,
      OrderKey.relabelAll_congr rest hrest]

theorem GroupValue.relabelAll_congr : ∀ columns : List GroupValue,
    (∀ p ∈ GroupValue.occurrencesIn columns, relabelPosition r p = relabelPosition r' p) →
    GroupValue.relabelAll r columns = GroupValue.relabelAll r' columns
  | [], _ => rfl
  | .countRows _ _ :: rest, h => by
    rw [GroupValue.relabelAll, GroupValue.relabelAll,
      GroupValue.relabelAll_congr rest (List.forall_mem_cons.mp h).2]
  | .apply _ _ e _ :: rest, h => by
    obtain ⟨he, hrest⟩ := List.forall_mem_append.mp (List.forall_mem_cons.mp h).2
    rw [GroupValue.relabelAll, GroupValue.relabelAll, e.relabel_congr he,
      GroupValue.relabelAll_congr rest hrest]

end

/-! ## Labels under other names -/

theorem blankVar_injective {a b : String}
    (h : blankVar (.labelled a) = blankVar (.labelled b)) : a = b :=
  (String.append_right_inj _).mp (congrArg Var.name h)

/-- The label of a blank node whose variable has another name, which is made of a label
as well. -/
def labelUnder (ρ : Equiv.Perm Var) (label : String) : String :=
  String.ofList ((ρ (blankVar (.labelled label))).name.toList.drop "__bnode_".length)

theorem labelUnder_eq {ρ : Equiv.Perm Var} {a b : String}
    (h : ρ (blankVar (.labelled a)) = blankVar (.labelled b)) : labelUnder ρ a = b := by
  have hlength : ("__bnode_").length = ("__bnode_").toList.length := rfl
  unfold labelUnder
  rw [h, blankVar, BlankNode.label, String.toList_append, hlength, List.drop_left,
    String.ofList_toList]

/-- Different blank nodes have different labels under names that are made of labels. -/
theorem labelUnder_injective {ρ : Equiv.Perm Var}
    (h : ∀ a, ∃ b, ρ (blankVar (.labelled a)) = blankVar (.labelled b)) :
    Function.Injective (labelUnder ρ) := by
  intro a a' heq
  obtain ⟨b, hb⟩ := h a
  obtain ⟨b', hb'⟩ := h a'
  rw [labelUnder_eq hb, labelUnder_eq hb'] at heq
  subst heq
  exact blankVar_injective (ρ.injective (hb.trans hb'.symm))

end Query

end SparqlAlgebra
