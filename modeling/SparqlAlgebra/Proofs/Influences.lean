import SparqlAlgebra.Proofs.PairedPatterns

/-!
# What influences an expression

A match of a pattern is looked for from the current solution, all of it. It still depends
on some variables only: those of the expression, patterns included, and those that name
the services in its patterns.

* `Node.seedUse` is what the rows of a tree have of the values of a seed that the tree
  does not mention;
* `Node.plan_mirrors`: from two seeds that agree on the variables, a tree has paired
  solutions. So a match is found from both of them or from none, and the value of an
  expression is the same (`Expr.runs_eq_of_agreeOn`);
* `Expr.vars_miss_influences`: neither the names of services nor the condition on duplicates
  can be left out.
-/

namespace SparqlAlgebra

open Eval
open Var (AreGiven)

/-! ## Variables of trees -/

theorem GroupValue.map_target_subset_occurrencesIn (values : List GroupValue) :
    values.map target ⊆ occurrencesIn values := by
  induction values with
  | nil => exact List.Subset.refl _
  | cons value rest ih =>
    cases value with
    | countRows v distinct => exact List.cons_subset_cons v ih
    | apply v function e distinct =>
      exact List.cons_subset_cons v (List.subset_append_of_subset_right _ ih)

mutual

/-- What the solutions of a tree may bind is mentioned in it. -/
theorem Node.vars_subset_occurrences : ∀ n : Node, n.vars ⊆ n.occurrences
  | .bgp es => fun _ hv => Element.boundByAll_subset_occurrencesIn es (mem_dedup.mp hv)
  | .group inner keys columns => by
    rw [Node.vars, Node.occurrences, List.append_assoc]
    refine List.subset_append_of_subset_right _ (List.append_subset.mpr ⟨?_, ?_⟩)
    · exact List.subset_append_left _ _
    · exact List.subset_append_of_subset_right _
        (GroupValue.map_target_subset_occurrencesIn columns)
  | .leftJoin _ _ none | .leftJoin _ _ (some _) | .join _ _ | .union _ _ | .minus _ _
  | .existsJoin _ _ _ | .filter _ _ | .having _ _ | .extend _ _ _ | .orderBy _ _ | .distinct _
  | .reduced _ | .project _ _ | .slice _ _ _ | .graph _ _ | .ask _ | .limit _ _ =>
    List.subset_append_right _ _
  | .service _ _ _ _ | .values _ _ | .pathSearch _ _ _ => List.Subset.refl _
  | .custom _ _ _ => List.subset_append_left _ _

theorem Element.boundByAll_subset_occurrencesIn :
    ∀ es : List Element, Element.boundByAll es ⊆ Element.occurrencesIn es
  | [] => List.Subset.refl _
  | .triple _ :: rest | .path _ _ _ :: rest => List.append_subset.mpr
    ⟨List.subset_append_left _ _, List.subset_append_of_subset_right _
      (Element.boundByAll_subset_occurrencesIn rest)⟩
  | .assign v _ :: rest => List.cons_subset_cons v (List.subset_append_of_subset_right _
    (Element.boundByAll_subset_occurrencesIn rest))
  | .subQuery query :: rest => List.append_subset.mpr
    ⟨List.subset_append_of_subset_left _ query.vars_subset_occurrences,
      List.subset_append_of_subset_right _ (Element.boundByAll_subset_occurrencesIn rest)⟩
  | .filter _ :: rest =>
    List.subset_append_of_subset_right _ (Element.boundByAll_subset_occurrencesIn rest)

end

/-! ## Seeds in rows -/

/-- Whether the rows of a tree have the values of the seed that are beyond the tree. -/
def Node.seedUse : Node → SeedUse
  | .bgp _ | .project _ _ | .service _ _ _ _ | .values _ _ | .pathSearch _ _ _ => .carried
  | .group _ _ _ | .ask _ | .custom _ _ _ => .dropped
  | .join l r => l.seedUse.merge r.seedUse
  | .leftJoin l r _ => l.seedUse.either (l.seedUse.merge r.seedUse)
  | .union l r => l.seedUse.either r.seedUse
  | .minus inner _ | .existsJoin inner _ _ | .filter inner _ | .having inner _
  | .extend inner _ _ | .orderBy inner _ | .distinct inner | .reduced inner
  | .slice inner _ _ | .graph inner _ | .limit inner _ => inner.seedUse

mutual

/-- Whether duplicates are told apart in the same way from all seeds: only rows of one kind
are compared. Inputs that do not start from the seed may compare any rows. -/
def Node.distinctsAlike : Node → Bool
  | .bgp elements => Element.distinctAlike elements
  | .join l r | .leftJoin l r none | .union l r | .existsJoin l r _ =>
    l.distinctsAlike && r.distinctsAlike
  | .leftJoin l r (some e) => l.distinctsAlike && r.distinctsAlike && e.distinctsAlike
  | .filter inner e | .extend inner _ e | .having inner e =>
    inner.distinctsAlike && e.distinctsAlike
  | .orderBy inner keys => inner.distinctsAlike && OrderKey.distinctAlike keys
  | .distinct inner => inner.seedUse ≠ .mixed && inner.distinctsAlike
  | .minus inner _ | .reduced inner | .slice inner _ _ | .graph inner _ | .ask inner
  | .limit inner _ => inner.distinctsAlike
  | .group _ _ _ | .project _ _ | .service _ _ _ _ | .values _ _ | .pathSearch _ _ _
  | .custom _ _ _ => true

def Element.distinctAlike : List Element → Bool
  | [] => true
  | .triple _ :: rest | .path _ _ _ :: rest => Element.distinctAlike rest
  | .assign _ e :: rest | .filter e :: rest => e.distinctsAlike && Element.distinctAlike rest
  | .subQuery query :: rest => query.distinctsAlike && Element.distinctAlike rest

def OrderKey.distinctAlike : List OrderKey → Bool
  | [] => true
  | .sortBy e _ :: rest => e.distinctsAlike && OrderKey.distinctAlike rest

def Expr.distinctsAlike : Expr → Bool
  | .constant _ | .var _ | .bound _ => true
  | .unary _ e => e.distinctsAlike
  | .binary _ l r => l.distinctsAlike && r.distinctsAlike
  | .isIn e es => e.distinctsAlike && Expr.distinctAlike es
  | .cond c t e => c.distinctsAlike && t.distinctsAlike && e.distinctsAlike
  | .coalesce es | .call _ es => Expr.distinctAlike es
  | .hasMatch pattern => pattern.distinctsAlike

def Expr.distinctAlike : List Expr → Bool
  | [] => true
  | e :: rest => e.distinctsAlike && Expr.distinctAlike rest

end

/-! ## Trees under two seeds -/

/-- An assignment depends on the variables of its expression. -/
theorem Expr.assignment_respectsIn {C : Context → Context → Prop} {vs : List Var} {m : Meaning}
    (value : Expr) (hvs : value.occurrences ⊆ vs) (h : m.RespectsIn C (Binding.AgreeOn vs)) :
    (value.assignment m).RespectsIn C (Binding.AgreeOn vs) :=
  value.assignment_respects h fun v hv {_ _} hb => hb v (hvs hv)

/-- A service gives a proper answer to the call, and the variable that names it is one
of the given. -/
structure Environment.Serves (e : Environment) (vs : List Var) (call : SentPattern) :
    Prop where
  answers : e.AnswersCall call
  named : ∀ v, call.name = .var v → v ∈ vs

section Trees

variable {operators : OperatorRegistry} {e : Environment} {vs : List Var}

theorem Node.mirrors_of_pairs (he : e.isDryRun = false) {n : Node} {u : SeedUse}
    (h : n.isRepeatable = true) (ha : ∀ call ∈ n.calls, e.Serves vs call)
    (hn : (n.plan operators).Pairs e vs u) : (n.plan operators).Mirrors e vs n.vars u :=
  ⟨hn, n.plan_fits he h fun call hcall => (ha call hcall).answers⟩

/-- Without the seed a tree does the same in both evaluations. -/
theorem Node.plan_unseeded (he : e.isDryRun = false) (hgiven : AreGiven vs) {n : Node}
    (h : n.isRepeatable = true) (hv : n.occurrences ⊆ vs)
    (ha : ∀ call ∈ n.calls, e.Serves vs call) :
    (n.plan operators).Steady ∧ (n.plan operators).Fits e n.vars :=
  ⟨n.plan_steady h (hgiven.of_subset hv),
    n.plan_fits he h fun call hcall => (ha call hcall).answers⟩

mutual

/-- From two seeds that agree on the variables, a tree has paired solutions. -/
theorem Node.plan_mirrors (he : e.isDryRun = false) (hgiven : AreGiven vs) :
    ∀ n : Node, n.isRepeatable = true → n.occurrences ⊆ vs →
      (∀ call ∈ n.calls, e.Serves vs call) → n.distinctsAlike = true →
      (n.plan operators).Mirrors e vs n.vars n.seedUse
  | .bgp es, h, hv, ha, hd => by
    refine Node.mirrors_of_pairs he h ha ?_
    have hqueries := @Element.queries_fit operators e he es h fun call hcall =>
      (ha call hcall).answers
    have hsteps := Element.steps_pair he hgiven es 0 h hv ha hd
    refine (Plan.bgp_pairs he hsteps fun c hc => ?_).observed _
    exact Element.steps_widen (hc ▸ fun query hquery => (hqueries query hquery).bindsOnly)
      fun _ hv => mem_dedup.mpr hv
  | .join l r, h, hv, ha, hd => by
    refine Node.mirrors_of_pairs he h ha ?_
    simp only [Node.isRepeatable, Node.occurrences, Node.calls, Node.distinctsAlike,
      Bool.and_eq_true, List.append_subset, List.forall_mem_append] at h hv ha hd
    have hl := (l.plan_mirrors he hgiven h.1 hv.1.1 ha.1 hd.1).input 0
    have hr := (r.plan_mirrors he hgiven h.2 hv.1.2 ha.2 hd.2).input 1
    exact (hl.join hr).observed _
  | .leftJoin l r none, h, hv, ha, hd => by
    refine Node.mirrors_of_pairs he h ha ?_
    simp only [Node.isRepeatable, Node.occurrences, Node.calls, Node.distinctsAlike,
      Bool.and_eq_true, List.append_subset, List.forall_mem_append] at h hv ha hd
    have hl := (l.plan_mirrors he hgiven h.1 hv.1.1 ha.1 hd.1).input 0
    have hr := (r.plan_mirrors he hgiven h.2 hv.1.2 ha.2 hd.2).input 1
    exact (hl.leftJoin hr fun _ => .pure true).observed _
  | .leftJoin l r (some test), h, hv, ha, hd => by
    refine Node.mirrors_of_pairs he h ha ?_
    simp only [Node.isRepeatable, Node.occurrences, Node.calls, Node.distinctsAlike,
      Bool.and_eq_true, List.append_subset, List.forall_mem_append] at h hv ha hd
    have hl := (l.plan_mirrors he hgiven h.1.1 hv.1.1.1 ha.1.1 hd.1.1).input 0
    have hr := (r.plan_mirrors he hgiven h.1.2 hv.1.1.2 ha.1.2 hd.1.2).input 1
    have htest := test.meaning_respectsIn he hgiven h.2 hv.1.2 ha.2 hd.2
    exact (hl.leftJoin hr htest.holds).observed _
  | .union l r, h, hv, ha, hd => by
    refine Node.mirrors_of_pairs he h ha ?_
    simp only [Node.isRepeatable, Node.occurrences, Node.calls, Node.distinctsAlike,
      Bool.and_eq_true, List.append_subset, List.forall_mem_append] at h hv ha hd
    have hl := (l.plan_mirrors he hgiven h.1 hv.1.1 ha.1 hd.1).input 0
    have hr := (r.plan_mirrors he hgiven h.2 hv.1.2 ha.2 hd.2).input 1
    exact (hl.union hr).observed _
  | .minus l r, h, hv, ha, hd => by
    refine Node.mirrors_of_pairs he h ha ?_
    simp only [Node.isRepeatable, Node.occurrences, Node.calls, Node.distinctsAlike,
      Bool.and_eq_true, List.append_subset, List.forall_mem_append] at h hv ha hd
    have hl := (l.plan_mirrors he hgiven h.1 hv.1.1 ha.1 hd).input 0
    -- the right side is evaluated without the seed
    obtain ⟨hsteady, hfits⟩ := @Node.plan_unseeded operators e vs he hgiven r h.2 hv.1.2 ha.2
    have hvars := List.Subset.trans r.vars_subset_occurrences hv.1.2
    exact (hl.minus (hsteady.input 1) (hfits.input 1) hvars).observed _
  | .existsJoin l r negated, h, hv, ha, hd => by
    refine Node.mirrors_of_pairs he h ha ?_
    simp only [Node.isRepeatable, Node.occurrences, Node.calls, Node.distinctsAlike,
      Bool.and_eq_true, List.append_subset, List.forall_mem_append] at h hv ha hd
    have hl := (l.plan_mirrors he hgiven h.1 hv.1.1 ha.1 hd.1).input 0
    have hr := (r.plan_mirrors he hgiven h.2 hv.1.2 ha.2 hd.2).input 1
    exact (hl.existsJoin hr negated).observed _
  | .filter inner test, h, hv, ha, hd | .having inner test, h, hv, ha, hd => by
    refine Node.mirrors_of_pairs he h ha ?_
    simp only [Node.isRepeatable, Node.occurrences, Node.calls, Node.distinctsAlike,
      Bool.and_eq_true, List.append_subset, List.forall_mem_append] at h hv ha hd
    have hinner := (inner.plan_mirrors he hgiven h.1 hv.1.1 ha.1 hd.1).input 0
    have htest := test.meaning_respectsIn he hgiven h.2 hv.1.2 ha.2 hd.2
    exact (hinner.filter htest.holds).observed _
  | .extend inner v value, h, hv, ha, hd => by
    refine Node.mirrors_of_pairs he h ha ?_
    simp only [Node.isRepeatable, Node.occurrences, Node.calls, Node.distinctsAlike,
      Bool.and_eq_true, List.append_subset, List.forall_mem_append] at h hv ha hd
    have hinner := (inner.plan_mirrors he hgiven h.1 hv.1.1 ha.1 hd.1).input 0
    have hvalue := value.meaning_respectsIn he hgiven h.2 hv.1.2 ha.2 hd.2
    have hmem : v ∈ vs := hv.2 (mem_mergeVariables.mpr (.inr List.mem_cons_self))
    exact (hinner.extend hmem (value.assignment_respectsIn hv.1.2 hvalue)).observed _
  | .group inner keys columns, h, hv, ha, _ => by
    refine Node.mirrors_of_pairs he h ha ?_
    have hvars := List.Subset.trans (Node.group inner keys columns).vars_subset_occurrences hv
    rw [Node.vars, ← @GroupValue.map_columns operators] at hvars
    simp only [Node.isRepeatable, Node.occurrences, Node.calls, Bool.and_eq_true,
      List.append_subset, List.forall_mem_append] at h hv ha
    obtain ⟨hsteady, hfits⟩ := @Node.plan_unseeded operators e vs he hgiven inner h.1 hv.1.1 ha.1
    have hcolumns := @GroupValue.columns_steady operators columns h.2 (hgiven.of_subset hv.2)
    exact ((hsteady.input 0).group_pairs (hfits.input 0) keys hcolumns hvars).observed _
  | .orderBy inner keys, h, hv, ha, hd => by
    refine Node.mirrors_of_pairs he h ha ?_
    simp only [Node.isRepeatable, Node.occurrences, Node.calls, Node.distinctsAlike,
      Bool.and_eq_true, List.append_subset, List.forall_mem_append] at h hv ha hd
    have hinner := (inner.plan_mirrors he hgiven h.1 hv.1.1 ha.1 hd.1).input 0
    have hkeys := OrderKey.sortKeys_respect he hgiven keys h.2 hv.1.2 ha.2 hd.2
    exact (hinner.orderBy hkeys).observed _
  | .distinct inner, h, hv, ha, hd => by
    refine Node.mirrors_of_pairs he h ha ?_
    simp only [Node.occurrences, Node.distinctsAlike, List.append_subset, Bool.and_eq_true,
      decide_eq_true_eq] at hv hd
    have hinner := (inner.plan_mirrors he hgiven h hv.1 ha hd.2).input 0
    exact (hinner.distinct hd.1).observed _
  | .reduced inner, h, hv, ha, hd => by
    refine Node.mirrors_of_pairs he h ha ?_
    simp only [Node.occurrences, List.append_subset] at hv
    exact ((inner.plan_mirrors he hgiven h hv.1 ha hd).pairs.input 0).observed _
  | .project inner ws, h, hv, ha, _ => by
    refine Node.mirrors_of_pairs he h ha ?_
    simp only [Node.occurrences, List.append_subset] at hv
    obtain ⟨hsteady, hfits⟩ := @Node.plan_unseeded operators e vs he hgiven inner h hv.1 ha
    exact ((hsteady.input 0).project_pairs (hfits.input 0) hv.2).observed _
  | .slice inner offset count, h, hv, ha, hd => by
    refine Node.mirrors_of_pairs he h ha ?_
    simp only [Node.occurrences, List.append_subset] at hv
    exact (((inner.plan_mirrors he hgiven h hv.1 ha hd).input 0).slice offset count).observed _
  | .limit inner count, h, hv, ha, hd => by
    refine Node.mirrors_of_pairs he h ha ?_
    simp only [Node.occurrences, List.append_subset] at hv
    exact (((inner.plan_mirrors he hgiven h hv.1 ha hd).input 0).limit count).observed _
  | .graph inner (.iri i), h, hv, ha, hd => by
    refine Node.mirrors_of_pairs he h ha ?_
    simp only [Node.occurrences, List.append_subset] at hv
    exact (((inner.plan_mirrors he hgiven h hv.1 ha hd).pairs.input 0).graph he i _).observed _
  | .graph inner (.var v), h, hv, ha, hd => by
    refine Node.mirrors_of_pairs he h ha ?_
    simp only [Node.occurrences, List.append_subset] at hv
    have hmem : v ∈ vs := hv.2 (mem_mergeVariables.mpr (.inr List.mem_cons_self))
    exact (((inner.plan_mirrors he hgiven h hv.1 ha hd).pairs.input 0).graphs he hmem _).observed _
  | .ask inner, h, hv, ha, hd => by
    refine Node.mirrors_of_pairs he h ha ?_
    simp only [Node.occurrences, List.append_subset] at hv
    exact (((inner.plan_mirrors he hgiven h hv.1 ha hd).input 0).ask he).observed _
  | .service name ws silent pattern, h, hv, ha, _ => by
    refine Node.mirrors_of_pairs he h ha ?_
    have hcall := ha _ List.mem_cons_self
    exact (Plan.service_pairs he hcall.named hcall.answers.fits hv).observed _
  | .values ws rows, h, hv, ha, _ =>
    Node.mirrors_of_pairs he h ha ((Plan.values_pairs he hv rows).observed _)
  | .pathSearch s search o, h, hv, ha, _ => by
    refine Node.mirrors_of_pairs he h ha ?_
    have hends : AreGiven (Position.vars [s, o]) := hgiven.of_subset hv
    have hs := Position.isGiven_of_mem hends (by simp : s ∈ [s, o])
    have ho := Position.isGiven_of_mem hends (by simp : o ∈ [s, o])
    exact (Plan.pathSearch_pairs he search hs ho hv).observed _
  | .custom _ _ _, h, _, _, _ => by cases h

theorem Element.steps_pair (he : e.isDryRun = false) (hgiven : AreGiven vs) :
    ∀ (es : List Element) (i : Nat), Element.areRepeatable es = true →
      Element.occurrencesIn es ⊆ vs → (∀ call ∈ Element.callsIn es, e.Serves vs call) →
      Element.distinctAlike es = true → ∀ step ∈ Element.steps operators i es, step.Pairs e vs
  | [], _, _, _, _, _ => by simp [Element.steps]
  | .triple pattern :: rest, i, h, hv, ha, hd => by
    simp only [Element.occurrencesIn, List.append_subset] at hv
    exact List.forall_mem_cons.mpr
      ⟨Step.matchTriple_pairs hv.1, Element.steps_pair he hgiven rest i h hv.2 ha hd⟩
  | .path s path o :: rest, i, h, hv, ha, hd => by
    simp only [Element.occurrencesIn, List.append_subset] at hv
    have hends : AreGiven (Position.vars [s, o]) := hgiven.of_subset hv.1
    have hs := Position.isGiven_of_mem hends (by simp : s ∈ [s, o])
    have ho := Position.isGiven_of_mem hends (by simp : o ∈ [s, o])
    exact List.forall_mem_cons.mpr
      ⟨Step.matchPath_pairs hs ho hv.1, Element.steps_pair he hgiven rest i h hv.2 ha hd⟩
  | .assign v value :: rest, i, h, hv, ha, hd => by
    simp only [Element.areRepeatable, Element.occurrencesIn, Element.callsIn,
      Element.distinctAlike, Bool.and_eq_true, List.append_subset, List.cons_subset,
      List.forall_mem_append] at h hv ha hd
    have hvalue := value.meaning_respectsIn he hgiven h.1 hv.1.2 ha.1 hd.1
    exact List.forall_mem_cons.mpr
      ⟨⟨hv.1.1, value.assignment_respectsIn hv.1.2 hvalue⟩,
        Element.steps_pair he hgiven rest i h.2 hv.2 ha.2 hd.2⟩
  | .subQuery query :: rest, i, h, hv, ha, hd => by
    simp only [Element.areRepeatable, Element.occurrencesIn, Element.callsIn,
      Element.distinctAlike, Bool.and_eq_true, List.append_subset,
      List.forall_mem_append] at h hv ha hd
    have hquery := (query.plan_mirrors he hgiven h.1 hv.1 ha.1 hd.1).pairs.input i
    exact List.forall_mem_cons.mpr
      ⟨⟨query.seedUse, hquery⟩, Element.steps_pair he hgiven rest (i + 1) h.2 hv.2 ha.2 hd.2⟩
  | .filter test :: rest, i, h, hv, ha, hd => by
    simp only [Element.areRepeatable, Element.occurrencesIn, Element.callsIn,
      Element.distinctAlike, Bool.and_eq_true, List.append_subset,
      List.forall_mem_append] at h hv ha hd
    have htest := test.meaning_respectsIn he hgiven h.1 hv.1 ha.1 hd.1
    exact List.forall_mem_cons.mpr
      ⟨htest.holds, Element.steps_pair he hgiven rest i h.2 hv.2 ha.2 hd.2⟩

theorem OrderKey.sortKeys_respect (he : e.isDryRun = false) (hgiven : AreGiven vs) :
    ∀ keys : List OrderKey, OrderKey.areRepeatable keys = true →
      OrderKey.occurrencesIn keys ⊆ vs → (∀ call ∈ OrderKey.callsIn keys, e.Serves vs call) →
      OrderKey.distinctAlike keys = true → ∀ k ∈ OrderKey.sortKeys operators keys,
        k.key.RespectsIn (Context.Beside e) (Binding.AgreeOn vs)
  | [], _, _, _, _ => by simp [OrderKey.sortKeys]
  | .sortBy key descending :: rest, h, hv, ha, hd => by
    simp only [OrderKey.areRepeatable, OrderKey.occurrencesIn, OrderKey.callsIn,
      OrderKey.distinctAlike, Bool.and_eq_true, List.append_subset,
      List.forall_mem_append] at h hv ha hd
    exact List.forall_mem_cons.mpr ⟨key.meaning_respectsIn he hgiven h.1 hv.1 ha.1 hd.1,
      OrderKey.sortKeys_respect he hgiven rest h.2 hv.2 ha.2 hd.2⟩

/-- Value and truth of an expression depend on the variables only. -/
theorem Expr.meaning_respectsIn (he : e.isDryRun = false) (hgiven : AreGiven vs) :
    ∀ x : Expr, x.isRepeatable = true → x.occurrences ⊆ vs →
      (∀ call ∈ x.calls, e.Serves vs call) → x.distinctsAlike = true →
      (x.meaning operators).RespectsIn (Context.Beside e) (Binding.AgreeOn vs)
  | .constant t, _, _, _, _ => .constant t
  | .var v, _, hv, _, _ => .var fun hb => hb v (hv List.mem_cons_self)
  | .bound v, _, hv, _, _ => .bound fun hb => hb v (hv List.mem_cons_self)
  | .unary op x, h, hv, ha, hd => op.respects (x.meaning_respectsIn he hgiven h hv ha hd)
  | .binary op l r, h, hv, ha, hd => by
    simp only [Expr.isRepeatable, Expr.occurrences, Expr.calls, Expr.distinctsAlike,
      Bool.and_eq_true, List.append_subset, List.forall_mem_append] at h hv ha hd
    exact op.respects (l.meaning_respectsIn he hgiven h.1 hv.1 ha.1 hd.1)
      (r.meaning_respectsIn he hgiven h.2 hv.2 ha.2 hd.2)
  | .isIn x xs, h, hv, ha, hd => by
    simp only [Expr.isRepeatable, Expr.occurrences, Expr.calls, Expr.distinctsAlike,
      Bool.and_eq_true, List.append_subset, List.forall_mem_append] at h hv ha hd
    exact (x.meaning_respectsIn he hgiven h.1 hv.1 ha.1 hd.1).isIn
      (Expr.meanings_respectIn he hgiven xs h.2 hv.2 ha.2 hd.2)
  | .cond test yes no, h, hv, ha, hd => by
    simp only [Expr.isRepeatable, Expr.occurrences, Expr.calls, Expr.distinctsAlike,
      Bool.and_eq_true, List.append_subset, List.forall_mem_append] at h hv ha hd
    exact .cond (test.meaning_respectsIn he hgiven h.1.1 hv.1.1 ha.1.1 hd.1.1)
      (yes.meaning_respectsIn he hgiven h.1.2 hv.1.2 ha.1.2 hd.1.2)
      (no.meaning_respectsIn he hgiven h.2 hv.2 ha.2 hd.2)
  | .coalesce xs, h, hv, ha, hd => .coalesce (Expr.meanings_respectIn he hgiven xs h hv ha hd)
  | .call f xs, h, hv, ha, hd => by
    simp only [Expr.isRepeatable, Bool.and_eq_true] at h
    exact .call (fun _ _ hc => hc.alongside) h.1 (Expr.meanings_respectIn he hgiven xs h.2 hv ha hd)
  | .hasMatch pattern, h, hv, ha, hd => by
    have hpattern := Node.plan_mirrors he hgiven pattern h hv ha hd
    have hinside : (pattern.plan operators).inExpression.Mirrors e vs pattern.vars
        pattern.seedUse := ⟨hpattern.pairs.inExpression, hpattern.fits.inExpression⟩
    exact .ofTest fun hb _ _ => hinside.hasMatch hb

theorem Expr.meanings_respectIn (he : e.isDryRun = false) (hgiven : AreGiven vs) :
    ∀ xs : List Expr, Expr.areRepeatable xs = true →
      Expr.occurrencesIn xs ⊆ vs → (∀ call ∈ Expr.callsIn xs, e.Serves vs call) →
      Expr.distinctAlike xs = true → ∀ m ∈ Expr.meanings operators xs,
        m.RespectsIn (Context.Beside e) (Binding.AgreeOn vs)
  | [], _, _, _, _ => by simp [Expr.meanings]
  | x :: rest, h, hv, ha, hd => by
    simp only [Expr.areRepeatable, Expr.occurrencesIn, Expr.callsIn, Expr.distinctAlike,
      Bool.and_eq_true, List.append_subset, List.forall_mem_append] at h hv ha hd
    exact List.forall_mem_cons.mpr ⟨x.meaning_respectsIn he hgiven h.1 hv.1 ha.1 hd.1,
      Expr.meanings_respectIn he hgiven rest h.2 hv.2 ha.2 hd.2⟩

end

end Trees

/-! ## Expressions -/

/-- The variables of the name of a graph or service. -/
def NameRef.vars : NameRef → List Var
  | .iri _ => []
  | .var v => [v]

/-- The variables of an expression, and those that name the services in its patterns. -/
def Expr.influences (x : Expr) : List Var := x.vars ++ x.calls.flatMap (·.name.vars)

/-- For solutions that agree on what influences an expression, its value is the same, or
there is the same error, and likewise for its truth. -/
theorem Expr.runs_eq_of_agreeOn {operators : OperatorRegistry} {x : Expr}
    (hrepeatable : x.isRepeatable = true) (hdistinct : x.distinctsAlike = true)
    (hgiven : AreGiven x.influences) {c : Context} (hc : c.Settled)
    (hreal : c.environment.isDryRun = false)
    (hcalls : ∀ call ∈ x.calls, c.environment.AnswersCall call) {b b' : Binding}
    (hb : b.AgreeOn x.influences b') (i j : Nat) (p q : Progress) :
    (((x.meaning operators).value ⟨b, i⟩).runFrom c p).1 =
        (((x.meaning operators).value ⟨b', j⟩).runFrom c q).1 ∧
      (((x.meaning operators).test ⟨b, i⟩).runFrom c p).1 =
        (((x.meaning operators).test ⟨b', j⟩).runFrom c q).1 := by
  have hvars : x.occurrences ⊆ x.influences := fun _ hv =>
    List.mem_append_left _ (mem_dedup.mpr hv)
  have hserves : ∀ call ∈ x.calls, c.environment.Serves x.influences call := by
    intro call hcall
    refine ⟨hcalls call hcall, fun v hv => List.mem_append_right _ ?_⟩
    refine List.mem_flatMap.mpr ⟨call, hcall, ?_⟩
    rw [hv]
    exact List.mem_cons_self
  have hrespects := @Expr.meaning_respectsIn operators _ _ hreal hgiven x hrepeatable hvars
    hserves hdistinct
  have hbeside : Context.Beside c.environment c c := ⟨rfl, rfl, rfl⟩
  exact ⟨(AgreeIn.run (hrespects.value hb i j) hc hbeside p q).1,
    (AgreeIn.run (hrespects.test hb i j) hc hbeside p q).1⟩

/-- A match of different names that a service tells of the neighbours of a node. -/
def sampleNeighbours : Expr :=
  .hasMatch (.distinct (.join (.bgp [.triple ⟨.var ⟨"x"⟩, .term (.iri ⟨"p"⟩), .var ⟨"y"⟩⟩])
    (.service (.var ⟨"s"⟩) [⟨"y"⟩, ⟨"name"⟩] true sampleNames)))

/-- The sample service answers calls for names of nodes. -/
theorem sampleContext_answersCall {name : NameRef} {pattern : Query.Pattern} :
    sampleContext.environment.AnswersCall ⟨name, [⟨"y"⟩, ⟨"name"⟩], pattern⟩ := by
  rintro handler hhandler i m - hm
  cases hhandler
  have hbinds := sampleService_binds hm
  cases hm
  exact ⟨hbinds.real, hbinds.wellFormed, List.Subset.refl _⟩

/-- Whether the neighbour has a name does not depend on values of other variables. -/
theorem sampleNeighbours_runs :
    let b : Binding := .ofEntries [(⟨"x"⟩, .iri ⟨"a"⟩), (⟨"s"⟩, .iri ⟨"names"⟩)]
    let b' : Binding := b.insert ⟨"z"⟩ (.iri ⟨"c"⟩)
    sampleNeighbours.isRepeatable = true ∧ sampleNeighbours.distinctsAlike = true ∧
      AreGiven sampleNeighbours.influences ∧ b ≠ b' ∧
      b.AgreeOn sampleNeighbours.influences b' ∧
      (∀ call ∈ sampleNeighbours.calls, sampleContext.environment.AnswersCall call) ∧
      (((sampleNeighbours.meaning .empty).test ⟨b, 0⟩).runFrom sampleContext
        (.initial sampleContext.environment)).1 = .ok true ∧
      ∀ (j : Nat) (q : Progress), (((sampleNeighbours.meaning .empty).test ⟨b', j⟩).runFrom
        sampleContext q).1 = .ok true := by
  intro b b'
  have hgiven : AreGiven sampleNeighbours.influences := .of_all (by decide +kernel)
  have hagree : b.AgreeOn sampleNeighbours.influences b' := by
    have hvars : sampleNeighbours.influences = [⟨"x"⟩, ⟨"y"⟩, ⟨"name"⟩, ⟨"s"⟩] := by decide +kernel
    rw [hvars]
    intro v hv
    have hne : v ≠ ⟨"z"⟩ := by
      rintro rfl
      revert hv
      decide
    rw [Binding.get?_insert, if_neg hne]
  have hcalls : ∀ call ∈ sampleNeighbours.calls, sampleContext.environment.AnswersCall call := by
    intro call hcall
    rw [show sampleNeighbours.calls = [⟨.var ⟨"s"⟩, [⟨"y"⟩, ⟨"name"⟩],
      sampleNames⟩] from rfl] at hcall
    rw [List.mem_singleton.mp hcall]
    exact sampleContext_answersCall
  have hrun : (((sampleNeighbours.meaning .empty).test ⟨b, 0⟩).runFrom sampleContext
      (.initial sampleContext.environment)).1 = .ok true := by
    decide +kernel
  refine ⟨by decide +kernel, by decide +kernel, hgiven, by decide, hagree, hcalls, hrun,
    fun j q => ?_⟩
  have hsame := @Expr.runs_eq_of_agreeOn .empty sampleNeighbours (by decide +kernel)
    (by decide +kernel) hgiven sampleContext sampleContext_isOnMemory.repeatable.settled rfl
    hcalls _ _ hagree 0 j (.initial sampleContext.environment) q
  exact hsame.2.symm.trans hrun

/-- A match of a call whose service is named by a variable. -/
def sampleCalled : Expr :=
  .hasMatch (.service (.var ⟨"s"⟩) [⟨"y"⟩, ⟨"name"⟩] true sampleNames)

/-- A match of a second solution, beside the one that has the values of the seed. -/
def sampleSecond : Expr :=
  .hasMatch
    (.orderBy (.slice (.distinct (.union (.bgp []) (.ask (.bgp [])))) 1 none) [])

/-- Two expressions without variables whose value is another one for a solution that binds
a variable: the name of the service is taken from the seed, and so is what tells apart
the rows of a union, one side of which does not have the values of the seed. -/
theorem Expr.vars_miss_influences :
    ⟨"s"⟩ ∉ sampleCalled.vars ∧
      ((sampleCalled.meaning .empty).test ⟨.ofEntries [(⟨"s"⟩, .iri ⟨"a"⟩)], 0⟩).outcome
        sampleContext = .ok true ∧
      ((sampleCalled.meaning .empty).test ⟨.empty, 0⟩).outcome sampleContext =
        .error .unboundService ∧
    sampleSecond.vars = [] ∧
      ((sampleSecond.meaning .empty).test ⟨.ofEntries [(⟨"s"⟩, .iri ⟨"a"⟩)], 0⟩).outcome
        sampleContext = .ok true ∧
      ((sampleSecond.meaning .empty).test ⟨.empty, 0⟩).outcome sampleContext =
        .ok false := by
  refine ⟨?_, ?_, ?_, ?_, ?_, ?_⟩
  · rw [show sampleCalled.vars = [⟨"y"⟩, ⟨"name"⟩] by decide +kernel]
    decide
  · decide +kernel
  · decide +kernel
  · decide +kernel
  · decide +kernel
  · decide +kernel

end SparqlAlgebra
