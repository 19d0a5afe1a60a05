import SparqlAlgebra.Proofs.GraphNames
import SparqlAlgebra.Proofs.RelatedMonads

/-!
# Evaluators

An evaluator evaluates one tree after another. While it evaluates a tree it pushes graphs
and pops them, replaces the seed and puts it back, and counts the depth up and down.

* `Stateful.Performs`: the evaluator does what an evaluation within its context does, and
  is in that context again when it is done. Actions perform, sequences perform, and so does
  each scope around what performs, whether that succeeds or fails;
* `Evaluator.evaluate_eq`: so every tree performs, by induction over the tree;
* `Evaluator.evaluate_congr`: what an evaluator has counted does not matter to a tree that
  calls no random function, and neither does the number of its query;
* `Evaluator.evaluate_after`: after any tree an evaluator is as good as a fresh one.

Reading may fail, before or after.
-/

namespace SparqlAlgebra

namespace Stateful

variable {α β : Type}

/-! ## Running -/

@[simp] theorem runOn_pure (a : α) (s : Evaluator) :
    (pure a : Stateful α).runOn s = (.ok a, s) := rfl

theorem runOn_bind (x : Stateful α) (f : α → Stateful β) (s : Evaluator) :
    (x >>= f).runOn s =
      match x.runOn s with
      | (.ok a, t) => (f a).runOn t
      | (.error e, t) => (.error e, t) := by
  unfold runOn
  simp only [bind, ExceptT.bind, ExceptT.mk, ExceptT.run, StateT.bind, StateT.run]
  rcases x s with ⟨r, t⟩
  cases r <;> rfl

theorem runOn_absorb (x : Stateful α) (s : Evaluator) :
    (absorb x).runOn s =
      match x.runOn s with
      | (.ok a, t) => (.ok (.ok a), t)
      | (.error e, t) => if e.isAbsorbable then (.ok (.error e), t) else (.error e, t) := by
  unfold absorb runOn
  simp only [bind, ExceptT.mk, ExceptT.run, StateT.bind, StateT.run]
  rcases x s with ⟨r, t⟩
  cases r with
  | ok a => rfl
  | error e => by_cases h : e.isAbsorbable = true <;> simp [h] <;> rfl

theorem runOn_between (enter leave : Evaluator → Evaluator) (x : Stateful α) (s : Evaluator) :
    (between enter leave x).runOn s =
      ((x.runOn (enter s)).1, leave (x.runOn (enter s)).2) := rfl

/-- The seed that is put back is the one that was read before. -/
theorem runOn_mapSeed (f : Option Binding → Option Binding) (x : Stateful α) (s : Evaluator) :
    (mapSeed f x).runOn s =
      (between (·.setSeed (f s.context.seed)) (·.setSeed s.context.seed) x).runOn s := rfl

theorem runOn_atPlace (f : Option (List Nat) → Option (List Nat)) (x : Stateful α)
    (s : Evaluator) :
    (atPlace f x).runOn s =
      (between (·.setPlace (f s.context.place)) (·.setPlace s.context.place) x).runOn s := rfl

/-! ## Scopes that are left again -/

/-- The evaluator does what `y` does in its context, and is in that context again when it is
done, with a result or with an error. -/
def Performs (x : Stateful α) (y : Eval α) : Prop :=
  ∀ s : Evaluator, x.runOn s = ((y.runFrom s.context s.progress).1,
    ⟨s.context, (y.runFrom s.context s.progress).2⟩)

namespace Performs

variable {x : Stateful α} {y : Eval α}

theorem bind {f : α → Stateful β} {g : α → Eval β} (h : x.Performs y)
    (k : ∀ a, (f a).Performs (g a)) : (x >>= f).Performs (y >>= g) := by
  intro s
  rw [runOn_bind, Eval.runFrom_bind, h s]
  rcases y.runFrom s.context s.progress with ⟨r, p⟩
  cases r with
  | ok a => exact k a ⟨s.context, p⟩
  | error e => rfl

theorem absorb (h : x.Performs y) : (absorb x).Performs y.absorb := by
  intro s
  rw [runOn_absorb, Eval.runFrom_absorb, h s]
  rcases y.runFrom s.context s.progress with ⟨r, p⟩
  cases r with
  | ok a => rfl
  | error e => by_cases he : e.isAbsorbable = true <;> simp [he]

/-- Leaving undoes what entering did, as what is inside the scope has left the evaluator in
the context that it was entered with. -/
theorem between (h : x.Performs y) {enter leave : Evaluator → Evaluator} {s : Evaluator}
    (c : Context) (henter : enter s = ⟨c, s.progress⟩)
    (hleave : ∀ p, leave ⟨c, p⟩ = ⟨s.context, p⟩) :
    (between enter leave x).runOn s = ((y.runFrom c s.progress).1,
      ⟨s.context, (y.runFrom c s.progress).2⟩) := by
  rw [runOn_between, henter, h, hleave]

theorem mapSeed (h : x.Performs y) (f : Option Binding → Option Binding) :
    (mapSeed f x).Performs (EvaluationMonad.mapSeed f y) := by
  intro s
  rw [runOn_mapSeed]
  exact h.between { s.context with seed := f s.context.seed } rfl fun _ => rfl

/-- The graph that was pushed last is the one that is popped. -/
theorem withGraph (h : x.Performs y) (g : ActiveGraph) :
    (withGraph g x).Performs (y.withGraph g) := fun s =>
  h.between { s.context with view := s.context.view.enter g } rfl fun _ => rfl

theorem deeper (h : x.Performs y) : (deeper x).Performs (EvaluationMonad.deeper y) := fun s =>
  h.between { s.context with depth := s.context.depth + 1 } rfl fun _ => rfl

theorem atPlace (h : x.Performs y) (f : Option (List Nat) → Option (List Nat)) :
    (atPlace f x).Performs (EvaluationMonad.atPlace f y) := by
  intro s
  rw [runOn_atPlace]
  exact h.between { s.context with place := f s.context.place } rfl fun _ => rfl

end Performs

/-- Whatever trees are made of performs. -/
def performing : EvaluationRelation Stateful Eval where
  Rel := Performs
  pure _ _ := rfl
  bind := Performs.bind
  act _ _ := rfl
  absorb := Performs.absorb
  mapSeed f h := h.mapSeed f
  withGraph g h := h.withGraph g
  deeper := Performs.deeper
  atPlace f h := h.atPlace f

end Stateful

/-! ## Evaluating trees -/

mutual

/-- In a tree without random and custom functions no operator is defined elsewhere. -/
theorem Node.isCustomFree_of_isRepeatable : ∀ n : Node, n.isRepeatable = true →
    n.isCustomFree = true
  | .bgp elements, h => Element.areCustomFree_of_areRepeatable elements h
  | .leftJoin l r (some e), h => by
    simp only [Node.isRepeatable, Bool.and_eq_true] at h
    simp only [Node.isCustomFree, Bool.and_eq_true]
    exact ⟨⟨l.isCustomFree_of_isRepeatable h.1.1, r.isCustomFree_of_isRepeatable h.1.2⟩,
      e.isCustomFree_of_isRepeatable h.2⟩
  | .join l r, h | .leftJoin l r none, h | .union l r, h | .minus l r, h
  | .existsJoin l r _, h => by
    simp only [Node.isRepeatable, Bool.and_eq_true] at h
    simp only [Node.isCustomFree, Bool.and_eq_true]
    exact ⟨l.isCustomFree_of_isRepeatable h.1, r.isCustomFree_of_isRepeatable h.2⟩
  | .filter inner e, h | .extend inner _ e, h | .having inner e, h => by
    simp only [Node.isRepeatable, Bool.and_eq_true] at h
    simp only [Node.isCustomFree, Bool.and_eq_true]
    exact ⟨inner.isCustomFree_of_isRepeatable h.1, e.isCustomFree_of_isRepeatable h.2⟩
  | .group inner _ columns, h => by
    simp only [Node.isRepeatable, Bool.and_eq_true] at h
    simp only [Node.isCustomFree, Bool.and_eq_true]
    exact ⟨inner.isCustomFree_of_isRepeatable h.1,
      GroupValue.areCustomFree_of_areRepeatable columns h.2⟩
  | .orderBy inner keys, h => by
    simp only [Node.isRepeatable, Bool.and_eq_true] at h
    simp only [Node.isCustomFree, Bool.and_eq_true]
    exact ⟨inner.isCustomFree_of_isRepeatable h.1,
      OrderKey.areCustomFree_of_areRepeatable keys h.2⟩
  | .distinct inner, h | .reduced inner, h | .project inner _, h | .slice inner _ _, h
  | .graph inner _, h | .ask inner, h | .limit inner _, h =>
    inner.isCustomFree_of_isRepeatable h
  | .service _ _ _ _, _ | .values _ _, _ | .pathSearch _ _ _, _ => rfl
  | .custom _ _ _, h => by cases h

theorem Element.areCustomFree_of_areRepeatable : ∀ elements : List Element,
    Element.areRepeatable elements = true → Element.areCustomFree elements = true
  | [], _ => rfl
  | .triple _ :: rest, h | .path _ _ _ :: rest, h =>
    Element.areCustomFree_of_areRepeatable rest h
  | .assign _ e :: rest, h | .filter e :: rest, h => by
    simp only [Element.areRepeatable, Bool.and_eq_true] at h
    simp only [Element.areCustomFree, Bool.and_eq_true]
    exact ⟨e.isCustomFree_of_isRepeatable h.1, Element.areCustomFree_of_areRepeatable rest h.2⟩
  | .subQuery query :: rest, h => by
    simp only [Element.areRepeatable, Bool.and_eq_true] at h
    simp only [Element.areCustomFree, Bool.and_eq_true]
    exact ⟨query.isCustomFree_of_isRepeatable h.1,
      Element.areCustomFree_of_areRepeatable rest h.2⟩

theorem GroupValue.areCustomFree_of_areRepeatable : ∀ values : List GroupValue,
    GroupValue.areRepeatable values = true → GroupValue.areCustomFree values = true
  | [], _ => rfl
  | .countRows _ _ :: rest, h => GroupValue.areCustomFree_of_areRepeatable rest h
  | .apply _ _ e _ :: rest, h => by
    simp only [GroupValue.areRepeatable, Bool.and_eq_true] at h
    simp only [GroupValue.areCustomFree, Bool.and_eq_true]
    exact ⟨e.isCustomFree_of_isRepeatable h.1,
      GroupValue.areCustomFree_of_areRepeatable rest h.2⟩

theorem OrderKey.areCustomFree_of_areRepeatable : ∀ keys : List OrderKey,
    OrderKey.areRepeatable keys = true → OrderKey.areCustomFree keys = true
  | [], _ => rfl
  | .sortBy e _ :: rest, h => by
    simp only [OrderKey.areRepeatable, Bool.and_eq_true] at h
    simp only [OrderKey.areCustomFree, Bool.and_eq_true]
    exact ⟨e.isCustomFree_of_isRepeatable h.1, OrderKey.areCustomFree_of_areRepeatable rest h.2⟩

theorem Expr.isCustomFree_of_isRepeatable : ∀ e : Expr, e.isRepeatable = true →
    e.isCustomFree = true
  | .constant _, _ | .var _, _ | .bound _, _ => rfl
  | .unary _ e, h => e.isCustomFree_of_isRepeatable h
  | .binary _ l r, h => by
    simp only [Expr.isRepeatable, Bool.and_eq_true] at h
    simp only [Expr.isCustomFree, Bool.and_eq_true]
    exact ⟨l.isCustomFree_of_isRepeatable h.1, r.isCustomFree_of_isRepeatable h.2⟩
  | .isIn e es, h => by
    simp only [Expr.isRepeatable, Bool.and_eq_true] at h
    simp only [Expr.isCustomFree, Bool.and_eq_true]
    exact ⟨e.isCustomFree_of_isRepeatable h.1, Expr.areCustomFree_of_areRepeatable es h.2⟩
  | .cond c t e, h => by
    simp only [Expr.isRepeatable, Bool.and_eq_true] at h
    simp only [Expr.isCustomFree, Bool.and_eq_true]
    exact ⟨⟨c.isCustomFree_of_isRepeatable h.1.1, t.isCustomFree_of_isRepeatable h.1.2⟩,
      e.isCustomFree_of_isRepeatable h.2⟩
  | .coalesce es, h => Expr.areCustomFree_of_areRepeatable es h
  | .call f es, h => by
    simp only [Expr.isRepeatable, Bool.and_eq_true] at h
    exact Expr.areCustomFree_of_areRepeatable es h.2
  | .hasMatch pattern, h => pattern.isCustomFree_of_isRepeatable h

theorem Expr.areCustomFree_of_areRepeatable : ∀ es : List Expr,
    Expr.areRepeatable es = true → Expr.areCustomFree es = true
  | [], _ => rfl
  | e :: rest, h => by
    simp only [Expr.areRepeatable, Bool.and_eq_true] at h
    simp only [Expr.areCustomFree, Bool.and_eq_true]
    exact ⟨e.isCustomFree_of_isRepeatable h.1, Expr.areCustomFree_of_areRepeatable rest h.2⟩

end

namespace Evaluator

/-- Evaluates a tree. -/
def evaluate (operators : OperatorRegistry Stateful) (s : Evaluator) (n : Node)
    (demand : Demand) : Except QueryError Solutions × Evaluator :=
  (n.plan operators demand).runOn s

/-- Evaluating a tree within changing scopes is evaluating it in the context that the
evaluator is in, before and afterwards. -/
theorem evaluate_eq (operators : OperatorRegistry Stateful) (operators' : OperatorRegistry)
    {n : Node} (hn : n.isCustomFree = true) (s : Evaluator) (demand : Demand) :
    s.evaluate operators n demand =
      (((n.plan operators' demand).runFrom s.context s.progress).1,
        ⟨s.context, ((n.plan operators' demand).runFrom s.context s.progress).2⟩) :=
  have h : (n.plan operators).Related Stateful.performing (n.plan operators') :=
    n.plan_rel hn
  h demand s

/-- The active graphs, the seed and the depth are as they were. -/
theorem context_evaluate (operators : OperatorRegistry Stateful) {n : Node}
    (hn : n.isCustomFree = true) (s : Evaluator) (demand : Demand) :
    (s.evaluate operators n demand).2.context = s.context := by
  rw [evaluate_eq operators .empty hn]

/-- What was counted does not matter to a tree that calls no random function, and neither
do the number of the query and the times of looking at the clock. -/
theorem evaluate_congr (operators : OperatorRegistry Stateful) {n : Node}
    (hn : n.isRepeatable = true) (hgiven : Var.AreGiven n.occurrences) {s t : Evaluator}
    (hs : s.context.Settled) (hsimilar : s.context.Similar t.context) (demand : Demand) :
    (s.evaluate operators n demand).1 = (t.evaluate operators n demand).1 := by
  have hcustom : n.isCustomFree = true := n.isCustomFree_of_isRepeatable hn
  have hsteady : (n.plan .empty demand).Steady := n.plan_steady hn hgiven demand
  rw [evaluate_eq operators .empty hcustom, evaluate_eq operators .empty hcustom]
  exact (hsteady.run hs hsimilar s.progress t.progress).1

/-- Evaluating a tree leaves an evaluator as it found it, whether it succeeds or fails: the
active graphs, the seed and the depth are the same, and the next tree has the outcome that
it has on a fresh evaluator for the same view. This holds for every dataset, readable or
not, for every demand, and for dry runs too. -/
theorem evaluate_after (operators : OperatorRegistry Stateful) {s : Evaluator}
    {v : DatasetView} {e : Environment} (hview : s.context.view = v)
    (hseed : s.context.seed = none) (halike : s.context.environment.Alike e)
    (htime : e.timedOut = false)
    (hbuiltin : ∀ f : Builtin, e.functions (.builtin f) = some f.apply) {a b : Node}
    (ha : a.isCustomFree = true) (hb : b.isRepeatable = true)
    (hgiven : Var.AreGiven b.occurrences) (demand demand' : Demand) :
    let used := (s.evaluate operators a demand).2
    used.context = s.context ∧
      (used.evaluate operators b demand').1 =
        ((fresh v e).evaluate operators b demand').1 := by
  intro used
  have hused : used.context = s.context := context_evaluate operators ha s demand
  refine ⟨hused, ?_⟩
  have hsimilar : used.context.Similar (fresh v e).context := by
    rw [hused]
    exact ⟨⟨hview.symm, halike⟩, hseed.symm⟩
  have hfresh : (fresh v e).context.Settled := ⟨htime, hbuiltin⟩
  exact evaluate_congr operators hb hgiven (hfresh.of_similar hsimilar.symm) hsimilar demand'

/-- A match that fails within a graph and under a seed. -/
def sampleBroken : Node :=
  .existsJoin (.values [⟨"x"⟩] [[some (.iri ⟨"a"⟩)]])
    (.graph (.extend (.values [⟨"y"⟩] [[some (.iri ⟨"b"⟩)]]) ⟨"y"⟩ (.var ⟨"x"⟩)) (.var ⟨"g"⟩))
    false

/-- The pairs of ends of edges with a common start, in any graph. -/
def sampleForks : Node :=
  .graph (.bgp [.path (.var ⟨"x"⟩) (.sequence (.property ⟨"p"⟩ true) (.property ⟨"p"⟩ false))
    (.var ⟨"y"⟩)]) (.var ⟨"g"⟩)

/-- An evaluator of a query on `sampleGraphs`. -/
def sampleEvaluator : Evaluator :=
  fresh sampleGraphsContext.view sampleGraphsContext.environment

/-- The environment of another query, which looks at the clock more often. -/
def sampleEnvironment : Environment :=
  { sampleGraphsContext.environment with queryId := 7, checkInterval := 3 }

/-- No operator is defined elsewhere. -/
def sampleOperators : OperatorRegistry Stateful := fun _ _ => pure .null

/-- The first tree fails within two scopes, and the second one is evaluated all the same. -/
theorem evaluate_after_sample :
    (sampleBroken.isCustomFree = true ∧ sampleForks.isRepeatable = true ∧
      Var.AreGiven sampleForks.occurrences) ∧
      (let used := (sampleEvaluator.evaluate sampleOperators sampleBroken none).2
      used.context = sampleEvaluator.context ∧
        (used.evaluate sampleOperators sampleForks (some 1)).1 =
          ((fresh sampleGraphsContext.view sampleEnvironment).evaluate sampleOperators
            sampleForks (some 1)).1) ∧
      (sampleEvaluator.evaluate sampleOperators sampleBroken none).1 =
        .error (.variableAlreadyBound ⟨"y"⟩) ∧
      ((sampleEvaluator.evaluate sampleOperators sampleBroken none).2.evaluate sampleOperators
        sampleForks (some 1)).1.toOption.map (·.size) = some 1 := by
  have hcustom : sampleBroken.isCustomFree = true := rfl
  have hrepeatable : sampleForks.isRepeatable = true := rfl
  have hgiven : Var.AreGiven sampleForks.occurrences := .of_all (by decide +kernel)
  have halike : sampleEvaluator.context.environment.Alike sampleEnvironment :=
    ⟨rfl, rfl, rfl, rfl, rfl⟩
  refine ⟨⟨hcustom, hrepeatable, hgiven⟩, ?_, by decide +kernel, by decide +kernel⟩
  exact evaluate_after sampleOperators (s := sampleEvaluator) rfl rfl halike rfl (fun _ => rfl)
    hcustom hrepeatable hgiven none (some 1)

end Evaluator

end SparqlAlgebra
