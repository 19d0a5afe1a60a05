import SparqlAlgebra.Evaluation.State

/-!
# Running evaluations

What `runFrom` shows of each primitive: its outcome and the progress after it.
An evaluation that fails ends the evaluations after it, and scopes change the
context of what is inside them only.
-/

namespace SparqlAlgebra.Eval

variable {α β : Type} (c : Context) (p : Progress)

/-! ## Control -/

@[simp] theorem runFrom_pure (a : α) :
    (pure a : Eval α).runFrom c p = (.ok a, p) := rfl

theorem runFrom_bind (x : Eval α) (f : α → Eval β) :
    (x >>= f).runFrom c p =
      match x.runFrom c p with
      | (.ok a, q) => (f a).runFrom c q
      | (.error e, q) => (.error e, q) := by
  unfold runFrom
  simp only [bind, ReaderT.bind, ReaderT.run, ExceptT.bind, ExceptT.mk,
    ExceptT.run, StateT.bind, StateT.run]
  rcases x c p with ⟨r, q⟩
  cases r <;> rfl

theorem runFrom_bind_ok {x : Eval α} {f : α → Eval β} {a : α} {q : Progress}
    (h : x.runFrom c p = (.ok a, q)) :
    (x >>= f).runFrom c p = (f a).runFrom c q := by
  rw [runFrom_bind, h]

theorem runFrom_bind_error {x : Eval α} {f : α → Eval β} {e : QueryError}
    {q : Progress} (h : x.runFrom c p = (.error e, q)) :
    (x >>= f).runFrom c p = (.error e, q) := by
  rw [runFrom_bind, h]

@[simp] theorem runFrom_fail (e : QueryError) :
    (fail e : Eval α).runFrom c p = (.error e, p) := rfl

@[simp] theorem runFrom_read :
    (read : Eval Context).runFrom c p = (.ok c, p) := rfl

@[simp] theorem runFrom_within (change : Context → Context) (x : Eval α) :
    (x.within change).runFrom c p = x.runFrom (change c) p := rfl

/-- Errors that are not absorbable pass through. -/
theorem runFrom_absorb (x : Eval α) :
    x.absorb.runFrom c p =
      match x.runFrom c p with
      | (.ok a, q) => (.ok (.ok a), q)
      | (.error e, q) =>
        if e.isAbsorbable then (.ok (.error e), q) else (.error e, q) := by
  unfold absorb runFrom
  simp only [bind, ReaderT.run, ExceptT.mk, ExceptT.run, StateT.bind,
    StateT.run]
  rcases x c p with ⟨r, q⟩
  cases r with
  | ok a => rfl
  | error e => by_cases h : e.isAbsorbable = true <;> simp [h] <;> rfl

@[simp] theorem runFrom_ofOption (o : Option α) :
    (ofOption o).runFrom c p =
      match o with
      | some a => (.ok a, p)
      | none => (.error .invalidArgument, p) := by
  cases o <;> rfl

/-! ## Counting -/

@[simp] theorem runFrom_checkTime :
    checkTime.runFrom c p =
      (if c.environment.timedOut then .error .timeout else .ok (), p) := by
  unfold checkTime
  rw [runFrom_bind_ok c p (runFrom_read c p)]
  by_cases h : c.environment.timedOut = true
  · simp [h]
  · simp [h]

@[simp] theorem runFrom_newSolutionId :
    newSolutionId.runFrom c p =
      (.ok (p.solutions + 1), { p with solutions := p.solutions + 1 }) := rfl

@[simp] theorem runFrom_freshVar :
    freshVar.runFrom c p =
      (.ok ⟨"__path" ++ toString (p.vars + 1)⟩,
        { p with vars := p.vars + 1 }) := rfl

@[simp] theorem runFrom_newCall :
    newCall.runFrom c p =
      (.ok p.calls, { p with calls := p.calls + 1 }) := rfl

@[simp] theorem runFrom_record (e : Event) :
    (record e).runFrom c p = (.ok (), { p with log := e :: p.log }) := rfl

/-! ## Reading and scopes -/

@[simp] theorem runFrom_ofReading (r : Except String α) :
    (ofReading r).runFrom c p =
      match r with
      | .ok a => (.ok a, p)
      | .error text => (.error (.storage text), p) := by
  cases r <;> rfl

@[simp] theorem runFrom_triples (s : Option Term) (i : Option Iri)
    (o : Option Term) :
    (triples s i o).runFrom c p =
      (ofReading (c.view.triples s i o)).runFrom c p := rfl

@[simp] theorem runFrom_nodes :
    nodes.runFrom c p = (ofReading c.view.nodes).runFrom c p := rfl

@[simp] theorem runFrom_withSeed (seed : Option Binding) (x : Eval α) :
    (x.withSeed seed).runFrom c p = x.runFrom { c with seed := seed } p := rfl

@[simp] theorem runFrom_withGraph (g : ActiveGraph) (x : Eval α) :
    (x.withGraph g).runFrom c p =
      x.runFrom { c with view := c.view.enter g } p := rfl

end SparqlAlgebra.Eval
