import SparqlAlgebra.Evaluation.State.Lemmas

/-!
# Two runs side by side

Two evaluations are run, each in its context and from its progress. What two such runs may
have in common has always the same shape: a relation of their results, and a relation of
what they have counted, which is kept from step to step. Sometimes the first run may also
stop alone, with errors of a certain kind.

* `RelatedOutcomes`: the same error, or related results;
* `Eval.RelatedRuns` is what two runs have in common;
* one rule for each way in which evaluations are made of others, and for the primitives.

The relations of evaluations that are used elsewhere differ in the contexts and in the
progress that they start from, and in what they say of counts and errors; their rules for
sequences, for reading the context and for absorbed errors are the ones stated here.
-/

namespace SparqlAlgebra

/-- Two outcomes are the same error, or results that are related. -/
inductive RelatedOutcomes {α β : Type} (R : α → β → Prop) :
    Except QueryError α → Except QueryError β → Prop
  | ok {a : α} {b : β} (h : R a b) : RelatedOutcomes R (.ok a) (.ok b)
  | error (e : QueryError) : RelatedOutcomes R (.error e) (.error e)

theorem RelatedOutcomes.eq {α : Type} {R : α → α → Prop} {r r' : Except QueryError α}
    (h : RelatedOutcomes R r r') (hR : ∀ a b, R a b → a = b) : r = r' := by
  cases h with
  | ok hab => rw [hR _ _ hab]
  | error e => rfl

theorem RelatedOutcomes.of_eq {α : Type} {r r' : Except QueryError α} (h : r = r') :
    RelatedOutcomes Eq r r' := by
  subst h
  cases r with
  | ok a => exact .ok rfl
  | error e => exact .error e

theorem RelatedOutcomes.mono {α β : Type} {R S : α → β → Prop} {r : Except QueryError α}
    {r' : Except QueryError β} (h : RelatedOutcomes R r r') (hR : ∀ a b, R a b → S a b) :
    RelatedOutcomes S r r' := by
  cases h with
  | ok hab => exact .ok (hR _ _ hab)
  | error e => exact .error e

namespace Eval

variable {α β γ δ : Type} {J J' : Progress → Progress → Prop} {stops stops' : QueryError → Prop}
  {R : α → β → Prop} {S : γ → δ → Prop} {c c' : Context} {p p' : Progress}

/-- Two runs end with the same error or with related results, and what they have counted is
related too; or the first one has stopped with an error with which it may stop alone. -/
inductive RelatedRuns (J : Progress → Progress → Prop) (stops : QueryError → Prop) {α β : Type}
    (R : α → β → Prop) : Except QueryError α × Progress → Except QueryError β × Progress → Prop
  | ok {a : α} {b : β} {p p' : Progress} (h : R a b) (hJ : J p p') :
    RelatedRuns J stops R (.ok a, p) (.ok b, p')
  | error (e : QueryError) {p p' : Progress} (hJ : J p p') :
    RelatedRuns J stops R (.error e, p) (.error e, p')
  | stopped {e : QueryError} (he : stops e) (p : Progress) (run : Except QueryError β × Progress) :
    RelatedRuns J stops R (.error e, p) run

/-- The first run stops only where the second one does. -/
abbrev neverStops : QueryError → Prop := fun _ => False

namespace RelatedRuns

variable {run : Except QueryError α × Progress} {run' : Except QueryError β × Progress}

theorem of_outcomes (h : RelatedOutcomes R run.1 run'.1) (hJ : J run.2 run'.2) :
    RelatedRuns J stops R run run' := by
  obtain ⟨r, q⟩ := run
  obtain ⟨r', q'⟩ := run'
  cases h with
  | ok hab => exact .ok hab hJ
  | error e => exact .error e hJ

theorem outcomes (h : RelatedRuns J neverStops R run run') : RelatedOutcomes R run.1 run'.1 := by
  cases h with
  | ok hab _ => exact .ok hab
  | error e _ => exact .error e
  | stopped he => exact he.elim

theorem counts (h : RelatedRuns J neverStops R run run') : J run.2 run'.2 := by
  cases h with
  | ok _ hJ => exact hJ
  | error _ hJ => exact hJ
  | stopped he => exact he.elim

theorem refl (hJ : ∀ q, J q q) (run : Except QueryError α × Progress) :
    RelatedRuns J stops Eq run run :=
  .of_outcomes (.of_eq rfl) (hJ run.2)

theorem mono {R' : α → β → Prop} (h : RelatedRuns J stops R run run')
    (hJ : ∀ q q', J q q' → J' q q') (hstops : ∀ e, stops e → stops' e)
    (hR : ∀ a b, R a b → R' a b) : RelatedRuns J' stops' R' run run' := by
  cases h with
  | ok hab hcounts => exact .ok (hR _ _ hab) (hJ _ _ hcounts)
  | error e hcounts => exact .error e (hJ _ _ hcounts)
  | stopped he q => exact .stopped (hstops _ he) q _

/-- What is counted is related in another way. -/
theorem counting (h : RelatedRuns J stops R run run') (hJ : ∀ q q', J q q' → J' q q') :
    RelatedRuns J' stops R run run' := h.mono hJ (fun _ he => he) fun _ _ hab => hab

/-! ## Control -/

theorem pure {a : α} {b : β} (h : R a b) (hJ : J p p') :
    RelatedRuns J stops R ((pure a : Eval α).runFrom c p) ((pure b : Eval β).runFrom c' p') :=
  .ok h hJ

theorem fail (e : QueryError) (hJ : J p p') :
    RelatedRuns J stops R ((fail e : Eval α).runFrom c p) ((fail e : Eval β).runFrom c' p') :=
  .error e hJ

/-- What follows may use what the first parts have come to. -/
theorem bind_of_runs {x : Eval α} {y : Eval β} {f : α → Eval γ} {g : β → Eval δ}
    (h : RelatedRuns J stops R (x.runFrom c p) (y.runFrom c' p'))
    (k : ∀ a b q q', x.runFrom c p = (.ok a, q) → R a b → J q q' →
      RelatedRuns J stops S ((f a).runFrom c q) ((g b).runFrom c' q')) :
    RelatedRuns J stops S ((x >>= f).runFrom c p) ((y >>= g).runFrom c' p') := by
  rw [runFrom_bind, runFrom_bind]
  rcases hx : x.runFrom c p with ⟨r, q⟩
  rcases hy : y.runFrom c' p' with ⟨r', q'⟩
  rw [hx, hy] at h
  cases h with
  | ok hab hJ => exact k _ _ q q' hx hab hJ
  | error e hJ => exact .error e hJ
  | stopped he => exact .stopped he q _

theorem bind {x : Eval α} {y : Eval β} {f : α → Eval γ} {g : β → Eval δ}
    (h : RelatedRuns J stops R (x.runFrom c p) (y.runFrom c' p'))
    (k : ∀ a b q q', R a b → J q q' →
      RelatedRuns J stops S ((f a).runFrom c q) ((g b).runFrom c' q')) :
    RelatedRuns J stops S ((x >>= f).runFrom c p) ((y >>= g).runFrom c' p') :=
  h.bind_of_runs fun a b q q' _ => k a b q q'

/-- Both runs begin with a step that succeeds. -/
theorem bind_ok {x : Eval α} {y : Eval β} {f : α → Eval γ} {g : β → Eval δ} {a : α} {b : β}
    {q q' : Progress} (hx : x.runFrom c p = (.ok a, q)) (hy : y.runFrom c' p' = (.ok b, q'))
    (h : RelatedRuns J stops S ((f a).runFrom c q) ((g b).runFrom c' q')) :
    RelatedRuns J stops S ((x >>= f).runFrom c p) ((y >>= g).runFrom c' p') := by
  rw [runFrom_bind_ok c p hx, runFrom_bind_ok c' p' hy]
  exact h

theorem read_bind {f : Context → Eval α} {g : Context → Eval β}
    (h : RelatedRuns J stops R ((f c).runFrom c p) ((g c').runFrom c' p')) :
    RelatedRuns J stops R ((read >>= f).runFrom c p) ((read >>= g).runFrom c' p') :=
  bind_ok (runFrom_read c p) (runFrom_read c' p') h

/-- The same errors are absorbed, and those with which the first run may stop are not. -/
theorem absorb {x : Eval α} {y : Eval β} (hstops : ∀ e, stops e → e.isAbsorbable = false)
    (h : RelatedRuns J stops R (x.runFrom c p) (y.runFrom c' p')) :
    RelatedRuns J stops (RelatedOutcomes R) (x.absorb.runFrom c p) (y.absorb.runFrom c' p') := by
  rw [runFrom_absorb, runFrom_absorb]
  rcases hx : x.runFrom c p with ⟨r, q⟩
  rcases hy : y.runFrom c' p' with ⟨r', q'⟩
  rw [hx, hy] at h
  cases h with
  | ok hab hJ => exact .ok (.ok hab) hJ
  | error e hJ =>
    by_cases he : e.isAbsorbable = true
    · simp only [he, if_true]
      exact .ok (.error e) hJ
    · simp only [he]
      exact .error e hJ
  | stopped he =>
    simp only [hstops _ he, Bool.false_eq_true, if_false]
    exact .stopped he q _

/-! ## Primitives -/

theorem ofOption (o : Option α) (hJ : J p p') :
    RelatedRuns J stops Eq ((ofOption o).runFrom c p) ((ofOption o).runFrom c' p') := by
  cases o
  · exact .fail _ hJ
  · exact .pure rfl hJ

theorem ofReading (r : Except String α) (hJ : J p p') :
    RelatedRuns J stops Eq ((ofReading r).runFrom c p) ((ofReading r).runFrom c' p') := by
  cases r
  · exact .fail _ hJ
  · exact .pure rfl hJ

theorem triples (hview : c'.view = c.view) (s : Option Term) (i : Option Iri) (o : Option Term)
    (hJ : J p p') :
    RelatedRuns J stops Eq ((triples s i o).runFrom c p) ((triples s i o).runFrom c' p') := by
  refine read_bind ?_
  rw [hview]
  exact .ofReading _ hJ

theorem nodes (hview : c'.view = c.view) (hJ : J p p') :
    RelatedRuns J stops Eq (nodes.runFrom c p) (nodes.runFrom c' p') := by
  refine read_bind ?_
  rw [hview]
  exact .ofReading _ hJ

theorem checkTime (htime : c'.environment.timedOut = c.environment.timedOut) (hJ : J p p') :
    RelatedRuns J stops Eq (checkTime.runFrom c p) (checkTime.runFrom c' p') := by
  rw [runFrom_checkTime, runFrom_checkTime, htime]
  split
  · exact .error _ hJ
  · exact .ok rfl hJ

/-- Both runs look at the clock at the same time. -/
theorem tick (henvironment : c'.environment = c.environment) (hcount : p'.countdown = p.countdown)
    (hJ : ∀ n, J { p with countdown := n } { p' with countdown := n }) :
    RelatedRuns J stops Eq (tick.runFrom c p) (tick.runFrom c' p') := by
  have hget (c : Context) (p : Progress) :
      (get : Eval Progress).runFrom c p = (.ok p, p) := rfl
  unfold Eval.tick
  rw [runFrom_bind_ok c p (hget c p), runFrom_bind_ok c' p' (hget c' p'), hcount]
  split
  · have hinterval : c'.environment.interval = c.environment.interval := by rw [henvironment]
    refine read_bind ?_
    rw [hinterval]
    exact checkTime (congrArg Environment.timedOut henvironment) (hJ c.environment.interval)
  · exact .ok rfl (hJ (p.countdown - 1))

end RelatedRuns

end Eval

end SparqlAlgebra
