import SparqlAlgebra.Evaluation
import SparqlAlgebra.Proofs.Reading
import SparqlAlgebra.Proofs.RunRelations

/-!
# Steady evaluations

Evaluating the same thing twice happens with different counts: solutions and
calls have other numbers, and the clock is looked at at other times. An
evaluation is steady if its outcome does not depend on what was counted before.

* `Eval.Agree` relates two evaluations with the same outcome from any progress,
  at whatever place of a tree; it is a congruence for sequencing, scopes and the
  absorption of errors;
* `Eval.Steady` evaluations agree with themselves, and `Eval.outcome` is the
  one outcome that they have;
* `Meaning.Steady` and `Plan.Steady` lift this to expressions and to plans: every
  operator on steady parts is steady.

Observers are part of it: an evaluation only adds to the log. So what was
recorded on the way to a result is still there at the end.
-/

namespace SparqlAlgebra

/-- The functions whose value changes from call to call. -/
def Builtin.isRandom : Builtin → Bool
  | .bnode | .uuid | .strUuid | .rand => true
  | _ => false

namespace ScalarFunction

theorem unary_context (f : Term → Option Term) (x y : CallContext) :
    unary f x = unary f y := by
  funext args
  rcases args with _ | ⟨a, _ | ⟨b, args⟩⟩ <;> rfl

theorem binary_context (f : Term → Term → Option Term) (x y : CallContext) :
    binary f x = binary f y := by
  funext args
  rcases args with _ | ⟨a, _ | ⟨b, _ | ⟨d, args⟩⟩⟩ <;> rfl

end ScalarFunction

open ScalarFunction in
/-- All other functions depend on their arguments only. -/
theorem Builtin.apply_context {f : Builtin} (h : f.isRandom = false)
    (x y : CallContext) : f.apply x = f.apply y := by
  cases f <;> first
    | exact unary_context _ x y
    | exact binary_context _ x y
    | rfl
    | cases h

/-- Reading does not fail: the dataset can be read and the time is not over. -/
structure Context.Answers (c : Context) : Prop where
  readable : c.view.dataset.IsReadable
  inTime : c.environment.timedOut = false

/-- What makes outcomes repeatable: there is time left, and the builtin functions are
found under their names. Reading may fail; it then fails every time. -/
structure Context.Settled (c : Context) : Prop where
  inTime : c.environment.timedOut = false
  builtin : ∀ f : Builtin, c.environment.functions (.builtin f) = some f.apply

/-- Outcomes are repeatable, and reading does not fail. -/
structure Context.Repeatable (c : Context) : Prop extends c.Answers where
  builtin : ∀ f : Builtin, c.environment.functions (.builtin f) = some f.apply

theorem Context.Repeatable.settled {c : Context} (hc : c.Repeatable) : c.Settled :=
  ⟨hc.inTime, hc.builtin⟩

/-- Two environments that differ in the number of the query and in how often the clock
is looked at. -/
structure Environment.Alike (e e' : Environment) : Prop where
  functions_eq : e'.functions = e.functions
  services_eq : e'.services = e.services
  base_eq : e'.base = e.base
  timedOut_eq : e'.timedOut = e.timedOut
  isDryRun_eq : e'.isDryRun = e.isDryRun

theorem Environment.Alike.refl (e : Environment) : e.Alike e := ⟨rfl, rfl, rfl, rfl, rfl⟩

theorem Environment.Alike.symm {e e' : Environment} (h : e.Alike e') : e'.Alike e :=
  ⟨h.functions_eq.symm, h.services_eq.symm, h.base_eq.symm, h.timedOut_eq.symm,
    h.isDryRun_eq.symm⟩

theorem Environment.Alike.trans {e e' e'' : Environment} (h : e.Alike e') (k : e'.Alike e'') :
    e.Alike e'' :=
  ⟨k.functions_eq.trans h.functions_eq, k.services_eq.trans h.services_eq,
    k.base_eq.trans h.base_eq, k.timedOut_eq.trans h.timedOut_eq,
    k.isDryRun_eq.trans h.isDryRun_eq⟩

/-- Two runs have only added to the logs that they started with. -/
structure Progress.LogsGrow (p q p' q' : Progress) : Prop where
  first : p.log <:+ p'.log
  second : q.log <:+ q'.log

namespace Progress.LogsGrow

variable {p q p' q' p'' q'' : Progress}

theorem refl (p q : Progress) : p.LogsGrow q p q := ⟨List.suffix_rfl, List.suffix_rfl⟩

theorem trans (h : p.LogsGrow q p' q') (k : p'.LogsGrow q' p'' q'') : p.LogsGrow q p'' q'' :=
  ⟨h.first.trans k.first, h.second.trans k.second⟩

end Progress.LogsGrow

/-- Two contexts that only seeds, observers and random functions tell apart. -/
structure Context.Alongside (c c' : Context) : Prop where
  view_eq : c'.view = c.view
  environment : c.environment.Alike c'.environment

/-- Two contexts that only observers and random functions tell apart. -/
structure Context.Similar (c c' : Context) : Prop extends c.Alongside c' where
  seed_eq : c'.seed = c.seed

namespace Context

variable {c c' : Context}

theorem Alongside.refl (c : Context) : c.Alongside c := ⟨rfl, .refl _⟩

theorem Similar.refl (c : Context) : c.Similar c := ⟨.refl c, rfl⟩

theorem Similar.symm (h : c.Similar c') : c'.Similar c :=
  ⟨⟨h.view_eq.symm, h.environment.symm⟩, h.seed_eq.symm⟩

theorem Similar.trans {c'' : Context} (h : c.Similar c') (k : c'.Similar c'') : c.Similar c'' :=
  ⟨⟨k.view_eq.trans h.view_eq, h.environment.trans k.environment⟩, k.seed_eq.trans h.seed_eq⟩

theorem Settled.of_alongside (hc : c.Settled) (h : c.Alongside c') : c'.Settled := by
  constructor
  · rw [h.environment.timedOut_eq]
    exact hc.inTime
  · rw [h.environment.functions_eq]
    exact hc.builtin

theorem Settled.of_similar (hc : c.Settled) (h : c.Similar c') : c'.Settled :=
  hc.of_alongside h.toAlongside

/-- A change of contexts that keeps outcomes repeatable and does not look at
what is for observers. -/
structure IsScope (change : Context → Context) : Prop where
  settled : ∀ c, c.Settled → (change c).Settled
  similar : ∀ c c', c.Similar c' → (change c).Similar (change c')

theorem isScope_place (f : Option (List Nat) → Option (List Nat)) :
    IsScope fun c => { c with place := f c.place } :=
  ⟨fun _ hc => ⟨hc.inTime, hc.builtin⟩, fun _ _ h => ⟨⟨h.view_eq, h.environment⟩, h.seed_eq⟩⟩

theorem isScope_depth : IsScope fun c => { c with depth := c.depth + 1 } :=
  ⟨fun _ hc => ⟨hc.inTime, hc.builtin⟩, fun _ _ h => ⟨⟨h.view_eq, h.environment⟩, h.seed_eq⟩⟩

theorem isScope_seed (f : Option Binding → Option Binding) :
    IsScope fun c => { c with seed := f c.seed } :=
  ⟨fun _ hc => ⟨hc.inTime, hc.builtin⟩,
    fun _ _ h => ⟨⟨h.view_eq, h.environment⟩, congrArg f h.seed_eq⟩⟩

theorem isScope_graph (g : ActiveGraph) :
    IsScope fun c => { c with view := c.view.enter g } :=
  ⟨fun _ hc => ⟨hc.inTime, hc.builtin⟩,
    fun _ _ h => ⟨⟨congrArg (·.enter g) h.view_eq, h.environment⟩, h.seed_eq⟩⟩

end Context

namespace Eval

variable {α β : Type}

/-! ## Related evaluations -/

/-- In related contexts two evaluations have the same error or related results, whatever
was counted before either of them, and only add to the log. -/
def RelatedIn (C : Context → Context → Prop) (R : α → β → Prop) (x : Eval α) (y : Eval β) :
    Prop :=
  ∀ c c' : Context, c.Settled → C c c' → ∀ p q,
    RelatedRuns (p.LogsGrow q) neverStops R (x.runFrom c p) (y.runFrom c' q)

section Related

variable {γ δ : Type} {C C' : Context → Context → Prop} {R R' : α → β → Prop} {S : γ → δ → Prop}

theorem RelatedIn.mono {x : Eval α} {y : Eval β} (h : RelatedIn C R x y)
    (hR : ∀ a b, R a b → R' a b) : RelatedIn C R' x y := fun c c' hc hs p q =>
  (h c c' hc hs p q).mono (fun _ _ hlogs => hlogs) (fun _ he => he) hR

theorem RelatedIn.pure {a : α} {b : β} (h : R a b) :
    RelatedIn C R (Pure.pure a) (Pure.pure b) := fun _ _ _ _ p q => .pure h (.refl p q)

theorem RelatedIn.fail (e : QueryError) : RelatedIn C R (Eval.fail e) (Eval.fail e) :=
  fun _ _ _ _ p q => .fail e (.refl p q)

theorem RelatedIn.bind {x : Eval α} {y : Eval β} {f : α → Eval γ} {g : β → Eval δ}
    (h : RelatedIn C R x y) (k : ∀ a b, R a b → RelatedIn C S (f a) (g b)) :
    RelatedIn C S (x >>= f) (y >>= g) := fun c c' hc hs p q =>
  (h c c' hc hs p q).bind fun a b p' q' hab hlogs =>
    (k a b hab c c' hc hs p' q').counting fun _ _ => hlogs.trans

/-- Both evaluations read their contexts. -/
theorem RelatedIn.read_bind {f : Context → Eval α} {g : Context → Eval β}
    (h : ∀ c c', c.Settled → C c c' → RelatedIn C R (f c) (g c')) :
    RelatedIn C R (read >>= f) (read >>= g) := fun c c' hc hs p q =>
  .read_bind (h c c' hc hs c c' hc hs p q)

/-- Different numbers of solutions lead to related results. -/
theorem RelatedIn.newSolutionId {f : Nat → Eval α} {g : Nat → Eval β}
    (h : ∀ i j, RelatedIn C R (f i) (g j)) :
    RelatedIn C R (newSolutionId >>= f) (newSolutionId >>= g) := fun c c' hc hs p q =>
  .bind_ok (runFrom_newSolutionId c p) (runFrom_newSolutionId c' q)
    ((h _ _ c c' hc hs _ _).counting fun _ _ hlogs => ⟨hlogs.first, hlogs.second⟩)

/-- Different numbers of calls lead to related results. -/
theorem RelatedIn.newCall {f : Nat → Eval α} {g : Nat → Eval β}
    (h : ∀ i j, RelatedIn C R (f i) (g j)) :
    RelatedIn C R (newCall >>= f) (newCall >>= g) := fun c c' hc hs p q =>
  .bind_ok (runFrom_newCall c p) (runFrom_newCall c' q)
    ((h _ _ c c' hc hs _ _).counting fun _ _ hlogs => ⟨hlogs.first, hlogs.second⟩)

/-- A change of contexts after which they are related in another way. -/
theorem RelatedIn.within_scope {x : Eval α} {y : Eval β} (h : RelatedIn C' R x y)
    {change : Context → Context} (hsettled : ∀ c, c.Settled → (change c).Settled)
    (hchange : ∀ c c', C c c' → C' (change c) (change c')) :
    RelatedIn C R (x.within change) (y.within change) := by
  intro c c' hc hs p q
  rw [runFrom_within, runFrom_within]
  exact h (change c) (change c') (hsettled c hc) (hchange c c' hs) p q

/-- The same errors are absorbed. -/
theorem RelatedIn.absorb {x : Eval α} {y : Eval β} (h : RelatedIn C R x y) :
    RelatedIn C (RelatedOutcomes R) x.absorb y.absorb := fun c c' hc hs p q =>
  (h c c' hc hs p q).absorb fun _ he => he.elim

end Related

/-! ## Agreement -/

/-- In related contexts two evaluations have the same outcome, whatever was counted
before either of them, and only add to the log. -/
abbrev AgreeIn (C : Context → Context → Prop) (x y : Eval α) : Prop := RelatedIn C Eq x y

/-- Two evaluations have the same outcome, also at different places of a tree. -/
abbrev Agree (x y : Eval α) : Prop := x.AgreeIn Context.Similar y

/-- The outcome does not depend on what was counted before. -/
abbrev Steady (x : Eval α) : Prop := x.Agree x

/-- The outcome of an evaluation that has not counted anything yet. -/
def outcome (x : Eval α) (c : Context) : Except QueryError α :=
  (x.runFrom c (.initial c.environment)).1

/-- What the runs of two evaluations that agree have in common. -/
theorem AgreeIn.run {C : Context → Context → Prop} {x y : Eval α} (h : x.AgreeIn C y)
    {c c' : Context} (hc : c.Settled) (hs : C c c') (p q : Progress) :
    (x.runFrom c p).1 = (y.runFrom c' q).1 ∧ p.LogsGrow q (x.runFrom c p).2 (y.runFrom c' q).2 :=
  ⟨(h c c' hc hs p q).outcomes.eq fun _ _ heq => heq, (h c c' hc hs p q).counts⟩

theorem AgreeIn.of_runs {C : Context → Context → Prop} {x y : Eval α}
    (h : ∀ c c' : Context, c.Settled → C c c' → ∀ p q,
      (x.runFrom c p).1 = (y.runFrom c' q).1 ∧
        p.LogsGrow q (x.runFrom c p).2 (y.runFrom c' q).2) : x.AgreeIn C y := fun c c' hc hs p q =>
  .of_outcomes (.of_eq (h c c' hc hs p q).1) (h c c' hc hs p q).2

theorem AgreeIn.mono {C C' : Context → Context → Prop} {x y : Eval α} (h : x.AgreeIn C y)
    (hC : ∀ c c', C' c c' → C c c') : x.AgreeIn C' y :=
  fun c c' hc hs => h c c' hc (hC c c' hs)

/-- What agrees whatever the seeds are agrees for equal ones. -/
theorem AgreeIn.agree {x y : Eval α} (h : x.AgreeIn Context.Alongside y) : x.Agree y :=
  h.mono fun _ _ hs => hs.toAlongside

theorem Agree.symm {x y : Eval α} (h : x.Agree y) : y.Agree x := by
  refine AgreeIn.of_runs fun c c' hc hs p q => ?_
  obtain ⟨houtcome, hlogs⟩ := h.run (hc.of_similar hs) hs.symm q p
  exact ⟨houtcome.symm, hlogs.second, hlogs.first⟩

theorem Agree.trans {x y z : Eval α} (h : x.Agree y) (k : y.Agree z) :
    x.Agree z := by
  refine AgreeIn.of_runs fun c c' hc hs p q => ?_
  obtain ⟨hxy, hlogs⟩ := h.run hc (.refl c) p p
  obtain ⟨hyz, hlogs'⟩ := k.run hc hs p q
  exact ⟨hxy.trans hyz, hlogs.first, hlogs'.second⟩

theorem Agree.steady {x y : Eval α} (h : x.Agree y) : x.Steady :=
  h.trans h.symm

theorem Steady.fst_runFrom {x : Eval α} (h : x.Steady) {c : Context}
    (hc : c.Repeatable) (p : Progress) :
    (x.runFrom c p).1 = x.outcome c := (h.run hc.settled (.refl c) p _).1

theorem Steady.outcome_congr {x : Eval α} (h : x.Steady) {c c' : Context}
    (hc : c.Repeatable) (hs : c.Similar c') : x.outcome c' = x.outcome c :=
  (h.run hc.settled hs _ _).1.symm

theorem Steady.outcome_of_runFrom {x : Eval α} (h : x.Steady) {c : Context}
    (hc : c.Repeatable) {p q : Progress} {r : Except QueryError α}
    (hr : x.runFrom c p = (r, q)) : x.outcome c = r := by
  rw [← h.fst_runFrom hc p, hr]

theorem Steady.log_suffix {x : Eval α} (h : x.Steady) {c : Context}
    (hc : c.Repeatable) {p q : Progress} {r : Except QueryError α}
    (hr : x.runFrom c p = (r, q)) : p.log <:+ q.log := by
  simpa [hr] using (h.run hc.settled (.refl c) p p).2.first

/-! ## Sequencing -/

variable {C C' : Context → Context → Prop}

theorem AgreeIn.pure (a : α) : (pure a : Eval α).AgreeIn C (pure a) := RelatedIn.pure rfl

theorem AgreeIn.fail (e : QueryError) : (fail e : Eval α).AgreeIn C (fail e) := RelatedIn.fail e

/-- What follows the same result. -/
theorem AgreeIn.bind_related {γ δ : Type} {S : γ → δ → Prop} {x y : Eval α} {f : α → Eval γ}
    {g : α → Eval δ} (h : x.AgreeIn C y) (k : ∀ a, RelatedIn C S (f a) (g a)) :
    RelatedIn C S (x >>= f) (y >>= g) := by
  refine RelatedIn.bind h fun a b hab => ?_
  subst hab
  exact k a

theorem AgreeIn.bind {x y : Eval α} {f g : α → Eval β} (h : x.AgreeIn C y)
    (k : ∀ a, (f a).AgreeIn C (g a)) : (x >>= f).AgreeIn C (y >>= g) := h.bind_related k

theorem Agree.within {x y : Eval α} (h : x.Agree y) {change : Context → Context}
    (hchange : Context.IsScope change) :
    (x.within change).Agree (y.within change) :=
  h.within_scope hchange.settled hchange.similar

/-- A change that only observers notice. -/
theorem Agree.within_observed {x y : Eval α} (h : x.Agree y)
    {change : Context → Context} (hchange : ∀ c : Context, c.Similar (change c)) :
    (x.within change).Agree y := by
  intro c c' hc hs p q
  have hsimilar : (change c).Similar c' := (hchange c).symm.trans hs
  rw [runFrom_within]
  exact h _ _ (hc.of_similar (hchange c)) hsimilar p q

/-- Under a seed it does not matter which seeds there were before. -/
theorem Agree.withSeed_alongside {x y : Eval α} (h : x.Agree y) (seed : Option Binding) :
    (x.withSeed seed).AgreeIn Context.Alongside (y.withSeed seed) :=
  h.within_scope (fun _ hc => ⟨hc.inTime, hc.builtin⟩)
    fun _ _ hs => ⟨⟨hs.view_eq, hs.environment⟩, rfl⟩

theorem Agree.withSeed {x y : Eval α} (h : x.Agree y) (seed : Option Binding) :
    (x.withSeed seed).Agree (y.withSeed seed) := (h.withSeed_alongside seed).agree

theorem Agree.withGraph {x y : Eval α} (h : x.Agree y) (g : ActiveGraph) :
    (x.withGraph g).Agree (y.withGraph g) := h.within (Context.isScope_graph g)

theorem AgreeIn.absorb {x y : Eval α} (h : x.AgreeIn C y) : x.absorb.AgreeIn C y.absorb :=
  (RelatedIn.absorb h).mono fun _ _ hr => hr.eq fun _ _ heq => heq

/-! ## Primitives -/

theorem AgreeIn.ofOption (o : Option α) : (ofOption o).AgreeIn C (ofOption o) :=
  fun _ _ _ _ p q => .ofOption o (.refl p q)

theorem AgreeIn.ofReading (r : Except String α) : (ofReading r).AgreeIn C (ofReading r) :=
  fun _ _ _ _ p q => .ofReading r (.refl p q)

theorem runFrom_tick_ok {c : Context} (h : c.environment.timedOut = false)
    (p : Progress) : ∃ n, tick.runFrom c p = (.ok (), { p with countdown := n }) := by
  have hget : (get : Eval Progress).runFrom c p = (.ok p, p) := rfl
  unfold tick
  rw [runFrom_bind_ok c p hget]
  by_cases hn : p.countdown ≤ 1
  · refine ⟨c.environment.interval, ?_⟩
    rw [if_pos hn, runFrom_bind_ok c p (runFrom_read c p)]
    exact (runFrom_checkTime c _).trans (by rw [h]; rfl)
  · exact ⟨p.countdown - 1, by rw [if_neg hn]; rfl⟩

section Alongside

variable (hC : ∀ c c', C c c' → c.Alongside c')

include hC

theorem AgreeIn.triples (s : Option Term) (i : Option Iri) (o : Option Term) :
    (triples s i o).AgreeIn C (triples s i o) := fun c c' _ hs p q =>
  .triples (hC c c' hs).view_eq s i o (.refl p q)

/-- The clock is looked at at other times, but there is time left. -/
theorem AgreeIn.tick : tick.AgreeIn C tick := by
  refine AgreeIn.of_runs fun c c' hc hs p q => ?_
  obtain ⟨n, hp⟩ := runFrom_tick_ok hc.inTime p
  obtain ⟨m, hq⟩ := runFrom_tick_ok (hc.of_alongside (hC c c' hs)).inTime q
  rw [hp, hq]
  exact ⟨rfl, List.suffix_rfl, List.suffix_rfl⟩

theorem AgreeIn.checkTime : checkTime.AgreeIn C checkTime := fun c c' _ hs p q =>
  .checkTime (hC c c' hs).environment.timedOut_eq (.refl p q)

end Alongside

theorem AgreeIn.record (e e' : Event) : (record e).AgreeIn C (record e') := by
  refine AgreeIn.of_runs fun c c' _ _ p q => ?_
  rw [runFrom_record, runFrom_record]
  exact ⟨rfl, List.suffix_cons _ _, List.suffix_cons _ _⟩

theorem Agree.triples (s : Option Term) (i : Option Iri) (o : Option Term) :
    (Eval.triples s i o).Steady := AgreeIn.triples (fun _ _ hs => hs.toAlongside) s i o

theorem Agree.tick : Eval.tick.Steady := AgreeIn.tick fun _ _ hs => hs.toAlongside

theorem Agree.checkTime : Eval.checkTime.Steady :=
  AgreeIn.checkTime fun _ _ hs => hs.toAlongside

/-! ## Outcomes of steady evaluations -/

variable {c : Context}

@[simp] theorem outcome_pure (a : α) : (pure a : Eval α).outcome c = .ok a := rfl

/-- The outcome of a sequence is that of its parts in sequence. -/
theorem outcome_bind {x : Eval α} {f : α → Eval β} (hf : ∀ a, (f a).Steady)
    (hc : c.Repeatable) :
    (x >>= f).outcome c = x.outcome c >>= fun a => (f a).outcome c := by
  unfold outcome
  rw [runFrom_bind]
  rcases x.runFrom c (.initial c.environment) with ⟨r, p⟩
  cases r with
  | error e => rfl
  | ok a => exact (AgreeIn.run (hf a) hc.settled (.refl c) _ _).1

theorem outcome_bind_ok {x : Eval α} {f : α → Eval β} {a : α}
    (hf : ∀ a, (f a).Steady) (hc : c.Repeatable)
    (h : x.outcome c = .ok a) : (x >>= f).outcome c = (f a).outcome c := by
  rw [outcome_bind hf hc, h]
  rfl

/-- Both parts of a sequence succeed if the sequence does. -/
theorem outcome_bind_eq_ok {x : Eval α} {f : α → Eval β} {b : β}
    (h : (x >>= f).outcome c = .ok b) (hf : ∀ a, (f a).Steady)
    (hc : c.Repeatable) :
    ∃ a, x.outcome c = .ok a ∧ (f a).outcome c = .ok b := by
  rw [outcome_bind hf hc] at h
  cases hx : x.outcome c with
  | error e =>
    rw [hx] at h
    cases h
  | ok a =>
    rw [hx] at h
    exact ⟨a, rfl, h⟩

theorem outcome_read_bind {f : Context → Eval α} :
    (read >>= f).outcome c = (f c).outcome c := by
  unfold outcome
  rw [runFrom_bind_ok c _ (runFrom_read c _)]

theorem outcome_tick (hc : c.Repeatable) :
    tick.outcome c = .ok () := by
  obtain ⟨n, h⟩ := runFrom_tick_ok hc.inTime (.initial c.environment)
  simp [outcome, h]

/-- Both parts of a sequence that succeeds succeed. -/
theorem runFrom_bind_eq_ok {x : Eval α} {f : α → Eval β} {b : β}
    {p q : Progress} (h : (x >>= f).runFrom c p = (.ok b, q)) :
    ∃ a p', x.runFrom c p = (.ok a, p') ∧ (f a).runFrom c p' = (.ok b, q) := by
  rw [runFrom_bind] at h
  rcases hx : x.runFrom c p with ⟨r, p'⟩
  rw [hx] at h
  cases r with
  | ok a => exact ⟨a, p', rfl, h⟩
  | error e => simp at h

/-- A run of which some value is known succeeds. -/
theorem exists_ok_of_map {x : Eval α} {p : Progress} {f : α → β} {b : β}
    (h : (x.runFrom c p).1.toOption.map f = some b) :
    ∃ a q, x.runFrom c p = (.ok a, q) ∧ f a = b := by
  rcases hx : x.runFrom c p with ⟨r, q⟩
  rw [hx] at h
  cases r with
  | ok a => exact ⟨a, q, rfl, Option.some.inj h⟩
  | error e => cases h

end Eval

/-! ## Queries on data in memory -/

/-- A query on data in memory, with the builtin functions and with time left,
that starts from no solution. -/
structure Context.IsOnMemory (c : Context) : Prop where
  memory : ∃ d : MemoryDataset, c.view.dataset = d.toDataset
  builtin : ∀ f : Builtin, c.environment.functions (.builtin f) = some f.apply
  inTime : c.environment.timedOut = false
  real : c.environment.isDryRun = false
  unseeded : c.seed = none

theorem Context.IsOnMemory.answers {c : Context} (h : c.IsOnMemory) : c.Answers := by
  obtain ⟨d, hd⟩ := h.memory
  exact ⟨hd ▸ d.isReadable, h.inTime⟩

theorem Context.IsOnMemory.repeatable {c : Context} (h : c.IsOnMemory) : c.Repeatable :=
  ⟨h.answers, h.builtin⟩

/-- Two edges of one predicate, one behind the other. -/
def sampleData : MemoryDataset :=
  .ofQuads [⟨.iri ⟨"a"⟩, ⟨"p"⟩, .iri ⟨"b"⟩, .default⟩,
    ⟨.iri ⟨"b"⟩, ⟨"p"⟩, .iri ⟨"c"⟩, .default⟩]

/-- A service that knows the name of one node. -/
def sampleService : ServiceHandler := fun _ _ =>
  .ok (.ofRows [⟨"y"⟩, ⟨"name"⟩]
    [.ofEntries [(⟨"y"⟩, .iri ⟨"b"⟩), (⟨"name"⟩, .literal ⟨"Bee", ⟨"string"⟩, none⟩)]])

/-- The pattern that it is asked: nodes with their names. -/
def sampleNames : Query.Pattern :=
  .bgp [⟨.var ⟨"y"⟩, .term (.iri ⟨"name"⟩), .var ⟨"name"⟩⟩]

/-- A query on `sampleData`. -/
def sampleContext : Context :=
  .initial ⟨sampleData.toDataset, .default, none, []⟩
    ⟨.builtins, some sampleService, none, false, 1024, 0, false⟩

theorem sampleContext_isOnMemory : sampleContext.IsOnMemory :=
  ⟨⟨sampleData, rfl⟩, fun _ => rfl, rfl, rfl, rfl⟩

end SparqlAlgebra
