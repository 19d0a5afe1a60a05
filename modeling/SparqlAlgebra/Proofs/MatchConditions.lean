import SparqlAlgebra.Proofs.SteadyTrees

/-!
# Matches as conditions

A group that keeps the solutions with a match, or those without, is a join of its own.
Inside a larger condition the same question is asked by a filter. Both ask the pattern
from each solution in turn, and both ask the left side for more in the same way. They
differ in what becomes of an error that the pattern raises: a condition takes it for
false if it can be absorbed, and the join fails with it.

* `Eval.AgreeUnless` relates an evaluation to another one that absorbs some of its
  errors, with its rules for sequences, scopes and growing demands;
* `Node.existsJoin_outcome`: the join has the outcome of the filter, unless it fails with
  an absorbable error of the pattern for one of the left solutions;
* `Node.existsJoin_raises`: a pattern for which the two differ.
-/

namespace SparqlAlgebra

open Var (AreGiven)

namespace Eval

/-! ## Agreement up to absorbed errors -/

variable {α β : Type} {raised : Context → QueryError → Prop}

/-- Both evaluations have the same outcome, whatever was counted before either of them,
unless the first one fails with an error that may be raised in its context. -/
def AgreeUnless (raised : Context → QueryError → Prop) (x y : Eval α) : Prop :=
  ∀ c c' : Context, c.Settled → c.Similar c' → ∀ p q,
    RelatedRuns (fun _ _ => True) (raised c) Eq (x.runFrom c p) (y.runFrom c' q)

theorem AgreeUnless.eq_or_raised {x y : Eval α} (h : x.AgreeUnless raised y) {c c' : Context}
    (hc : c.Settled) (hs : c.Similar c') (p q : Progress) :
    (x.runFrom c p).1 = (y.runFrom c' q).1 ∨
      ∃ e, (x.runFrom c p).1 = .error e ∧ raised c e := by
  have hruns := h c c' hc hs p q
  rcases hp : x.runFrom c p with ⟨r, p'⟩
  rcases hq : y.runFrom c' q with ⟨r', q'⟩
  rw [hp, hq] at hruns
  cases hruns with
  | ok hab => exact .inl (congrArg Except.ok hab)
  | error e => exact .inl rfl
  | stopped he => exact .inr ⟨_, rfl, he⟩

/-- Which errors may be raised does not depend on what only observers tell apart. -/
def IsObserved (raised : Context → QueryError → Prop) : Prop :=
  ∀ c c' : Context, c.Settled → c.Similar c' → ∀ e, raised c e → raised c' e

theorem Agree.agreeUnless {x y : Eval α} (h : x.Agree y) : x.AgreeUnless raised y :=
  fun c c' hc hs p q =>
    (h c c' hc hs p q).mono (fun _ _ _ => trivial) (fun _ he => he.elim) fun _ _ hab => hab

/-- What comes after a step that is the same on both sides may raise its errors for
what this step can yield only. -/
theorem AgreeUnless.after {x y : Eval α} {f g : α → Eval β} (h : x.Agree y)
    (k : ∀ a, (f a).AgreeUnless (fun c e => x.outcome c = .ok a → raised c e) (g a)) :
    (x >>= f).AgreeUnless raised (y >>= g) := by
  intro c c' hc hs p q
  have hx : (x.runFrom c p).1 = x.outcome c := (h.steady.run hc (.refl c) p _).1
  refine (h.agreeUnless c c' hc hs p q).bind_of_runs fun a b p' q' hp hab _ => ?_
  subst hab
  rw [hp] at hx
  exact (k a c c' hc hs p' q').mono (fun _ _ _ => trivial) (fun _ hraised => hraised hx.symm)
    fun _ _ hab => hab

/-- An error of the first part is one of the sequence. -/
theorem AgreeUnless.bind {x y : Eval α} {f g : α → Eval β} (h : x.AgreeUnless raised y)
    (k : ∀ a, (f a).AgreeUnless raised (g a)) :
    (x >>= f).AgreeUnless raised (y >>= g) := by
  refine fun c c' hc hs p q => (h c c' hc hs p q).bind fun a b p' q' hab _ => ?_
  subst hab
  exact k a c c' hc hs p' q'

/-- What comes after looking at the context is related for any two contexts. -/
theorem AgreeUnless.read_bind {f g : Context → Eval α}
    (h : ∀ c c', (f c).AgreeUnless raised (g c')) :
    (read >>= f).AgreeUnless raised (read >>= g) := fun c c' hc hs p q =>
  .read_bind (h c c' c c' hc hs p q)

theorem AgreeUnless.mono {raised' : Context → QueryError → Prop} {x y : Eval α}
    (h : x.AgreeUnless raised y) (hraised : ∀ c e, raised c e → raised' c e) :
    x.AgreeUnless raised' y := fun c c' hc hs p q =>
  (h c c' hc hs p q).mono (fun _ _ _ => trivial) (hraised c) fun _ _ hab => hab

/-- A scope for observers. -/
theorem AgreeUnless.within {x y : Eval α} (h : x.AgreeUnless raised y)
    (hraised : IsObserved raised) {change : Context → Context}
    (hchange : Context.IsScope change) (hs : ∀ c : Context, c.Similar (change c)) :
    (x.within change).AgreeUnless raised (y.within change) := by
  intro c c' hc hsimilar p q
  have hc' : (change c).Settled := hchange.settled c hc
  rw [runFrom_within, runFrom_within]
  exact (h _ _ hc' (hchange.similar c c' hsimilar) p q).mono (fun _ _ _ => trivial)
    (hraised _ _ hc' (hs c).symm) fun _ _ hab => hab

end Eval

open Eval

/-! ## Rows and demands -/

variable {raised : Context → QueryError → Prop}

theorem Solutions.keepM_agreeUnless {α : Type} {test test' : α → Eval Bool} :
    ∀ {xs : List α}, (∀ x ∈ xs, (test x).AgreeUnless raised (test' x)) →
      (keepM test xs).AgreeUnless raised (keepM test' xs)
  | [], _ => Agree.agreeUnless (.pure _)
  | x :: rest, h => by
    have hrest : (keepM test rest).AgreeUnless raised (keepM test' rest) :=
      keepM_agreeUnless fun y hy => h y (List.mem_cons_of_mem _ hy)
    refine (h x List.mem_cons_self).bind fun holds => hrest.bind fun kept => ?_
    exact Agree.agreeUnless (.pure _)

theorem Solutions.retainM_agreeUnless {s : Solutions} {test test' : Binding → Eval Bool}
    (h : ∀ b ∈ s.rows, (test b).AgreeUnless raised (test' b)) :
    (s.retainM test).AgreeUnless raised (s.retainM test') := by
  cases s with
  | singleton vs => exact Agree.agreeUnless (.pure _)
  | identity | null | table =>
    exact (keepM_agreeUnless h).bind fun _ => Agree.agreeUnless (.pure _)

namespace Plan

variable {source : Plan} {combine combine' : Solutions → Eval Solutions}

/-- The errors that are allowed for some answer of a plan. -/
def RaisedFor (source : Plan) (raised : Solutions → Context → QueryError → Prop)
    (c : Context) (e : QueryError) : Prop :=
  ∃ demand s, (source demand).outcome c = .ok s ∧ raised s c e

/-- Both sides ask for as many solutions in every round: what they made of the last
answer is the same. -/
theorem grow_agreeUnless {raised : Solutions → Context → QueryError → Prop}
    (hsource : source.Steady)
    (h : ∀ s, (combine s).AgreeUnless (raised s) (combine' s)) (wanted asked : Nat) :
    (grow source wanted (fun () found => return (← combine found, ())) asked ()).AgreeUnless
      (source.RaisedFor raised)
      (grow source wanted (fun () found => return (← combine' found, ())) asked ()) := by
  generalize hm : () = memory
  induction asked, memory using grow.induct with
  | case1 asked memory ih =>
    unfold grow
    refine AgreeUnless.after (hsource _) fun found => ?_
    have hcombine : (combine found).AgreeUnless
        (fun c e => (source (some asked)).outcome c = .ok found → source.RaisedFor raised c e)
        (combine' found) :=
      (h found).mono fun c e hr hfound => ⟨some asked, found, hfound, hr⟩
    simp only [bind_assoc, pure_bind]
    refine hcombine.bind fun output => ?_
    split
    · exact Agree.agreeUnless (.pure _)
    · split
      · rename_i hasked
        exact (ih () hasked rfl).mono fun c e hr _ => hr
      · exact Agree.agreeUnless (.pure _)

theorem mapPrefix_agreeUnless {raised : Solutions → Context → QueryError → Prop}
    (hsource : source.Steady)
    (h : ∀ s, (combine s).AgreeUnless (raised s) (combine' s)) (demand : Demand) :
    (mapPrefix source combine demand).AgreeUnless (source.RaisedFor raised)
      (mapPrefix source combine' demand) := by
  cases demand with
  | some wanted => exact grow_agreeUnless hsource h wanted _
  | none =>
    refine AgreeUnless.after (hsource none) fun found => ?_
    have hcombine : (combine found).AgreeUnless
        (fun c e => (source none).outcome c = .ok found → source.RaisedFor raised c e)
        (combine' found) :=
      (h found).mono fun c e hr hfound => ⟨none, found, hfound, hr⟩
    simp only [bind_assoc, pure_bind]
    exact hcombine.bind fun output => Agree.agreeUnless (.pure _)

/-- Observers do not change outcomes, so they do not change which errors are raised. -/
theorem raisedFor_isObserved {raised : Solutions → Context → QueryError → Prop}
    (hsource : source.Steady) (h : ∀ s, IsObserved (raised s)) :
    IsObserved (source.RaisedFor raised) := by
  rintro c c' hc hs e ⟨demand, s, houtcome, hr⟩
  refine ⟨demand, s, ?_, h s c c' hc hs e hr⟩
  rw [← houtcome]
  exact ((hsource demand).run hc hs _ _).1.symm

/-- Observation keeps the agreement. -/
theorem observed_agreeUnless {plan plan' : Plan} {demand : Demand}
    (h : (plan demand).AgreeUnless raised (plan' demand)) (hraised : IsObserved raised)
    (name name' : String) :
    (plan.observed name demand).AgreeUnless raised (plan'.observed name' demand) := by
  have hdepth := h.within hraised Context.isScope_depth fun c => ⟨⟨rfl, .refl _⟩, rfl⟩
  refine AgreeUnless.bind Agree.checkTime.agreeUnless fun _ => .read_bind fun c c' => ?_
  refine AgreeUnless.bind (Agree.agreeUnless (.record _ _)) fun _ => ?_
  refine hdepth.bind fun result => ?_
  exact AgreeUnless.bind (Agree.agreeUnless (.record _ _)) fun _ => Agree.agreeUnless (.pure _)

/-! ## Conditions about matches -/

/-- The pattern fails with an absorbable error from one of the solutions. -/
def RaisesAbsorbable (right : Plan) (s : Solutions) (c : Context) (e : QueryError) : Prop :=
  e.isAbsorbable = true ∧ ∃ b ∈ s.rows, (hasMatch right b).outcome c = .error e

theorem raisesAbsorbable_isObserved {right : Plan} (hright : right.Steady) (s : Solutions) :
    IsObserved (right.RaisesAbsorbable s) := by
  rintro c c' hc hs e ⟨he, b, hb, houtcome⟩
  refine ⟨he, b, hb, ?_⟩
  rw [← houtcome]
  exact ((hasMatch_steady hright b).run hc hs _ _).1.symm

end Plan

/-- A condition has the value of its test, or the test fails with an error that the
condition absorbs. -/
theorem Meaning.holds_agreeUnless {test : Eval Bool} {m : Meaning} {b : Binding}
    (h : ∀ i, test.Agree (m.test ⟨b, i⟩)) :
    test.AgreeUnless (fun c e => e.isAbsorbable = true ∧ test.outcome c = .error e)
      (m.holds b) := by
  intro c c' hc hs p q
  unfold Meaning.holds
  simp only [act_eval, absorb_eval]
  rw [runFrom_bind_ok c' q (runFrom_newSolutionId c' q), runFrom_bind, runFrom_absorb]
  set n := q.solutions + 1
  have hruns := h n c c' hc hs p { q with solutions := n }
  have hx : (test.runFrom c p).1 = test.outcome c := ((h n).steady.run hc (.refl c) p _).1
  rcases hp : test.runFrom c p with ⟨r, p'⟩
  rcases hq : (m.test ⟨b, n⟩).runFrom c' { q with solutions := n } with ⟨r', q'⟩
  rw [hp] at hx
  rw [hp, hq] at hruns
  cases hruns with
  | ok hab => exact .ok hab trivial
  | error e =>
    by_cases he : e.isAbsorbable = true
    · exact .stopped ⟨he, hx.symm⟩ _ _
    · simp only [he]
      exact .error e trivial
  | stopped he => exact he.elim

/-- The condition that a pattern has a match, or that it has none. -/
def Expr.matchCondition (pattern : Node) : Bool → Expr
  | false => .hasMatch pattern
  | true => .unary .not (.hasMatch pattern)

variable {operators : OperatorRegistry} {c : Context}

theorem Expr.matchCondition_agree {right : Node} (hright : (right.plan operators).Steady)
    (negated : Bool) (b : Binding) (i : Nat) : Eval.Agree
      (do return (← Plan.hasMatch (.input 1 (right.plan operators)) b) != negated)
      (((matchCondition right negated).meaning operators).test ⟨b, i⟩) := by
  have hmatch : (Plan.hasMatch (.input 1 (right.plan operators)) b).Agree
      (Plan.hasMatch (.inExpression (right.plan operators)) b) :=
    Plan.hasMatch_agree (fun demand =>
      (hright.input_agree 1 demand).trans (hright.inExpression_agree demand).symm) b
  cases negated with
  | false =>
    simp only [Bool.bne_false, bind_pure]
    exact hmatch
  | true =>
    simp only [Bool.bne_true]
    exact hmatch.bind fun _ => .pure _

/-- An error of the question is one of the search for a match. -/
theorem Eval.outcome_eq_error_of_map {α β : Type} {x : Eval α} {f : α → β} {e : QueryError}
    (h : (x >>= fun a => pure (f a)).outcome c = .error e) : x.outcome c = .error e := by
  unfold outcome at h ⊢
  rw [runFrom_bind] at h
  rcases hx : x.runFrom c (.initial c.environment) with ⟨r, q⟩
  rw [hx] at h
  cases r with
  | error e' =>
    cases h
    rfl
  | ok a => cases h

/-- **The two evaluations of a condition about matches.** For all trees whose values are
repeatable, every dataset, readable or not, every seed, demand and progress: keeping the
solutions with a match, or without one, has the same outcome as filtering by the
condition that there is a match, or none. The exception is an absorbable error that the
pattern raises for a solution of the left side: the first evaluation fails with it. -/
theorem Node.existsJoin_outcome {left right : Node} (hleft : left.isRepeatable = true)
    (hright : right.isRepeatable = true)
    (hgiven : AreGiven (left.occurrences ++ right.occurrences)) (hc : c.Settled)
    (negated : Bool) (demand : Demand) (p q : Progress) :
    let joined := ((Node.existsJoin left right negated).plan operators demand).runFrom c p
    let filtered := ((Node.filter left (.matchCondition right negated)).plan operators
      demand).runFrom c q
    joined.1 = filtered.1 ∨
      ∃ e, joined.1 = .error e ∧ e.isAbsorbable = true ∧
        ∃ asked s, (left.plan operators asked).outcome c = .ok s ∧
          ∃ b ∈ s.rows, (Plan.hasMatch (right.plan operators) b).outcome c = .error e := by
  have hl : (left.plan operators).Steady :=
    left.plan_steady hleft fun v hv => hgiven v (List.mem_append_left _ hv)
  have hr : (right.plan operators).Steady :=
    right.plan_steady hright fun v hv => hgiven v (List.mem_append_right _ hv)
  have hrow : ∀ s b, b ∈ s.rows → Eval.AgreeUnless
      ((Plan.input 1 (right.plan operators)).RaisesAbsorbable s)
      (do return (← Plan.hasMatch (.input 1 (right.plan operators)) b) != negated)
      (((Expr.matchCondition right negated).meaning operators).holds b) := by
    intro s b hb
    have hholds := Meaning.holds_agreeUnless (Expr.matchCondition_agree hr negated b)
    refine hholds.mono fun c' e ⟨he, houtcome⟩ => ⟨he, b, hb, ?_⟩
    exact outcome_eq_error_of_map houtcome
  have hplans : Eval.AgreeUnless
      ((Plan.input 0 (left.plan operators)).RaisedFor
        (Plan.input 1 (right.plan operators)).RaisesAbsorbable)
      ((Node.existsJoin left right negated).plan operators demand)
      ((Node.filter left (.matchCondition right negated)).plan operators demand) := by
    refine Plan.observed_agreeUnless (Plan.mapPrefix_agreeUnless (hl.input 0) (fun s =>
      Solutions.retainM_agreeUnless (hrow s)) demand) ?_ _ _
    exact Plan.raisedFor_isObserved (hl.input 0) fun s =>
      Plan.raisesAbsorbable_isObserved (hr.input 1) s
  rcases hplans.eq_or_raised hc (.refl c) p q with
    hsame | ⟨e, he, asked, s, hs, habs, b, hb, hmatch⟩
  · exact .inl hsame
  · refine .inr ⟨e, he, habs, asked, s, ?_, b, hb, ?_⟩
    · -- the inputs are looked at under their number
      rw [← hs]
      exact ((hl.input_agree 0 asked).run hc (.refl c) _ _).1.symm
    · rw [← hmatch]
      exact ((Plan.hasMatch_agree (hr.input_agree 1) b).run hc (.refl c) _ _).1.symm

/-- Edges, and edges that another one follows, for a name of the inner node. -/
def sampleEdges (s o : String) : Node :=
  .bgp [.triple ⟨.var ⟨s⟩, .term (.iri ⟨"p"⟩), .var ⟨o⟩⟩]

/-- Edges that no edge follows. -/
theorem Node.existsJoin_outcome_sample :
    (((Node.existsJoin (sampleEdges "x" "y") (sampleEdges "y" "z") true).plan .empty none).runFrom
      sampleContext (.initial sampleContext.environment)).1.toOption.map (·.size) = some 1 ∧
    (((Node.filter (sampleEdges "x" "y") (.matchCondition (sampleEdges "y" "z") true)).plan
      .empty none).runFrom sampleContext
        (.initial sampleContext.environment)).1.toOption.map (·.size) = some 1 := by
  have hsize : (((Node.existsJoin (sampleEdges "x" "y") (sampleEdges "y" "z") true).plan .empty
      none).runFrom sampleContext (.initial sampleContext.environment)).1.toOption.map (·.size) =
        some 1 := by decide +kernel
  refine ⟨hsize, ?_⟩
  rcases @Node.existsJoin_outcome .empty sampleContext (sampleEdges "x" "y")
      (sampleEdges "y" "z") rfl rfl (.of_all (by decide +kernel))
      sampleContext_isOnMemory.repeatable.settled true none
      (.initial sampleContext.environment) (.initial sampleContext.environment) with
    hsame | ⟨e, he, -⟩
  · rw [← hsame]
    exact hsize
  · rw [he] at hsize
    cases hsize

/-- A pattern that binds a variable to a number that does not exist. -/
def sampleNegative : Node :=
  .bgp [.assign ⟨"z"⟩ (.unary .minus (.constant (.iri ⟨"b"⟩)))]

/-- The pattern fails from the only solution of the left side. The join fails with this
error, which can be absorbed, and the filter drops the solution. -/
theorem Node.existsJoin_raises :
    sampleNegative.isRepeatable = true ∧ AreGiven sampleNegative.occurrences ∧
      ∃ e m q q', e.isAbsorbable = true ∧ m.size = 0 ∧
        ((Node.existsJoin (.values [⟨"x"⟩] [[some (.iri ⟨"b"⟩)]]) sampleNegative false).plan
          .empty none).runFrom sampleContext (.initial sampleContext.environment) =
            (.error e, q) ∧
        ((Node.filter (.values [⟨"x"⟩] [[some (.iri ⟨"b"⟩)]])
          (.matchCondition sampleNegative false)).plan .empty none).runFrom sampleContext
            (.initial sampleContext.environment) = (.ok m, q') := by
  have hfails : (((Node.existsJoin (.values [⟨"x"⟩] [[some (.iri ⟨"b"⟩)]]) sampleNegative
      false).plan .empty none).runFrom sampleContext (.initial sampleContext.environment)).1 =
        .error .invalidArgument := by decide +kernel
  have hsize : (((Node.filter (.values [⟨"x"⟩] [[some (.iri ⟨"b"⟩)]])
      (.matchCondition sampleNegative false)).plan .empty none).runFrom sampleContext
        (.initial sampleContext.environment)).1.toOption.map (·.size) = some 0 := by decide +kernel
  obtain ⟨m, q', hm, hsize⟩ := exists_ok_of_map hsize
  exact ⟨rfl, .of_all (by decide +kernel), _, m, _, q', rfl, hsize, Prod.ext hfails rfl, hm⟩

end SparqlAlgebra
