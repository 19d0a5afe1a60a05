import Mathlib.Data.Nat.Find
import Mathlib.Logic.Function.Iterate
import SparqlAlgebra.Evaluation
import SparqlAlgebra.Proofs.Steadiness

/-!
# Loops of growing demand

Some operators ask an input again and again, for twice as many solutions each time, until
they can decide. Here such a loop is taken apart into its rounds, and only what a round
itself tests can end it: not that the doubling has come to the largest number.

* `Round.step` makes one round, and `Round.iterate_step` says what is known of the loop
  after any number of them: it was left, or its demand was doubled every time;
* `Round.exists_leavesWithin`: a loop whose rounds end beyond some demand is left;
* `Round.IsLoop`: what `Plan.grow` and `Plan.hasMatchFrom` compute is what their rounds
  come to;
* `Plan.growing_leaves`: if the input never returns more solutions than some bound, both
  loops are left, and no round but the last asks for more than the bound.
-/

namespace SparqlAlgebra

/-! ## Demands -/

namespace Plan

/-- Doubling adds something, as long as the largest number is not reached. -/
theorem le_double_iterate {n : Nat} (h : 0 < n) (k : Nat) :
    min (n + k) maxCount ≤ double^[k] n := by
  have hmax : 0 < maxCount := by decide
  induction k with
  | zero =>
    rw [Nat.add_zero]
    exact Nat.min_le_left ..
  | succ k ih =>
    rw [Function.iterate_succ_apply', double]
    omega

theorem double_iterate_pos {n : Nat} (h : 0 < n) (k : Nat) : 0 < double^[k] n := by
  have hmax : 0 < maxCount := by decide
  have hle := le_double_iterate h k
  omega

/-- Every number below the largest one is exceeded in the end. -/
theorem exists_lt_double_iterate {n bound : Nat} (h : 0 < n) (hbound : bound < maxCount) :
    ∃ k, bound < double^[k] n := by
  refine ⟨bound, ?_⟩
  have hle := le_double_iterate h bound
  omega

end Plan

/-! ## Rounds -/

/-- A round of a loop. It is told how many solutions to ask for and what is remembered, and
either leaves the loop with a result or says what to remember. -/
abbrev Round (σ α : Type) := Nat → σ → Eval (α ⊕ σ)

/-- Where a loop stands: before a round, or behind the last one with the outcome of the
loop. -/
inductive Stage (σ α : Type) where
  | asking (asked : Nat) (memory : σ) (p : Progress)
  | left (outcome : Except QueryError α × Progress)

namespace Round

variable {σ α : Type}

section Rounds

variable (round : Round σ α) (c : Context)

/-- Makes a round. The demand of the next one is twice as large, at most the largest
number. -/
def step : Stage σ α → Stage σ α
  | .asking asked memory p =>
    match (round asked memory).runFrom c p with
    | (.ok (.inl a), q) => .left (.ok a, q)
    | (.ok (.inr memory), q) => .asking (Plan.double asked) memory q
    | (.error e, q) => .left (.error e, q)
  | .left outcome => .left outcome

/-- The loop is left with an outcome. Every round of it asks for twice as many solutions as
the one before, and all rounds but the last ask for at most `bound`. -/
def LeavesWithin (bound asked : Nat) (memory : σ) (p : Progress)
    (outcome : Except QueryError α × Progress) : Prop :=
  ∃ k, (round.step c)^[k + 1] (.asking asked memory p) = .left outcome ∧
    (∀ i ≤ k, ∃ m q, (round.step c)^[i] (.asking asked memory p) =
      .asking (Plan.double^[i] asked) m q) ∧
    ∀ i < k, Plan.double^[i] asked ≤ bound

/-- In no round of the loop does the source return more than `bound` solutions. -/
def Bounds (source : Plan) (bound asked : Nat) (memory : σ) (p : Progress) : Prop :=
  ∀ k n m q, (round.step c)^[k] (.asking asked memory p) = .asking n m q →
    ∀ found q', (source (some n)).runFrom c q = (.ok found, q') → found.size ≤ bound

end Rounds

section OneRound

variable {round : Round σ α} {c : Context} {asked : Nat} {memory m : σ} {p q : Progress}

theorem step_of_error {e : QueryError} (h : (round asked memory).runFrom c p = (.error e, q)) :
    round.step c (.asking asked memory p) = .left (.error e, q) := by
  rw [step, h]

theorem step_of_result {a : α} (h : (round asked memory).runFrom c p = (.ok (.inl a), q)) :
    round.step c (.asking asked memory p) = .left (.ok a, q) := by
  rw [step, h]

theorem step_of_memory (h : (round asked memory).runFrom c p = (.ok (.inr m), q)) :
    round.step c (.asking asked memory p) = .asking (Plan.double asked) m q := by
  rw [step, h]

/-- A round leaves the loop or doubles the demand. -/
theorem step_asking (round : Round σ α) (c : Context) (asked : Nat) (memory : σ) (p : Progress) :
    (∃ o, round.step c (.asking asked memory p) = .left o) ∨
      ∃ m q, round.step c (.asking asked memory p) = .asking (Plan.double asked) m q := by
  rcases hround : (round asked memory).runFrom c p with ⟨_ | a | m, q⟩
  · exact .inl ⟨_, step_of_error hround⟩
  · exact .inl ⟨_, step_of_result hround⟩
  · exact .inr ⟨m, q, step_of_memory hround⟩

end OneRound

/-! ## Loops -/

variable (round : Round σ α) (c : Context)

/-- After any number of rounds the loop was left, or the demand was doubled in each. -/
theorem iterate_step (asked : Nat) (memory : σ) (p : Progress) (k : Nat) :
    (∃ o, (round.step c)^[k] (.asking asked memory p) = .left o) ∨
      ∃ m q, (round.step c)^[k] (.asking asked memory p) =
        .asking (Plan.double^[k] asked) m q := by
  induction k with
  | zero => exact .inr ⟨memory, p, rfl⟩
  | succ k ih =>
    simp only [Function.iterate_succ_apply']
    rcases ih with ⟨o, ho⟩ | ⟨m, q, hasking⟩
    · rw [ho]
      exact .inl ⟨o, rfl⟩
    · rw [hasking]
      exact round.step_asking c _ m q

variable {round c} {bound asked : Nat} {memory : σ} {p : Progress}

/-- A loop is left if its rounds end beyond some demand. The demand grows until it is beyond
this one; it has no need to be beyond the largest number. -/
theorem exists_leavesWithin (hasked : 0 < asked) (hbound : bound < maxCount)
    (hlast : ∀ k m q, (round.step c)^[k] (.asking asked memory p) =
      .asking (Plan.double^[k] asked) m q → bound < Plan.double^[k] asked →
        ∃ o, round.step c (.asking (Plan.double^[k] asked) m q) = .left o) :
    ∃ o, round.LeavesWithin c bound asked memory p o := by
  classical
  -- a round beyond the bound is the last one, if the loop comes to it
  have hbeyond : ∀ k, bound < Plan.double^[k] asked →
      ∃ o, (round.step c)^[k + 1] (.asking asked memory p) = .left o := by
    intro k hk
    rw [Function.iterate_succ_apply']
    rcases round.iterate_step c asked memory p k with ⟨o, ho⟩ | ⟨m, q, hasking⟩
    · rw [ho]
      exact ⟨o, rfl⟩
    · rw [hasking]
      exact hlast k m q hasking hk
  have hends : ∃ k o, (round.step c)^[k + 1] (.asking asked memory p) = .left o := by
    obtain ⟨k, hk⟩ := Plan.exists_lt_double_iterate hasked hbound
    exact ⟨k, hbeyond k hk⟩
  obtain ⟨o, ho⟩ := Nat.find_spec hends
  refine ⟨o, Nat.find hends, ho, fun i hi => ?_, fun i hi => ?_⟩
  · refine (round.iterate_step c asked memory p i).resolve_left fun hleft => ?_
    cases i with
    | zero =>
      obtain ⟨o, ho⟩ := hleft
      cases ho
    | succ i => exact Nat.find_min hends hi hleft
  · by_contra hgt
    exact Nat.find_min hends hi (hbeyond i (Nat.lt_of_not_le hgt))

/-! ## What a loop computes -/

/-- The outcome of a loop from some stage on. -/
def finish (loop : Nat → σ → Eval α) (c : Context) : Stage σ α → Except QueryError α × Progress
  | .asking asked memory p => (loop asked memory).runFrom c p
  | .left outcome => outcome

/-- A function makes one round and goes on from there, if the round is the last one or the
demand can be doubled. -/
def IsLoop (round : Round σ α) (c : Context) (loop : Nat → σ → Eval α) : Prop :=
  ∀ asked memory p, (0 < asked ∧ asked < maxCount) ∨
      (∃ o, round.step c (.asking asked memory p) = .left o) →
    finish loop c (round.step c (.asking asked memory p)) = (loop asked memory).runFrom c p

/-- Before a round that is not the last one the demand can be doubled. -/
theorem asked_of_memory {m : σ} {q : Progress} (h : (0 < asked ∧ asked < maxCount) ∨
      ∃ o, round.step c (.asking asked memory p) = .left o)
    (hround : (round asked memory).runFrom c p = (.ok (.inr m), q)) :
    0 < asked ∧ asked < maxCount := by
  rcases h with h | ⟨o, ho⟩
  · exact h
  · rw [step_of_memory hround] at ho
    cases ho

/-- Rounds do not change what is computed in the end. -/
theorem LeavesWithin.eq_runFrom {loop : Nat → σ → Eval α} (hloop : round.IsLoop c loop)
    (hasked : 0 < asked) (hbound : bound < maxCount) {o : Except QueryError α × Progress}
    (h : round.LeavesWithin c bound asked memory p o) : (loop asked memory).runFrom c p = o := by
  obtain ⟨k, hleft, hasking, hle⟩ := h
  have hrounds : ∀ i ≤ k + 1, finish loop c ((round.step c)^[i] (.asking asked memory p)) =
      (loop asked memory).runFrom c p := by
    intro i hi
    induction i with
    | zero => rfl
    | succ i ih =>
      obtain ⟨m, q, hstage⟩ := hasking i (by omega)
      rw [← ih (by omega), Function.iterate_succ_apply', hstage]
      refine hloop _ m q ?_
      by_cases hik : i < k
      · exact .inl ⟨Plan.double_iterate_pos hasked i, Nat.lt_of_le_of_lt (hle i hik) hbound⟩
      · obtain rfl : i = k := by omega
        rw [Function.iterate_succ_apply', hstage] at hleft
        exact .inr ⟨o, hleft⟩
  rw [← hrounds (k + 1) (Nat.le_refl _), hleft, finish]

end Round

/-! ## The rounds of the two loops -/

namespace Plan

open Eval

variable {σ : Type} (source pattern : Plan) (wanted : Nat)
  (combine : σ → Solutions → Eval (Solutions × σ)) (b : Binding)

/-- The source is asked and its solutions are combined. There are enough, or the source has
no more, or more are needed. -/
def growRound : Round σ Solutions := fun asked memory => do
  let found ← source (some asked)
  let (output, memory) ← combine memory found
  return if found.isSingleton || found.size < asked || wanted ≤ output.size then .inl output
    else .inr memory

/-- The pattern is asked. A solution matches, or it has no more, or more are needed. -/
def matchRound : Round Unit Bool := fun asked memory => do
  let found ← pattern (some asked)
  return if found.isSingleton || found.rows.any (·.isCompatible b) then .inl true
    else if found.size < asked then .inl false
    else .inr memory

variable {source pattern wanted combine b} {c : Context} {p q q' : Progress} {asked bound : Nat}
  {memory memory' : σ} {found out : Solutions}

theorem runFrom_growRound (wanted : Nat)
    (hfound : (source (some asked)).runFrom c p = (.ok found, q))
    (hout : (combine memory found).runFrom c q = (.ok (out, memory'), q')) :
    (growRound source wanted combine asked memory).runFrom c p =
      (.ok (if found.isSingleton || found.size < asked || wanted ≤ out.size then .inl out
        else .inr memory'), q') := by
  rw [growRound, runFrom_bind_ok c p hfound, runFrom_bind_ok c q hout]
  rfl

theorem runFrom_matchRound (hfound : (pattern (some asked)).runFrom c p = (.ok found, q)) :
    (matchRound pattern b asked ()).runFrom c p =
      (.ok (if found.isSingleton || found.rows.any (·.isCompatible b) then .inl true
        else if found.size < asked then .inl false else .inr ()), q) := by
  rw [matchRound, runFrom_bind_ok c p hfound]
  rfl

theorem growRound_isLoop :
    (growRound source wanted combine).IsLoop c (grow source wanted combine) := by
  intro asked memory p h
  rw [grow]
  rcases hfound : (source (some asked)).runFrom c p with ⟨e | found, q⟩
  · have hround : (growRound source wanted combine asked memory).runFrom c p = (.error e, q) :=
      runFrom_bind_error c p hfound
    rw [Round.step_of_error hround, runFrom_bind_error c p hfound]
    rfl
  · rw [runFrom_bind_ok c p hfound]
    rcases hout : (combine memory found).runFrom c q with ⟨e | ⟨out, memory'⟩, q'⟩
    · have hround :
          (growRound source wanted combine asked memory).runFrom c p = (.error e, q') := by
        rw [growRound, runFrom_bind_ok c p hfound, runFrom_bind_error c q hout]
      rw [Round.step_of_error hround, runFrom_bind_error c q hout]
      rfl
    · have hround := runFrom_growRound wanted hfound hout
      rw [runFrom_bind_ok c q hout]
      dsimp only
      by_cases hend : (found.isSingleton || found.size < asked || wanted ≤ out.size) = true
      · rw [if_pos hend] at hround
        rw [if_pos hend, Round.step_of_result hround]
        rfl
      · rw [if_neg hend] at hround
        rw [if_neg hend, dif_pos (Round.asked_of_memory h hround), Round.step_of_memory hround]
        rfl

theorem matchRound_isLoop :
    (matchRound pattern b).IsLoop c fun asked _ => hasMatchFrom pattern b asked := by
  intro asked memory p h
  show _ = (hasMatchFrom pattern b asked).runFrom c p
  rw [hasMatchFrom]
  rcases hfound : (pattern (some asked)).runFrom c p with ⟨e | found, q⟩
  · have hround : (matchRound pattern b asked memory).runFrom c p = (.error e, q) :=
      runFrom_bind_error c p hfound
    rw [Round.step_of_error hround, runFrom_bind_error c p hfound]
    rfl
  · have hround := runFrom_matchRound (b := b) hfound
    rw [runFrom_bind_ok c p hfound]
    by_cases hmatch : (found.isSingleton || found.rows.any (·.isCompatible b)) = true
    · rw [if_pos hmatch] at hround
      rw [if_pos hmatch, Round.step_of_result hround]
      rfl
    · rw [if_neg hmatch] at hround
      rw [if_neg hmatch]
      by_cases hend : found.size < asked
      · rw [if_pos hend] at hround
        have hfew : ¬ (asked ≤ found.size ∧ 0 < asked ∧ asked < maxCount) := by omega
        rw [dif_neg hfew, Round.step_of_result hround]
        rfl
      · rw [if_neg hend] at hround
        have hmore : asked ≤ found.size ∧ 0 < asked ∧ asked < maxCount :=
          ⟨Nat.le_of_not_lt hend, Round.asked_of_memory h hround⟩
        rw [dif_pos hmore, Round.step_of_memory hround]
        rfl

/-- A round leaves the loop if fewer solutions are found than were asked for. -/
theorem growRound_leaves (memory : σ) (hfew : ∀ found q, (source (some asked)).runFrom c p =
    (.ok found, q) → found.size < asked) :
    ∃ o, (growRound source wanted combine).step c (.asking asked memory p) = .left o := by
  rcases hfound : (source (some asked)).runFrom c p with ⟨e | found, q⟩
  · exact ⟨_, Round.step_of_error (runFrom_bind_error c p hfound)⟩
  · rcases hout : (combine memory found).runFrom c q with ⟨e | ⟨out, memory'⟩, q'⟩
    · have hround :
          (growRound source wanted combine asked memory).runFrom c p = (.error e, q') := by
        rw [growRound, runFrom_bind_ok c p hfound, runFrom_bind_error c q hout]
      exact ⟨_, Round.step_of_error hround⟩
    · have hround := runFrom_growRound wanted hfound hout
      rw [if_pos (by simp [hfew found q hfound])] at hround
      exact ⟨_, Round.step_of_result hround⟩

theorem matchRound_leaves (hfew : ∀ found q, (pattern (some asked)).runFrom c p =
    (.ok found, q) → found.size < asked) :
    ∃ o, (matchRound pattern b).step c (.asking asked () p) = .left o := by
  rcases hfound : (pattern (some asked)).runFrom c p with ⟨e | found, q⟩
  · exact ⟨_, Round.step_of_error (runFrom_bind_error c p hfound)⟩
  · have hround := runFrom_matchRound (b := b) hfound
    rw [if_pos (hfew found q hfound)] at hround
    split at hround
    · exact ⟨_, Round.step_of_result hround⟩
    · exact ⟨_, Round.step_of_result hround⟩

/-- **Loops of growing demand end.** The input is any plan, so that of any node, and it may
heed its demand or not. If no round gets more than `bound` solutions from it, then the loop
is left after finitely many rounds, of which only the last may ask for more than `bound`,
whatever is made of the solutions; and the outcome is what is computed. This holds of
looking for enough solutions and of looking for a match. The bound has to be below the
largest number, where the doubling comes to a halt. -/
theorem growing_leaves (source pattern : Plan) (wanted : Nat) (memory : σ)
    (combine : σ → Solutions → Eval (Solutions × σ)) (b : Binding) (c : Context) (p : Progress)
    (bound : Nat) (hbound : bound < maxCount) :
    ((growRound source wanted combine).Bounds c source bound (max wanted 1) memory p →
        (growRound source wanted combine).LeavesWithin c bound (max wanted 1) memory p
          ((fromPrefix source memory combine (some wanted)).runFrom c p)) ∧
      ((matchRound pattern b).Bounds { c with seed := some b } pattern bound 1 () p →
        (matchRound pattern b).LeavesWithin { c with seed := some b } bound 1 () p
          ((hasMatch pattern b).runFrom c p)) := by
  constructor
  · intro h
    have hasked : 0 < max wanted 1 := by omega
    obtain ⟨o, ho⟩ : ∃ o, (growRound source wanted combine).LeavesWithin c bound (max wanted 1)
        memory p o :=
      Round.exists_leavesWithin hasked hbound fun k m q hstage hlt =>
        growRound_leaves m fun found q' hfound =>
          Nat.lt_of_le_of_lt (h k _ m q hstage found q' hfound) hlt
    have hrun := ho.eq_runFrom growRound_isLoop hasked hbound
    rw [fromPrefix, hrun]
    exact ho
  · intro h
    obtain ⟨o, ho⟩ : ∃ o, (matchRound pattern b).LeavesWithin { c with seed := some b } bound 1
        () p o :=
      Round.exists_leavesWithin Nat.one_pos hbound fun k m q hstage hlt =>
        matchRound_leaves fun found q' hfound =>
          Nat.lt_of_le_of_lt (h k _ m q hstage found q' hfound) hlt
    have hrun := ho.eq_runFrom matchRound_isLoop Nat.one_pos hbound
    rw [hasMatch, withSeed_eval, runFrom_withSeed, hrun]
    exact ho

/-- Three solutions, however many are asked for and whatever is looked for as `?x`. -/
def sampleSame : Node :=
  .extend (.values [⟨"y"⟩] [[some (.iri ⟨"a"⟩)], [some (.iri ⟨"b"⟩)], [some (.iri ⟨"c"⟩)]]) ⟨"x"⟩
    (.constant (.iri ⟨"a"⟩))

/-- What the solutions of `sampleSame` do not match. -/
def sampleOther : Binding := .ofEntries [(⟨"x"⟩, .iri ⟨"b"⟩)]

/-- Drops all solutions. -/
def dropAll (memory : Unit) (_ : Solutions) : Eval (Solutions × Unit) := return (.null, memory)

/-- No solution is kept and none matches, so that all three have to be seen. -/
theorem growing_leaves_sample :
    let source := sampleSame.plan .empty
    let c := { sampleContext with seed := some sampleOther }
    let p := Progress.initial sampleContext.environment
    (growRound source 1 dropAll).LeavesWithin c 3 1 () p
        ((fromPrefix source () dropAll (some 1)).runFrom c p) ∧
      (matchRound source sampleOther).LeavesWithin c 3 1 () p
        ((hasMatch source sampleOther).runFrom c p) := by
  intro source c p
  have hsize : ∀ n q, ∃ found q', (source (some n)).runFrom c q = (.ok found, q') ∧
      found.size = 3 := fun n q => ⟨_, _, rfl, rfl⟩
  have hbound : ∀ n q found q', (source (some n)).runFrom c q = (.ok found, q') →
      found.size ≤ 3 := by
    intro n q found q' h
    obtain ⟨same, _, hrun, hsame⟩ := hsize n q
    rw [h] at hrun
    cases hrun
    exact Nat.le_of_eq hsame
  obtain ⟨hgrow, hmatch⟩ := growing_leaves source source 1 () dropAll sampleOther c p 3 (by decide)
  exact ⟨hgrow fun _ n _ q _ => hbound n q, hmatch fun _ n _ q _ => hbound n q⟩

end Plan

end SparqlAlgebra
