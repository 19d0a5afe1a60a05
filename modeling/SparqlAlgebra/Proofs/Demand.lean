import SparqlAlgebra.Proofs.Rows
import SparqlAlgebra.Proofs.SteadyOperators

/-!
# Meeting a demand

A plan that is told how many solutions are needed yields the beginning of what
it yields otherwise, and either all of it or as many solutions as needed.

* `Eval.Yields`: a run without a demand that succeeds with small results only;
* `Plan.Meets`: one plan meets every demand for the solutions of another plan;
* `Plan.grow_serves`: asking for more and more solutions ends with enough;
* the operators meet demands if their inputs do, each in its own way.
-/

namespace SparqlAlgebra

/-! ## Small results -/

/-- Fewer solutions than the largest number. Lists are always that short, since
their lengths are numbers of the same kind. -/
def Solutions.IsSmall (s : Solutions) : Prop := s.size < maxCount

/-- Observers were told of small results only. -/
def LogIsSmall (log : List Event) : Prop :=
  ∀ name depth place s, Event.after name depth place s ∈ log → s.IsSmall

theorem LogIsSmall.of_suffix {log log' : List Event} (h : LogIsSmall log')
    (hlog : log <:+ log') : LogIsSmall log := fun name depth place s hs =>
  h name depth place s (hlog.subset hs)

/-- The number of solutions that observers were told of. -/
def Event.resultSize : Event → Nat
  | .after _ _ _ s => s.size
  | _ => 0

theorem LogIsSmall.of_all {log : List Event} {k : Nat} (hk : k < maxCount)
    (h : log.all (·.resultSize ≤ k) = true) : LogIsSmall log := by
  intro name depth place s hs
  have hsize : s.size ≤ k := of_decide_eq_true (List.all_eq_true.mp h _ hs)
  exact Nat.lt_of_le_of_lt hsize hk

namespace Eval

variable {α β : Type} {c : Context}

/-- Some run of the evaluation succeeds with small results on the way. -/
def Yields (x : Eval α) (c : Context) (a : α) : Prop :=
  ∃ p q, x.runFrom c p = (.ok a, q) ∧ LogIsSmall q.log

theorem Yields.outcome_eq {x : Eval α} {a : α} (h : x.Yields c a)
    (hx : x.Steady) (hc : c.Repeatable) : x.outcome c = .ok a := by
  obtain ⟨p, q, hrun, -⟩ := h
  exact hx.outcome_of_runFrom hc hrun

theorem Yields.of_pure {a b : α} (h : (pure a : Eval α).Yields c b) : b = a := by
  obtain ⟨p, q, hrun, -⟩ := h
  cases hrun
  rfl

/-- Both parts of a sequence have small results if the sequence has. -/
theorem Yields.of_bind {x : Eval α} {f : α → Eval β} {b : β}
    (h : (x >>= f).Yields c b) (hf : ∀ a, (f a).Steady) (hc : c.Repeatable) :
    ∃ a, x.Yields c a ∧ (f a).Yields c b := by
  obtain ⟨p, q, hrun, hsmall⟩ := h
  obtain ⟨a, p', hx, hfa⟩ := runFrom_bind_eq_ok hrun
  have hsuffix := (hf a).log_suffix hc hfa
  exact ⟨a, ⟨p, p', hx, hsmall.of_suffix hsuffix⟩, ⟨p', q, hfa, hsmall⟩⟩

theorem Yields.of_read_bind {f : Context → Eval α} {a : α}
    (h : (read >>= f).Yields c a) : (f c).Yields c a := by
  obtain ⟨p, q, hrun, hsmall⟩ := h
  rw [runFrom_bind_ok c p (runFrom_read c p)] at hrun
  exact ⟨p, q, hrun, hsmall⟩

end Eval

/-! ## Contexts of inputs -/

/-- Data is read, nothing is seeded, and outcomes are repeatable. -/
structure Context.IsPlain (e : Environment) (c : Context) : Prop
    extends c.Repeatable where
  environment_eq : c.environment = e
  unseeded : c.seed = none
  real : c.environment.isDryRun = false

namespace Context.IsPlain

variable {e : Environment} {c : Context}

theorem withSeed_none (h : c.IsPlain e) : ({ c with seed := none }).IsPlain e :=
  ⟨⟨⟨h.readable, h.inTime⟩, h.builtin⟩, h.environment_eq, rfl, h.real⟩

theorem mapSeed (h : c.IsPlain e) (f : Binding → Binding) :
    ({ c with seed := c.seed.map f }).IsPlain e :=
  ⟨⟨⟨h.readable, h.inTime⟩, h.builtin⟩, h.environment_eq, by simp [h.unseeded],
    h.real⟩

theorem enter (h : c.IsPlain e) (g : ActiveGraph) :
    ({ c with view := c.view.enter g }).IsPlain e :=
  ⟨⟨⟨h.readable, h.inTime⟩, h.builtin⟩, h.environment_eq, h.unseeded, h.real⟩

theorem deeper (h : c.IsPlain e) (depth : Nat) :
    ({ c with depth := depth }).IsPlain e :=
  ⟨⟨⟨h.readable, h.inTime⟩, h.builtin⟩, h.environment_eq, h.unseeded, h.real⟩

theorem elsewhere (h : c.IsPlain e) (place : Option (List Nat)) :
    ({ c with place := place }).IsPlain e :=
  ⟨⟨⟨h.readable, h.inTime⟩, h.builtin⟩, h.environment_eq, h.unseeded, h.real⟩

end Context.IsPlain

theorem Context.IsOnMemory.isPlain {c : Context} (h : c.IsOnMemory) :
    c.IsPlain c.environment := ⟨h.repeatable, rfl, h.unseeded, h.real⟩

/-- The values that patterns start from. -/
def Context.start (c : Context) : Binding := c.seed.getD .empty

theorem Context.start_of_unseeded {c : Context} (h : c.seed = none) : c.start = .empty := by
  unfold start
  rw [h]
  rfl

/-! ## Beginnings -/

/-- The rows of `s` are the first rows of `m`: all of them, or at least as many
as are needed. -/
def Solutions.Begins (s : Solutions) (demand : Demand) (m : Solutions) : Prop :=
  s.rows <+: m.rows ∧
    (s.rows = m.rows ∨ ∃ n, demand = some n ∧ n ≤ s.size)

theorem Solutions.Begins.eq_of_none {s m : Solutions} (h : s.Begins none m) :
    s.rows = m.rows := by
  obtain ⟨-, h | ⟨n, hn, -⟩⟩ := h
  · exact h
  · cases hn

/-- One solution is enough to find out whether there are any. -/
theorem Solutions.Begins.isEmpty_eq {s m : Solutions} {n : Nat} (h : s.Begins (some n) m)
    (hn : 0 < n) : s.isEmpty = m.isEmpty := by
  obtain ⟨hbegin, hrows | ⟨k, hk, hsize⟩⟩ := h
  · rw [isEmpty, hrows, isEmpty]
  · cases hk
    have hs : s.rows ≠ [] := List.ne_nil_of_length_pos (Nat.lt_of_lt_of_le hn hsize)
    have hm : m.rows ≠ [] := by
      intro hnil
      rw [hnil] at hbegin
      exact hs (List.prefix_nil.mp hbegin)
    rw [isEmpty, isEmpty, List.isEmpty_eq_false_iff.mpr hs, List.isEmpty_eq_false_iff.mpr hm]

theorem Solutions.begins_of_eq {s m : Solutions} (h : s.rows = m.rows)
    (demand : Demand) : s.Begins demand m :=
  ⟨h ▸ List.prefix_rfl, .inl h⟩

/-- A computation on rows that, for the beginning of its input, yields the
beginning of its result. -/
def Progressive (f : List Binding → Except QueryError (List Binding)) : Prop :=
  ∀ xs zs, f xs = .ok zs → ∀ ys, ys <+: xs → ∃ ws, f ys = .ok ws ∧ ws <+: zs

/-- A computation that treats parts of its input one after the other is
progressive. -/
theorem Progressive.of_append
    {f : List Binding → Except QueryError (List Binding)}
    (h : ∀ xs ys, f (xs ++ ys) = do return (← f xs) ++ (← f ys)) :
    Progressive f := by
  rintro xs zs hxs ys ⟨rest, rfl⟩
  rw [h] at hxs
  cases hys : f ys with
  | error e =>
    rw [hys] at hxs
    cases hxs
  | ok ws =>
    cases hrest : f rest with
    | error e =>
      rw [hys, hrest] at hxs
      cases hxs
    | ok vs =>
      rw [hys, hrest] at hxs
      cases hxs
      exact ⟨ws, rfl, vs, rfl⟩

/-- Functions that keep beginnings are progressive. -/
theorem Progressive.of_monotone {f : List Binding → List Binding}
    (h : ∀ xs ys, ys <+: xs → f ys <+: f xs) : Progressive fun xs => .ok (f xs) := by
  rintro xs zs hxs ys hys
  cases hxs
  exact ⟨_, rfl, h xs ys hys⟩

theorem keepM_append {α : Type} (test : α → Except QueryError Bool)
    (xs ys : List α) :
    Solutions.keepM test (xs ++ ys) = do
      return (← Solutions.keepM test xs) ++ (← Solutions.keepM test ys) := by
  induction xs with
  | nil =>
    rw [List.nil_append]
    cases Solutions.keepM test ys <;> rfl
  | cons x xs ih =>
    rw [List.cons_append, Solutions.keepM_cons, Solutions.keepM_cons, ih]
    rcases test x with e | holds
    · rfl
    · rcases Solutions.keepM test xs with e | kept
      · rfl
      · rcases Solutions.keepM test ys with e | kept'
        · rfl
        · cases holds <;> rfl

theorem keepM_progressive (test : Binding → Except QueryError Bool) :
    Progressive (Solutions.keepM test) := .of_append (keepM_append test)

theorem leftRows_append (condition : Binding → Except QueryError Bool)
    (rs xs ys : List Binding) :
    Solutions.leftRows condition (xs ++ ys) rs = do
      return (← Solutions.leftRows condition xs rs) ++
        (← Solutions.leftRows condition ys rs) := by
  induction xs with
  | nil =>
    rw [List.nil_append]
    cases Solutions.leftRows condition ys rs <;> rfl
  | cons x xs ih =>
    rw [List.cons_append, Solutions.leftRows_cons, Solutions.leftRows_cons, ih]
    rcases Solutions.keepM condition (rs.filterMap x.merge?) with e | merges
    · rfl
    · rcases Solutions.leftRows condition xs rs with e | rows
      · rfl
      · rcases Solutions.leftRows condition ys rs with e | rows'
        · rfl
        · simp [bind, Except.bind, pure, Except.pure]

theorem dedup_monotone {α : Type} [DecidableEq α] {xs ys : List α} (h : ys <+: xs) :
    dedup ys <+: dedup xs := by
  obtain ⟨rest, rfl⟩ := h
  induction ys with
  | nil => exact List.nil_prefix
  | cons y ys ih => exact List.prefix_cons_inj y |>.mpr (ih.filter _)

/-! ## Serving solutions -/

/-- In a context, a plan yields for every demand what is needed of some
solutions. -/
structure Plan.Serves (c : Context) (vs : List Var) (plan : Plan)
    (m : Solutions) : Prop where
  binds : m.Binds vs
  serves : ∀ demand, ∃ s, (plan demand).outcome c = .ok s ∧ s.Binds vs ∧
    s.Begins demand m

/-- In a context, a plan yields for a demand the rows of some solutions. -/
structure Plan.Repeats (c : Context) (vs : List Var) (demand : Demand)
    (plan : Plan) (m : Solutions) : Prop where
  binds : m.Binds vs
  repeats : ∃ s, (plan demand).outcome c = .ok s ∧ s.Binds vs ∧
    s.rows = m.rows

/-- The rows that a plan yields without a demand; none if it fails. -/
def Plan.answers (plan : Plan) (c : Context) : List Binding :=
  match (plan none).outcome c with
  | .ok s => s.rows
  | .error _ => []

theorem Plan.answers_of_outcome {plan : Plan} {c : Context} {s : Solutions}
    (h : (plan none).outcome c = .ok s) : plan.answers c = s.rows := by
  unfold answers
  rw [h]

theorem Plan.Serves.repeats {c : Context} {vs : List Var} {plan : Plan}
    {m : Solutions} (h : plan.Serves c vs m) : plan.Repeats c vs none m := by
  obtain ⟨s, hs, hbinds, hbegins⟩ := h.serves none
  exact ⟨h.binds, s, hs, hbinds, hbegins.eq_of_none⟩

/-- Whatever one plan yields in a plain context, another plan repeats for the
same demand, and it serves what the first one yields without a demand. -/
structure Plan.Follows (e : Environment) (vs : List Var) (plan' plan : Plan) :
    Prop where
  steady : plan.Steady
  steady' : plan'.Steady
  serves : ∀ c, c.IsPlain e → ∀ m, (plan none).Yields c m → plan'.Serves c vs m
  repeatsSome : ∀ c, c.IsPlain e → ∀ n m, (plan (some n)).Yields c m →
    plan'.Repeats c vs (some n) m

theorem Plan.Follows.repeats {e : Environment} {vs : List Var}
    {plan' plan : Plan} (h : Follows e vs plan' plan) {c : Context}
    (hc : c.IsPlain e) {demand : Demand} {m : Solutions}
    (hm : (plan demand).Yields c m) : plan'.Repeats c vs demand m := by
  cases demand with
  | none => exact (h.serves c hc m hm).repeats
  | some n => exact h.repeatsSome c hc n m hm

/-- One plan follows another one, which has small results. -/
structure Plan.Meets (e : Environment) (vs : List Var) (plan' plan : Plan) : Prop
    extends Follows e vs plan' plan where
  small : ∀ c, c.IsPlain e → ∀ demand m, (plan demand).Yields c m → m.IsSmall

open Eval

namespace Plan

variable {e : Environment} {vs ws : List Var} {plan plan' left left' right right' : Plan}

/-! ## Scopes -/

/-- A plan serves the same from another context if it yields the same there. -/
theorem Serves.within {c : Context} {m : Solutions} (change : Context → Context)
    (h : Serves (change c) vs plan m)
    (hchange : (change c).environment = c.environment) :
    Serves c vs (fun demand => (plan demand).within change) m := by
  refine ⟨h.binds, fun demand => ?_⟩
  obtain ⟨s, hs, hs'⟩ := h.serves demand
  unfold outcome at hs
  rw [hchange] at hs
  exact ⟨s, hs, hs'⟩

theorem Repeats.within {c : Context} {m : Solutions} {demand : Demand}
    (change : Context → Context) (h : Repeats (change c) vs demand plan m)
    (hchange : (change c).environment = c.environment) :
    Repeats c vs demand (fun demand => (plan demand).within change) m := by
  obtain ⟨hbinds, s, hs, hs'⟩ := h
  unfold outcome at hs
  rw [hchange] at hs
  exact ⟨hbinds, s, hs, hs'⟩

/-- Following is about all plain contexts, so it is kept by changes of them. -/
theorem Follows.within (h : Follows e vs plan' plan) (change : Context → Context)
    (hchange : Context.IsScope change)
    (hplain : ∀ c, c.IsPlain e → (change c).IsPlain e) :
    Follows e vs (fun demand => (plan' demand).within change)
      fun demand => (plan demand).within change where
  steady demand := (h.steady demand).within hchange
  steady' demand := (h.steady' demand).within hchange
  serves c hc m hm := (h.serves _ (hplain c hc) m hm).within change
    ((hplain c hc).environment_eq.trans hc.environment_eq.symm)
  repeatsSome c hc n m hm := (h.repeatsSome _ (hplain c hc) n m hm).within change
    ((hplain c hc).environment_eq.trans hc.environment_eq.symm)

theorem Meets.within (h : Meets e vs plan' plan) (change : Context → Context)
    (hchange : Context.IsScope change)
    (hplain : ∀ c, c.IsPlain e → (change c).IsPlain e) :
    Meets e vs (fun demand => (plan' demand).within change)
      fun demand => (plan demand).within change :=
  ⟨h.toFollows.within change hchange hplain,
    fun c hc demand m hm => h.small _ (hplain c hc) demand m hm⟩

theorem Meets.input (h : Meets e vs plan' plan) (i : Nat) :
    Meets e vs (plan'.input i) (plan.input i) :=
  h.within _ (Context.isScope_place (·.map (· ++ [i]))) fun _ hc => hc.elsewhere _

theorem Meets.mapSeed (h : Meets e vs plan' plan) (f : Binding → Binding) :
    Meets e vs (plan'.mapSeed f) (plan.mapSeed f) :=
  h.within _ (Context.isScope_seed (·.map f)) fun _ hc => hc.mapSeed f

/-- An evaluation that is observed runs one level deeper, and its result is
recorded. -/
theorem runFrom_observed (name : String) (demand : Demand) {c : Context}
    (hc : c.Repeatable) (p : Progress) :
    (plan.observed name demand).runFrom c p =
      match (plan demand).runFrom { c with depth := c.depth + 1 }
          { p with log := .before name c.depth :: p.log } with
      | (.ok m, q) =>
        (.ok m, { q with log := .after name c.depth c.place m :: q.log })
      | (.error err, q) => (.error err, q) := by
  have htime : checkTime.runFrom c p = (.ok (), p) := by
    rw [runFrom_checkTime, hc.inTime]
    rfl
  unfold observed
  simp only [act_eval, deeper_eval]
  rw [runFrom_bind_ok c p htime, runFrom_bind_ok c p (runFrom_read c p),
    runFrom_bind_ok c p (runFrom_record c p _), runFrom_bind, runFrom_within]
  rcases (plan demand).runFrom { c with depth := c.depth + 1 }
    { p with log := .before name c.depth :: p.log } with ⟨r, q⟩
  cases r <;> rfl

theorem yields_observed {name : String} {demand : Demand} {c : Context}
    {m : Solutions} (hc : c.Repeatable)
    (hm : (plan.observed name demand).Yields c m) :
    (plan demand).Yields { c with depth := c.depth + 1 } m ∧ m.IsSmall := by
  obtain ⟨p, q, hrun, hsmall⟩ := hm
  rw [runFrom_observed name demand hc] at hrun
  split at hrun
  · rename_i m' q' hinner
    cases hrun
    have hm : m.IsSmall := hsmall name c.depth c.place m List.mem_cons_self
    exact ⟨⟨_, q', hinner, hsmall.of_suffix (List.suffix_cons _ _)⟩, hm⟩
  · cases hrun

theorem outcome_observed (name : String) (demand : Demand) {c : Context}
    (h : plan.Steady) (hc : c.Repeatable) :
    (plan.observed name demand).outcome c =
      (plan demand).outcome { c with depth := c.depth + 1 } := by
  have hdeeper : ({ c with depth := c.depth + 1 } : Context).Repeatable :=
    ⟨⟨hc.readable, hc.inTime⟩, hc.builtin⟩
  have hsame := (h demand).fst_runFrom hdeeper
    { Progress.initial c.environment with
      log := .before name c.depth :: (Progress.initial c.environment).log }
  rw [← hsame]
  unfold outcome
  rw [runFrom_observed name demand hc]
  split <;> rename_i hinner <;> rw [hinner]

theorem outcome_input (h : plan.Steady) {c : Context} (hc : c.Repeatable) (i : Nat)
    (demand : Demand) : (plan.input i demand).outcome c = (plan demand).outcome c :=
  (h demand).outcome_congr hc ⟨⟨rfl, .refl _⟩, rfl⟩

/-- Observers do not change what is yielded. -/
theorem outcome_observed_eq (h : plan.Steady) {c : Context} (hc : c.Repeatable)
    (name : String) (demand : Demand) :
    (plan.observed name demand).outcome c = (plan demand).outcome c :=
  (outcome_observed name demand h hc).trans ((h demand).outcome_congr hc ⟨⟨rfl, .refl _⟩, rfl⟩)

theorem Follows.observed (h : Follows e vs plan' plan) (name name' : String) :
    Meets e vs (plan'.observed name') (plan.observed name) := by
  refine ⟨⟨h.steady.observed name, h.steady'.observed name',
    fun c hc m hm => ?_, fun c hc n m hm => ?_⟩,
    fun c hc _ m hm => (yields_observed hc.toRepeatable hm).2⟩
  · have hinner := (yields_observed hc.toRepeatable hm).1
    obtain ⟨hbinds, hserves⟩ := h.serves _ (hc.deeper _) m hinner
    refine ⟨hbinds, fun demand => ?_⟩
    rw [outcome_observed name' demand h.steady' hc.toRepeatable]
    exact hserves demand
  · have hinner := (yields_observed hc.toRepeatable hm).1
    obtain ⟨hbinds, hrepeats⟩ := h.repeatsSome _ (hc.deeper _) n m hinner
    refine ⟨hbinds, ?_⟩
    rw [outcome_observed name' (some n) h.steady' hc.toRepeatable]
    exact hrepeats

/-! ## Growing demand -/

section Growing

variable {σ : Type} {combine : σ → Solutions → Eval (Solutions × σ)}
  {c : Context} {m o : Solutions}

/-- Combining the beginning of `m` yields the beginning of `o`, and all of it for
all of `m`, with a memory of which `known` holds. -/
def Combines (c : Context) (vs ws : List Var) (m o : Solutions) (known : σ → Prop)
    (combine : σ → Solutions → Eval (Solutions × σ)) : Prop :=
  ∀ memory s, known memory → s.Binds vs → s.rows <+: m.rows →
    ∃ out memory', (combine memory s).outcome c = .ok (out, memory') ∧
      known memory' ∧ out.Binds ws ∧ out.rows <+: o.rows ∧
      (s.rows = m.rows → out.rows = o.rows)

/-- One round of asking. -/
theorem outcome_grow (hc : c.Repeatable) (hplan : plan.Steady)
    (hsteady : ∀ memory s, (combine memory s).Steady) (wanted : Nat)
    {asked : Nat} (memory : σ) {memory' : σ} {found out : Solutions}
    (hfound : (plan (some asked)).outcome c = .ok found)
    (hout : (combine memory found).outcome c = .ok (out, memory')) :
    (grow plan wanted combine asked memory).outcome c =
      (if found.isSingleton || found.size < asked || wanted ≤ out.size then
        Pure.pure out
      else if _h : 0 < asked ∧ asked < maxCount then
        grow plan wanted combine (double asked) memory'
      else Pure.pure out : Eval Solutions).outcome c := by
  have hrest := grow_steady_rest hplan hsteady wanted asked
  conv_lhs => unfold grow
  exact (outcome_bind_ok (fun s => (hsteady memory s).bind (hrest s)) hc
    hfound).trans (outcome_bind_ok (hrest found) hc hout)

/-- Asking for more and more solutions ends with enough: if fewer are returned
than asked for, these are all, and the largest number is never reached. -/
theorem grow_serves (hc : c.Repeatable) (hplan : plan.Steady)
    (hsteady : ∀ memory s, (combine memory s).Steady)
    (hserves : plan.Serves c vs m) (hm : m.IsSmall) {known : σ → Prop}
    (hcombine : Combines c vs ws m o known combine) (wanted asked : Nat)
    (memory : σ) (hasked : 0 < asked) (hknown : known memory) :
    ∃ s, (grow plan wanted combine asked memory).outcome c = .ok s ∧
      s.Binds ws ∧ s.Begins (some wanted) o := by
  induction asked, memory using grow.induct with
  | case1 asked memory ih =>
    obtain ⟨found, hfound, hbinds, hbegin, hsize⟩ := hserves.serves (some asked)
    obtain ⟨out, memory', hout, hknown', hbinds', hbegin', hall⟩ :=
      hcombine memory found hknown hbinds hbegin
    have hle : found.size ≤ m.size := hbegin.length_le
    have hrest := outcome_grow hc hplan hsteady wanted memory hfound hout
    rw [hrest, hbinds.real]
    by_cases hend : found.size < asked
    · -- all solutions of the source have been seen
      have heq : found.rows = m.rows := by
        rcases hsize with heq | ⟨n, hn, hle'⟩
        · exact heq
        · cases hn
          omega
      simp only [hend, decide_true, Bool.false_or, Bool.true_or, if_true]
      exact ⟨out, rfl, hbinds', hbegin', .inl (hall heq)⟩
    · by_cases hwanted : wanted ≤ out.size
      · simp only [hwanted, decide_true, Bool.or_true, if_true]
        exact ⟨out, rfl, hbinds', hbegin', .inr ⟨wanted, rfl, hwanted⟩⟩
      · have hlt : asked < maxCount := by
          have : m.size < maxCount := hm
          omega
        simp only [hend, hwanted, decide_false, Bool.or_self, Bool.false_eq_true,
          if_false, hasked, hlt, and_self, dite_true]
        exact ih memory' ⟨hasked, hlt⟩ (Nat.lt_trans hasked (lt_double hasked hlt))
          hknown'

theorem fromPrefix_serves (hc : c.Repeatable) (hplan : plan.Steady)
    (hsteady : ∀ memory s, (combine memory s).Steady)
    (hserves : plan.Serves c vs m) (hm : m.IsSmall) (ho : o.Binds ws)
    (known : σ → Prop) (hcombine : Combines c vs ws m o known combine) (memory : σ)
    (hknown : known memory) :
    (plan.fromPrefix memory combine).Serves c ws o := by
  refine ⟨ho, fun demand => ?_⟩
  cases demand with
  | none =>
    obtain ⟨found, hfound, hbinds, hbegins⟩ := hserves.serves none
    obtain ⟨out, memory', hout, -, hbinds', -, hall⟩ :=
      hcombine memory found hknown hbinds hbegins.1
    refine ⟨out, ?_, hbinds', Solutions.begins_of_eq (hall hbegins.eq_of_none) _⟩
    exact (outcome_bind_ok (fun s => (hsteady memory s).bind fun _ => .pure _) hc
      hfound).trans (outcome_bind_ok (fun _ => .pure _) hc hout)
  | some wanted =>
    exact grow_serves hc hplan hsteady hserves hm hcombine wanted _ memory
      (by omega) hknown

/-- Combining solutions with the same rows yields solutions with the same rows,
and memories that are still related. -/
def CombinesAlike (c : Context) (vs ws : List Var) (related : σ → σ → Prop)
    (combine' combine : σ → Solutions → Eval (Solutions × σ)) : Prop :=
  ∀ memory memory' s s', related memory memory' → s.Binds vs →
    s'.Binds vs → s'.rows = s.rows → ∀ r, (combine memory s).Yields c r →
      r.1.Binds ws ∧
      ∃ r', (combine' memory' s').outcome c = .ok r' ∧ related r.2 r'.2 ∧
        r'.1.Binds ws ∧ r'.1.rows = r.1.rows

/-- Two sources with the same rows are asked the same questions. -/
theorem grow_repeats {combine' : σ → Solutions → Eval (Solutions × σ)}
    (hc : c.IsPlain e) (hplan : Follows e vs plan' plan)
    (hsteady : ∀ memory s, (combine memory s).Steady)
    (hsteady' : ∀ memory s, (combine' memory s).Steady) {related : σ → σ → Prop}
    (hcombine : CombinesAlike c vs ws related combine' combine) (wanted asked : Nat)
    (memory memory' : σ) (hrelated : related memory memory')
    (ho : (grow plan wanted combine asked memory).Yields c o) :
    o.Binds ws ∧
    ∃ o', (grow plan' wanted combine' asked memory').outcome c = .ok o' ∧
      o'.Binds ws ∧ o'.rows = o.rows := by
  induction asked, memory using grow.induct generalizing memory' with
  | case1 asked memory ih =>
    have hrep := hc.toRepeatable
    have hrest := grow_steady_rest hplan.steady hsteady wanted asked
    unfold grow at ho
    obtain ⟨s, hs, ho⟩ := ho.of_bind
      (fun s => (hsteady memory s).bind (hrest s)) hrep
    obtain ⟨r, hr, ho⟩ := ho.of_bind (hrest s) hrep
    obtain ⟨hbinds, s', hs', hbinds', hrows⟩ := hplan.repeats hc hs
    obtain ⟨hout, r', hr', hrelated', hout', hrows'⟩ :=
      hcombine memory memory' s s' hrelated hbinds hbinds' hrows r hr
    -- both runs decide by numbers of rows, and so they go on or end together
    have hsize : s'.size = s.size := congrArg List.length hrows
    have hsize' : r'.1.size = r.1.size := congrArg List.length hrows'
    rw [outcome_grow hrep hplan.steady' hsteady' wanted memory' hs' hr', hsize,
      hsize', hbinds'.real]
    rw [hbinds.real] at ho
    dsimp only at ho
    split at ho
    · rename_i hend
      rw [if_pos hend]
      cases ho.of_pure
      exact ⟨hout, r'.1, rfl, hout', hrows'⟩
    · rename_i hend
      rw [if_neg hend]
      split at ho
      · rename_i hasked
        rw [dif_pos hasked]
        exact ih r.2 hasked r'.2 hrelated' ho
      · rename_i hasked
        rw [dif_neg hasked]
        cases ho.of_pure
        exact ⟨hout, r'.1, rfl, hout', hrows'⟩

end Growing

end Plan

end SparqlAlgebra
