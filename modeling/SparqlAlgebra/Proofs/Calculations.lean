import SparqlAlgebra.Proofs.PlainExpressions

/-!
# What expressions depend on

An expression that asks for no matches is calculated. It reads neither the data nor the clock
nor the place it stands at, only the functions it calls, the number of the query and the
number of calls made before it. Nothing but this last number is different afterwards: no
solution gets a number, and observers are told nothing.

* `Eval.Calculates` compares the runs of an evaluation in two contexts with the same functions,
  and `Eval.after` is the one outcome that there is after a number of calls;
* `Expr.meaning_calculates`: value and truth of an expression without patterns calculate, also
  with random and custom functions in it.
-/

namespace SparqlAlgebra

/-! ## Evaluations -/

/-- Two contexts in which calls have the same values. -/
structure Context.CallsAlike (c c' : Context) : Prop where
  functions : c'.environment.functions = c.environment.functions
  queryId : c'.environment.queryId = c.environment.queryId

theorem Context.CallsAlike.refl (c : Context) : c.CallsAlike c := ⟨rfl, rfl⟩

/-- Two runs have made calls, as many in the end, and have counted nothing else. -/
def Progress.CountsCalls (p p' q q' : Progress) : Prop :=
  ∃ n, q = { p with calls := n } ∧ q' = { p' with calls := n }

namespace Progress.CountsCalls

variable {p p' q q' t t' : Progress}

theorem refl (h : p'.calls = p.calls) : p.CountsCalls p' p p' := by
  refine ⟨p.calls, rfl, ?_⟩
  rw [← h]

theorem calls_eq (h : p.CountsCalls p' q q') : q'.calls = q.calls := by
  obtain ⟨n, rfl, rfl⟩ := h
  rfl

theorem trans (h : p.CountsCalls p' q q') (k : q.CountsCalls q' t t') :
    p.CountsCalls p' t t' := by
  obtain ⟨n, rfl, rfl⟩ := h
  exact k

end Progress.CountsCalls

namespace Eval

variable {α β : Type}

/-- After the same number of calls two runs have the same outcome, and only calls are
counted. -/
def Calculates (x : Eval α) : Prop :=
  ∀ c c', c.CallsAlike c' → ∀ p p' : Progress, p'.calls = p.calls →
    RelatedRuns (p.CountsCalls p') neverStops Eq (x.runFrom c p) (x.runFrom c' p')

theorem Calculates.runs {x : Eval α} (hx : x.Calculates) {c c' : Context} (hs : c.CallsAlike c')
    (p p' : Progress) (hcalls : p'.calls = p.calls) : ∃ r n,
      x.runFrom c p = (r, { p with calls := n }) ∧
        x.runFrom c' p' = (r, { p' with calls := n }) := by
  have hruns := hx c c' hs p p' hcalls
  obtain ⟨n, hn, hn'⟩ := hruns.counts
  exact ⟨_, n, Prod.ext rfl hn, Prod.ext (hruns.outcomes.eq fun _ _ heq => heq).symm hn'⟩

theorem Calculates.pure (a : α) : (pure a : Eval α).Calculates := fun _ _ _ _ _ hcalls =>
  .pure rfl (.refl hcalls)

theorem Calculates.fail (e : QueryError) : (fail e : Eval α).Calculates := fun _ _ _ _ _ hcalls =>
  .fail e (.refl hcalls)

theorem Calculates.ofOption (o : Option α) : (ofOption o).Calculates := fun _ _ _ _ _ hcalls =>
  .ofOption o (.refl hcalls)

theorem Calculates.bind {x : Eval α} {f : α → Eval β} (hx : x.Calculates)
    (hf : ∀ a, (f a).Calculates) : (x >>= f).Calculates := by
  refine fun c c' hs p p' hcalls => (hx c c' hs p p' hcalls).bind fun a b q q' hab hq => ?_
  subst hab
  -- the rest starts after the same number of calls again
  exact (hf a c c' hs q q' hq.calls_eq).counting fun _ _ => hq.trans

theorem Calculates.absorb {x : Eval α} (hx : x.Calculates) : x.absorb.Calculates :=
  fun c c' hs p p' hcalls =>
    ((hx c c' hs p p' hcalls).absorb fun _ he => he.elim).mono (fun _ _ hq => hq)
      (fun _ he => he) fun _ _ hr => hr.eq fun _ _ heq => heq

/-- The number of a call is that of the calls before it. -/
theorem Calculates.newCall : newCall.Calculates := by
  intro c c' _ p p' hcalls
  rw [runFrom_newCall, runFrom_newCall, hcalls]
  exact .ok rfl ⟨p.calls + 1, rfl, rfl⟩

/-- What follows reads of its context only what the two have in common. -/
theorem Calculates.read_bind {f : Context → Eval α} (h : ∀ c, (f c).Calculates)
    (hf : ∀ c c', c.CallsAlike c' → f c' = f c) : (read >>= f).Calculates := by
  refine fun c c' hs p p' hcalls => .read_bind ?_
  rw [hf c c' hs]
  exact h c c c' hs p p' hcalls

/-- The outcome of an evaluation that starts after some calls, and the number of calls when it
has ended. -/
def after (x : Eval α) (c : Context) (calls : Nat) : Except QueryError α × Nat :=
  let (r, q) := x.runFrom c { Progress.initial c.environment with calls := calls }
  (r, q.calls)

/-- Of what was counted before, only the calls matter, and only they are counted. -/
theorem Calculates.runFrom_eq {x : Eval α} (hx : x.Calculates) (c : Context) (p : Progress) :
    x.runFrom c p = ((x.after c p.calls).1, { p with calls := (x.after c p.calls).2 }) := by
  obtain ⟨r, n, hstart, hrun⟩ :=
    hx.runs (.refl c) { Progress.initial c.environment with calls := p.calls } p rfl
  have hafter : x.after c p.calls = (r, n) := by
    unfold after
    rw [hstart]
  rw [hafter, hrun]

theorem Calculates.after_congr {x : Eval α} (hx : x.Calculates) {c c' : Context}
    (hs : c.CallsAlike c') (calls : Nat) : x.after c' calls = x.after c calls := by
  obtain ⟨r, n, hrun, hrun'⟩ :=
    hx.runs hs { Progress.initial c.environment with calls := calls }
      { Progress.initial c'.environment with calls := calls } rfl
  unfold after
  rw [hrun, hrun']

end Eval

open Eval

/-! ## Operators -/

/-- Value and truth calculate. -/
structure Meaning.Calculates (m : Meaning) : Prop where
  value : ∀ row, (m.value row).Calculates
  test : ∀ row, (m.test row).Calculates

namespace Meaning

variable {a b m : Meaning} {ms : List Meaning}

theorem Calculates.ofValue {v : Row → Eval Term} (h : ∀ row, (v row).Calculates) :
    (Meaning.ofValue v).Calculates :=
  ⟨h, fun row => (h row).bind fun _ => .ofOption _⟩

theorem Calculates.ofTest {t : Row → Eval Bool} (h : ∀ row, (t row).Calculates) :
    (Meaning.ofTest t).Calculates :=
  ⟨fun row => (h row).bind fun _ => .pure _, h⟩

theorem Calculates.constant (t : Term) : (Meaning.constant t).Calculates :=
  .ofValue fun _ => .pure _

theorem Calculates.var (v : Var) : (Meaning.var v).Calculates := by
  refine .ofValue fun row => ?_
  cases row.binding.get? v
  · exact .fail _
  · exact .pure _

theorem Calculates.bound (v : Var) : (Meaning.bound v).Calculates := .ofTest fun _ => .pure _

theorem Calculates.not (h : m.Calculates) : m.not.Calculates :=
  .ofTest fun row => (h.test row).bind fun _ => .pure _

theorem Calculates.or (ha : a.Calculates) (hb : b.Calculates) : (a.or b).Calculates := by
  refine .ofTest fun row => (ha.test row).absorb.bind fun result => ?_
  match result with
  | .ok true => exact .pure _
  | .ok false => exact hb.test row
  | .error e =>
    refine (hb.test row).bind fun holds => ?_
    cases holds
    · exact .fail _
    · exact .pure _

theorem Calculates.and (ha : a.Calculates) (hb : b.Calculates) : (a.and b).Calculates := by
  refine .ofTest fun row => (ha.test row).absorb.bind fun result => ?_
  match result with
  | .ok true => exact hb.test row
  | .ok false => exact .pure _
  | .error e =>
    refine (hb.test row).bind fun holds => ?_
    cases holds
    · exact .pure _
    · exact .fail _

theorem Calculates.compareBy (f : Term → Term → Option Bool) (ha : a.Calculates)
    (hb : b.Calculates) : (Meaning.compareBy f a b).Calculates :=
  .ofTest fun row => (ha.value row).bind fun _ => (hb.value row).bind fun _ => .ofOption _

/-- One candidate is compared, an error in it is absorbed, and the rest goes on with the error
that is to be remembered. -/
theorem equalsAny_cons (x : Term) (row : Row) (last : Option QueryError) (m : Meaning)
    (ms : List Meaning) : ∃ k : Except QueryError Bool → Eval Bool,
      equalsAny x row last (m :: ms) =
        (m.value row >>= fun y => Eval.ofOption (sparqlEquals? x y)).absorb >>= k ∧
      k (.ok true) = pure true ∧ k (.ok false) = equalsAny x row last ms ∧
      ∀ e, k (.error e) = equalsAny x row (some e) ms := by
  cases last <;> exact ⟨_, rfl, rfl, rfl, fun _ => rfl⟩

theorem equalsAny_calculates (x : Term) (row : Row) (hms : ∀ m ∈ ms, m.Calculates)
    (last : Option QueryError) : (equalsAny x row last ms).Calculates := by
  induction ms generalizing last with
  | nil =>
    cases last
    · exact .pure _
    · exact .fail _
  | cons m rest ih =>
    have hm := (hms m List.mem_cons_self).value row
    have ih := ih fun n hn => hms n (List.mem_cons_of_mem _ hn)
    obtain ⟨k, hstep, hyes, hno, herror⟩ := equalsAny_cons x row last m rest
    rw [hstep]
    refine (hm.bind fun _ => .ofOption _).absorb.bind fun result => ?_
    match result with
    | .ok true =>
      rw [hyes]
      exact .pure _
    | .ok false =>
      rw [hno]
      exact ih _
    | .error e =>
      rw [herror]
      exact ih _

theorem Calculates.isIn (h : m.Calculates) (hms : ∀ m ∈ ms, m.Calculates) :
    (m.isIn ms).Calculates :=
  .ofTest fun row => (h.value row).bind fun x => equalsAny_calculates x row hms none

theorem Calculates.numeric (f : Number → Option Number) (h : m.Calculates) :
    (Meaning.numeric f m).Calculates :=
  .ofValue fun row => (h.value row).bind fun _ =>
    Eval.Calculates.bind (.ofOption _) fun _ => Eval.Calculates.bind (.ofOption _) fun _ =>
      .pure _

theorem Calculates.arithmetic (f : Number → Number → Option Number) (ha : a.Calculates)
    (hb : b.Calculates) : (Meaning.arithmetic f a b).Calculates :=
  .ofValue fun row => (ha.value row).bind fun _ => (hb.value row).bind fun _ =>
    Eval.Calculates.bind (.ofOption _) fun _ => Eval.Calculates.bind (.ofOption _) fun _ =>
      Eval.Calculates.bind (.ofOption _) fun _ => .pure _

theorem Calculates.cond {test yes no : Meaning} (ht : test.Calculates) (hy : yes.Calculates)
    (hn : no.Calculates) : (Meaning.cond test yes no).Calculates := by
  refine .ofValue fun row => (ht.test row).bind fun holds => ?_
  cases holds
  · exact hn.value row
  · exact hy.value row

theorem firstValue_calculates (row : Row) (hms : ∀ m ∈ ms, m.Calculates) :
    (firstValue row ms).Calculates := by
  induction ms with
  | nil => exact .fail _
  | cons m rest ih =>
    refine ((hms m List.mem_cons_self).value row).absorb.bind fun result => ?_
    cases result with
    | ok t => exact .pure _
    | error e => exact ih fun n hn => hms n (List.mem_cons_of_mem _ hn)

theorem Calculates.coalesce (hms : ∀ m ∈ ms, m.Calculates) : (Meaning.coalesce ms).Calculates :=
  .ofValue fun row => firstValue_calculates row hms

theorem values_calculates (row : Row) (hms : ∀ m ∈ ms, m.Calculates) :
    (values row ms).Calculates := by
  induction ms with
  | nil => exact .pure _
  | cons m rest ih =>
    exact ((hms m List.mem_cons_self).value row).bind fun _ =>
      (ih fun n hn => hms n (List.mem_cons_of_mem _ hn)).bind fun _ => .pure _

/-- A function is given the numbers of the query, of the solution and of the call. -/
theorem Calculates.call (f : FunctionName) (hms : ∀ m ∈ ms, m.Calculates) :
    (Meaning.call f ms).Calculates := by
  refine .ofValue fun row => (values_calculates row hms).bind fun terms => ?_
  refine .read_bind (fun c => ?_) fun c c' hs => ?_
  · dsimp only
    cases c.environment.functions f with
    | none => exact .fail _
    | some g => exact Eval.Calculates.newCall.bind fun _ => .ofOption _
  · simp only [hs.functions, hs.queryId]

end Meaning

theorem UnaryOp.calculates (op : UnaryOp) {m : Meaning} (h : m.Calculates) :
    (op.meaning m).Calculates := by
  cases op
  · exact h.not
  · exact h.numeric _
  · exact h.numeric _

theorem BinaryOp.calculates (op : BinaryOp) {a b : Meaning} (ha : a.Calculates)
    (hb : b.Calculates) : (op.meaning a b).Calculates := by
  cases op
  case or => exact ha.or hb
  case and => exact ha.and hb
  case equal | sameTerm | greater | greaterOrEqual | less | lessOrEqual =>
    exact ha.compareBy _ hb
  case add | subtract | multiply | divide => exact ha.arithmetic _ hb

/-! ## Expressions -/

namespace Expr

variable {operators : OperatorRegistry}

mutual

/-- An expression that asks for no matches is calculated. -/
theorem meaning_calculates : ∀ e : Expr, e.containsMatch = false →
    (e.meaning operators).Calculates
  | .constant t, _ => .constant t
  | .var v, _ => .var v
  | .bound v, _ => .bound v
  | .unary op e, h => op.calculates (e.meaning_calculates h)
  | .binary op l r, h => by
    have h := Bool.or_eq_false_iff.mp h
    exact op.calculates (l.meaning_calculates h.1) (r.meaning_calculates h.2)
  | .isIn e es, h => by
    have h := Bool.or_eq_false_iff.mp h
    exact (e.meaning_calculates h.1).isIn (meanings_calculate es h.2)
  | .cond c t e, h => by
    have h := Bool.or_eq_false_iff.mp h
    have h' := Bool.or_eq_false_iff.mp h.1
    exact .cond (c.meaning_calculates h'.1) (t.meaning_calculates h'.2)
      (e.meaning_calculates h.2)
  | .coalesce es, h => .coalesce (meanings_calculate es h)
  | .call f es, h => .call f (meanings_calculate es h)
  | .hasMatch _, h => by cases h

theorem meanings_calculate : ∀ es : List Expr, containMatch es = false →
    ∀ m ∈ meanings operators es, m.Calculates
  | [], _ => by simp [meanings]
  | e :: rest, h => by
    have h := Bool.or_eq_false_iff.mp h
    exact List.forall_mem_cons.mpr ⟨e.meaning_calculates h.1, meanings_calculate rest h.2⟩

end

end Expr

end SparqlAlgebra
