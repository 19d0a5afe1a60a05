import SparqlAlgebra.Algebra.Structure
import SparqlAlgebra.Algebra.Traversal
import SparqlAlgebra.Evaluation
import SparqlAlgebra.Proofs.SteadyTrees

/-!
# Expressions without patterns

An expression that asks for no matches and calls no random or custom function
reads the values of its variables only, and all its errors are absorbed by the
conditions it is part of. So a condition always has a truth value, which stays
the same while variables are bound that it does not mention.

* `Expr.meaning_respects`: value and truth depend on the variables;
* `Expr.meaning_mild`: errors are absorbable, also those of random and custom functions;
* `Expr.truth` is the truth value of a condition in a context;
* `Expr.mapUpM_eq_self`: a change of patterns does not change the expression.
-/

namespace SparqlAlgebra

/-! ## Errors of evaluations -/

/-- There is a function under the name of every builtin one. -/
def Context.HasBuiltins (c : Context) : Prop :=
  ∀ f : Builtin, (c.environment.functions (.builtin f)).isSome = true

theorem Context.Repeatable.hasBuiltins {c : Context} (hc : c.Repeatable) : c.HasBuiltins :=
  fun f => by rw [hc.builtin f, Option.isSome_some]

namespace Eval

variable {α β : Type} {errors : QueryError → Prop}

/-- Whenever the evaluation fails, it is for one of the given causes. -/
def FailsWith (errors : QueryError → Prop) (x : Eval α) : Prop :=
  ∀ c : Context, c.HasBuiltins → ∀ p err q, x.runFrom c p = (.error err, q) → errors err

/-- All errors are absorbed by a condition around the evaluation. -/
abbrev IsMild (x : Eval α) : Prop := x.FailsWith fun err => err.isAbsorbable = true

/-- There are no errors. -/
abbrev Succeeds (x : Eval α) : Prop := x.FailsWith fun _ => False

theorem FailsWith.pure (a : α) : (pure a : Eval α).FailsWith errors :=
  fun _ _ _ _ _ h => by cases h

theorem FailsWith.fail {err : QueryError} (h : errors err) :
    (fail err : Eval α).FailsWith errors := fun _ _ _ _ _ hrun => by
  cases hrun
  exact h

theorem FailsWith.ofOption (o : Option α) (h : errors .invalidArgument) :
    (ofOption o).FailsWith errors := by
  cases o
  · exact .fail h
  · exact .pure _

theorem FailsWith.bind {x : Eval α} {f : α → Eval β} (hx : x.FailsWith errors)
    (hf : ∀ a, (f a).FailsWith errors) : (x >>= f).FailsWith errors := by
  intro c hc p err q hrun
  rw [runFrom_bind] at hrun
  rcases hp : x.runFrom c p with ⟨r, p'⟩
  rw [hp] at hrun
  cases r with
  | ok a => exact hf a c hc p' err q hrun
  | error e =>
    cases hrun
    exact hx c hc p _ _ hp

theorem FailsWith.read_bind {f : Context → Eval α}
    (h : ∀ c, c.HasBuiltins → (f c).FailsWith errors) : (read >>= f).FailsWith errors := by
  intro c hc p err q hrun
  rw [runFrom_bind_ok c p (runFrom_read c p)] at hrun
  exact h c hc c hc p err q hrun

theorem FailsWith.newCall : newCall.FailsWith errors := fun _ _ _ _ _ h => by cases h

theorem FailsWith.newSolutionId : newSolutionId.FailsWith errors :=
  fun _ _ _ _ _ h => by cases h

/-- What follows an absorbed error may rely on it being mild. -/
theorem IsMild.absorb_bind {x : Eval α} (hx : x.IsMild) {f : Except QueryError α → Eval β}
    (hok : ∀ a, (f (.ok a)).FailsWith errors)
    (herror : ∀ err, err.isAbsorbable = true → (f (.error err)).FailsWith errors) :
    (x.absorb >>= f).FailsWith errors := by
  intro c hc p err q hrun
  rw [runFrom_bind, runFrom_absorb] at hrun
  rcases hp : x.runFrom c p with ⟨r, p'⟩
  rw [hp] at hrun
  cases r with
  | ok a => exact hok a c hc p' err q hrun
  | error e =>
    have he : e.isAbsorbable = true := hx c hc p e p' hp
    simp only [he, if_true] at hrun
    exact herror e he c hc p' err q hrun

theorem Succeeds.runFrom_eq {x : Eval α} (h : x.Succeeds) {c : Context}
    (hc : c.HasBuiltins) (p : Progress) : ∃ a q, x.runFrom c p = (.ok a, q) := by
  rcases hp : x.runFrom c p with ⟨r, q⟩
  cases r with
  | ok a => exact ⟨a, q, rfl⟩
  | error e => exact (h c hc p e q hp).elim

theorem Succeeds.outcome_eq {x : Eval α} (h : x.Succeeds) {c : Context}
    (hc : c.Repeatable) : ∃ a, x.outcome c = .ok a := by
  obtain ⟨a, q, hrun⟩ := h.runFrom_eq hc.hasBuiltins (.initial c.environment)
  exact ⟨a, by rw [Eval.outcome, hrun]⟩

end Eval

open Eval

/-- Value and truth have absorbable errors only. -/
structure Meaning.IsMild (m : Meaning) : Prop where
  value : ∀ row, (m.value row).IsMild
  test : ∀ row, (m.test row).IsMild

namespace Meaning

variable {a b m : Meaning} {ms : List Meaning}

theorem IsMild.ofValue {v : Row → Eval Term} (h : ∀ row, (v row).IsMild) :
    (Meaning.ofValue v).IsMild :=
  ⟨h, fun row => (h row).bind fun _ => .ofOption _ rfl⟩

theorem IsMild.ofTest {t : Row → Eval Bool} (h : ∀ row, (t row).IsMild) :
    (Meaning.ofTest t).IsMild :=
  ⟨fun row => (h row).bind fun _ => .pure _, h⟩

theorem IsMild.constant (t : Term) : (Meaning.constant t).IsMild :=
  .ofValue fun _ => .pure _

theorem IsMild.var (v : Var) : (Meaning.var v).IsMild := by
  refine .ofValue fun row => ?_
  cases row.binding.get? v
  · exact .fail rfl
  · exact .pure _

theorem IsMild.bound (v : Var) : (Meaning.bound v).IsMild := .ofTest fun _ => .pure _

theorem IsMild.not (h : m.IsMild) : m.not.IsMild :=
  .ofTest fun row => (h.test row).bind fun _ => .pure _

theorem IsMild.or (ha : a.IsMild) (hb : b.IsMild) : (a.or b).IsMild := by
  refine .ofTest fun row => (ha.test row).absorb_bind (fun holds => ?_) fun err herr => ?_
  · cases holds
    · exact hb.test row
    · exact .pure _
  · refine (hb.test row).bind fun holds => ?_
    cases holds
    · exact .fail herr
    · exact .pure _

theorem IsMild.and (ha : a.IsMild) (hb : b.IsMild) : (a.and b).IsMild := by
  refine .ofTest fun row => (ha.test row).absorb_bind (fun holds => ?_) fun err herr => ?_
  · cases holds
    · exact .pure _
    · exact hb.test row
  · refine (hb.test row).bind fun holds => ?_
    cases holds
    · exact .pure _
    · exact .fail herr

theorem IsMild.compareBy (f : Term → Term → Option Bool) (ha : a.IsMild)
    (hb : b.IsMild) : (Meaning.compareBy f a b).IsMild :=
  .ofTest fun row => (ha.value row).bind fun _ => (hb.value row).bind fun _ =>
    .ofOption _ rfl

theorem equalsAny_mild (x : Term) (row : Row) (hms : ∀ m ∈ ms, m.IsMild)
    {last : Option QueryError} (hlast : ∀ err ∈ last, err.isAbsorbable = true) :
    (equalsAny x row last ms).IsMild := by
  induction ms generalizing last with
  | nil =>
    cases last with
    | none => exact .pure _
    | some err => exact .fail (hlast err rfl)
  | cons m rest ih =>
    have hm := (hms m List.mem_cons_self).value row
    have ih := @ih fun n hn => hms n (List.mem_cons_of_mem _ hn)
    have hequal : Eval.IsMild (do Eval.ofOption (sparqlEquals? x (← m.value row))) :=
      hm.bind fun _ => .ofOption _ rfl
    have herror (err : QueryError) (herr : err.isAbsorbable = true) :
        (equalsAny x row (some err) rest).IsMild := by
      refine ih ?_
      rintro _ ⟨⟩
      exact herr
    cases last <;>
      refine hequal.absorb_bind (fun holds => ?_) herror <;>
      cases holds
    all_goals first
      | exact ih hlast
      | exact .pure _

theorem IsMild.isIn (h : m.IsMild) (hms : ∀ m ∈ ms, m.IsMild) : (m.isIn ms).IsMild :=
  .ofTest fun row => (h.value row).bind fun x =>
    equalsAny_mild x row hms fun _ herr => absurd herr (Option.not_mem_none _)

theorem IsMild.numeric (f : Number → Option Number) (h : m.IsMild) :
    (Meaning.numeric f m).IsMild :=
  .ofValue fun row => (h.value row).bind fun _ =>
    FailsWith.bind (.ofOption _ rfl) fun _ => FailsWith.bind (.ofOption _ rfl) fun _ =>
      .pure _

theorem IsMild.arithmetic (f : Number → Number → Option Number) (ha : a.IsMild)
    (hb : b.IsMild) : (Meaning.arithmetic f a b).IsMild :=
  .ofValue fun row => (ha.value row).bind fun _ => (hb.value row).bind fun _ =>
    FailsWith.bind (.ofOption _ rfl) fun _ => FailsWith.bind (.ofOption _ rfl) fun _ =>
      FailsWith.bind (.ofOption _ rfl) fun _ => .pure _

theorem IsMild.cond {test yes no : Meaning} (ht : test.IsMild) (hy : yes.IsMild)
    (hn : no.IsMild) : (Meaning.cond test yes no).IsMild := by
  refine .ofValue fun row => (ht.test row).bind fun holds => ?_
  cases holds
  · exact hn.value row
  · exact hy.value row

theorem firstValue_mild (row : Row) (hms : ∀ m ∈ ms, m.IsMild) :
    (firstValue row ms).IsMild := by
  induction ms with
  | nil => exact .fail rfl
  | cons m rest ih =>
    refine ((hms m List.mem_cons_self).value row).absorb_bind (fun _ => .pure _) fun _ _ => ?_
    exact ih fun n hn => hms n (List.mem_cons_of_mem _ hn)

theorem IsMild.coalesce (hms : ∀ m ∈ ms, m.IsMild) : (Meaning.coalesce ms).IsMild :=
  .ofValue fun row => firstValue_mild row hms

theorem values_mild (row : Row) (hms : ∀ m ∈ ms, m.IsMild) : (values row ms).IsMild := by
  induction ms with
  | nil => exact .pure _
  | cons m rest ih =>
    exact ((hms m List.mem_cons_self).value row).bind fun _ =>
      (ih fun n hn => hms n (List.mem_cons_of_mem _ hn)).bind fun _ => .pure _

/-- A builtin function is registered, so a call of it fails with its arguments only, and
that a custom function is unknown is an error of the expression. -/
theorem IsMild.call {f : FunctionName} (hms : ∀ m ∈ ms, m.IsMild) :
    (Meaning.call f ms).IsMild := by
  refine .ofValue fun row => (values_mild row hms).bind fun terms =>
    FailsWith.read_bind fun c hc => ?_
  cases f with
  | custom name =>
    dsimp only
    cases c.environment.functions (.custom name) with
    | none => exact .fail rfl
    | some f => exact FailsWith.newCall.bind fun _ => .ofOption _ rfl
  | builtin f =>
    obtain ⟨g, hg⟩ := Option.isSome_iff_exists.mp (hc f)
    simp only [hg]
    exact FailsWith.newCall.bind fun _ => .ofOption _ rfl

/-- A condition always has a truth value. -/
theorem IsMild.holds (h : m.IsMild) (b : Binding) : (m.holds b).Succeeds :=
  FailsWith.newSolutionId.bind fun _ =>
    (h.test _).absorb_bind (fun _ => .pure _) fun _ _ => .pure _

theorem IsMild.value? (h : m.IsMild) (row : Row) : (m.value? row).Succeeds :=
  (h.value row).absorb_bind (fun _ => .pure _) fun _ _ => .pure _

end Meaning

theorem UnaryOp.mild (op : UnaryOp) {m : Meaning} (h : m.IsMild) : (op.meaning m).IsMild := by
  cases op
  · exact h.not
  · exact h.numeric _
  · exact h.numeric _

theorem BinaryOp.mild (op : BinaryOp) {a b : Meaning} (ha : a.IsMild) (hb : b.IsMild) :
    (op.meaning a b).IsMild := by
  cases op
  case or => exact ha.or hb
  case and => exact ha.and hb
  case equal | sameTerm | greater | greaterOrEqual | less | lessOrEqual =>
    exact ha.compareBy _ hb
  case add | subtract | multiply | divide => exact ha.arithmetic _ hb

/-! ## Expressions -/

/-- Whether an expression asks for no matches and calls no random or custom
function. -/
def Expr.isPlain (e : Expr) : Bool := e.isRepeatable && !e.containsMatch

/-- Whether expressions ask for no matches and call no random or custom
function. -/
def Expr.arePlain (es : List Expr) : Bool := Expr.areRepeatable es && !Expr.containMatch es

namespace Expr

variable {operators : OperatorRegistry}

theorem isPlain_binary {op : BinaryOp} {l r : Expr} :
    (binary op l r).isPlain = (l.isPlain && r.isPlain) := by
  simp only [isPlain, isRepeatable, containsMatch, Bool.not_or]
  ac_rfl

theorem isPlain_isIn {e : Expr} {es : List Expr} :
    (isIn e es).isPlain = (e.isPlain && arePlain es) := by
  simp only [isPlain, arePlain, isRepeatable, containsMatch, Bool.not_or]
  ac_rfl

theorem isPlain_cond {c t e : Expr} :
    (cond c t e).isPlain = (c.isPlain && t.isPlain && e.isPlain) := by
  simp only [isPlain, isRepeatable, containsMatch, Bool.not_or]
  ac_rfl

theorem isPlain_call {f : FunctionName} {es : List Expr} :
    (call f es).isPlain = (f.isRepeatable && arePlain es) := by
  simp only [isPlain, arePlain, isRepeatable, containsMatch]
  ac_rfl

theorem arePlain_cons {e : Expr} {es : List Expr} :
    arePlain (e :: es) = (e.isPlain && arePlain es) := by
  simp only [isPlain, arePlain, areRepeatable, containMatch, Bool.not_or]
  ac_rfl

mutual

/-- An expression that asks for no matches has absorbable errors only. -/
theorem meaning_mild : ∀ e : Expr, e.containsMatch = false → (e.meaning operators).IsMild
  | .constant t, _ => .constant t
  | .var v, _ => .var v
  | .bound v, _ => .bound v
  | .unary op e, h => op.mild (e.meaning_mild h)
  | .binary op l r, h => by
    have h := Bool.or_eq_false_iff.mp h
    exact op.mild (l.meaning_mild h.1) (r.meaning_mild h.2)
  | .isIn e es, h => by
    have h := Bool.or_eq_false_iff.mp h
    exact (e.meaning_mild h.1).isIn (meanings_mild es h.2)
  | .cond c t e, h => by
    have h := Bool.or_eq_false_iff.mp h
    have h' := Bool.or_eq_false_iff.mp h.1
    exact .cond (c.meaning_mild h'.1) (t.meaning_mild h'.2) (e.meaning_mild h.2)
  | .coalesce es, h => .coalesce (meanings_mild es h)
  | .call f es, h => .call (meanings_mild es h)
  | .hasMatch _, h => by cases h

theorem meanings_mild : ∀ es : List Expr, containMatch es = false →
    ∀ m ∈ meanings operators es, m.IsMild
  | [], _ => by simp [meanings]
  | e :: rest, h => by
    have h := Bool.or_eq_false_iff.mp h
    exact List.forall_mem_cons.mpr ⟨e.meaning_mild h.1, meanings_mild rest h.2⟩

end

theorem containsMatch_of_isPlain {e : Expr} (h : e.isPlain = true) :
    e.containsMatch = false := by
  simpa using (Bool.and_eq_true_iff.mp h).2

end Expr

/-- The bindings give the variables the same values. -/
def Binding.AgreeOn (vs : List Var) (b b' : Binding) : Prop :=
  ∀ v ∈ vs, b.get? v = b'.get? v

namespace Expr

variable {operators : OperatorRegistry} {vs : List Var}

mutual

/-- A plain expression depends on the values of its variables only. -/
theorem meaning_respects : ∀ e : Expr, e.isPlain = true → e.occurrences ⊆ vs →
    (e.meaning operators).Respects (Binding.AgreeOn vs)
  | .constant t, _, _ => .constant t
  | .var v, _, hv => .var fun hb => hb v (hv List.mem_cons_self)
  | .bound v, _, hv => .bound fun hb => hb v (hv List.mem_cons_self)
  | .unary op e, h, hv => op.respects (e.meaning_respects h hv)
  | .binary op l r, h, hv => by
    rw [isPlain_binary, Bool.and_eq_true] at h
    have ⟨hl, hr⟩ := List.append_subset.mp hv
    exact op.respects (l.meaning_respects h.1 hl) (r.meaning_respects h.2 hr)
  | .isIn e es, h, hv => by
    rw [isPlain_isIn, Bool.and_eq_true] at h
    have ⟨he, hes⟩ := List.append_subset.mp hv
    exact (e.meaning_respects h.1 he).isIn (meanings_respect es h.2 hes)
  | .cond c t e, h, hv => by
    rw [isPlain_cond, Bool.and_eq_true, Bool.and_eq_true] at h
    have ⟨hct, he⟩ := List.append_subset.mp hv
    have ⟨hc, ht⟩ := List.append_subset.mp hct
    exact .cond (c.meaning_respects h.1.1 hc) (t.meaning_respects h.1.2 ht)
      (e.meaning_respects h.2 he)
  | .coalesce es, h, hv => .coalesce (meanings_respect es h hv)
  | .call f es, h, hv => by
    rw [isPlain_call, Bool.and_eq_true] at h
    exact .call (fun _ _ hs => hs) h.1 (meanings_respect es h.2 hv)
  | .hasMatch _, h, _ => by simp [isPlain, containsMatch] at h

theorem meanings_respect : ∀ es : List Expr, arePlain es = true → occurrencesIn es ⊆ vs →
    ∀ m ∈ meanings operators es, m.Respects (Binding.AgreeOn vs)
  | [], _, _ => by simp [meanings]
  | e :: rest, h, hv => by
    rw [arePlain_cons, Bool.and_eq_true] at h
    have ⟨he, hrest⟩ := List.append_subset.mp hv
    exact List.forall_mem_cons.mpr
      ⟨e.meaning_respects h.1 he, meanings_respect rest h.2 hrest⟩

end

/-- Equal bindings agree on all variables. -/
theorem meaning_steady_of_isPlain {e : Expr} (h : e.isPlain = true) :
    (e.meaning operators).Steady := by
  have hrespects : (e.meaning operators).Respects (Binding.AgreeOn e.occurrences) :=
    e.meaning_respects h (List.Subset.refl _)
  exact ⟨fun hb => hrespects.value fun v _ => congrArg (·.get? v) hb,
    fun hb => hrespects.test fun v _ => congrArg (·.get? v) hb⟩

/-- Whether a condition holds for a solution; an error counts as false. -/
def truth (operators : OperatorRegistry) (c : Context) (e : Expr) (b : Binding) : Bool :=
  match ((e.meaning operators).holds b).outcome c with
  | .ok holds => holds
  | .error _ => false

variable {c : Context} {e : Expr}

/-- A plain condition has a truth value. -/
theorem outcome_holds (h : e.isPlain = true) (hc : c.Repeatable) (b : Binding) :
    ((e.meaning operators).holds b).outcome c = .ok (e.truth operators c b) := by
  have hmild : (e.meaning operators).IsMild := e.meaning_mild (containsMatch_of_isPlain h)
  obtain ⟨holds, hholds⟩ := (hmild.holds b).outcome_eq hc
  simp [truth, hholds]

/-- A plain condition is about its variables. -/
theorem truth_congr (h : e.isPlain = true) (hc : c.Repeatable) {b b' : Binding}
    (hb : b.AgreeOn e.vars b') : e.truth operators c b = e.truth operators c b' := by
  have hrespects : (e.meaning operators).Respects (Binding.AgreeOn e.vars) :=
    e.meaning_respects h fun _ hv => mem_dedup.mpr hv
  let start := Progress.initial c.environment
  have hagree := (AgreeIn.run (hrespects.holds hb) hc.settled (.refl c) start start).1
  unfold truth Eval.outcome
  rw [hagree]

end Expr

/-! ## Changes of trees -/

mutual

/-- Without patterns there is nothing to change in an expression. -/
theorem Expr.mapUpM_eq_self {f : Node → Id Node} : ∀ e : Expr,
    e.containsMatch = false → e.mapUpM f = e
  | .constant _, _ | .var _, _ | .bound _, _ => rfl
  | .unary op e, h => congrArg (Expr.unary op) (e.mapUpM_eq_self h)
  | .binary op l r, h => by
    have h := Bool.or_eq_false_iff.mp h
    exact congrArg₂ (Expr.binary op) (l.mapUpM_eq_self h.1) (r.mapUpM_eq_self h.2)
  | .isIn e es, h => by
    have h := Bool.or_eq_false_iff.mp h
    exact congrArg₂ Expr.isIn (e.mapUpM_eq_self h.1) (Expr.mapAllUpM_eq_self es h.2)
  | .cond c t e, h => by
    have h := Bool.or_eq_false_iff.mp h
    have h' := Bool.or_eq_false_iff.mp h.1
    have hc := c.mapUpM_eq_self (f := f) h'.1
    have ht := t.mapUpM_eq_self (f := f) h'.2
    have he := e.mapUpM_eq_self (f := f) h.2
    exact (congrArg₂ (fun c t => Expr.cond c t _) hc ht).trans (congrArg _ he)
  | .coalesce es, h => congrArg Expr.coalesce (Expr.mapAllUpM_eq_self es h)
  | .call g es, h => congrArg (Expr.call g) (Expr.mapAllUpM_eq_self es h)
  | .hasMatch _, h => by cases h

theorem Expr.mapAllUpM_eq_self {f : Node → Id Node} : ∀ es : List Expr,
    Expr.containMatch es = false → Expr.mapAllUpM f es = es
  | [], _ => rfl
  | e :: rest, h => by
    have h := Bool.or_eq_false_iff.mp h
    exact congrArg₂ List.cons (e.mapUpM_eq_self h.1) (Expr.mapAllUpM_eq_self rest h.2)

end

theorem OrderKey.mapAllUpM_eq_self {f : Node → Id Node} (keys : List OrderKey)
    (h : (keys.map OrderKey.expression).any Expr.containsMatch = false) :
    OrderKey.mapAllUpM f keys = keys := by
  induction keys with
  | nil => rfl
  | cons key rest ih =>
    obtain ⟨e, descending⟩ := key
    simp only [List.map_cons, List.any_cons, Bool.or_eq_false_iff] at h
    exact congrArg₂ (fun e rest => OrderKey.sortBy e descending :: rest)
      (e.mapUpM_eq_self h.1) (ih h.2)

end SparqlAlgebra
