import SparqlAlgebra.Proofs.Conditions

/-!
# Three truth values

A condition is true, false or an error, and the connectives are those of the logic in which an
error stands between false and true. A disjunction that has an error on its left goes on with
its right side and a comparison with a list goes on with the next candidate; both remember the
error, and both find what the truth table says.

* `Truth` has the connectives of the logic, and `Meaning.HasTruth` says that a condition has a
  truth value under every number of the solution and from every progress on;
* `Meaning.HasTruth.not`, `Meaning.HasTruth.or`, `Meaning.HasTruth.and` are the truth tables, and
  `Meaning.HasOutcome.isIn` is the one of comparisons with a list;
* `Expr.connectives_laws`: the laws that follow for conditions that are repeatable, wherever
  the context looks for the builtin functions.
-/

namespace SparqlAlgebra

open Eval

/-! ## The logic -/

/-- A truth value. -/
inductive Truth where
  | no
  | error
  | yes
deriving DecidableEq

namespace Truth

def not : Truth → Truth
  | no => yes
  | error => error
  | yes => no

/-- The greater one of two truth values. -/
def or : Truth → Truth → Truth
  | yes, _ | _, yes => yes
  | error, _ | _, error => error
  | no, no => no

/-- The smaller one of two truth values. -/
def and : Truth → Truth → Truth
  | no, _ | _, no => no
  | error, _ | _, error => error
  | yes, yes => yes

variable (s t u : Truth)

theorem or_comm : s.or t = t.or s := by cases s <;> cases t <;> rfl

theorem and_comm : s.and t = t.and s := by cases s <;> cases t <;> rfl

theorem or_assoc : (s.or t).or u = s.or (t.or u) := by cases s <;> cases t <;> cases u <;> rfl

theorem and_assoc : (s.and t).and u = s.and (t.and u) := by
  cases s <;> cases t <;> cases u <;> rfl

theorem not_and : (s.and t).not = s.not.or t.not := by cases s <;> cases t <;> rfl

theorem not_or : (s.or t).not = s.not.and t.not := by cases s <;> cases t <;> rfl

@[simp] theorem or_no : s.or no = s := by cases s <;> rfl

@[simp] theorem no_or : no.or s = s := by cases s <;> rfl

@[simp] theorem yes_and : yes.and s = s := by cases s <;> rfl

theorem and_eq_yes : s.and t = yes ↔ s = yes ∧ t = yes := by
  cases s <;> cases t <;> simp [and]

/-- The truth of a disjunction. -/
def any (ts : List Truth) : Truth := ts.foldr or no

variable {s t} {α : Type}

/-- Whether an outcome is that of a truth value; `f` gives what stands for true and false. -/
def Is (f : Bool → α) : Truth → Except QueryError α → Prop
  | no, r => r = .ok (f false)
  | error, r => ∃ e, r = .error e ∧ e.isAbsorbable = true
  | yes, r => r = .ok (f true)

/-- An outcome has one truth value at most. -/
theorem Is.unique {r : Except QueryError Bool} (hs : s.Is id r) (ht : t.Is id r) : s = t := by
  cases s <;> cases t <;> simp_all [Is]

/-- The truth value of an answer that may be missing. -/
def ofAnswer : Option Bool → Truth
  | none => error
  | some false => no
  | some true => yes

theorem is_ofAnswer (o : Option Bool) (c : Context) (p : Progress) :
    (ofAnswer o).Is id ((ofOption o).runFrom c p).1 := by
  match o with
  | none => exact ⟨_, rfl, rfl⟩
  | some true => rfl
  | some false => rfl

variable {β : Type} {f : Bool → β} {c : Context} {p : Progress} {x : Eval Bool} {u : Truth}

/-- What is done with the answer has the truth value `u`, and an error is passed on. -/
theorem Is.bind {k : Bool → Eval β} (h : t.Is id (x.runFrom c p).1)
    (hno : t = no → ∀ q, u.Is f ((k false).runFrom c q).1)
    (hyes : t = yes → ∀ q, u.Is f ((k true).runFrom c q).1) (herror : t = error → u = error) :
    u.Is f ((x >>= k).runFrom c p).1 := by
  rw [runFrom_bind]
  rcases hrun : x.runFrom c p with ⟨r, q⟩
  rw [hrun] at h
  cases t with
  | no =>
    cases h
    exact hno rfl q
  | yes =>
    cases h
    exact hyes rfl q
  | error =>
    obtain ⟨e, rfl, he⟩ := h
    rw [herror rfl]
    exact ⟨e, rfl, he⟩

/-- An error is absorbed, and something is done with it as well. -/
theorem Is.absorb_bind {k : Except QueryError Bool → Eval β} (h : t.Is id (x.runFrom c p).1)
    (hno : t = no → ∀ q, u.Is f ((k (.ok false)).runFrom c q).1)
    (hyes : t = yes → ∀ q, u.Is f ((k (.ok true)).runFrom c q).1)
    (herror : t = error → ∀ e, e.isAbsorbable = true →
      ∀ q, u.Is f ((k (.error e)).runFrom c q).1) :
    u.Is f ((x.absorb >>= k).runFrom c p).1 := by
  rw [runFrom_bind, runFrom_absorb]
  rcases hrun : x.runFrom c p with ⟨r, q⟩
  rw [hrun] at h
  cases t with
  | no =>
    cases h
    exact hno rfl q
  | yes =>
    cases h
    exact hyes rfl q
  | error =>
    obtain ⟨e, rfl, he⟩ := h
    simp only [he, if_true]
    exact herror rfl e he q

end Truth

/-! ## Conditions -/

namespace Meaning

/-- A condition has a truth value on a binding, whatever was counted before. -/
def HasTruth (m : Meaning) (c : Context) (b : Binding) (t : Truth) : Prop :=
  ∀ i p, t.Is id ((m.test ⟨b, i⟩).runFrom c p).1

/-- The value of an expression on a binding is a truth value, or an error in its place. -/
def HasTruthValue (m : Meaning) (c : Context) (b : Binding) (t : Truth) : Prop :=
  ∀ i p, t.Is boolTerm ((m.value ⟨b, i⟩).runFrom c p).1

variable {c : Context} {binding : Binding} {s t : Truth} {a b m x : Meaning}

theorem HasTruth.unique (hs : m.HasTruth c binding s) (ht : m.HasTruth c binding t) : s = t :=
  (hs 0 (.initial c.environment)).unique (ht 0 (.initial c.environment))

/-- What is given by its truth has it as its value. -/
theorem HasTruth.value {test : Row → Eval Bool} (h : (ofTest test).HasTruth c binding t) :
    (ofTest test).HasTruthValue c binding t := by
  intro i p
  refine (h i p).bind ?_ ?_ fun ht => ht
  · rintro rfl q
    rfl
  · rintro rfl q
    rfl

theorem HasTruth.not (h : m.HasTruth c binding t) : m.not.HasTruth c binding t.not := by
  intro i p
  refine (h i p).bind ?_ ?_ ?_
  · rintro rfl q
    rfl
  · rintro rfl q
    rfl
  · rintro rfl
    rfl

/-- An error on the left is remembered while the right side is evaluated. -/
theorem HasTruth.or (ha : a.HasTruth c binding s) (hb : b.HasTruth c binding t) :
    (a.or b).HasTruth c binding (s.or t) := by
  intro i p
  refine (ha i p).absorb_bind ?_ ?_ ?_
  · -- the right side decides
    rintro rfl q
    rw [Truth.no_or]
    exact hb i q
  · -- the right side is not asked
    rintro rfl q
    rfl
  · -- the error stays, unless the right side is true
    rintro rfl e he q
    refine (hb i q).bind ?_ ?_ ?_
    · rintro rfl q'
      exact ⟨e, rfl, he⟩
    · rintro rfl q'
      rfl
    · rintro rfl
      rfl

theorem HasTruth.and (ha : a.HasTruth c binding s) (hb : b.HasTruth c binding t) :
    (a.and b).HasTruth c binding (s.and t) := by
  intro i p
  refine (ha i p).absorb_bind ?_ ?_ ?_
  · rintro rfl q
    rfl
  · rintro rfl q
    rw [Truth.yes_and]
    exact hb i q
  · -- the error stays, unless the right side is false
    rintro rfl e he q
    refine (hb i q).bind ?_ ?_ ?_
    · rintro rfl q'
      rfl
    · rintro rfl q'
      exact ⟨e, rfl, he⟩
    · rintro rfl
      rfl

/-! ## Comparisons -/

/-- An expression has one outcome on a binding, whatever was counted before: a value, or an
absorbable error. -/
structure HasOutcome (m : Meaning) (c : Context) (b : Binding) (r : Except QueryError Term) :
    Prop where
  run : ∀ i p, ((m.value ⟨b, i⟩).runFrom c p).1 = r
  absorbable : ∀ e, r = .error e → e.isAbsorbable = true

/-- Whether two outcomes are equal values. -/
def equality (r r' : Except QueryError Term) : Truth :=
  match r, r' with
  | .ok u, .ok v => Truth.ofAnswer (sparqlEquals? u v)
  | _, _ => .error

variable {r r' : Except QueryError Term}

/-- The comparison of a value with that of an expression. -/
theorem HasOutcome.equalTo (hm : m.HasOutcome c binding r') (u : Term) (i : Nat) (p : Progress) :
    (equality (.ok u) r').Is id
      ((m.value ⟨binding, i⟩ >>= fun v => ofOption (sparqlEquals? u v)).runFrom c p).1 := by
  have hvalue := hm.run i p
  rw [runFrom_bind]
  rcases hrun : (m.value ⟨binding, i⟩).runFrom c p with ⟨r'', q⟩
  rw [hrun] at hvalue
  cases hvalue
  cases r'' with
  | ok v => exact Truth.is_ofAnswer _ c q
  | error e => exact ⟨e, rfl, hm.absorbable e rfl⟩

theorem HasOutcome.equal (hx : x.HasOutcome c binding r) (hm : m.HasOutcome c binding r') :
    (x.equal m).HasTruth c binding (equality r r') := by
  intro i p
  have hvalue := hx.run i p
  show (equality r r').Is id ((x.value ⟨binding, i⟩ >>= fun u => m.value ⟨binding, i⟩ >>= fun v =>
    ofOption (sparqlEquals? u v)).runFrom c p).1
  rw [runFrom_bind]
  rcases hrun : (x.value ⟨binding, i⟩).runFrom c p with ⟨r'', q⟩
  rw [hrun] at hvalue
  cases hvalue
  cases r'' with
  | ok u => exact hm.equalTo u i q
  | error e => exact ⟨e, rfl, hx.absorbable e rfl⟩

/-- The truth of an error that is remembered. -/
def remembered : Option QueryError → Truth
  | none => .no
  | some _ => .error

/-- Comparing with one candidate after the other makes the disjunction of the comparisons. -/
theorem equalsAny_is (u : Term) {ms : List Meaning} {rs : List (Except QueryError Term)}
    (hms : List.Forall₂ (fun m r => m.HasOutcome c binding r) ms rs) (i : Nat)
    {last : Option QueryError} (hlast : ∀ e ∈ last, e.isAbsorbable = true) (p : Progress) :
    ((remembered last).or (Truth.any (rs.map (equality (.ok u))))).Is id
      ((equalsAny u ⟨binding, i⟩ last ms).runFrom c p).1 := by
  induction hms generalizing last p with
  | nil =>
    cases last with
    | none => rfl
    | some e => exact ⟨e, rfl, hlast e rfl⟩
  | @cons m r ms rs hm _ ih =>
    set rest := Truth.any (rs.map (equality (.ok u)))
    have hany : Truth.any ((r :: rs).map (equality (.ok u))) = (equality (.ok u) r).or rest := rfl
    obtain ⟨k, hstep, hmatch, hgoes, herrs⟩ := equalsAny_cons u ⟨binding, i⟩ last m ms
    rw [hany, hstep]
    refine (hm.equalTo u i p).absorb_bind ?_ ?_ ?_
    · intro hno q
      rw [hno, Truth.no_or, hgoes]
      exact ih hlast q
    · -- a match decides, whatever is remembered
      intro hyes q
      rw [hyes, hmatch]
      cases last <;> cases rest <;> rfl
    · -- the error takes the place of the one that is remembered
      intro herror e he q
      have hlater : ∀ e' ∈ some e, e'.isAbsorbable = true := by
        rintro _ ⟨⟩
        exact he
      have hnext := ih hlater q
      rw [herror, herrs]
      cases last <;> cases hrest : rest <;> rw [hrest] at hnext <;> exact hnext

theorem any_equality_error {e : QueryError} {rs : List (Except QueryError Term)} (h : rs ≠ []) :
    Truth.any (rs.map (equality (.error e))) = .error := by
  cases rs with
  | nil => exact absurd rfl h
  | cons r rest =>
    show Truth.error.or (Truth.any (rest.map (equality (.error e)))) = .error
    -- the other comparisons are errors as well
    induction rest with
    | nil => rfl
    | cons r' rest ih =>
      show Truth.error.or (Truth.error.or (Truth.any (rest.map (equality (.error e))))) = .error
      rw [ih (by simp)]
      rfl

/-- A comparison with a list is the disjunction of the comparisons, also if the value that is
looked for is an error. -/
theorem HasOutcome.isIn (hx : x.HasOutcome c binding r) {ms : List Meaning}
    {rs : List (Except QueryError Term)}
    (hms : List.Forall₂ (fun m r => m.HasOutcome c binding r) ms rs) (hne : rs ≠ []) :
    (x.isIn ms).HasTruth c binding (Truth.any (rs.map (equality r))) := by
  intro i p
  have hvalue := hx.run i p
  show (Truth.any (rs.map (equality r))).Is id
    ((x.value ⟨binding, i⟩ >>= fun u => equalsAny u ⟨binding, i⟩ none ms).runFrom c p).1
  rw [runFrom_bind]
  rcases hrun : (x.value ⟨binding, i⟩).runFrom c p with ⟨r', q⟩
  rw [hrun] at hvalue
  cases hvalue
  cases r' with
  | ok u =>
    have hnothing : ∀ e ∈ (none : Option QueryError), e.isAbsorbable = true := by simp
    have hany := equalsAny_is u hms i hnothing q
    rwa [show remembered none = Truth.no from rfl, Truth.no_or] at hany
  | error e =>
    rw [any_equality_error hne]
    exact ⟨e, rfl, hx.absorbable e rfl⟩

/-! ## Verdicts -/

/-- A condition is true of the rows with the truth value that says so. -/
theorem HasTruth.verdict (h : m.HasTruth c binding t) (i calls : Nat) :
    (m.verdict c ⟨binding, i⟩ calls).1 = decide (t = .yes) := by
  have htest := h i { Progress.initial c.environment with calls := calls }
  unfold Meaning.verdict Eval.after
  rcases hrun : (m.test ⟨binding, i⟩).runFrom c
    { Progress.initial c.environment with calls := calls } with ⟨r, q⟩
  rw [hrun] at htest
  cases t with
  | no | yes =>
    cases htest
    rfl
  | error =>
    obtain ⟨e, rfl, -⟩ := htest
    rfl

theorem satisfying_eq_filter {truth : Binding → Truth}
    (h : ∀ b, m.HasTruth c b (truth b)) (rows : List Binding) (id calls : Nat) :
    m.satisfying c id calls rows = rows.filter fun b => truth b = .yes := by
  induction rows generalizing id calls with
  | nil => rfl
  | cons b rest ih =>
    simp only [satisfying, (h b).verdict id calls, ih, List.filter_cons]

end Meaning

/-! ## Expressions -/

/-- The builtin functions are found under their names. -/
def Context.FindsBuiltins (c : Context) : Prop :=
  ∀ f : Builtin, c.environment.functions (.builtin f) = some f.apply

theorem Context.FindsBuiltins.hasBuiltins {c : Context} (hc : c.FindsBuiltins) :
    c.HasBuiltins := fun f => by rw [hc f, Option.isSome_some]

/-- What calculates and does not depend on the number of a solution has one outcome. The clock
may be stopped for this, since calculations do not look at it. -/
theorem Eval.exists_outcome {α : Type} {x : Nat → Eval α} (hcalc : ∀ i, (x i).Calculates)
    (hagree : ∀ i j, (x i).AgreeIn Context.Alongside (x j)) {c : Context}
    (hc : c.FindsBuiltins) : ∃ r, ∀ i p, ((x i).runFrom c p).1 = r := by
  let timeless : Context := { c with environment := { c.environment with timedOut := false } }
  have hsettled : timeless.Settled := ⟨rfl, hc⟩
  have halike : c.CallsAlike timeless := ⟨rfl, rfl⟩
  refine ⟨((x 0).runFrom timeless (.initial c.environment)).1, fun i p => ?_⟩
  obtain ⟨r, n, hrun, hrun'⟩ := (hcalc i).runs halike p p rfl
  have hsame := ((hagree i 0).run hsettled (.refl _) p (.initial c.environment)).1
  rw [← hsame, hrun, hrun']

namespace Expr

variable {operators : OperatorRegistry} {c : Context} {e l m x y : Expr} {b : Binding}

/-- The truth value of a condition on a binding. -/
def truthValue (operators : OperatorRegistry) (c : Context) (e : Expr) (b : Binding) : Truth :=
  match (((e.meaning operators).test ⟨b, 0⟩).runFrom c (.initial c.environment)).1 with
  | .ok true => .yes
  | .ok false => .no
  | .error _ => .error

/-- A repeatable condition has its truth value under every number and after every progress. -/
theorem hasTruth (he : e.isPlain = true) (hc : c.FindsBuiltins) (b : Binding) :
    (e.meaning operators).HasTruth c b (e.truthValue operators c b) := by
  have hcalc : (e.meaning operators).Calculates :=
    e.meaning_calculates (containsMatch_of_isPlain he)
  have hmild : (e.meaning operators).IsMild := e.meaning_mild (containsMatch_of_isPlain he)
  obtain ⟨r, hr⟩ := Eval.exists_outcome (fun i => hcalc.test ⟨b, i⟩)
    (fun i j => (meaning_steady_of_isPlain he).test rfl i j) hc
  have habsorbable : ∀ err, r = .error err → err.isAbsorbable = true := by
    rintro err rfl
    exact hmild.test ⟨b, 0⟩ c hc.hasBuiltins (.initial c.environment) err _
      (Prod.ext (hr 0 _) rfl)
  have htruth : (e.truthValue operators c b).Is id r := by
    unfold truthValue
    rw [hr]
    match r with
    | .ok true => rfl
    | .ok false => rfl
    | .error err => exact ⟨err, rfl, habsorbable err rfl⟩
  intro i p
  rw [hr]
  exact htruth

theorem exists_hasOutcome (he : e.isPlain = true) (hc : c.FindsBuiltins) (b : Binding) :
    ∃ r, (e.meaning operators).HasOutcome c b r := by
  have hcalc : (e.meaning operators).Calculates :=
    e.meaning_calculates (containsMatch_of_isPlain he)
  have hmild : (e.meaning operators).IsMild := e.meaning_mild (containsMatch_of_isPlain he)
  obtain ⟨r, hr⟩ := Eval.exists_outcome (fun i => hcalc.value ⟨b, i⟩)
    (fun i j => (meaning_steady_of_isPlain he).value rfl i j) hc
  refine ⟨r, hr, ?_⟩
  rintro err rfl
  exact hmild.value ⟨b, 0⟩ c hc.hasBuiltins (.initial c.environment) err _
    (Prod.ext (hr 0 _) rfl)

theorem exists_haveOutcomes {es : List Expr} (hes : arePlain es = true) (hc : c.FindsBuiltins)
    (b : Binding) :
    ∃ rs, List.Forall₂ (fun m r => m.HasOutcome c b r) (meanings operators es) rs := by
  induction es with
  | nil => exact ⟨[], .nil⟩
  | cons e rest ih =>
    rw [arePlain_cons, Bool.and_eq_true] at hes
    obtain ⟨r, hr⟩ : ∃ r, (e.meaning operators).HasOutcome c b r :=
      exists_hasOutcome hes.1 hc b
    obtain ⟨rs, hrs⟩ := ih hes.2
    exact ⟨r :: rs, .cons hr hrs⟩

/-- Two expressions are true, false or an error at the same time, as conditions and as values. -/
def SameTruth (operators : OperatorRegistry) (c : Context) (b : Binding) (e e' : Expr) : Prop :=
  ∃ t, ((e.meaning operators).HasTruth c b t ∧ (e.meaning operators).HasTruthValue c b t) ∧
    (e'.meaning operators).HasTruth c b t ∧ (e'.meaning operators).HasTruthValue c b t

/-- What is given by a test has the same truth as another one if their tests have. -/
theorem sameTruth_of_tests {e' : Expr} {test test' : Row → Eval Bool} {t t' : Truth}
    (he : e.meaning operators = .ofTest test) (he' : e'.meaning operators = .ofTest test')
    (h : (e.meaning operators).HasTruth c b t) (h' : (e'.meaning operators).HasTruth c b t')
    (heq : t = t') : SameTruth operators c b e e' := by
  subst heq
  rw [he] at h
  rw [he'] at h'
  unfold SameTruth
  rw [he, he']
  exact ⟨t, ⟨h, h.value⟩, h', h'.value⟩

theorem truthValue_eq {t : Truth} (he : e.isPlain = true) (hc : c.FindsBuiltins)
    (h : (e.meaning operators).HasTruth c b t) : e.truthValue operators c b = t :=
  (hasTruth he hc b).unique h

/-- The disjunction of the comparisons with a list that has a first element. -/
def equalsOneOf (x : Expr) : Expr → List Expr → Expr
  | y, [] => .binary .equal x y
  | y, z :: rest => .binary .or (.binary .equal x y) (equalsOneOf x z rest)

/-- The disjunction is one by its truth, whatever its length. -/
theorem equalsOneOf_hasTruth {r : Except QueryError Term}
    (hx : (x.meaning operators).HasOutcome c b r) {ys : List Expr}
    {rs : List (Except QueryError Term)} {r' : Except QueryError Term}
    (hy : (y.meaning operators).HasOutcome c b r')
    (hys : List.Forall₂ (fun m r => m.HasOutcome c b r) (meanings operators ys) rs) :
    ((equalsOneOf x y ys).meaning operators).HasTruth c b
        (Truth.any ((r' :: rs).map (Meaning.equality r))) ∧
      ((equalsOneOf x y ys).meaning operators).HasTruthValue c b
        (Truth.any ((r' :: rs).map (Meaning.equality r))) := by
  induction ys generalizing y rs r' with
  | nil =>
    cases hys
    have hequal := hx.equal hy
    rw [List.map_singleton, show Truth.any [Meaning.equality r r'] = Meaning.equality r r' from
      Truth.or_no _]
    exact ⟨hequal, hequal.value⟩
  | cons z rest ih =>
    cases hys with
    | cons hz hrest =>
      have hor := (hx.equal hy).or (ih hz hrest).1
      exact ⟨hor, hor.value⟩

theorem isIn_sameTruth (hx : x.isPlain = true) (hy : y.isPlain = true) {ys : List Expr}
    (hys : arePlain ys = true) (hc : c.FindsBuiltins) (b : Binding) :
    SameTruth operators c b (.isIn x (y :: ys)) (equalsOneOf x y ys) := by
  obtain ⟨r, hr⟩ : ∃ r, (x.meaning operators).HasOutcome c b r := exists_hasOutcome hx hc b
  obtain ⟨r', hr'⟩ : ∃ r, (y.meaning operators).HasOutcome c b r := exists_hasOutcome hy hc b
  obtain ⟨rs, hrs⟩ : ∃ rs, List.Forall₂ (fun m r => m.HasOutcome c b r)
    (meanings operators ys) rs := exists_haveOutcomes hys hc b
  have hisIn := hr.isIn (.cons hr' hrs) (List.cons_ne_nil _ _)
  exact ⟨_, ⟨hisIn, hisIn.value⟩, equalsOneOf_hasTruth hr hr' hrs⟩

end Expr

/-! ## Filters -/

/-- A filter keeps the rows with the truth value `yes`. -/
theorem Plan.filter_outcome {inner : Plan} {m : Meaning} {c : Context} (hcalc : m.Calculates)
    (hmild : m.IsMild) (hc : c.HasBuiltins) {truth : Binding → Truth}
    (htruth : ∀ b, m.HasTruth c b (truth b)) {s : Solutions}
    (h : ∀ p, ∃ q, (inner none).runFrom c p = (.ok s, q)) :
    ∀ p, ∃ q, (inner.filter m.holds none).runFrom c p =
      (.ok (if s.isSingleton then s
        else .ofRows s.vars (s.rows.filter fun b => truth b = .yes)), q) := by
  intro p
  obtain ⟨q, hrun⟩ := h p
  rw [Plan.filter_run hrun]
  cases hs : s.isSingleton with
  | true =>
    cases s with
    | singleton vs => exact ⟨q, rfl⟩
    | _ => cases hs
  | false =>
    obtain ⟨n, hretain⟩ := hcalc.runFrom_retainM hmild hc hs q
    rw [hretain, Meaning.satisfying_eq_filter htruth]
    exact ⟨_, rfl⟩

namespace Expr

variable {operators : OperatorRegistry} {c : Context} {l m n x y : Expr} {ys : List Expr}

/-- What a filter by a repeatable condition keeps, from every progress on. -/
theorem filter_outcome (hc : c.FindsBuiltins) (hl : l.isPlain = true) {inner : Plan}
    {s : Solutions} (h : ∀ p, ∃ q, (inner none).runFrom c p = (.ok s, q)) (p : Progress) :
    ∃ q, (inner.filter (l.meaning operators).holds none).runFrom c p =
      (.ok (if s.isSingleton then s else .ofRows s.vars
        (s.rows.filter fun b => l.truthValue operators c b = .yes)), q) :=
  Plan.filter_outcome (l.meaning_calculates (containsMatch_of_isPlain hl))
    (l.meaning_mild (containsMatch_of_isPlain hl)) hc.hasBuiltins (hasTruth hl hc) h p

/-- A filter by a conjunction is one after the other, whatever the solutions are. -/
theorem filter_and (hc : c.FindsBuiltins) (hl : l.isPlain = true) (hm : m.isPlain = true)
    {inner : Plan} {s : Solutions} (hinner : ∀ p, ∃ q, (inner none).runFrom c p = (.ok s, q))
    (hempty : s.vars = [] → ∀ row ∈ s.rows, row = .empty) :
    ∃ out, (∀ p, ((inner.filter ((binary .and l m).meaning operators).holds none).runFrom
          c p).1 = .ok out) ∧
      (∀ p, (((inner.filter (l.meaning operators).holds).filter
          (m.meaning operators).holds none).runFrom c p).1 = .ok out) ∧
      (s.isSingleton = true → out = s) ∧
      (s.isSingleton = false → out.rows = s.rows.filter fun b =>
        l.truthValue operators c b = .yes ∧ m.truthValue operators c b = .yes) := by
  have hboth : (binary .and l m).isPlain = true := by simp [isPlain_binary, hl, hm]
  have htogether := @filter_outcome operators c _ hc hboth inner s hinner
  have hfirst := @filter_outcome operators c l hc hl inner s hinner
  have hsecond := @filter_outcome operators c m hc hm _ _ hfirst
  have hand : ∀ b, (binary .and l m).truthValue operators c b =
      (l.truthValue operators c b).and (m.truthValue operators c b) := fun b =>
    truthValue_eq hboth hc ((hasTruth hl hc b).and (hasTruth hm hc b))
  cases hs : s.isSingleton with
  | true =>
    simp only [hs, if_true] at htogether hsecond
    refine ⟨s, fun p => ?_, fun p => ?_, fun _ => rfl, nofun⟩
    · obtain ⟨q, hrun⟩ := htogether p
      rw [hrun]
    · obtain ⟨q, hrun⟩ := hsecond p
      rw [hrun]
  | false =>
    -- rows that are kept are rows of the input, so that without variables they are empty
    have hkept {rows : List Binding} (h : rows.Sublist s.rows) :
        (Solutions.ofRows s.vars rows).rows = rows :=
      Solutions.rows_ofRows_of_empty fun hvars row hrow => hempty hvars row (h.subset hrow)
    simp only [hs, Bool.false_eq_true, if_false, Solutions.isSingleton_ofRows,
      Solutions.vars_ofRows, hkept List.filter_sublist] at htogether hsecond
    have hrows : (s.rows.filter fun b => (binary .and l m).truthValue operators c b = .yes) =
        s.rows.filter fun b =>
          l.truthValue operators c b = .yes ∧ m.truthValue operators c b = .yes := by
      simp only [hand, Truth.and_eq_yes]
    refine ⟨_, fun p => ?_, fun p => ?_, nofun, fun _ => (hkept List.filter_sublist).trans hrows⟩
    · obtain ⟨q, hrun⟩ := htogether p
      rw [hrun]
    · obtain ⟨q, hrun⟩ := hsecond p
      rw [hrun, hrows, List.filter_filter]
      simp only [Bool.decide_and, Bool.and_comm]

/-- **Conditions follow three-valued logic.** For all conditions that ask for no matches and
call no random or custom function, with errors as a truth value between false and true: the
connectives have the truth tables of `Truth`, so they are commutative and associative and have
De Morgan's laws, as conditions and as values; a comparison with a list is the disjunction of
the comparisons; and a filter by a conjunction keeps of any solutions those that are left by a
filter by the first condition and then one by the second. As everywhere, solutions that declare
no variables bind none. -/
theorem connectives_laws (hc : c.FindsBuiltins) (hl : l.isPlain = true) (hm : m.isPlain = true)
    (hn : n.isPlain = true) (hx : x.isPlain = true) (hy : y.isPlain = true)
    (hys : arePlain ys = true) :
    (∀ b, (l.meaning operators).HasTruth c b (l.truthValue operators c b) ∧
        ((binary .or l m).meaning operators).HasTruth c b
          ((l.truthValue operators c b).or (m.truthValue operators c b)) ∧
        ((binary .and l m).meaning operators).HasTruth c b
          ((l.truthValue operators c b).and (m.truthValue operators c b)) ∧
        ((unary .not l).meaning operators).HasTruth c b (l.truthValue operators c b).not ∧
        SameTruth operators c b (binary .or l m) (binary .or m l) ∧
        SameTruth operators c b (binary .and l m) (binary .and m l) ∧
        SameTruth operators c b (unary .not (binary .and l m))
          (binary .or (unary .not l) (unary .not m)) ∧
        SameTruth operators c b (unary .not (binary .or l m))
          (binary .and (unary .not l) (unary .not m)) ∧
        SameTruth operators c b (binary .or (binary .or l m) n) (binary .or l (binary .or m n)) ∧
        SameTruth operators c b (binary .and (binary .and l m) n)
          (binary .and l (binary .and m n)) ∧
        SameTruth operators c b (isIn x (y :: ys)) (equalsOneOf x y ys)) ∧
      ∀ (inner : Plan) (s : Solutions), (∀ p, ∃ q, (inner none).runFrom c p = (.ok s, q)) →
        (s.vars = [] → ∀ row ∈ s.rows, row = .empty) →
        ∃ out, (∀ p, ((inner.filter ((binary .and l m).meaning operators).holds none).runFrom
              c p).1 = .ok out) ∧
          (∀ p, (((inner.filter (l.meaning operators).holds).filter
              (m.meaning operators).holds none).runFrom c p).1 = .ok out) ∧
          (s.isSingleton = true → out = s) ∧
          (s.isSingleton = false → out.rows = s.rows.filter fun b =>
            l.truthValue operators c b = .yes ∧ m.truthValue operators c b = .yes) := by
  refine ⟨fun b => ?_, fun inner s hinner hempty => filter_and hc hl hm hinner hempty⟩
  have htl : (l.meaning operators).HasTruth c b (l.truthValue operators c b) := hasTruth hl hc b
  have htm : (m.meaning operators).HasTruth c b (m.truthValue operators c b) := hasTruth hm hc b
  have htn : (n.meaning operators).HasTruth c b (n.truthValue operators c b) := hasTruth hn hc b
  refine ⟨htl, htl.or htm, htl.and htm, htl.not, ?_, ?_, ?_, ?_, ?_, ?_,
    isIn_sameTruth hx hy hys hc b⟩
  · exact sameTruth_of_tests rfl rfl (htl.or htm) (htm.or htl) (Truth.or_comm _ _)
  · exact sameTruth_of_tests rfl rfl (htl.and htm) (htm.and htl) (Truth.and_comm _ _)
  · exact sameTruth_of_tests rfl rfl (htl.and htm).not (htl.not.or htm.not) (Truth.not_and _ _)
  · exact sameTruth_of_tests rfl rfl (htl.or htm).not (htl.not.and htm.not) (Truth.not_or _ _)
  · exact sameTruth_of_tests rfl rfl ((htl.or htm).or htn) (htl.or (htm.or htn))
      (Truth.or_assoc _ _ _)
  · exact sameTruth_of_tests rfl rfl ((htl.and htm).and htn) (htl.and (htm.and htn))
      (Truth.and_assoc _ _ _)

/-- The second row fails the second condition, and the third one has no value for the first. -/
def sampleChoices : Solutions :=
  .table [⟨"x"⟩, ⟨"y"⟩] [.ofEntries [(⟨"x"⟩, .iri ⟨"a"⟩), (⟨"y"⟩, .iri ⟨"b"⟩)],
    .ofEntries [(⟨"x"⟩, .iri ⟨"a"⟩)], .ofEntries [(⟨"y"⟩, .iri ⟨"b"⟩)]]

theorem connectives_laws_sample :
    let isA : Expr := .binary .equal (.var ⟨"x"⟩) (.constant (.iri ⟨"a"⟩))
    let hasY : Expr := .bound ⟨"y"⟩
    let inner : Plan := fun _ => pure sampleChoices
    sampleContext.FindsBuiltins ∧ isA.isPlain = true ∧ hasY.isPlain = true ∧
      SameTruth .empty sampleContext .empty (.isIn (.var ⟨"x"⟩) [isA, hasY])
        (equalsOneOf (.var ⟨"x"⟩) isA [hasY]) ∧
      ∃ out, (∀ p, ((inner.filter ((binary .and isA hasY).meaning .empty).holds none).runFrom
            sampleContext p).1 = .ok out) ∧
        (∀ p, (((inner.filter (isA.meaning .empty).holds).filter
            (hasY.meaning .empty).holds none).runFrom sampleContext p).1 = .ok out) ∧
        out.rows = [.ofEntries [(⟨"x"⟩, .iri ⟨"a"⟩), (⟨"y"⟩, .iri ⟨"b"⟩)]] := by
  intro isA hasY inner
  have hfinds : sampleContext.FindsBuiltins := fun _ => rfl
  obtain ⟨hbinding, hfilters⟩ := @connectives_laws .empty sampleContext isA hasY hasY
    (.var ⟨"x"⟩) isA [hasY] hfinds rfl rfl rfl rfl rfl rfl
  obtain ⟨-, -, -, -, -, -, -, -, -, -, hisIn⟩ := hbinding .empty
  obtain ⟨out, htogether, hone, -, hrows⟩ := hfilters inner sampleChoices
    (fun p => ⟨p, rfl⟩) (by simp [sampleChoices, Solutions.vars])
  refine ⟨hfinds, rfl, rfl, hisIn, out, htogether, hone, ?_⟩
  rw [hrows rfl]
  decide +kernel

end Expr

end SparqlAlgebra
