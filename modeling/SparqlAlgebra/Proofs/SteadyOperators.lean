import SparqlAlgebra.Proofs.Steadiness

/-!
# Steady operators

Operators of expressions, of plans and of basic graph patterns are steady if
their parts are. For expressions this includes the number of the solution: two
evaluations for the same binding agree even if the numbers differ. This is shown
for any relation of bindings that the variables of an expression do not tell
apart, equality being one of them.

Loops over rows are followed row by row, and the two loops that grow their
demand by their distance from the largest number.
-/

namespace SparqlAlgebra

open Eval

/-! ## Expressions -/

/-- In related contexts value and truth are the same for related bindings. -/
structure Meaning.RespectsIn (C : Context → Context → Prop) (r : Binding → Binding → Prop)
    (m : Meaning) : Prop where
  value : ∀ {b b'}, r b b' → ∀ i j, (m.value ⟨b, i⟩).AgreeIn C (m.value ⟨b', j⟩)
  test : ∀ {b b'}, r b b' → ∀ i j, (m.test ⟨b, i⟩).AgreeIn C (m.test ⟨b', j⟩)

/-- Value and truth are the same for related bindings, whatever the seeds are. -/
abbrev Meaning.Respects (r : Binding → Binding → Prop) (m : Meaning) : Prop :=
  m.RespectsIn Context.Alongside r

/-- Value and truth depend on the binding only. -/
abbrev Meaning.Steady (m : Meaning) : Prop := m.Respects Eq

/-- Whether the value of a function depends on its arguments only. -/
def FunctionName.isRepeatable : FunctionName → Bool
  | .builtin f => !f.isRandom
  | .custom _ => false

namespace Meaning

variable {C : Context → Context → Prop} {r : Binding → Binding → Prop}

theorem RespectsIn.ofValue {v : Row → Eval Term}
    (h : ∀ {b b'}, r b b' → ∀ i j, (v ⟨b, i⟩).AgreeIn C (v ⟨b', j⟩)) :
    (Meaning.ofValue v).RespectsIn C r :=
  ⟨h, fun hb i j => (h hb i j).bind fun _ => .ofOption _⟩

theorem RespectsIn.ofTest {t : Row → Eval Bool}
    (h : ∀ {b b'}, r b b' → ∀ i j, (t ⟨b, i⟩).AgreeIn C (t ⟨b', j⟩)) :
    (Meaning.ofTest t).RespectsIn C r :=
  ⟨fun hb i j => (h hb i j).bind fun _ => .pure _, h⟩

theorem RespectsIn.constant (t : Term) : (Meaning.constant t).RespectsIn C r :=
  .ofValue fun _ _ _ => .pure _

theorem RespectsIn.var {v : Var} (hr : ∀ {b b'}, r b b' → b.get? v = b'.get? v) :
    (Meaning.var v).RespectsIn C r := by
  refine .ofValue fun {b b'} hb _ _ => ?_
  have hget : b.get? v = b'.get? v := hr hb
  dsimp only
  rw [hget]
  cases b'.get? v
  · exact .fail _
  · exact .pure _

theorem RespectsIn.bound {v : Var} (hr : ∀ {b b'}, r b b' → b.get? v = b'.get? v) :
    (Meaning.bound v).RespectsIn C r := by
  refine .ofTest fun {b b'} hb _ _ => ?_
  show AgreeIn C (Pure.pure (b.contains v)) (Pure.pure (b'.contains v))
  unfold Binding.contains
  rw [hr hb]
  exact .pure _

variable {a b m : Meaning}

theorem RespectsIn.not (h : m.RespectsIn C r) : m.not.RespectsIn C r :=
  .ofTest fun hrow i j => (h.test hrow i j).bind fun _ => .pure _

theorem RespectsIn.or (ha : a.RespectsIn C r) (hb : b.RespectsIn C r) :
    (a.or b).RespectsIn C r := by
  refine .ofTest fun hrow i j => (ha.test hrow i j).absorb.bind fun result => ?_
  match result with
  | .ok true => exact .pure _
  | .ok false => exact hb.test hrow i j
  | .error e =>
    refine (hb.test hrow i j).bind fun holds => ?_
    cases holds
    · exact .fail _
    · exact .pure _

theorem RespectsIn.and (ha : a.RespectsIn C r) (hb : b.RespectsIn C r) :
    (a.and b).RespectsIn C r := by
  refine .ofTest fun hrow i j => (ha.test hrow i j).absorb.bind fun result => ?_
  match result with
  | .ok true => exact hb.test hrow i j
  | .ok false => exact .pure _
  | .error e =>
    refine (hb.test hrow i j).bind fun holds => ?_
    cases holds
    · exact .pure _
    · exact .fail _

theorem RespectsIn.compareBy (f : Term → Term → Option Bool) (ha : a.RespectsIn C r)
    (hb : b.RespectsIn C r) : (Meaning.compareBy f a b).RespectsIn C r :=
  .ofTest fun hrow i j => (ha.value hrow i j).bind fun _ =>
    (hb.value hrow i j).bind fun _ => .ofOption _

theorem equalsAny_agree (x : Term) {row row' : Binding} (hrow : r row row') (i j : Nat)
    {ms : List Meaning} (hms : ∀ m ∈ ms, m.RespectsIn C r) (last : Option QueryError) :
    (equalsAny x ⟨row, i⟩ last ms).AgreeIn C (equalsAny x ⟨row', j⟩ last ms) := by
  induction ms generalizing last with
  | nil =>
    cases last
    · exact .pure _
    · exact .fail _
  | cons m rest ih =>
    have hm := hms m List.mem_cons_self
    have ih := ih fun n hn => hms n (List.mem_cons_of_mem _ hn)
    -- an error is remembered, a value without an error decides or goes on
    cases last <;>
      refine ((hm.value hrow i j).bind fun _ => .ofOption _).absorb.bind fun result => ?_ <;>
      rcases result with e | (_ | _)
    all_goals first
      | exact ih _
      | exact .pure _

theorem RespectsIn.isIn (h : m.RespectsIn C r) {ms : List Meaning}
    (hms : ∀ m ∈ ms, m.RespectsIn C r) : (m.isIn ms).RespectsIn C r :=
  .ofTest fun hrow i j => (h.value hrow i j).bind fun x =>
    equalsAny_agree x hrow i j hms none

theorem RespectsIn.numeric (f : Number → Option Number) (h : m.RespectsIn C r) :
    (Meaning.numeric f m).RespectsIn C r :=
  .ofValue fun hrow i j => (h.value hrow i j).bind fun _ =>
    AgreeIn.bind (.ofOption _) fun _ => AgreeIn.bind (.ofOption _) fun _ => .pure _

theorem RespectsIn.arithmetic (f : Number → Number → Option Number) (ha : a.RespectsIn C r)
    (hb : b.RespectsIn C r) : (Meaning.arithmetic f a b).RespectsIn C r :=
  .ofValue fun hrow i j => (ha.value hrow i j).bind fun _ =>
    (hb.value hrow i j).bind fun _ => AgreeIn.bind (.ofOption _) fun _ =>
      AgreeIn.bind (.ofOption _) fun _ => AgreeIn.bind (.ofOption _) fun _ => .pure _

theorem RespectsIn.cond {test yes no : Meaning} (ht : test.RespectsIn C r)
    (hy : yes.RespectsIn C r) (hn : no.RespectsIn C r) :
    (Meaning.cond test yes no).RespectsIn C r := by
  refine .ofValue fun hrow i j => (ht.test hrow i j).bind fun holds => ?_
  cases holds
  · exact hn.value hrow i j
  · exact hy.value hrow i j

theorem firstValue_agree {row row' : Binding} (hrow : r row row') (i j : Nat)
    {ms : List Meaning} (hms : ∀ m ∈ ms, m.RespectsIn C r) :
    (firstValue ⟨row, i⟩ ms).AgreeIn C (firstValue ⟨row', j⟩ ms) := by
  induction ms with
  | nil => exact .fail _
  | cons m rest ih =>
    have hm := hms m List.mem_cons_self
    refine (hm.value hrow i j).absorb.bind fun result => ?_
    cases result with
    | ok t => exact .pure _
    | error e => exact ih fun n hn => hms n (List.mem_cons_of_mem _ hn)

theorem RespectsIn.coalesce {ms : List Meaning} (hms : ∀ m ∈ ms, m.RespectsIn C r) :
    (Meaning.coalesce ms).RespectsIn C r :=
  .ofValue fun hrow i j => firstValue_agree hrow i j hms

theorem values_agree {row row' : Binding} (hrow : r row row') (i j : Nat)
    {ms : List Meaning} (hms : ∀ m ∈ ms, m.RespectsIn C r) :
    (values ⟨row, i⟩ ms).AgreeIn C (values ⟨row', j⟩ ms) := by
  induction ms with
  | nil => exact .pure _
  | cons m rest ih =>
    exact ((hms m List.mem_cons_self).value hrow i j).bind fun _ =>
      (ih fun n hn => hms n (List.mem_cons_of_mem _ hn)).bind fun _ => .pure _

/-- The context of a call is its number and that of the solution, which a
repeatable function does not look at. -/
theorem RespectsIn.call (hC : ∀ c c', C c c' → c.Alongside c') {f : FunctionName}
    (hf : f.isRepeatable = true) {ms : List Meaning} (hms : ∀ m ∈ ms, m.RespectsIn C r) :
    (Meaning.call f ms).RespectsIn C r := by
  cases f with
  | custom name => cases hf
  | builtin f =>
    have hrandom : f.isRandom = false := by
      simpa [FunctionName.isRepeatable] using hf
    refine .ofValue fun hrow i j => (values_agree hrow i j hms).bind fun terms =>
      RelatedIn.read_bind fun c c' hc hs => ?_
    simp only [(hC c c' hs).environment.functions_eq, hc.builtin f]
    refine RelatedIn.newCall fun k l => ?_
    rw [Builtin.apply_context hrandom _ ⟨c'.environment.queryId, j, l⟩]
    exact AgreeIn.ofOption _

theorem RespectsIn.holds (h : m.RespectsIn C r) {b b' : Binding} (hrow : r b b') :
    (m.holds b).AgreeIn C (m.holds b') := by
  refine RelatedIn.newSolutionId fun i j => (h.test hrow i j).absorb.bind fun result => ?_
  cases result <;> exact .pure _

theorem Steady.holds (h : m.Steady) (b : Binding) : (m.holds b).Steady :=
  (RespectsIn.holds h rfl).agree

theorem RespectsIn.value? (h : m.RespectsIn C r) {b b' : Binding} (hrow : r b b')
    (i j : Nat) : (m.value? ⟨b, i⟩).AgreeIn C (m.value? ⟨b', j⟩) := by
  refine (h.value hrow i j).absorb.bind fun result => ?_
  cases result <;> exact .pure _

end Meaning

section Operators

variable {C : Context → Context → Prop} {r : Binding → Binding → Prop}

theorem UnaryOp.respects (op : UnaryOp) {m : Meaning} (h : m.RespectsIn C r) :
    (op.meaning m).RespectsIn C r := by
  cases op
  · exact h.not
  · exact h.numeric _
  · exact h.numeric _

theorem BinaryOp.respects (op : BinaryOp) {a b : Meaning} (ha : a.RespectsIn C r)
    (hb : b.RespectsIn C r) : (op.meaning a b).RespectsIn C r := by
  cases op
  case or => exact ha.or hb
  case and => exact ha.and hb
  case equal | sameTerm | greater | greaterOrEqual | less | lessOrEqual =>
    exact ha.compareBy _ hb
  case add | subtract | multiply | divide => exact ha.arithmetic _ hb

/-! ## Assignments -/

/-- In related contexts the value of an assignment is the same for related bindings. -/
def Assignment.RespectsIn (C : Context → Context → Prop) (r : Binding → Binding → Prop)
    (f : Assignment) : Prop :=
  ∀ {b b'}, r b b' → (f b).AgreeIn C (f b')

theorem Assignment.RespectsIn.strict {m : Meaning} (h : m.RespectsIn C r) :
    (Assignment.strict m).RespectsIn C r := fun hrow =>
  RelatedIn.newSolutionId fun i j => (h.value hrow i j).bind fun _ => .pure _

theorem Assignment.RespectsIn.ofVar {v : Var} (hr : ∀ {b b'}, r b b' → b.get? v = b'.get? v) :
    (Assignment.ofVar v).RespectsIn C r := by
  refine fun {b b'} hrow => RelatedIn.newSolutionId fun _ _ => ?_
  rw [hr hrow]
  exact .pure rfl

theorem Expr.assignment_respects (e : Expr) {m : Meaning} (h : m.RespectsIn C r)
    (hr : ∀ v ∈ e.occurrences, ∀ {b b'}, r b b' → b.get? v = b'.get? v) :
    (e.assignment m).RespectsIn C r := by
  unfold Expr.assignment
  split
  · exact Assignment.RespectsIn.ofVar (hr _ List.mem_cons_self)
  · exact Assignment.RespectsIn.strict h

end Operators

/-- The value of an assignment depends on the binding only. -/
def Assignment.Steady (f : Assignment) : Prop := ∀ b, (f b).Steady

theorem Expr.assignment_steady (e : Expr) {m : Meaning} (h : m.Steady) :
    (e.assignment m).Steady := fun b =>
  have hrespects : (e.assignment m).RespectsIn Context.Alongside Eq :=
    e.assignment_respects h fun v _ {_ _} hb => congrArg (·.get? v) hb
  AgreeIn.agree (@hrespects b b rfl)

/-! ## Loops over rows -/

theorem Solutions.keepM_steady {α : Type} {test : α → Eval Bool} {xs : List α}
    (h : ∀ x ∈ xs, (test x).Steady) : (Solutions.keepM test xs).Steady := by
  induction xs with
  | nil => exact .pure _
  | cons x rest ih =>
    exact (h x List.mem_cons_self).bind fun _ =>
      (ih fun y hy => h y (List.mem_cons_of_mem _ hy)).bind fun _ => .pure _

theorem Solutions.retainM_steady {condition : Binding → Eval Bool}
    (h : ∀ b, (condition b).Steady) (s : Solutions) :
    (s.retainM condition).Steady := by
  cases s with
  | singleton vs => exact .pure _
  | identity | null | table =>
    exact (keepM_steady fun b _ => h b).bind fun _ => .pure _

theorem Solutions.mergesM_steady {condition : Binding → Eval Bool}
    (h : ∀ b, (condition b).Steady) (left : Binding) (rows : List Binding) :
    (Solutions.mergesM condition left rows).Steady := by
  induction rows with
  | nil => exact .pure _
  | cons right rest ih =>
    unfold mergesM
    cases left.merge? right with
    | none => exact ih
    | some merged => exact (h merged).bind fun _ => ih.bind fun _ => .pure _

theorem Solutions.leftRowsM_steady {condition : Binding → Eval Bool}
    (h : ∀ b, (condition b).Steady) (candidates : Binding → List Binding)
    (rows : List Binding) :
    (Solutions.leftRowsM condition candidates rows).Steady := by
  induction rows with
  | nil => exact .pure _
  | cons left rest ih =>
    exact (mergesM_steady h left _).bind fun _ => ih.bind fun _ => .pure _

theorem Solutions.leftJoinM_steady {condition : Binding → Eval Bool}
    (h : ∀ b, (condition b).Steady) (a b : Solutions) :
    (a.leftJoinM b condition).Steady := by
  unfold leftJoinM
  split
  · exact .pure _
  · exact .pure _
  · split
    · exact .pure _
    · exact (leftRowsM_steady h _ _).bind fun _ => .pure _

/-! ## Plans -/

namespace Plan

/-- The outcome for each demand does not depend on what was counted before. -/
def Steady (plan : Plan) : Prop := ∀ demand, (plan demand).Steady

variable {plan left right : Plan}

theorem Steady.input (h : plan.Steady) (i : Nat) : (plan.input i).Steady :=
  fun demand => (h demand).within (Context.isScope_place (·.map (· ++ [i])))

theorem Steady.inExpression (h : plan.Steady) : plan.inExpression.Steady :=
  fun demand => (h demand).within (Context.isScope_place fun _ => none)

/-- The number of an input is for observers. -/
theorem Steady.input_agree (h : plan.Steady) (i : Nat) (demand : Demand) :
    (plan.input i demand).Agree (plan demand) :=
  (h demand).within_observed fun _ => ⟨⟨rfl, .refl _⟩, rfl⟩

theorem Steady.inExpression_agree (h : plan.Steady) (demand : Demand) :
    (plan.inExpression demand).Agree (plan demand) :=
  (h demand).within_observed fun _ => ⟨⟨rfl, .refl _⟩, rfl⟩

theorem Steady.observed (h : plan.Steady) (name : String) :
    (plan.observed name).Steady := by
  refine fun demand => AgreeIn.bind Agree.checkTime fun _ => RelatedIn.read_bind fun c c' _ _ =>
    AgreeIn.bind (.record _ _) fun _ => ?_
  exact AgreeIn.bind ((h demand).within Context.isScope_depth) fun _ =>
    AgreeIn.bind (.record _ _) fun _ => .pure _

section Growing

variable {σ : Type} {combine : σ → Solutions → Eval (Solutions × σ)}

theorem grow_steady (h : plan.Steady) (hc : ∀ m s, (combine m s).Steady)
    (wanted asked : Nat) (memory : σ) :
    (grow plan wanted combine asked memory).Steady := by
  induction asked, memory using grow.induct with
  | case1 asked memory ih =>
    unfold grow
    refine (h _).bind fun found => (hc memory found).bind fun ⟨output, m⟩ => ?_
    dsimp only
    split
    · exact .pure _
    · split
      · rename_i hasked
        exact ih m hasked
      · exact .pure _

/-- What follows a round: an answer or another round. -/
theorem grow_steady_rest (h : plan.Steady) (hc : ∀ m s, (combine m s).Steady)
    (wanted asked : Nat) (s : Solutions) (r : Solutions × σ) : Eval.Steady
      (if s.isSingleton || s.size < asked || wanted ≤ r.1.size then Pure.pure r.1
      else if _h : 0 < asked ∧ asked < maxCount then
        grow plan wanted combine (double asked) r.2
      else Pure.pure r.1) := by
  split
  · exact .pure _
  · split
    · exact grow_steady h hc _ _ _
    · exact .pure _

theorem Steady.fromPrefix (h : plan.Steady) (memory : σ)
    (hc : ∀ m s, (combine m s).Steady) :
    (plan.fromPrefix memory combine).Steady := by
  intro demand
  cases demand with
  | none => exact (h none).bind fun found => (hc memory found).bind fun _ => .pure _
  | some wanted => exact grow_steady h hc wanted _ memory

end Growing

theorem Steady.mapPrefix (h : plan.Steady) {combine : Solutions → Eval Solutions}
    (hc : ∀ s, (combine s).Steady) : (plan.mapPrefix combine).Steady :=
  h.fromPrefix () fun _ s => (hc s).bind fun _ => .pure _

theorem joinSeed_steady (s : Solutions) : (joinSeed s).Steady := by
  refine RelatedIn.read_bind fun c c' _ hs => ?_
  rw [hs.seed_eq]
  cases c.seed with
  | none => exact .pure rfl
  | some b => exact .pure rfl

theorem Steady.mapSeed (h : plan.Steady) (f : Binding → Binding) :
    (plan.mapSeed f).Steady := fun demand =>
  (h demand).within (Context.isScope_seed (·.map f))

/-- Two plans that agree for every demand find matches in the same rounds. -/
theorem hasMatchFrom_agree {plan' : Plan} (h : ∀ demand, (plan demand).Agree (plan' demand))
    (b : Binding) (asked : Nat) :
    (hasMatchFrom plan b asked).Agree (hasMatchFrom plan' b asked) := by
  induction asked using hasMatchFrom.induct with
  | case1 asked ih =>
    unfold hasMatchFrom
    refine (h _).bind fun found => ?_
    split
    · exact .pure _
    · split
      · rename_i hasked
        exact ih found hasked
      · exact .pure _

theorem hasMatch_alongside {plan' : Plan}
    (h : ∀ demand, (plan demand).Agree (plan' demand)) (b : Binding) :
    (hasMatch plan b).AgreeIn Context.Alongside (hasMatch plan' b) :=
  (hasMatchFrom_agree h b 1).withSeed_alongside _

theorem hasMatch_agree {plan' : Plan} (h : ∀ demand, (plan demand).Agree (plan' demand))
    (b : Binding) : (hasMatch plan b).Agree (hasMatch plan' b) :=
  (hasMatch_alongside h b).agree

theorem hasMatch_steady (h : plan.Steady) (b : Binding) :
    (hasMatch plan b).Steady := hasMatch_agree h b

theorem Steady.withRight (hl : left.Steady) (hr : right.Steady)
    {combine : Solutions → Solutions → Eval Solutions}
    (hc : ∀ l r, (combine l r).Steady) :
    (withRight left right combine).Steady := by
  refine hl.fromPrefix none fun memory l => ?_
  split
  · exact .pure _
  · cases memory with
    | some s => exact AgreeIn.bind (.pure _) fun r => (hc l r).bind fun _ => .pure _
    | none => exact (hr none).bind fun r => (hc l r).bind fun _ => .pure _

theorem Steady.join (hl : left.Steady) (hr : right.Steady) :
    (left.join right).Steady := hl.withRight hr fun _ _ => .pure _

theorem Steady.leftJoin (hl : left.Steady) (hr : right.Steady)
    {condition : Binding → Eval Bool} (hc : ∀ b, (condition b).Steady) :
    (left.leftJoin right condition).Steady :=
  hl.withRight hr fun l r => Solutions.leftJoinM_steady hc l r

theorem Steady.minus (hl : left.Steady) (hr : right.Steady) :
    (left.minus right).Steady :=
  Steady.withRight hl (fun demand => (hr demand).withSeed none) fun _ _ => .pure _

theorem Steady.union (hl : left.Steady) (hr : right.Steady) (vs : List Var) :
    (left.union right vs).Steady := by
  refine fun demand => (hl demand).bind fun l => ?_
  dsimp only
  split
  · exact .pure _
  · exact (hr _).bind fun _ => .pure _

theorem Steady.existsJoin (hl : left.Steady) (hr : right.Steady)
    (negated : Bool) : (left.existsJoin right negated).Steady :=
  hl.mapPrefix fun s => Solutions.retainM_steady
    (fun b => (hasMatch_steady hr b).bind fun _ => .pure _) s

theorem Steady.filter (h : plan.Steady) {condition : Binding → Eval Bool}
    (hc : ∀ b, (condition b).Steady) : (plan.filter condition).Steady :=
  h.mapPrefix fun s => Solutions.retainM_steady hc s

theorem assignRows_steady {f : Assignment} (h : f.Steady) (v : Var)
    (rows : List Binding) : (assignRows v f rows).Steady := by
  induction rows with
  | nil => exact .pure _
  | cons b rest ih =>
    unfold assignRows
    split
    · exact .fail _
    · exact (h b).bind fun _ => ih.bind fun _ => .pure _

theorem Steady.extend (h : plan.Steady) {f : Assignment} (hf : f.Steady)
    (v : Var) : (plan.extend v f).Steady := by
  refine fun demand => (h.mapSeed _ demand).bind fun s => ?_
  split
  · exact .pure _
  · exact (assignRows_steady hf v _).bind fun _ => .pure _

theorem Steady.distinct (h : plan.Steady) : plan.distinct.Steady :=
  h.mapPrefix fun _ => .pure _

theorem Steady.project (h : plan.Steady) (vs : List Var) :
    (plan.project vs).Steady := fun demand =>
  (h.mapSeed _ demand).bind fun _ => joinSeed_steady _

theorem Steady.slice (h : plan.Steady) (offset : Nat) (limit : Option Nat) :
    (plan.slice offset limit).Steady := fun _ => (h _).bind fun _ => .pure _

theorem Steady.limit (h : plan.Steady) (count : Nat) :
    (plan.limit count).Steady := fun _ => (h _).bind fun _ => .pure _

theorem Steady.ask (h : plan.Steady) : plan.ask.Steady := by
  refine fun _ => RelatedIn.read_bind fun c c' _ hs => ?_
  rw [hs.environment.isDryRun_eq]
  split
  · exact .pure rfl
  · exact (h _).bind fun _ => .pure _

theorem overGraphs_steady (h : plan.Steady) (v : Var) (demand : Demand)
    (graphs : List Resource) (rows : List Binding) :
    (overGraphs plan v demand graphs rows).Steady := by
  induction graphs generalizing rows with
  | nil => exact .pure _
  | cons g rest ih =>
    refine ((h _).withGraph _).bind fun s => ?_
    dsimp only
    split
    · split
      · exact .pure _
      · exact ih _
    · exact ih _

theorem graphsOf_steady (v : Var) : (graphsOf v).Steady := by
  refine RelatedIn.read_bind fun c c' _ hs => ?_
  rw [hs.seed_eq, hs.view_eq]
  split
  · exact AgreeIn.ofReading _
  · split
    · exact .pure rfl
    · exact AgreeIn.bind (.ofReading _) fun _ => .pure _

theorem Steady.graph (h : plan.Steady) (name : NameRef) (vs : List Var) :
    (plan.graph name vs).Steady := by
  refine fun demand => RelatedIn.read_bind fun c c' _ hs => ?_
  dsimp only
  rw [hs.environment.isDryRun_eq, hs.view_eq]
  cases name with
  | iri i =>
    have hfound : ∀ found : Bool, Eval.Steady
        (if found then Eval.withGraph (.named (.iri i)) (plan demand)
          else Pure.pure .null) := by
      rintro (_ | _)
      · exact .pure _
      · exact (h demand).withGraph _
    dsimp only
    split
    · exact AgreeIn.bind (.pure _) hfound
    · exact AgreeIn.bind (.ofReading _) hfound
  | var v =>
    dsimp only
    split
    · exact .pure rfl
    · exact (graphsOf_steady v).bind fun gs =>
        (overGraphs_steady h v demand gs []).bind fun _ => .pure _

theorem leaf_steady (vs : List Var) {x : Eval Solutions} (h : x.Steady) :
    (leaf vs x).Steady := by
  refine fun _ => RelatedIn.read_bind fun c c' _ hs => ?_
  rw [hs.environment.isDryRun_eq]
  split
  · exact .pure rfl
  · exact h

theorem values_steady (vs : List Var) (rows : List (List (Option Term))) :
    (values vs rows).Steady := leaf_steady vs (joinSeed_steady _)

theorem serviceName_steady (name : NameRef) : (serviceName name).Steady := by
  cases name with
  | iri i => exact .pure _
  | var v =>
    refine RelatedIn.read_bind fun c c' _ hs => ?_
    rw [hs.seed_eq]
    split
    · exact .pure rfl
    · exact .fail _

/-- What a service call makes of the answer. -/
def serviceAnswer (silent : Bool) : Except String Solutions → Eval Solutions
  | .ok s => joinSeed s
  | .error text =>
    if silent then Pure.pure .null else Eval.fail (.service text)

/-- The call of a service with a known name. -/
def callService (silent : Bool) (pattern : Query.Pattern) (name : Iri) :
    Eval Solutions := do
  let environment := (← read).environment
  match environment.services with
  | none =>
    if silent then return .null else Eval.fail (.unsupportedService name)
  | some handler =>
    Eval.record (.serviceCall name environment.base)
    serviceAnswer silent (handler ⟨name, pattern⟩ environment.base)

theorem serviceAnswer_steady (silent : Bool) (r : Except String Solutions) :
    (serviceAnswer silent r).Steady := by
  cases r with
  | ok s => exact joinSeed_steady s
  | error text =>
    cases silent
    · exact .fail _
    · exact .pure _

theorem callService_steady (silent : Bool) (pattern : Query.Pattern) (name : Iri) :
    (callService silent pattern name).Steady := by
  refine RelatedIn.read_bind fun c c' _ hs => ?_
  dsimp only
  rw [hs.environment.services_eq, hs.environment.base_eq]
  split
  · cases silent
    · exact .fail _
    · exact .pure rfl
  · exact AgreeIn.bind (.record _ _) fun _ => serviceAnswer_steady silent _

theorem service_steady (name : NameRef) (vs : List Var) (silent : Bool)
    (pattern : Query.Pattern) :
    (service name vs silent pattern).Steady :=
  leaf_steady vs ((serviceName_steady name).bind (callService_steady silent pattern))

end Plan

/-! ## Basic graph patterns -/

/-- The parts of a step are steady. -/
def Step.Steady : Step → Prop
  | extend candidates => ∀ b, (candidates b).Steady
  | assign _ value => value.Steady
  | subQuery _ query => query.Steady
  | filter condition => ∀ b, (condition b).Steady

namespace Matches

theorem overCandidates_steady {next : Binding → Matches → Eval Matches}
    (h : ∀ b m, (next b m).Steady) (demand : Demand) (bs : List Binding)
    (m : Matches) : (overCandidates demand next bs m).Steady := by
  induction bs generalizing m with
  | nil => exact .pure _
  | cons b rest ih =>
    refine (h b m).bind fun m' => ?_
    split
    · exact .pure _
    · exact ih m'

/-- What follows a candidate: the end or the remaining candidates. -/
theorem overCandidates_steady_rest {next : Binding → Matches → Eval Matches}
    (h : ∀ b m, (next b m).Steady) (demand : Demand) (bs : List Binding) (m : Matches) :
    Eval.Steady (if m.meets demand then Pure.pure m else overCandidates demand next bs m) := by
  split
  · exact .pure _
  · exact overCandidates_steady h _ _ _

theorem solutionsOf_steady {query : Plan} (h : query.Steady) (number : Nat)
    (m : Matches) : (solutionsOf number query m).Steady := by
  unfold solutionsOf
  split
  · exact .pure _
  · exact (h none).bind fun _ => .pure _

section Assign

variable {next : Binding → Matches → Eval Matches} (hnext : ∀ b m, (next b m).Steady)

include hnext

theorem assigned_steady (v : Var) (b : Binding) (m : Matches) (t : Option Term) :
    Eval.Steady (match t with
      | some t => next (b.insert v t) m
      | none => next b m) := by
  cases t with
  | none => exact hnext b m
  | some t => exact hnext _ m

/-- An assignment goes on with the value, if there is one. -/
theorem assign_steady {value : Assignment} (hvalue : value.Steady) (v : Var) (b : Binding)
    (m : Matches) :
    Eval.Steady (if b.contains v then Eval.fail (.variableAlreadyBound v)
      else do
        match ← value b with
        | some t => next (b.insert v t) m
        | none => next b m) := by
  split
  · exact .fail _
  · exact (hvalue b).bind (assigned_steady hnext v b m)

end Assign

theorem matchSteps_steady {steps : List Step} (h : ∀ s ∈ steps, s.Steady)
    (demand : Demand) (b : Binding) (m : Matches) :
    (matchSteps demand steps b m).Steady := by
  induction steps generalizing b m with
  | nil => exact .pure _
  | cons step rest ih =>
    have hstep := h step List.mem_cons_self
    have ih := ih fun s hs => h s (List.mem_cons_of_mem _ hs)
    refine AgreeIn.bind Agree.tick fun _ => ?_
    cases step with
    | extend candidates =>
      exact (hstep b).bind fun _ => overCandidates_steady ih demand _ m
    | assign v value =>
      exact assign_steady ih hstep v b m
    | subQuery number query =>
      exact (solutionsOf_steady hstep number m).bind fun _ =>
        overCandidates_steady ih demand _ _
    | filter condition =>
      refine (hstep b).bind fun holds => ?_
      cases holds
      · exact .pure _
      · exact ih _ _

end Matches

theorem Plan.bgp_steady {steps : List Step} (h : ∀ s ∈ steps, s.Steady)
    (vs : List Var) : (Plan.bgp steps vs).Steady := by
  refine fun demand => RelatedIn.read_bind fun c c' _ hs => ?_
  dsimp only
  rw [hs.environment.isDryRun_eq, hs.seed_eq]
  split
  · exact .pure rfl
  · exact (Matches.matchSteps_steady h demand _ _).bind fun _ => .pure _

theorem Step.matchTriple_steady (p : TriplePattern) (b : Binding) :
    (matchTriple p b).Steady := by
  unfold matchTriple
  split
  · exact .pure _
  · exact AgreeIn.bind (Agree.triples _ _ _) fun _ => .pure _

/-! ## Grouping and sorting -/

/-- The argument of a column is steady. -/
def Column.Steady : Column → Prop
  | countRows _ => True
  | apply _ argument _ => argument.Steady

namespace Column

theorem argumentValues_agree {m : Meaning} (h : m.Steady) (bs : List Binding) :
    (argumentValues m bs).AgreeIn Context.Alongside (argumentValues m bs) := by
  induction bs with
  | nil => exact .pure _
  | cons b rest ih =>
    exact RelatedIn.newSolutionId fun i j => (h.value? rfl i j).bind fun _ =>
      ih.bind fun _ => .pure _

theorem value?_agree {column : Column} (h : column.Steady)
    (members : List Binding) :
    (column.value? members).AgreeIn Context.Alongside (column.value? members) := by
  cases column with
  | countRows distinct => exact .pure _
  | apply function argument distinct =>
    unfold value?
    dsimp only
    cases function.onGroup? distinct with
    | none => exact .fail _
    | some f => exact (argumentValues_agree h members).bind fun _ => .pure _

theorem bindAll_agree {columns : List (Var × Column)}
    (h : ∀ c ∈ columns, c.2.Steady) (members : List Binding) (b : Binding) :
    (bindAll members columns b).AgreeIn Context.Alongside (bindAll members columns b) := by
  induction columns generalizing b with
  | nil => exact .pure _
  | cons c rest ih =>
    have ih := ih fun d hd => h d (List.mem_cons_of_mem _ hd)
    refine (value?_agree (h c List.mem_cons_self) members).bind fun t => ?_
    cases t with
    | none => exact ih _
    | some t => exact ih _

theorem rows_agree {columns : List (Var × Column)}
    (h : ∀ c ∈ columns, c.2.Steady) (keys : List Var)
    (groups : List (GroupKey × List Binding)) :
    (rows keys columns groups).AgreeIn Context.Alongside (rows keys columns groups) := by
  induction groups with
  | nil => exact .pure _
  | cons g rest ih =>
    exact (bindAll_agree h g.2 _).bind fun _ => ih.bind fun _ => .pure _

theorem rows_steady {columns : List (Var × Column)} (h : ∀ c ∈ columns, c.2.Steady)
    (keys : List Var) (groups : List (GroupKey × List Binding)) :
    (rows keys columns groups).Steady := (rows_agree h keys groups).agree

end Column

theorem Plan.Steady.group {inner : Plan} (hi : inner.Steady) (keys : List Var)
    {columns : List (Var × Column)} (h : ∀ c ∈ columns, c.2.Steady) :
    (inner.group keys columns).Steady := by
  refine fun _ => ((hi none).withSeed none).bind fun s => ?_
  split
  · exact .pure _
  · exact (Column.rows_steady h keys _).bind fun _ => .pure _

namespace SortKey

theorem values_agree {C : Context → Context → Prop} {r : Binding → Binding → Prop}
    {keys : List SortKey} (h : ∀ k ∈ keys, k.key.RespectsIn C r) {b b' : Binding}
    (hrow : r b b') (i j : Nat) : (values ⟨b, i⟩ keys).AgreeIn C (values ⟨b', j⟩ keys) := by
  induction keys with
  | nil => exact .pure _
  | cons k rest ih =>
    exact ((h k List.mem_cons_self).value? hrow i j).bind fun _ =>
      (ih fun l hl => h l (List.mem_cons_of_mem _ hl)).bind fun _ => .pure _

theorem keyed_steady {keys : List SortKey} (h : ∀ k ∈ keys, k.key.Steady)
    (bs : List Binding) : (keyed keys bs).Steady := by
  induction bs with
  | nil => exact .pure _
  | cons b rest ih =>
    exact RelatedIn.newSolutionId fun i j => (values_agree h rfl i j).agree.bind fun _ =>
      ih.bind fun _ => .pure _

end SortKey

theorem Plan.Steady.orderBy {inner : Plan} (hi : inner.Steady)
    {keys : List SortKey} (h : ∀ k ∈ keys, k.key.Steady) :
    (inner.orderBy keys).Steady := by
  refine fun _ => (hi none).bind fun s => ?_
  split
  · exact .pure _
  · exact (SortKey.keyed_steady h _).bind fun _ => .pure _

end SparqlAlgebra
