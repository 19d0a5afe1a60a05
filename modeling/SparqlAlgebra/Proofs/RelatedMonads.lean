import Mathlib.Data.List.Forall2
import SparqlAlgebra.Evaluation
import SparqlAlgebra.Proofs.UniformTrees

/-!
# One tree in two monads

A tree is evaluated in two monads of actions and scopes. If the actions of the one do what
those of the other do, and so do the scopes around whatever does, then so does every tree
without operators that are defined elsewhere: a tree does nothing else than act, enter
scopes and put these in sequence.

* `EvaluationRelation`: what has to be shown of actions, sequences and scopes;
* `Meaning.Related`, `Plan.Related`, `Step.Related`, `Column.Related`, with one rule for
  each operator;
* `Node.plan_rel` and `Expr.meaning_rel` by induction over the tree.
-/

namespace SparqlAlgebra

open List (Forall₂)

variable {M N : Type → Type} [EvaluationMonad M] [EvaluationMonad N]

/-- A relation of evaluations in two monads that actions keep, and all that evaluations are
made of. -/
structure EvaluationRelation (M N : Type → Type) [EvaluationMonad M] [EvaluationMonad N] where
  Rel : ∀ {α : Type}, M α → N α → Prop
  pure : ∀ {α : Type} (a : α), Rel (Pure.pure a) (Pure.pure a)
  bind : ∀ {α β : Type} {x : M α} {y : N α} {f : α → M β} {g : α → N β}, Rel x y →
    (∀ a, Rel (f a) (g a)) → Rel (x >>= f) (y >>= g)
  act : ∀ {α : Type} (x : Eval α), Rel (EvaluationMonad.act x) (EvaluationMonad.act x)
  absorb : ∀ {α : Type} {x : M α} {y : N α}, Rel x y →
    Rel (EvaluationMonad.absorb x) (EvaluationMonad.absorb y)
  mapSeed : ∀ {α : Type} {x : M α} {y : N α} (f : Option Binding → Option Binding), Rel x y →
    Rel (EvaluationMonad.mapSeed f x) (EvaluationMonad.mapSeed f y)
  withGraph : ∀ {α : Type} {x : M α} {y : N α} (g : ActiveGraph), Rel x y →
    Rel (EvaluationMonad.withGraph g x) (EvaluationMonad.withGraph g y)
  deeper : ∀ {α : Type} {x : M α} {y : N α}, Rel x y →
    Rel (EvaluationMonad.deeper x) (EvaluationMonad.deeper y)
  atPlace : ∀ {α : Type} {x : M α} {y : N α} (f : Option (List Nat) → Option (List Nat)),
    Rel x y → Rel (EvaluationMonad.atPlace f x) (EvaluationMonad.atPlace f y)

variable {R : EvaluationRelation M N}

theorem EvaluationRelation.withSeed (R : EvaluationRelation M N) {α : Type} {x : M α} {y : N α}
    (seed : Option Binding) (h : R.Rel x y) :
    R.Rel (EvaluationMonad.withSeed seed x) (EvaluationMonad.withSeed seed y) :=
  R.mapSeed (fun _ => seed) h

/-! ## Expressions -/

/-- Values and truth are related. -/
structure Meaning.Related (R : EvaluationRelation M N) (m : Meaning M) (m' : Meaning N) :
    Prop where
  value : ∀ row, R.Rel (m.value row) (m'.value row)
  test : ∀ row, R.Rel (m.test row) (m'.test row)

namespace Meaning

variable {a b m : Meaning M} {a' b' m' : Meaning N} {ms : List (Meaning M)}
  {ms' : List (Meaning N)}

theorem Related.ofValue {v : Row → M Term} {v' : Row → N Term}
    (h : ∀ row, R.Rel (v row) (v' row)) : (Meaning.ofValue v).Related R (.ofValue v') :=
  ⟨h, fun row => R.bind (h row) fun _ => R.act _⟩

theorem Related.ofTest {t : Row → M Bool} {t' : Row → N Bool}
    (h : ∀ row, R.Rel (t row) (t' row)) : (Meaning.ofTest t).Related R (.ofTest t') :=
  ⟨fun row => R.bind (h row) fun _ => R.pure _, h⟩

theorem constant_rel (t : Term) : (constant t : Meaning M).Related R (constant t) :=
  .ofValue fun _ => R.pure _

theorem var_rel (v : Var) : (var v : Meaning M).Related R (var v) := by
  refine .ofValue fun row => ?_
  split
  · exact R.pure _
  · exact R.act _

theorem bound_rel (v : Var) : (bound v : Meaning M).Related R (bound v) :=
  .ofTest fun _ => R.pure _

theorem Related.not (h : m.Related R m') : m.not.Related R m'.not :=
  .ofTest fun row => R.bind (h.test row) fun _ => R.pure _

theorem Related.or (ha : a.Related R a') (hb : b.Related R b') :
    (a.or b).Related R (a'.or b') := by
  refine .ofTest fun row => R.bind (R.absorb (ha.test row)) fun result => ?_
  match result with
  | .ok true => exact R.pure _
  | .ok false => exact hb.test row
  | .error e =>
    refine R.bind (hb.test row) fun holds => ?_
    cases holds
    · exact R.act _
    · exact R.pure _

theorem Related.and (ha : a.Related R a') (hb : b.Related R b') :
    (a.and b).Related R (a'.and b') := by
  refine .ofTest fun row => R.bind (R.absorb (ha.test row)) fun result => ?_
  match result with
  | .ok true => exact hb.test row
  | .ok false => exact R.pure _
  | .error e =>
    refine R.bind (hb.test row) fun holds => ?_
    cases holds
    · exact R.pure _
    · exact R.act _

theorem Related.compareBy (f : Term → Term → Option Bool) (ha : a.Related R a')
    (hb : b.Related R b') : (Meaning.compareBy f a b).Related R (Meaning.compareBy f a' b') :=
  .ofTest fun row => R.bind (ha.value row) fun _ => R.bind (hb.value row) fun _ => R.act _

theorem equalsAny_rel (x : Term) (row : Row) (h : Forall₂ (Related R) ms ms')
    (last : Option QueryError) :
    R.Rel (equalsAny x row last ms) (equalsAny x row last ms') := by
  induction h generalizing last with
  | nil =>
    cases last
    · exact R.pure _
    · exact R.act _
  | @cons m m' rest rest' hm _ ih =>
    have hequal : R.Rel
        (do EvaluationMonad.act (Eval.ofOption (sparqlEquals? x (← m.value row))))
        (do EvaluationMonad.act (Eval.ofOption (sparqlEquals? x (← m'.value row)))) :=
      R.bind (hm.value row) fun _ => R.act _
    cases last <;> refine R.bind (R.absorb hequal) fun result => ?_ <;>
      match result with
      | .ok true => exact R.pure _
      | .ok false => exact ih _
      | .error e => exact ih _

theorem Related.isIn (h : m.Related R m') (hms : Forall₂ (Related R) ms ms') :
    (m.isIn ms).Related R (m'.isIn ms') :=
  .ofTest fun row => R.bind (h.value row) fun x => equalsAny_rel x row hms none

theorem Related.numeric (f : Number → Option Number) (h : m.Related R m') :
    (Meaning.numeric f m).Related R (Meaning.numeric f m') :=
  .ofValue fun row => R.bind (h.value row) fun _ =>
    R.bind (R.act _) fun _ => R.bind (R.act _) fun _ => R.pure _

theorem Related.arithmetic (f : Number → Number → Option Number) (ha : a.Related R a')
    (hb : b.Related R b') : (Meaning.arithmetic f a b).Related R (Meaning.arithmetic f a' b') :=
  .ofValue fun row => R.bind (ha.value row) fun _ => R.bind (hb.value row) fun _ =>
    R.bind (R.act _) fun _ => R.bind (R.act _) fun _ => R.bind (R.act _) fun _ => R.pure _

theorem Related.cond (ht : m.Related R m') (ha : a.Related R a') (hb : b.Related R b') :
    (Meaning.cond m a b).Related R (Meaning.cond m' a' b') := by
  refine .ofValue fun row => R.bind (ht.test row) fun holds => ?_
  cases holds
  · exact hb.value row
  · exact ha.value row

theorem firstValue_rel (row : Row) (h : Forall₂ (Related R) ms ms') :
    R.Rel (firstValue row ms) (firstValue row ms') := by
  induction h with
  | nil => exact R.act _
  | cons hm _ ih =>
    refine R.bind (R.absorb (hm.value row)) fun result => ?_
    cases result with
    | ok t => exact R.pure _
    | error e => exact ih

theorem Related.coalesce (h : Forall₂ (Related R) ms ms') :
    (Meaning.coalesce ms).Related R (Meaning.coalesce ms') :=
  .ofValue fun row => firstValue_rel row h

theorem values_rel (row : Row) (h : Forall₂ (Related R) ms ms') :
    R.Rel (values row ms) (values row ms') := by
  induction h with
  | nil => exact R.pure _
  | cons hm _ ih => exact R.bind (hm.value row) fun _ => R.bind ih fun _ => R.pure _

theorem Related.call (f : FunctionName) (h : Forall₂ (Related R) ms ms') :
    (Meaning.call f ms).Related R (Meaning.call f ms') := by
  refine .ofValue fun row => R.bind (values_rel row h) fun terms =>
    R.bind (R.act _) fun c => ?_
  dsimp only
  split
  · exact R.act _
  · exact R.bind (R.act _) fun _ => R.act _

theorem Related.holds (h : m.Related R m') (b : Binding) : R.Rel (m.holds b) (m'.holds b) := by
  refine R.bind (R.act _) fun i => R.bind (R.absorb (h.test _)) fun result => ?_
  cases result <;> exact R.pure _

theorem Related.value? (h : m.Related R m') (row : Row) :
    R.Rel (m.value? row) (m'.value? row) := by
  refine R.bind (R.absorb (h.value row)) fun result => ?_
  cases result <;> exact R.pure _

end Meaning

theorem UnaryOp.related (op : UnaryOp) {m : Meaning M} {m' : Meaning N} (h : m.Related R m') :
    (op.meaning m).Related R (op.meaning m') := by
  cases op
  · exact h.not
  · exact h.numeric _
  · exact h.numeric _

theorem BinaryOp.related (op : BinaryOp) {a b : Meaning M} {a' b' : Meaning N}
    (ha : a.Related R a') (hb : b.Related R b') :
    (op.meaning a b).Related R (op.meaning a' b') := by
  cases op
  case or => exact ha.or hb
  case and => exact ha.and hb
  case equal | sameTerm | greater | greaterOrEqual | less | lessOrEqual =>
    exact ha.compareBy _ hb
  case add | subtract | multiply | divide => exact ha.arithmetic _ hb

theorem Expr.assignment_rel (e : Expr) {m : Meaning M} {m' : Meaning N}
    (h : m.Related R m') (b : Binding) : R.Rel (e.assignment m b) (e.assignment m' b) := by
  unfold Expr.assignment
  split
  · exact R.bind (R.act _) fun _ => R.pure _
  · exact R.bind (R.act _) fun _ => R.bind (h.value _) fun _ => R.pure _

/-! ## Loops over rows -/

namespace Solutions

variable {condition : Binding → M Bool} {condition' : Binding → N Bool}
  (h : ∀ b, R.Rel (condition b) (condition' b))

include h

theorem keepM_rel (bs : List Binding) :
    R.Rel (keepM condition bs) (keepM condition' bs) := by
  induction bs with
  | nil => exact R.pure _
  | cons b rest ih => exact R.bind (h b) fun _ => R.bind ih fun _ => R.pure _

theorem retainM_rel (s : Solutions) :
    R.Rel (s.retainM condition) (s.retainM condition') := by
  cases s with
  | singleton vs => exact R.pure _
  | identity | null | table =>
    exact R.bind (keepM_rel h _) fun _ => R.pure _

theorem mergesM_rel (left : Binding) (rows : List Binding) :
    R.Rel (mergesM condition left rows) (mergesM condition' left rows) := by
  induction rows with
  | nil => exact R.pure _
  | cons right rest ih =>
    unfold mergesM
    cases left.merge? right with
    | none => exact ih
    | some merged => exact R.bind (h merged) fun _ => R.bind ih fun _ => R.pure _

theorem leftRowsM_rel (candidates : Binding → List Binding) (rows : List Binding) :
    R.Rel (leftRowsM condition candidates rows) (leftRowsM condition' candidates rows) := by
  induction rows with
  | nil => exact R.pure _
  | cons left rest ih =>
    exact R.bind (mergesM_rel h left _) fun _ => R.bind ih fun _ => R.pure _

theorem leftJoinM_rel (a b : Solutions) :
    R.Rel (a.leftJoinM b condition) (a.leftJoinM b condition') := by
  unfold leftJoinM
  split
  · exact R.pure _
  · exact R.pure _
  · split
    · exact R.pure _
    · exact R.bind (leftRowsM_rel h _ _) fun _ => R.pure _

end Solutions

/-! ## Plans -/

/-- The evaluations for each demand are related. -/
def Plan.Related (R : EvaluationRelation M N) (plan : Plan M) (plan' : Plan N) : Prop :=
  ∀ demand, R.Rel (plan demand) (plan' demand)

namespace Plan

variable {plan left right : Plan M} {plan' left' right' : Plan N}

theorem Related.input (h : plan.Related R plan') (i : Nat) :
    (plan.input i).Related R (plan'.input i) := fun demand => R.atPlace _ (h demand)

theorem Related.inExpression (h : plan.Related R plan') :
    plan.inExpression.Related R plan'.inExpression := fun demand => R.atPlace _ (h demand)

theorem Related.observed (h : plan.Related R plan') (name : String) :
    (plan.observed name).Related R (plan'.observed name) := fun demand =>
  R.bind (R.act _) fun _ => R.bind (R.act _) fun _ => R.bind (R.act _) fun _ =>
    R.bind (R.deeper (h demand)) fun _ => R.bind (R.act _) fun _ => R.pure _

theorem ofActions_rel (plan : Plan) : (ofActions plan : Plan M).Related R (ofActions plan) :=
  fun demand => R.act (plan demand)

section Growing

variable {σ : Type} {combine : σ → Solutions → M (Solutions × σ)}
  {combine' : σ → Solutions → N (Solutions × σ)}

theorem grow_rel (h : plan.Related R plan') (hc : ∀ m s, R.Rel (combine m s) (combine' m s))
    (wanted asked : Nat) (memory : σ) :
    R.Rel (grow plan wanted combine asked memory) (grow plan' wanted combine' asked memory) := by
  induction asked, memory using grow.induct with
  | case1 asked memory ih =>
    unfold grow
    refine R.bind (h _) fun found => R.bind (hc memory found) fun r => ?_
    obtain ⟨output, m⟩ := r
    dsimp only
    split
    · exact R.pure _
    · split
      · rename_i hasked
        exact ih m hasked
      · exact R.pure _

theorem Related.fromPrefix (h : plan.Related R plan') (memory : σ)
    (hc : ∀ m s, R.Rel (combine m s) (combine' m s)) :
    (plan.fromPrefix memory combine).Related R (plan'.fromPrefix memory combine') := by
  intro demand
  cases demand with
  | none => exact R.bind (h none) fun found => R.bind (hc memory found) fun _ => R.pure _
  | some wanted => exact grow_rel h hc wanted _ memory

end Growing

theorem Related.mapPrefix (h : plan.Related R plan') {combine : Solutions → M Solutions}
    {combine' : Solutions → N Solutions} (hc : ∀ s, R.Rel (combine s) (combine' s)) :
    (plan.mapPrefix combine).Related R (plan'.mapPrefix combine') :=
  h.fromPrefix () fun _ s => R.bind (hc s) fun _ => R.pure _

theorem Related.mapSeed (h : plan.Related R plan') (f : Binding → Binding) :
    (plan.mapSeed f).Related R (plan'.mapSeed f) := fun demand => R.mapSeed _ (h demand)

theorem hasMatchFrom_rel (h : plan.Related R plan') (b : Binding) (asked : Nat) :
    R.Rel (hasMatchFrom plan b asked) (hasMatchFrom plan' b asked) := by
  induction asked using hasMatchFrom.induct with
  | case1 asked ih =>
    unfold hasMatchFrom
    refine R.bind (h _) fun found => ?_
    split
    · exact R.pure _
    · split
      · rename_i hasked
        exact ih found hasked
      · exact R.pure _

theorem hasMatch_rel (h : plan.Related R plan') (b : Binding) :
    R.Rel (hasMatch plan b) (hasMatch plan' b) := R.withSeed _ (hasMatchFrom_rel h b 1)

theorem Related.withRight (hl : left.Related R left') (hr : right.Related R right')
    {combine : Solutions → Solutions → M Solutions}
    {combine' : Solutions → Solutions → N Solutions}
    (hc : ∀ l r, R.Rel (combine l r) (combine' l r)) :
    (withRight left right combine).Related R (withRight left' right' combine') := by
  refine hl.fromPrefix none fun memory l => ?_
  split
  · exact R.pure _
  · cases memory with
    | some s => exact R.bind (R.pure s) fun r => R.bind (hc l r) fun _ => R.pure _
    | none => exact R.bind (hr none) fun r => R.bind (hc l r) fun _ => R.pure _

theorem Related.join (hl : left.Related R left') (hr : right.Related R right') :
    (left.join right).Related R (left'.join right') := hl.withRight hr fun _ _ => R.pure _

theorem Related.leftJoin (hl : left.Related R left') (hr : right.Related R right')
    {condition : Binding → M Bool} {condition' : Binding → N Bool}
    (hc : ∀ b, R.Rel (condition b) (condition' b)) :
    (left.leftJoin right condition).Related R (left'.leftJoin right' condition') :=
  hl.withRight hr fun l r => Solutions.leftJoinM_rel hc l r

theorem Related.minus (hl : left.Related R left') (hr : right.Related R right') :
    (left.minus right).Related R (left'.minus right') :=
  hl.withRight (fun demand => R.withSeed none (hr demand)) fun _ _ => R.pure _

theorem Related.union (hl : left.Related R left') (hr : right.Related R right')
    (vs : List Var) : (left.union right vs).Related R (left'.union right' vs) := by
  refine fun demand => R.bind (hl demand) fun l => ?_
  dsimp only
  split
  · exact R.pure _
  · exact R.bind (hr _) fun _ => R.pure _

theorem Related.existsJoin (hl : left.Related R left') (hr : right.Related R right')
    (negated : Bool) :
    (left.existsJoin right negated).Related R (left'.existsJoin right' negated) :=
  hl.mapPrefix (Solutions.retainM_rel fun b =>
    R.bind (hasMatch_rel hr b) fun _ => R.pure _)

theorem Related.filter (h : plan.Related R plan') {condition : Binding → M Bool}
    {condition' : Binding → N Bool} (hc : ∀ b, R.Rel (condition b) (condition' b)) :
    (plan.filter condition).Related R (plan'.filter condition') :=
  h.mapPrefix (Solutions.retainM_rel hc)

theorem assignRows_rel {f : Assignment M} {f' : Assignment N}
    (h : ∀ b, R.Rel (f b) (f' b)) (v : Var) (rows : List Binding) :
    R.Rel (assignRows v f rows) (assignRows v f' rows) := by
  induction rows with
  | nil => exact R.pure _
  | cons b rest ih =>
    unfold assignRows
    split
    · exact R.act _
    · exact R.bind (h b) fun _ => R.bind ih fun _ => R.pure _

theorem Related.extend (h : plan.Related R plan') {f : Assignment M} {f' : Assignment N}
    (hf : ∀ b, R.Rel (f b) (f' b)) (v : Var) :
    (plan.extend v f).Related R (plan'.extend v f') := by
  refine fun demand => R.bind (h.mapSeed _ demand) fun s => ?_
  split
  · exact R.pure _
  · exact R.bind (assignRows_rel hf v _) fun _ => R.pure _

theorem Related.distinct (h : plan.Related R plan') : plan.distinct.Related R plan'.distinct :=
  h.mapPrefix fun _ => R.pure _

theorem Related.project (h : plan.Related R plan') (vs : List Var) :
    (plan.project vs).Related R (plan'.project vs) := fun demand =>
  R.bind (h.mapSeed _ demand) fun _ => R.act _

theorem Related.slice (h : plan.Related R plan') (offset : Nat) (limit : Option Nat) :
    (plan.slice offset limit).Related R (plan'.slice offset limit) := fun _ =>
  R.bind (h _) fun _ => R.pure _

theorem Related.limit (h : plan.Related R plan') (count : Nat) :
    (plan.limit count).Related R (plan'.limit count) := fun _ =>
  R.bind (h _) fun _ => R.pure _

theorem Related.ask (h : plan.Related R plan') : plan.ask.Related R plan'.ask := by
  refine fun _ => R.bind (R.act _) fun c => ?_
  split
  · exact R.pure _
  · exact R.bind (h _) fun _ => R.pure _

theorem overGraphs_rel (h : plan.Related R plan') (v : Var) (demand : Demand)
    (graphs : List Resource) (rows : List Binding) :
    R.Rel (overGraphs plan v demand graphs rows) (overGraphs plan' v demand graphs rows) := by
  induction graphs generalizing rows with
  | nil => exact R.pure _
  | cons g rest ih =>
    refine R.bind (R.withGraph _ (h _)) fun s => ?_
    dsimp only
    split
    · split
      · exact R.pure _
      · exact ih _
    · exact ih _

theorem Related.graph (h : plan.Related R plan') (name : NameRef) (vs : List Var) :
    (plan.graph name vs).Related R (plan'.graph name vs) := by
  refine fun demand => R.bind (R.act _) fun c => ?_
  cases name with
  | iri i =>
    have hfound (found : Bool) : R.Rel
        (if found then EvaluationMonad.withGraph (.named (.iri i)) (plan demand)
          else Pure.pure .null)
        (if found then EvaluationMonad.withGraph (.named (.iri i)) (plan' demand)
          else Pure.pure .null) := by
      cases found
      · exact R.pure _
      · exact R.withGraph _ (h demand)
    dsimp only
    split
    · exact R.bind (R.pure true) hfound
    · exact R.bind (R.act _) hfound
  | var v =>
    dsimp only
    split
    · exact R.pure _
    · exact R.bind (R.act _) fun graphs =>
        R.bind (overGraphs_rel h v demand graphs []) fun _ => R.pure _

end Plan

/-! ## Basic graph patterns -/

/-- The steps are of the same kind, and their parts are related. -/
inductive Step.Related (R : EvaluationRelation M N) : Step M → Step N → Prop
  | extend {f : Binding → M (List Binding)} {f' : Binding → N (List Binding)}
    (h : ∀ b, R.Rel (f b) (f' b)) : Related R (.extend f) (.extend f')
  | assign (v : Var) {f : Assignment M} {f' : Assignment N} (h : ∀ b, R.Rel (f b) (f' b)) :
    Related R (.assign v f) (.assign v f')
  | subQuery (i : Nat) {plan : Plan M} {plan' : Plan N} (h : plan.Related R plan') :
    Related R (.subQuery i plan) (.subQuery i plan')
  | filter {f : Binding → M Bool} {f' : Binding → N Bool} (h : ∀ b, R.Rel (f b) (f' b)) :
    Related R (.filter f) (.filter f')

namespace Matches

theorem overCandidates_rel {next : Binding → Matches → M Matches}
    {next' : Binding → Matches → N Matches} (h : ∀ b m, R.Rel (next b m) (next' b m))
    (demand : Demand) (bs : List Binding) (m : Matches) :
    R.Rel (overCandidates demand next bs m) (overCandidates demand next' bs m) := by
  induction bs generalizing m with
  | nil => exact R.pure _
  | cons b rest ih =>
    refine R.bind (h b m) fun m' => ?_
    split
    · exact R.pure _
    · exact ih m'

theorem solutionsOf_rel {query : Plan M} {query' : Plan N} (h : query.Related R query')
    (number : Nat) (m : Matches) :
    R.Rel (solutionsOf number query m) (solutionsOf number query' m) := by
  unfold solutionsOf
  split
  · exact R.pure _
  · exact R.bind (h none) fun _ => R.pure _

theorem matchSteps_rel {steps : List (Step M)} {steps' : List (Step N)}
    (h : Forall₂ (Step.Related R) steps steps') (demand : Demand) (b : Binding) (m : Matches) :
    R.Rel (matchSteps demand steps b m) (matchSteps demand steps' b m) := by
  induction h generalizing b m with
  | nil => exact R.pure _
  | cons hstep _ ih =>
    refine R.bind (R.act _) fun _ => ?_
    cases hstep with
    | extend hf => exact R.bind (hf b) fun bs => overCandidates_rel ih demand bs m
    | assign v hf =>
      dsimp only
      split
      · exact R.act _
      · refine R.bind (hf b) fun t => ?_
        cases t with
        | none => exact ih b m
        | some t => exact ih _ m
    | subQuery i hquery =>
      exact R.bind (solutionsOf_rel hquery i m) fun _ =>
        overCandidates_rel ih demand _ _
    | filter hf =>
      refine R.bind (hf b) fun holds => ?_
      cases holds
      · exact R.pure _
      · exact ih b m

end Matches

theorem Plan.bgp_rel {steps : List (Step M)} {steps' : List (Step N)}
    (h : Forall₂ (Step.Related R) steps steps') (vs : List Var) :
    (Plan.bgp steps vs).Related R (Plan.bgp steps' vs) := by
  refine fun demand => R.bind (R.act _) fun c => ?_
  dsimp only
  split
  · exact R.pure _
  · exact R.bind (Matches.matchSteps_rel h demand _ _) fun _ => R.pure _

/-! ## Grouping and sorting -/

/-- The columns are of the same kind, and what they are computed from is related. -/
inductive Column.Related (R : EvaluationRelation M N) : Column M → Column N → Prop
  | countRows (distinct : Bool) : Related R (.countRows distinct) (.countRows distinct)
  | apply (function : AggregateFunction) (distinct : Bool) {m : Meaning M} {m' : Meaning N}
    (h : m.Related R m') : Related R (.apply function m distinct) (.apply function m' distinct)

/-- The columns have the same variable and are related. -/
def Column.Paired (R : EvaluationRelation M N) (x : Var × Column M) (y : Var × Column N) :
    Prop := x.1 = y.1 ∧ x.2.Related R y.2

namespace Column

variable {columns : List (Var × Column M)} {columns' : List (Var × Column N)}

theorem argumentValues_rel {m : Meaning M} {m' : Meaning N} (h : m.Related R m')
    (bs : List Binding) : R.Rel (argumentValues m bs) (argumentValues m' bs) := by
  induction bs with
  | nil => exact R.pure _
  | cons b rest ih =>
    exact R.bind (R.act _) fun _ => R.bind (h.value? _) fun _ => R.bind ih fun _ => R.pure _

theorem Related.value? {column : Column M} {column' : Column N} (h : column.Related R column')
    (members : List Binding) : R.Rel (column.value? members) (column'.value? members) := by
  cases h with
  | countRows distinct => exact R.pure _
  | apply function distinct hm =>
    dsimp only [Column.value?]
    cases function.onGroup? distinct with
    | none => exact R.act _
    | some f => exact R.bind (argumentValues_rel hm members) fun _ => R.pure _

theorem bindAll_rel (h : Forall₂ (Paired R) columns columns') (members : List Binding)
    (b : Binding) : R.Rel (bindAll members columns b) (bindAll members columns' b) := by
  induction h generalizing b with
  | nil => exact R.pure _
  | @cons x y _ _ hcolumn _ ih =>
    obtain ⟨v, column⟩ := x
    obtain ⟨w, column'⟩ := y
    obtain ⟨rfl, hcolumn⟩ : v = w ∧ column.Related R column' := hcolumn
    refine R.bind (hcolumn.value? members) fun t => ?_
    cases t with
    | none => exact ih b
    | some t => exact ih _

theorem rows_rel (h : Forall₂ (Paired R) columns columns') (keys : List Var)
    (groups : List (GroupKey × List Binding)) :
    R.Rel (rows keys columns groups) (rows keys columns' groups) := by
  induction groups with
  | nil => exact R.pure _
  | cons g rest ih =>
    exact R.bind (bindAll_rel h g.2 _) fun _ => R.bind ih fun _ => R.pure _

theorem map_fst_rel (h : Forall₂ (Paired R) columns columns') :
    columns.map (·.1) = columns'.map (·.1) := by
  induction h with
  | nil => rfl
  | cons hcolumn _ ih => rw [List.map_cons, List.map_cons, hcolumn.1, ih]

end Column

theorem Plan.Related.group {plan : Plan M} {plan' : Plan N} (h : plan.Related R plan')
    (keys : List Var) {columns : List (Var × Column M)} {columns' : List (Var × Column N)}
    (hcolumns : Forall₂ (Column.Paired R) columns columns') :
    (plan.group keys columns).Related R (plan'.group keys columns') := by
  intro demand
  unfold Plan.group
  rw [Column.map_fst_rel hcolumns]
  refine R.bind (R.withSeed none (h none)) fun s => ?_
  split
  · exact R.pure _
  · exact R.bind (Column.rows_rel hcolumns keys _) fun _ => R.pure _

/-- The directions are the same, and the expressions to sort by are related. -/
structure SortKey.Related (R : EvaluationRelation M N) (k : SortKey M) (k' : SortKey N) :
    Prop where
  key : k.key.Related R k'.key
  descending_eq : k.descending = k'.descending

namespace SortKey

variable {keys : List (SortKey M)} {keys' : List (SortKey N)}

theorem values_rel (h : Forall₂ (Related R) keys keys') (row : Row) :
    R.Rel (values row keys) (values row keys') := by
  induction h with
  | nil => exact R.pure _
  | cons hk _ ih => exact R.bind (hk.key.value? row) fun _ => R.bind ih fun _ => R.pure _

theorem keyed_rel (h : Forall₂ (Related R) keys keys') (bs : List Binding) :
    R.Rel (keyed keys bs) (keyed keys' bs) := by
  induction bs with
  | nil => exact R.pure _
  | cons b rest ih =>
    exact R.bind (R.act _) fun _ => R.bind (values_rel h _) fun _ =>
      R.bind ih fun _ => R.pure _

theorem map_descending_rel (h : Forall₂ (Related R) keys keys') :
    keys.map (·.descending) = keys'.map (·.descending) := by
  induction h with
  | nil => rfl
  | cons hk _ ih => rw [List.map_cons, List.map_cons, hk.descending_eq, ih]

end SortKey

theorem Plan.Related.orderBy {plan : Plan M} {plan' : Plan N} (h : plan.Related R plan')
    {keys : List (SortKey M)} {keys' : List (SortKey N)}
    (hkeys : Forall₂ (SortKey.Related R) keys keys') :
    (plan.orderBy keys).Related R (plan'.orderBy keys') := by
  intro demand
  unfold Plan.orderBy
  rw [SortKey.map_descending_rel hkeys]
  refine R.bind (h none) fun s => ?_
  split
  · exact R.pure _
  · exact R.bind (SortKey.keyed_rel hkeys _) fun _ => R.pure _

/-! ## Trees -/

variable {operators : OperatorRegistry M} {operators' : OperatorRegistry N}

mutual

/-- A tree without operators that are defined elsewhere does the same in both monads. -/
theorem Node.plan_rel : ∀ n : Node, n.isCustomFree = true →
    (n.plan operators).Related R (n.plan operators')
  | .bgp elements, h => (Plan.bgp_rel (Element.steps_rel elements 0 h) _).observed _
  | .join l r, h => by
    simp only [Node.isCustomFree, Bool.and_eq_true] at h
    exact (((l.plan_rel h.1).input 0).join ((r.plan_rel h.2).input 1)).observed _
  | .leftJoin l r none, h => by
    simp only [Node.isCustomFree, Bool.and_eq_true] at h
    exact (((l.plan_rel h.1).input 0).leftJoin ((r.plan_rel h.2).input 1)
      fun _ => R.pure _).observed _
  | .leftJoin l r (some e), h => by
    simp only [Node.isCustomFree, Bool.and_eq_true] at h
    exact (((l.plan_rel h.1.1).input 0).leftJoin ((r.plan_rel h.1.2).input 1)
      (e.meaning_rel h.2).holds).observed _
  | .union l r, h => by
    simp only [Node.isCustomFree, Bool.and_eq_true] at h
    exact (((l.plan_rel h.1).input 0).union ((r.plan_rel h.2).input 1) _).observed _
  | .minus l r, h => by
    simp only [Node.isCustomFree, Bool.and_eq_true] at h
    exact (((l.plan_rel h.1).input 0).minus ((r.plan_rel h.2).input 1)).observed _
  | .existsJoin l r negated, h => by
    simp only [Node.isCustomFree, Bool.and_eq_true] at h
    exact (((l.plan_rel h.1).input 0).existsJoin ((r.plan_rel h.2).input 1)
      negated).observed _
  | .filter inner e, h | .having inner e, h => by
    simp only [Node.isCustomFree, Bool.and_eq_true] at h
    exact (((inner.plan_rel h.1).input 0).filter (e.meaning_rel h.2).holds).observed _
  | .extend inner v e, h => by
    simp only [Node.isCustomFree, Bool.and_eq_true] at h
    exact (((inner.plan_rel h.1).input 0).extend
      (e.assignment_rel (e.meaning_rel h.2)) v).observed _
  | .group inner keys columns, h => by
    simp only [Node.isCustomFree, Bool.and_eq_true] at h
    exact (((inner.plan_rel h.1).input 0).group keys
      (GroupValue.columns_rel columns h.2)).observed _
  | .orderBy inner keys, h => by
    simp only [Node.isCustomFree, Bool.and_eq_true] at h
    exact (((inner.plan_rel h.1).input 0).orderBy
      (OrderKey.sortKeys_rel keys h.2)).observed _
  | .distinct inner, h => ((inner.plan_rel h).input 0).distinct.observed _
  | .reduced inner, h => ((inner.plan_rel h).input 0).observed _
  | .project inner vs, h => (((inner.plan_rel h).input 0).project vs).observed _
  | .slice inner offset count, h =>
    (((inner.plan_rel h).input 0).slice offset count).observed _
  | .graph inner name, h => (((inner.plan_rel h).input 0).graph name _).observed _
  | .ask inner, h => ((inner.plan_rel h).input 0).ask.observed _
  | .limit inner count, h => (((inner.plan_rel h).input 0).limit count).observed _
  | .service _ _ _ _, _ | .values _ _, _ | .pathSearch _ _ _, _ =>
    (Plan.ofActions_rel _).observed _
  | .custom _ _ _, h => by cases h

theorem Element.steps_rel : ∀ (elements : List Element) (i : Nat),
    Element.areCustomFree elements = true →
    Forall₂ (Step.Related R) (Element.steps operators i elements)
      (Element.steps operators' i elements)
  | [], _, _ => .nil
  | .triple _ :: rest, i, h | .path _ _ _ :: rest, i, h =>
    .cons (.extend fun _ => R.act _) (Element.steps_rel rest i h)
  | .assign v e :: rest, i, h => by
    simp only [Element.areCustomFree, Bool.and_eq_true] at h
    exact .cons (.assign v (e.assignment_rel (e.meaning_rel h.1)))
      (Element.steps_rel rest i h.2)
  | .subQuery query :: rest, i, h => by
    simp only [Element.areCustomFree, Bool.and_eq_true] at h
    exact .cons (.subQuery i ((query.plan_rel h.1).input i))
      (Element.steps_rel rest (i + 1) h.2)
  | .filter e :: rest, i, h => by
    simp only [Element.areCustomFree, Bool.and_eq_true] at h
    exact .cons (.filter (e.meaning_rel h.1).holds) (Element.steps_rel rest i h.2)

theorem GroupValue.columns_rel : ∀ values : List GroupValue,
    GroupValue.areCustomFree values = true →
    Forall₂ (Column.Paired R) (GroupValue.columns operators values)
      (GroupValue.columns operators' values)
  | [], _ => .nil
  | .countRows _ distinct :: rest, h =>
    .cons ⟨rfl, .countRows distinct⟩ (GroupValue.columns_rel rest h)
  | .apply _ function e distinct :: rest, h => by
    simp only [GroupValue.areCustomFree, Bool.and_eq_true] at h
    exact .cons ⟨rfl, .apply function distinct (e.meaning_rel h.1)⟩
      (GroupValue.columns_rel rest h.2)

theorem OrderKey.sortKeys_rel : ∀ keys : List OrderKey,
    OrderKey.areCustomFree keys = true →
    Forall₂ (SortKey.Related R) (OrderKey.sortKeys operators keys)
      (OrderKey.sortKeys operators' keys)
  | [], _ => .nil
  | .sortBy e _ :: rest, h => by
    simp only [OrderKey.areCustomFree, Bool.and_eq_true] at h
    exact .cons ⟨e.meaning_rel h.1, rfl⟩ (OrderKey.sortKeys_rel rest h.2)

/-- Value and truth of an expression are the same in both monads. -/
theorem Expr.meaning_rel : ∀ e : Expr, e.isCustomFree = true →
    (e.meaning operators).Related R (e.meaning operators')
  | .constant t, _ => Meaning.constant_rel t
  | .var v, _ => Meaning.var_rel v
  | .bound v, _ => Meaning.bound_rel v
  | .unary op e, h => op.related (e.meaning_rel h)
  | .binary op l r, h => by
    simp only [Expr.isCustomFree, Bool.and_eq_true] at h
    exact op.related (l.meaning_rel h.1) (r.meaning_rel h.2)
  | .isIn e es, h => by
    simp only [Expr.isCustomFree, Bool.and_eq_true] at h
    exact (e.meaning_rel h.1).isIn (Expr.meanings_rel es h.2)
  | .cond c t e, h => by
    simp only [Expr.isCustomFree, Bool.and_eq_true] at h
    exact .cond (c.meaning_rel h.1.1) (t.meaning_rel h.1.2) (e.meaning_rel h.2)
  | .coalesce es, h => .coalesce (Expr.meanings_rel es h)
  | .call f es, h => .call f (Expr.meanings_rel es h)
  | .hasMatch pattern, h =>
    .ofTest fun row => Plan.hasMatch_rel (pattern.plan_rel h).inExpression row.binding

theorem Expr.meanings_rel : ∀ es : List Expr, Expr.areCustomFree es = true →
    Forall₂ (Meaning.Related R) (Expr.meanings operators es) (Expr.meanings operators' es)
  | [], _ => .nil
  | e :: rest, h => by
    simp only [Expr.areCustomFree, Bool.and_eq_true] at h
    exact .cons (e.meaning_rel h.1) (Expr.meanings_rel rest h.2)

end

end SparqlAlgebra
