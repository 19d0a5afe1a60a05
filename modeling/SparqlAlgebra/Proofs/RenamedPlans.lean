import SparqlAlgebra.Proofs.PairedPlans
import SparqlAlgebra.Proofs.Relabelling
import SparqlAlgebra.Proofs.RenamedSolutions

/-!
# Plans under other names

Two plans do the same under other names if, from a seed and the same seed under other
names, they have the same solutions under other names, or the same error. Both runs count
the same, so nothing is asked of the functions that are called.

* `Context.RenamedBy`: what is read is the same, the seed has other names, and services
  give the same answers under other labels, about variables that keep their names;
* `Eval.ParallelOn`: conditions and assignments for bindings under other names, and
  `Meaning.Parallel` with one rule for each operator of expressions;
* `Plan.Parallel` with one rule for each operator of plans. An error that names a variable
  is the same error only if the variable keeps its name.
-/

namespace SparqlAlgebra

open SparqlAlgebra.Relation (Renames)
open List (Forall₂)
open Eval

variable {ρ : Equiv.Perm Var} {c c' : Context}

/-! ## Contexts -/

/-- The same is read, and what services answer is the same under other names, and under the
labels that go with these. -/
structure Context.ServedBy (ρ : Equiv.Perm Var) (c c' : Context) : Prop
    extends Context.SameData c c' where
  answers : ∀ handler, c.environment.services = some handler → ∀ call s,
    handler call c.environment.base = .ok s → s.Renamed ρ s
  labels : ∀ handler, c.environment.services = some handler → ∀ i pattern,
    handler ⟨i, pattern.relabel (Query.labelUnder ρ)⟩ c.environment.base =
      handler ⟨i, pattern⟩ c.environment.base

/-- The evaluation starts from the same seed under other names. -/
structure Context.RenamedBy (ρ : Equiv.Perm Var) (c c' : Context) : Prop
    extends Context.ServedBy ρ c c' where
  seed_eq : c'.seed = c.seed.map (Binding.rename ρ)

namespace Context

theorem ServedBy.withSeed (h : c.ServedBy ρ c') (b : Option Binding) :
    RenamedBy ρ { c with seed := b } { c' with seed := b.map (Binding.rename ρ) } :=
  ⟨⟨⟨h.view_eq, h.environment_eq⟩, h.answers, h.labels⟩, rfl⟩

theorem RenamedBy.withPlace (h : c.RenamedBy ρ c') (f : Option (List Nat) → Option (List Nat)) :
    RenamedBy ρ { c with place := f c.place } { c' with place := f c'.place } :=
  ⟨⟨⟨h.view_eq, h.environment_eq⟩, h.answers, h.labels⟩, h.seed_eq⟩

theorem RenamedBy.deeper (h : c.RenamedBy ρ c') :
    RenamedBy ρ { c with depth := c.depth + 1 } { c' with depth := c'.depth + 1 } :=
  ⟨⟨⟨h.view_eq, h.environment_eq⟩, h.answers, h.labels⟩, h.seed_eq⟩

theorem RenamedBy.enter (h : c.RenamedBy ρ c') (g : ActiveGraph) :
    RenamedBy ρ { c with view := c.view.enter g } { c' with view := c'.view.enter g } :=
  ⟨⟨⟨congrArg (·.enter g) h.view_eq, h.environment_eq⟩, h.answers, h.labels⟩, h.seed_eq⟩

/-- A function of the seed that goes well with other names. -/
theorem RenamedBy.mapSeed (h : c.RenamedBy ρ c') {f f' : Binding → Binding}
    (hf : ∀ b, f' (b.rename ρ) = (f b).rename ρ) :
    RenamedBy ρ { c with seed := c.seed.map f } { c' with seed := c'.seed.map f' } := by
  refine ⟨⟨⟨h.view_eq, h.environment_eq⟩, h.answers, h.labels⟩, ?_⟩
  show c'.seed.map f' = (c.seed.map f).map (Binding.rename ρ)
  rw [h.seed_eq, Option.map_map, Option.map_map]
  exact Option.map_congr fun b _ => hf b

theorem RenamedBy.start_eq (h : c.RenamedBy ρ c') : c'.start = c.start.rename ρ := by
  unfold start
  rw [h.seed_eq]
  cases c.seed <;> rfl

/-- The seeds give a variable the same value. -/
theorem RenamedBy.seed_get? (h : c.RenamedBy ρ c') (v : Var) :
    c'.seed.bind (·.get? (ρ v)) = c.seed.bind (·.get? v) := by
  rw [h.seed_eq]
  cases c.seed with
  | none => rfl
  | some b => exact Binding.get?_rename_apply ρ b v

end Context

/-! ## Expressions -/

/-- The two functions do the same for a binding and for the binding under other names. -/
def Eval.ParallelOn {α : Type} (ρ : Equiv.Perm Var) (f f' : Binding → Eval α) : Prop :=
  ∀ c c' : Context, c.ServedBy ρ c' → ∀ b, Eval.Parallel Eq c c' (f b) (f' (b.rename ρ))

/-- Value and truth are the same for a row and for the row under other names. -/
structure Meaning.Parallel (ρ : Equiv.Perm Var) (m m' : Meaning) : Prop where
  value : ∀ i, ParallelOn ρ (fun b => m.value ⟨b, i⟩) (fun b => m'.value ⟨b, i⟩)
  test : ∀ i, ParallelOn ρ (fun b => m.test ⟨b, i⟩) (fun b => m'.test ⟨b, i⟩)

namespace Meaning

variable {a a' b b' m m' : Meaning} {ms ms' : List Meaning}

theorem Parallel.ofValue {v v' : Row → Eval Term}
    (h : ∀ i, ParallelOn ρ (fun b => v ⟨b, i⟩) (fun b => v' ⟨b, i⟩)) :
    (Meaning.ofValue v).Parallel ρ (.ofValue v') :=
  ⟨h, fun i c c' hc b => (h i c c' hc b).bind_same fun _ => .ofOption _⟩

theorem Parallel.ofTest {t t' : Row → Eval Bool}
    (h : ∀ i, ParallelOn ρ (fun b => t ⟨b, i⟩) (fun b => t' ⟨b, i⟩)) :
    (Meaning.ofTest t).Parallel ρ (.ofTest t') :=
  ⟨fun i c c' hc b => (h i c c' hc b).bind_same fun _ => .pure rfl, h⟩

theorem Parallel.constant (t : Term) : (Meaning.constant t).Parallel ρ (.constant t) :=
  .ofValue fun _ _ _ _ _ => .pure rfl

/-- The error of an unbound variable names it. -/
theorem Parallel.var {v : Var} (hv : ρ v = v) :
    (Meaning.var v).Parallel ρ (.var (ρ v)) := by
  refine .ofValue fun i c c' _ b => ?_
  dsimp only
  rw [Binding.get?_rename_apply, hv]
  split
  · exact .pure rfl
  · exact .fail _

theorem Parallel.bound (v : Var) : (Meaning.bound v).Parallel ρ (.bound (ρ v)) :=
  .ofTest fun _ _ _ _ b => .pure (Binding.contains_rename b v).symm

theorem Parallel.not (h : m.Parallel ρ m') : m.not.Parallel ρ m'.not :=
  .ofTest fun i c c' hc b => (h.test i c c' hc b).bind_same fun _ => .pure rfl

theorem Parallel.or (ha : a.Parallel ρ a') (hb : b.Parallel ρ b') :
    (a.or b).Parallel ρ (a'.or b') := by
  refine .ofTest fun i c c' hc row => (ha.test i c c' hc row).absorb.bind fun r r' hr => ?_
  cases hr with
  | ok heq =>
    subst heq
    rename_i holds
    cases holds
    · exact hb.test i c c' hc row
    · exact .pure rfl
  | error e =>
    refine (hb.test i c c' hc row).bind_same fun holds => ?_
    cases holds
    · exact .fail _
    · exact .pure rfl

theorem Parallel.and (ha : a.Parallel ρ a') (hb : b.Parallel ρ b') :
    (a.and b).Parallel ρ (a'.and b') := by
  refine .ofTest fun i c c' hc row => (ha.test i c c' hc row).absorb.bind fun r r' hr => ?_
  cases hr with
  | ok heq =>
    subst heq
    rename_i holds
    cases holds
    · exact .pure rfl
    · exact hb.test i c c' hc row
  | error e =>
    refine (hb.test i c c' hc row).bind_same fun holds => ?_
    cases holds
    · exact .pure rfl
    · exact .fail _

theorem Parallel.compareBy (f : Term → Term → Option Bool) (ha : a.Parallel ρ a')
    (hb : b.Parallel ρ b') : (Meaning.compareBy f a b).Parallel ρ (.compareBy f a' b') :=
  .ofTest fun i c c' hc row => (ha.value i c c' hc row).bind_same fun _ =>
    (hb.value i c c' hc row).bind_same fun _ => .ofOption _

theorem equalsAny_parallel (hc : c.ServedBy ρ c') (x : Term) (i : Nat) (row : Binding)
    (hms : Forall₂ (Meaning.Parallel ρ) ms ms') (last : Option QueryError) :
    Eval.Parallel Eq c c' (equalsAny x ⟨row, i⟩ last ms)
      (equalsAny x ⟨row.rename ρ, i⟩ last ms') := by
  induction hms generalizing last with
  | nil =>
    cases last
    · exact .pure rfl
    · exact .fail _
  | @cons m m' _ _ hm _ ih =>
    have hequal : Eval.Parallel Eq c c'
        (do Eval.ofOption (sparqlEquals? x (← m.value ⟨row, i⟩)))
        (do Eval.ofOption (sparqlEquals? x (← m'.value ⟨row.rename ρ, i⟩))) :=
      (hm.value i c c' hc row).bind_same fun _ => .ofOption _
    -- an error is remembered, a value without an error decides or goes on
    cases last <;> refine hequal.absorb.bind fun r r' hr => ?_ <;> cases hr with
      | ok heq =>
        subst heq
        rename_i holds
        cases holds
        · exact ih _
        · exact .pure rfl
      | error e => exact ih _

theorem Parallel.isIn (h : m.Parallel ρ m') (hms : Forall₂ (Meaning.Parallel ρ) ms ms') :
    (m.isIn ms).Parallel ρ (m'.isIn ms') :=
  .ofTest fun i c c' hc row => (h.value i c c' hc row).bind_same fun x =>
    equalsAny_parallel hc x i row hms none

theorem Parallel.numeric (f : Number → Option Number) (h : m.Parallel ρ m') :
    (Meaning.numeric f m).Parallel ρ (.numeric f m') :=
  .ofValue fun i c c' hc row => (h.value i c c' hc row).bind_same fun _ =>
    (Eval.Parallel.ofOption _).bind_same fun _ =>
      (Eval.Parallel.ofOption _).bind_same fun _ => .pure rfl

theorem Parallel.arithmetic (f : Number → Number → Option Number) (ha : a.Parallel ρ a')
    (hb : b.Parallel ρ b') : (Meaning.arithmetic f a b).Parallel ρ (.arithmetic f a' b') :=
  .ofValue fun i c c' hc row => (ha.value i c c' hc row).bind_same fun _ =>
    (hb.value i c c' hc row).bind_same fun _ =>
      (Eval.Parallel.ofOption _).bind_same fun _ =>
        (Eval.Parallel.ofOption _).bind_same fun _ =>
          (Eval.Parallel.ofOption _).bind_same fun _ => .pure rfl

theorem Parallel.cond {test test' yes yes' no no' : Meaning} (ht : test.Parallel ρ test')
    (hy : yes.Parallel ρ yes') (hn : no.Parallel ρ no') :
    (Meaning.cond test yes no).Parallel ρ (.cond test' yes' no') := by
  refine .ofValue fun i c c' hc row => (ht.test i c c' hc row).bind_same fun holds => ?_
  cases holds
  · exact hn.value i c c' hc row
  · exact hy.value i c c' hc row

theorem firstValue_parallel (hc : c.ServedBy ρ c') (i : Nat) (row : Binding)
    (hms : Forall₂ (Meaning.Parallel ρ) ms ms') :
    Eval.Parallel Eq c c' (firstValue ⟨row, i⟩ ms) (firstValue ⟨row.rename ρ, i⟩ ms') := by
  induction hms with
  | nil => exact .fail _
  | cons hm _ ih =>
    refine (hm.value i c c' hc row).absorb.bind fun r r' hr => ?_
    cases hr with
    | ok heq =>
      subst heq
      exact .pure rfl
    | error e => exact ih

theorem Parallel.coalesce (hms : Forall₂ (Meaning.Parallel ρ) ms ms') :
    (Meaning.coalesce ms).Parallel ρ (.coalesce ms') :=
  .ofValue fun i _ _ hc row => firstValue_parallel hc i row hms

theorem values_parallel (hc : c.ServedBy ρ c') (i : Nat) (row : Binding)
    (hms : Forall₂ (Meaning.Parallel ρ) ms ms') :
    Eval.Parallel Eq c c' (values ⟨row, i⟩ ms) (values ⟨row.rename ρ, i⟩ ms') := by
  induction hms with
  | nil => exact .pure rfl
  | cons hm _ ih =>
    exact (hm.value i c c' hc row).bind_same fun _ => ih.bind_same fun _ => .pure rfl

/-- Random functions are called with the same numbers. -/
theorem Parallel.call (f : FunctionName) (hms : Forall₂ (Meaning.Parallel ρ) ms ms') :
    (Meaning.call f ms).Parallel ρ (.call f ms') := by
  refine .ofValue fun i c c' hc row => (values_parallel hc i row hms).bind_same fun terms =>
    .read_bind ?_
  dsimp only
  rw [hc.environment_eq]
  split
  · exact .fail _
  · exact Eval.Parallel.newCall.bind_same fun _ => .ofOption _

theorem Parallel.holds (h : m.Parallel ρ m') : ParallelOn ρ m.holds m'.holds := by
  refine fun c c' hc b => Eval.Parallel.newSolutionId.bind_same fun i =>
    (h.test i c c' hc b).absorb.bind fun r r' hr => ?_
  cases hr with
  | ok heq => exact .pure heq
  | error e => exact .pure rfl

theorem Parallel.value? (h : m.Parallel ρ m') (hc : c.ServedBy ρ c') (i : Nat) (b : Binding) :
    Eval.Parallel Eq c c' (m.value? ⟨b, i⟩) (m'.value? ⟨b.rename ρ, i⟩) := by
  refine (h.value i c c' hc b).absorb.bind fun r r' hr => ?_
  cases hr with
  | ok heq => exact .pure (congrArg some heq)
  | error e => exact .pure rfl

end Meaning

theorem UnaryOp.parallel (op : UnaryOp) {m m' : Meaning} (h : m.Parallel ρ m') :
    (op.meaning m).Parallel ρ (op.meaning m') := by
  cases op
  · exact h.not
  · exact h.numeric _
  · exact h.numeric _

theorem BinaryOp.parallel (op : BinaryOp) {a a' b b' : Meaning} (ha : a.Parallel ρ a')
    (hb : b.Parallel ρ b') : (op.meaning a b).Parallel ρ (op.meaning a' b') := by
  cases op
  case or => exact ha.or hb
  case and => exact ha.and hb
  case equal | sameTerm | greater | greaterOrEqual | less | lessOrEqual =>
    exact ha.compareBy _ hb
  case add | subtract | multiply | divide => exact ha.arithmetic _ hb

/-! ## Loops over rows -/

namespace Solutions

variable {s s' a a' b b' : Solutions} {condition condition' : Binding → Eval Bool}
  (hcondition : ParallelOn ρ condition condition')

include hcondition

theorem keepM_parallel (hc : c.ServedBy ρ c') (bs : List Binding) :
    Eval.Parallel (Renames ρ) c c' (keepM condition bs)
      (keepM condition' (bs.map (Binding.rename ρ))) := by
  induction bs with
  | nil => exact .pure rfl
  | cons b rest ih =>
    refine (hcondition c c' hc b).bind_same fun holds => ih.bind fun kept kept' hkept => .pure ?_
    unfold Renames at *
    subst hkept
    cases holds <;> rfl

theorem Renamed.retainM (h : s.Renamed ρ s') (hc : c.ServedBy ρ c') :
    Eval.Parallel (Renamed ρ) c c' (s.retainM condition) (s'.retainM condition') := by
  have hrows := keepM_parallel hcondition hc s.rows
  rw [← h.rows_eq] at hrows
  have hvars := h.sameVars
  cases h with
  | singleton h => exact .pure (.singleton h)
  | _ => exact hrows.bind fun _ _ hkept => .pure (.ofRows hvars hkept)

theorem leftRowsM_parallel (hc : c.ServedBy ρ c') {rs : List Binding}
    {candidates candidates' : Binding → List Binding}
    (hcandidates : ∀ l, (candidates l).filterMap l.merge? = rs.filterMap l.merge?)
    (hcandidates' : ∀ l, (candidates' l).filterMap l.merge? =
      (rs.map (Binding.rename ρ)).filterMap l.merge?) (ls : List Binding) :
    Eval.Parallel (Renames ρ) c c' (leftRowsM condition candidates ls)
      (leftRowsM condition' candidates' (ls.map (Binding.rename ρ))) := by
  induction ls with
  | nil => exact .pure rfl
  | cons l rest ih =>
    have hmerges := keepM_parallel hcondition hc ((candidates l).filterMap l.merge?)
    rw [hcandidates, ← Binding.filterMap_merge?_rename, ← hcandidates', ← hcandidates,
      ← mergesM_eq, ← mergesM_eq] at hmerges
    refine hmerges.bind fun merges merges' hmerges => ih.bind fun rows rows' hrows => .pure ?_
    refine Renames.append ?_ hrows
    unfold Renames at *
    subst hmerges
    cases merges <;> rfl

theorem Renamed.leftJoinM (ha : a.Renamed ρ a') (hb : b.Renamed ρ b') (hc : c.ServedBy ρ c') :
    Eval.Parallel (Renamed ρ) c c' (a.leftJoinM b condition) (a'.leftJoinM b' condition') := by
  have hcandidates := candidates_joinIndex a' b'
  rw [hb.rows_eq] at hcandidates
  have hrows := leftRowsM_parallel hcondition hc (candidates_joinIndex a b) hcandidates a.rows
  rw [← ha.rows_eq] at hrows
  have hvars := ha.sameVars.merge hb.sameVars
  have hsingleton := ha.isSingleton_eq
  have hsingleton' := hb.isSingleton_eq
  have hreal : Eval.Parallel (Renamed ρ) c c'
      (if a.isSingleton || b.isSingleton then
        Pure.pure (Solutions.singleton (mergeVariables a.vars b.vars))
      else leftRowsM condition (joinIndex a b).candidates a.rows >>= fun rows =>
        Pure.pure (.ofRows (mergeVariables a.vars b.vars) rows))
      (if a'.isSingleton || b'.isSingleton then
        Pure.pure (Solutions.singleton (mergeVariables a'.vars b'.vars))
      else leftRowsM condition' (joinIndex a' b').candidates a'.rows >>= fun rows =>
        Pure.pure (.ofRows (mergeVariables a'.vars b'.vars) rows)) := by
    rw [hsingleton, hsingleton']
    split
    · exact .pure (.singleton hvars)
    · exact hrows.bind fun _ _ h => .pure (.ofRows hvars h)
  have hleft := ha
  cases ha with
  | null => exact .pure .null
  | _ =>
    cases hb with
    | null => exact .pure hleft
    | _ => exact hreal

end Solutions

/-! ## Plans -/

namespace Plan

/-- From a seed under other names the second plan has the solutions of the first one under
other names, for each demand. -/
def Parallel (ρ : Equiv.Perm Var) (plan plan' : Plan) : Prop :=
  ∀ c c' : Context, c.RenamedBy ρ c' → ∀ demand,
    Eval.Parallel (Solutions.Renamed ρ) c c' (plan demand) (plan' demand)

variable {plan plan' left left' right right' : Plan}

theorem Parallel.input (h : plan.Parallel ρ plan') (i : Nat) :
    (plan.input i).Parallel ρ (plan'.input i) := fun _ _ hc demand =>
  (h _ _ (hc.withPlace (·.map (· ++ [i]))) demand).within

theorem Parallel.inExpression (h : plan.Parallel ρ plan') :
    plan.inExpression.Parallel ρ plan'.inExpression := fun _ _ hc demand =>
  (h _ _ (hc.withPlace fun _ => none) demand).within

/-- Observers are told the names, and nothing depends on it. -/
theorem observed_parallel {R : Solutions → Solutions → Prop} {demand : Demand}
    (hc : c.SameData c') (h : Eval.Parallel R { c with depth := c.depth + 1 }
      { c' with depth := c'.depth + 1 } (plan demand) (plan' demand)) (name : String) :
    Eval.Parallel R c c' (plan.observed name demand) (plan'.observed name demand) :=
  (Eval.Parallel.checkTime hc).bind_same fun _ => .read_bind <|
    (Eval.Parallel.record _ _).bind_same fun _ => h.within.bind fun _ _ hm =>
      (Eval.Parallel.record _ _).bind_same fun _ => .pure hm

theorem Parallel.observed (h : plan.Parallel ρ plan') (name : String) :
    (plan.observed name).Parallel ρ (plan'.observed name) := fun _ _ hc demand =>
  observed_parallel hc.toSameData (h _ _ hc.deeper demand) name

section Growing

variable {σ : Type} {M : σ → σ → Prop} {combine combine' : σ → Solutions → Eval (Solutions × σ)}
  (hcombine : ∀ m m' s s', M m m' → s.Renamed ρ s' →
    Eval.Parallel (fun x x' => x.1.Renamed ρ x'.1 ∧ M x.2 x'.2) c c' (combine m s) (combine' m' s'))

include hcombine

theorem grow_parallel (h : plan.Parallel ρ plan') (hc : c.RenamedBy ρ c') (wanted asked : Nat)
    {m m' : σ} (hm : M m m') : Eval.Parallel (Solutions.Renamed ρ) c c'
      (grow plan wanted combine asked m) (grow plan' wanted combine' asked m') := by
  induction asked, m using grow.induct generalizing m' with
  | case1 asked m ih =>
    unfold grow
    refine (h c c' hc _).bind fun s s' hs => (hcombine m m' s s' hm hs).bind ?_
    rintro ⟨output, m⟩ ⟨output', m'⟩ ⟨houtput, hm⟩
    dsimp only
    rw [hs.isSingleton_eq, hs.size_eq, houtput.size_eq]
    -- both runs have as many solutions, so both stop or both ask again
    split
    · exact .pure houtput
    · split
      · rename_i hasked
        exact ih m hasked hm
      · exact .pure houtput

theorem fromPrefix_parallel (h : plan.Parallel ρ plan') (hc : c.RenamedBy ρ c') {m m' : σ}
    (hm : M m m') (demand : Demand) : Eval.Parallel (Solutions.Renamed ρ) c c'
      (plan.fromPrefix m combine demand) (plan'.fromPrefix m' combine' demand) := by
  cases demand with
  | none =>
    exact (h c c' hc none).bind fun s s' hs => (hcombine m m' s s' hm hs).bind fun _ _ hx =>
      .pure hx.1
  | some wanted => exact grow_parallel hcombine h hc wanted _ hm

end Growing

theorem Parallel.mapPrefix (h : plan.Parallel ρ plan')
    {combine combine' : Solutions → Eval Solutions}
    (hcombine : ∀ c c', c.ServedBy ρ c' → ∀ s s', s.Renamed ρ s' →
      Eval.Parallel (Solutions.Renamed ρ) c c' (combine s) (combine' s')) :
    (plan.mapPrefix combine).Parallel ρ (plan'.mapPrefix combine') := by
  intro c c' hc
  refine fromPrefix_parallel (M := fun _ _ => True) (fun _ _ s s' _ hs => ?_) h hc trivial
  exact (hcombine c c' hc.toServedBy s s' hs).bind fun _ _ ho => .pure ⟨ho, trivial⟩

theorem Parallel.mapSeed (h : plan.Parallel ρ plan') (f f' : Binding → Binding)
    (hf : ∀ b, f' (b.rename ρ) = (f b).rename ρ) :
    (plan.mapSeed f).Parallel ρ (plan'.mapSeed f') := fun _ _ hc demand =>
  (h _ _ (hc.mapSeed hf) demand).within

theorem joinSeed_parallel (hc : c.RenamedBy ρ c') {s s' : Solutions} (hs : s.Renamed ρ s') :
    Eval.Parallel (Solutions.Renamed ρ) c c' (joinSeed s) (joinSeed s') := by
  intro p p' hp
  rw [runFrom_joinSeed, runFrom_joinSeed, hc.start_eq]
  exact .ok (hs.join (.ofBinding c.start)) hp

/-! ### Matches of patterns -/

theorem any_isCompatible_rename (b : Binding) (rows : List Binding) :
    (rows.map (Binding.rename ρ)).any (·.isCompatible (b.rename ρ)) =
      rows.any (·.isCompatible b) := by
  rw [List.any_map]
  simp only [Function.comp_def, Binding.isCompatible_rename]

theorem hasMatchFrom_parallel (h : plan.Parallel ρ plan') (hc : c.RenamedBy ρ c') (b : Binding)
    (asked : Nat) : Eval.Parallel Eq c c' (hasMatchFrom plan b asked)
      (hasMatchFrom plan' (b.rename ρ) asked) := by
  induction asked using hasMatchFrom.induct with
  | case1 asked ih =>
    unfold hasMatchFrom
    refine (h c c' hc _).bind fun s s' hs => ?_
    rw [hs.isSingleton_eq, hs.rows_eq, any_isCompatible_rename, hs.size_eq]
    split
    · exact .pure rfl
    · split
      · rename_i hasked
        exact ih s hasked
      · exact .pure rfl

theorem Parallel.hasMatch (h : plan.Parallel ρ plan') :
    ParallelOn ρ (Plan.hasMatch plan) (Plan.hasMatch plan') := fun _ _ hc b =>
  (hasMatchFrom_parallel h (hc.withSeed (some b)) b 1).within

/-! ### Binary operators -/

/-- The right solutions are computed or remembered in both runs. -/
theorem Parallel.withRight (hl : left.Parallel ρ left') (hr : right.Parallel ρ right')
    {combine combine' : Solutions → Solutions → Eval Solutions}
    (hcombine : ∀ c c', c.ServedBy ρ c' → ∀ l l' r r', l.Renamed ρ l' → r.Renamed ρ r' →
      Eval.Parallel (Solutions.Renamed ρ) c c' (combine l r) (combine' l' r')) :
    (withRight left right combine).Parallel ρ (withRight left' right' combine') := by
  intro c c' hc
  refine fromPrefix_parallel (M := Option.Rel (Solutions.Renamed ρ)) ?_ hl hc .none
  intro memory memory' l l' hmemory hl
  rw [hl.isEmpty_eq]
  split
  · exact .pure ⟨.null, hmemory⟩
  · refine Eval.Parallel.bind (R := Solutions.Renamed ρ) ?_ fun r r' hr =>
      (hcombine c c' hc.toServedBy l l' r r' hl hr).bind fun _ _ ho => .pure ⟨ho, .some hr⟩
    cases hmemory with
    | none => exact hr c c' hc none
    | some hs => exact .pure hs

theorem Parallel.join (hl : left.Parallel ρ left') (hr : right.Parallel ρ right') :
    (left.join right).Parallel ρ (left'.join right') :=
  hl.withRight hr fun _ _ _ _ _ _ _ hl hr => .pure (hl.join hr)

theorem Parallel.leftJoin (hl : left.Parallel ρ left') (hr : right.Parallel ρ right')
    {condition condition' : Binding → Eval Bool} (h : ParallelOn ρ condition condition') :
    (left.leftJoin right condition).Parallel ρ (left'.leftJoin right' condition') :=
  hl.withRight hr fun _ _ hc _ _ _ _ hl hr => hl.leftJoinM h hr hc

theorem Parallel.minus (hl : left.Parallel ρ left') (hr : right.Parallel ρ right') :
    (left.minus right).Parallel ρ (left'.minus right') := by
  have hfree : Plan.Parallel ρ (fun demand => Eval.withSeed none (right demand))
      (fun demand => Eval.withSeed none (right' demand)) := fun _ _ hc demand =>
    (hr _ _ (hc.withSeed none) demand).within
  exact hl.withRight hfree fun _ _ _ _ _ _ _ hl hr => .pure (hl.minus hr)

theorem Parallel.union (hl : left.Parallel ρ left') (hr : right.Parallel ρ right')
    (vs : List Var) : (left.union right vs).Parallel ρ (left'.union right' (vs.map ρ)) := by
  refine fun c c' hc demand => (hl c c' hc demand).bind fun l l' hl => ?_
  dsimp only
  rw [hl.size_eq, hl.isSingleton_eq]
  split
  · exact .pure (hl.extendVariables (.map vs))
  · exact (hr c c' hc _).bind fun _ _ hr => .pure (hl.union hr)

theorem Parallel.existsJoin (hl : left.Parallel ρ left') (hr : right.Parallel ρ right')
    (negated : Bool) : (left.existsJoin right negated).Parallel ρ
      (left'.existsJoin right' negated) :=
  hl.mapPrefix fun _ _ hc _ _ hs => hs.retainM
    (fun c c' hc b => (hr.hasMatch c c' hc b).bind_same fun _ => .pure rfl) hc

/-! ### Unary operators -/

theorem Parallel.filter (h : plan.Parallel ρ plan') {condition condition' : Binding → Eval Bool}
    (hcondition : ParallelOn ρ condition condition') :
    (plan.filter condition).Parallel ρ (plan'.filter condition') :=
  h.mapPrefix fun _ _ hc _ _ hs => hs.retainM hcondition hc

/-- The error of a variable that is bound already names it. -/
theorem assignRows_parallel (hc : c.ServedBy ρ c') {v : Var} (hv : ρ v = v)
    {f f' : Assignment} (hf : ParallelOn ρ f f') (bs : List Binding) :
    Eval.Parallel (Renames ρ) c c' (assignRows v f bs)
      (assignRows (ρ v) f' (bs.map (Binding.rename ρ))) := by
  induction bs with
  | nil => exact .pure rfl
  | cons b rest ih =>
    rw [List.map_cons]
    unfold assignRows
    rw [Binding.contains_rename]
    split
    · rw [hv]
      exact .fail _
    · refine (hf c c' hc b).bind_same fun value => ih.bind fun rows rows' hrows => .pure ?_
      unfold Renames at *
      subst hrows
      cases value with
      | none => rfl
      | some t => exact congrArg (· :: _) (Binding.rename_insert ρ b v t).symm

theorem Parallel.extend (h : plan.Parallel ρ plan') {v : Var} (hv : ρ v = v)
    {f f' : Assignment} (hf : ParallelOn ρ f f') :
    (plan.extend v f).Parallel ρ (plan'.extend (ρ v) f') := by
  intro c c' hc demand
  have hinner := h.mapSeed (·.erase v) (·.erase (ρ v)) fun b => (Binding.rename_erase b v).symm
  refine (hinner c c' hc demand).bind fun s s' hs => ?_
  rw [hs.isSingleton_eq, hs.rows_eq]
  split
  · exact .pure (hs.extendVariables (.map [v]))
  · exact (assignRows_parallel hc.toServedBy hv hf s.rows).bind fun _ _ hrows =>
      .pure (.ofRows (hs.sameVars.merge (.map [v])) hrows)

theorem Parallel.distinct (h : plan.Parallel ρ plan') :
    plan.distinct.Parallel ρ plan'.distinct :=
  h.mapPrefix fun _ _ _ _ _ hs => .pure hs.distinct

theorem Parallel.project (h : plan.Parallel ρ plan') (vs : List Var) :
    (plan.project vs).Parallel ρ (plan'.project (vs.map ρ)) := by
  intro c c' hc demand
  have hinner := h.mapSeed (·.project vs) (·.project (vs.map ρ)) fun b =>
    (Binding.rename_project ρ b vs).symm
  exact (hinner c c' hc demand).bind fun _ _ hs => joinSeed_parallel hc (hs.project vs)

theorem Parallel.slice (h : plan.Parallel ρ plan') (offset : Nat) (limit : Option Nat) :
    (plan.slice offset limit).Parallel ρ (plan'.slice offset limit) := fun c c' hc _ =>
  (h c c' hc _).bind fun _ _ hs => .pure (hs.slice offset limit)

theorem Parallel.limit (h : plan.Parallel ρ plan') (count : Nat) :
    (plan.limit count).Parallel ρ (plan'.limit count) := fun c c' hc _ =>
  (h c c' hc _).bind fun _ _ hs => .pure (hs.truncate count)

theorem Parallel.ask (h : plan.Parallel ρ plan') : plan.ask.Parallel ρ plan'.ask := by
  refine fun c c' hc _ => .read_bind ?_
  rw [hc.environment_eq]
  split
  · exact .pure .identity
  · refine (h c c' hc _).bind fun s s' hs => .pure ?_
    rw [hs.isEmpty_eq]
    split
    · exact .null
    · exact .identity

/-! ### Graphs -/

theorem Parallel.enter (h : plan.Parallel ρ plan') (hc : c.RenamedBy ρ c') (g : ActiveGraph)
    (demand : Demand) : Eval.Parallel (Solutions.Renamed ρ) c c'
      (Eval.withGraph g (plan demand)) (Eval.withGraph g (plan' demand)) :=
  (h _ _ (hc.enter g) demand).within

theorem bindName_rename (v : Var) (name : Term) (b : Binding) :
    bindName (ρ v) name (b.rename ρ) = (bindName v name b).map (Binding.rename ρ) := by
  unfold bindName
  rw [Binding.get?_rename_apply]
  cases b.get? v with
  | none => exact congrArg some (Binding.rename_insert ρ b v name).symm
  | some t =>
    dsimp only
    split
    · rfl
    · rfl

theorem renames_bindName (v : Var) (name : Term) {rows rows' : List Binding}
    (h : Renames ρ rows rows') :
    Renames ρ (rows.filterMap (bindName v name)) (rows'.filterMap (bindName (ρ v) name)) := by
  unfold Renames at *
  rw [h, List.filterMap_map, List.map_filterMap]
  exact List.filterMap_congr fun b _ => bindName_rename v name b

theorem graphsOf_parallel (hc : c.RenamedBy ρ c') (v : Var) :
    Eval.Parallel Eq c c' (graphsOf v) (graphsOf (ρ v)) := by
  refine .read_bind ?_
  rw [hc.seed_get? v, hc.view_eq]
  split
  · exact .ofReading _
  · split
    · exact .pure rfl
    · exact (Eval.Parallel.ofReading _).bind_same fun _ => .pure rfl

theorem overGraphs_parallel (h : plan.Parallel ρ plan') (hc : c.RenamedBy ρ c') (v : Var)
    (demand : Demand) (graphs : List Resource) {rows rows' : List Binding}
    (hrows : Renames ρ rows rows') : Eval.Parallel (Renames ρ) c c'
      (overGraphs plan v demand graphs rows) (overGraphs plan' (ρ v) demand graphs rows') := by
  induction graphs generalizing rows rows' with
  | nil => exact .pure hrows
  | cons g rest ih =>
    have hlength {rows rows' : List Binding} (h : Renames ρ rows rows') :
        rows'.length = rows.length := by rw [h, List.length_map]
    unfold overGraphs
    rw [hlength hrows]
    refine (h.enter hc _ _).bind fun s s' hs => ?_
    have hmore := hrows.append (renames_bindName v g.toTerm hs.rows_eq)
    cases demand with
    | none => exact ih hmore
    | some n =>
      dsimp only
      rw [hlength hmore]
      split
      · exact .pure hmore
      · exact ih hmore

end Plan

/-- The reference with another name for its variable. -/
def NameRef.rename (ρ : Equiv.Perm Var) : NameRef → NameRef
  | .iri i => .iri i
  | .var v => .var (ρ v)

namespace Plan

variable {plan plan' : Plan}

theorem Parallel.graph (h : plan.Parallel ρ plan') (name : NameRef) (vs : List Var) :
    (plan.graph name vs).Parallel ρ (plan'.graph (name.rename ρ) (vs.map ρ)) := by
  refine fun c c' hc demand => .read_bind ?_
  rw [hc.environment_eq, hc.view_eq]
  cases name with
  | iri i =>
    dsimp only [NameRef.rename]
    have hfound (found : Bool) : Eval.Parallel (Solutions.Renamed ρ) c c'
        (if found then Eval.withGraph (.named (.iri i)) (plan demand) else Pure.pure .null)
        (if found then Eval.withGraph (.named (.iri i)) (plan' demand) else Pure.pure .null) := by
      cases found with
      | false => exact .pure .null
      | true => exact h.enter hc _ demand
    split
    · exact hfound true
    · exact (Eval.Parallel.ofReading _).bind_same hfound
  | var v =>
    dsimp only [NameRef.rename]
    have hvars : SameVars ρ (mergeVariables vs [v]) (mergeVariables (vs.map ρ) [ρ v]) :=
      SameVars.merge (.map vs) (.map [v])
    split
    · exact .pure (.singleton hvars)
    · exact (graphsOf_parallel hc v).bind_same fun gs =>
        (overGraphs_parallel h hc v demand gs rfl).bind fun _ _ hrows =>
          .pure (.ofRows hvars hrows)

/-! ### Leaves -/

theorem leaf_parallel {vs vs' : List Var} (hvs : SameVars ρ vs vs') {x x' : Eval Solutions}
    (h : ∀ c c', c.RenamedBy ρ c' → Eval.Parallel (Solutions.Renamed ρ) c c' x x') :
    (leaf vs x).Parallel ρ (leaf vs' x') := by
  refine fun c c' hc _ => .read_bind ?_
  rw [hc.environment_eq]
  split
  · exact .pure (.singleton hvs)
  · exact h c c' hc

theorem valuesRow_rename (vs : List Var) (row : List (Option Term)) :
    valuesRow (vs.map ρ) row = (valuesRow vs row).rename ρ := by
  unfold valuesRow
  rw [Binding.rename_ofEntries, List.zip_map_left, List.filterMap_map, List.map_filterMap]
  refine congrArg _ (List.filterMap_congr fun x _ => ?_)
  rcases x with ⟨v, _ | t⟩ <;> rfl

theorem values_parallel (vs : List Var) (rows : List (List (Option Term))) :
    (values vs rows).Parallel ρ (values (vs.map ρ) rows) := by
  refine leaf_parallel (.map vs) fun c c' hc => joinSeed_parallel hc (.ofRows (.map vs) ?_)
  unfold Renames
  rw [List.map_map]
  exact List.map_congr_left fun row _ => valuesRow_rename vs row

theorem pathSearch_parallel (hρ : Var.KeepsMade ρ) (s : Position) (search : PathSearch)
    (o : Position) :
    (pathSearch s search o).Parallel ρ (pathSearch (s.rename ρ) search (o.rename ρ)) := by
  have hvars (s o : Position) :
      SameVars ρ (Position.vars [s, o]) (Position.vars [s.rename ρ, o.rename ρ]) :=
    Position.vars_rename ρ [s, o] ▸ .map _
  refine leaf_parallel (hvars s o) fun c c' hc => .read_bind ?_
  have hstart : c'.seed.getD .empty = (c.seed.getD .empty).rename ρ := hc.start_eq
  rw [hstart]
  dsimp only
  rw [Position.substitute_rename, Position.substitute_rename]
  exact (search.relation_parallel hρ c c' hc.toSameData _ _).bind fun _ _ hrows =>
    joinSeed_parallel hc (.ofRows (hvars _ _) hrows)

theorem serviceName_parallel (hc : c.RenamedBy ρ c') (name : NameRef) :
    Eval.Parallel Eq c c' (serviceName name) (serviceName (name.rename ρ)) := by
  cases name with
  | iri i => exact .pure rfl
  | var v =>
    refine .read_bind ?_
    rw [hc.seed_get? v]
    split
    · exact .pure rfl
    · exact .fail _

theorem service_parallel (name : NameRef) (vs : List Var) (silent : Bool)
    (pattern : Query.Pattern) : (service name vs silent pattern).Parallel ρ
      (service (name.rename ρ) (vs.map ρ) silent (pattern.relabel (Query.labelUnder ρ))) := by
  refine leaf_parallel (.map vs) fun c c' hc =>
    (serviceName_parallel hc name).bind_same fun i => .read_bind ?_
  have hsilent (e : QueryError) : Eval.Parallel (Solutions.Renamed ρ) c c'
      (if silent then Pure.pure .null else Eval.fail e)
      (if silent then Pure.pure .null else Eval.fail e) := by
    split
    · exact .pure .null
    · exact .fail e
  dsimp only
  rw [hc.environment_eq]
  cases hservices : c.environment.services with
  | none => exact hsilent _
  | some handler =>
    refine (Eval.Parallel.record _ _).bind_same fun _ => ?_
    rw [hc.labels handler hservices i pattern]
    cases hanswer : handler ⟨i, pattern⟩ c.environment.base with
    | error text => exact hsilent _
    | ok s => exact joinSeed_parallel hc (hc.answers handler hservices _ s hanswer)

end Plan

end SparqlAlgebra
