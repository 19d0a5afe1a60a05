import SparqlAlgebra.Proofs.PairedSolutions

/-!
# Plans under two seeds

A plan is evaluated twice over the same data, from two seeds that give the same values to
some variables. Both evaluations fail with the same error, or both succeed with paired
solutions.

* `Eval.RelatedIn`: two evaluations have the same error or related results. It extends
  `Eval.AgreeIn`, where the results are equal;
* `Plan.Pairs`: a plan has paired solutions, and `Plan.Mirrors` adds what these are like.
  Every operator keeps it if its conditions and assignments look at the given variables
  only. Where an input does not start from the seeds, it does the same in both
  evaluations, so that it only has to be steady;
* a match of a pattern is found in both evaluations or in none (`Plan.Mirrors.hasMatch`).
-/

namespace SparqlAlgebra

open List (Forall₂)
open Eval

/-! ## Contexts -/

/-- The same data and the same environment. -/
structure Context.Beside (e : Environment) (c c' : Context) : Prop where
  first : c.environment = e
  second : c'.environment = e
  view_eq : c'.view = c.view

/-- The same data and the same environment, and a seed on each side. -/
structure Context.Apart (e : Environment) (s s' : Binding) (c c' : Context) : Prop
    extends Context.Beside e c c' where
  seed_eq : c.seed = some s
  seed_eq' : c'.seed = some s'

namespace Context

variable {e : Environment} {s s' : Binding} {c c' : Context}

theorem Beside.alongside (h : Beside e c c') : c.Alongside c' := by
  refine ⟨h.view_eq, ?_⟩
  rw [h.first, h.second]
  exact .refl e

theorem Apart.start_eq (h : Apart e s s' c c') : c.start = s := by
  rw [start, h.seed_eq, Option.getD_some]

theorem Apart.start_eq' (h : Apart e s s' c c') : c'.start = s' := by
  rw [start, h.seed_eq', Option.getD_some]

end Context

/-! ## Related evaluations -/

namespace Eval

variable {α β γ δ : Type} {C C' : Context → Context → Prop} {R : α → β → Prop}
  {S : γ → δ → Prop}

/-- What each of the evaluations ensures holds of the results. -/
theorem RelatedIn.ensuring {x : Eval α} {y : Eval β} {P : α → Prop} {Q : β → Prop}
    (h : RelatedIn C R x y) (hx : ∀ c c', C c c' → x.Ensures c P)
    (hy : ∀ c c', C c c' → y.Ensures c' Q) :
    RelatedIn C (fun a b => R a b ∧ P a ∧ Q b) x y := by
  intro c c' hc hs p q
  have hruns := h c c' hc hs p q
  rcases hp : x.runFrom c p with ⟨r, p'⟩
  rcases hq : y.runFrom c' q with ⟨r', q'⟩
  rw [hp, hq] at hruns
  cases hruns with
  | ok hab hlogs => exact .ok ⟨hab, hx c c' hs p _ p' hp, hy c c' hs q _ q' hq⟩ hlogs
  | error e hlogs => exact .error e hlogs
  | stopped he => exact he.elim

section Seeds

variable {e : Environment} {s s' : Binding}

/-- What does not look at the seeds. -/
theorem RelatedIn.apart {x : Eval α} {y : Eval β} (h : RelatedIn (Context.Beside e) R x y) :
    RelatedIn (Context.Apart e s s') R x y := fun c c' hc hs => h c c' hc hs.toBeside

theorem AgreeIn.apart {x y : Eval α} (h : x.AgreeIn (Context.Beside e) y) :
    x.AgreeIn (Context.Apart e s s') y := h.mono fun _ _ hs => hs.toBeside

/-- Both evaluations are given their seed. -/
theorem AgreeIn.withSeeds {x y : Eval α} (h : x.AgreeIn (Context.Apart e s s') y) :
    (x.withSeed (some s)).AgreeIn (Context.Beside e) (y.withSeed (some s')) := by
  intro c c' hc hs p q
  rw [withSeed, withSeed, runFrom_within, runFrom_within]
  exact h { c with seed := some s } { c' with seed := some s' } ⟨hc.inTime, hc.builtin⟩
    ⟨⟨hs.first, hs.second, hs.view_eq⟩, rfl, rfl⟩ p q

end Seeds

end Eval

/-! ## Loops over rows -/

namespace Solutions

variable {C : Context → Context → Prop} {vs us ws : List Var} {s s' : Binding} {u w : SeedUse}
  {m m' a a' b b' : Solutions}

theorem keepM_related {α β : Type} {R : α → β → Prop} {test : α → Eval Bool}
    {test' : β → Eval Bool} (htest : ∀ x y, R x y → (test x).AgreeIn C (test' y)) {xs : List α}
    {ys : List β} (h : Forall₂ R xs ys) :
    RelatedIn C (Forall₂ R) (keepM test xs) (keepM test' ys) := by
  induction h with
  | nil => exact .pure .nil
  | cons hxy _ ih =>
    refine (htest _ _ hxy).bind_related fun holds => ih.bind fun kept kept' hkept => .pure ?_
    cases holds
    · exact hkept
    · exact .cons hxy hkept

theorem candidates_joinIndex (a b : Solutions) (l : Binding) :
    ((joinIndex a b).candidates l).filterMap l.merge? = b.rows.filterMap l.merge? :=
  JoinIndex.candidates_build _ b.rows l

/-- How the rows of a left join are written down. -/
def leftJoined (a b : Solutions) (rows : List Binding) : Solutions :=
  if a = null then null else if b = null then a else ofRows (mergeVariables a.vars b.vars) rows

theorem leftRowsM_of_none (condition : Binding → Eval Bool) {candidates : Binding → List Binding}
    (h : ∀ l, (candidates l).filterMap l.merge? = []) (ls : List Binding) :
    leftRowsM condition candidates ls = (Pure.pure ls : Eval (List Binding)) := by
  induction ls with
  | nil => rfl
  | cons l rest ih =>
    unfold leftRowsM
    rw [mergesM_eq, h, ih]
    rfl

/-- An empty side makes no difference to which conditions are tested: there are none. -/
theorem leftJoinM_eq_leftJoined {condition : Binding → Eval Bool} (ha : a.isSingleton = false)
    (hb : b.isSingleton = false) :
    a.leftJoinM b condition = leftRowsM condition (joinIndex a b).candidates a.rows >>=
      fun rows => Pure.pure (leftJoined a b rows) := by
  by_cases hnull : a = null
  · subst hnull
    rfl
  by_cases hnull' : b = null
  · subst hnull'
    rw [leftRowsM_of_none condition (candidates_joinIndex a null), leftJoinM_null, pure_bind,
      leftJoined, if_neg hnull, if_pos rfl]
  · rw [leftJoinM_eq_ofRows condition ha hb hnull hnull']
    simp only [leftJoined, if_neg hnull, if_neg hnull']

/-- Which rows a left join has. -/
theorem leftRowsM_joined {condition : Binding → Eval Bool} {c : Context} (a b : Solutions) :
    (leftRowsM condition (joinIndex a b).candidates a.rows).Ensures c fun rows =>
      (∀ row ∈ rows, IsLeftJoined a.rows b.rows row) ∧ (b = null → rows = a.rows) := by
  by_cases hnull : b = null
  · subst hnull
    rw [leftRowsM_of_none condition (candidates_joinIndex a null)]
    exact .pure ⟨fun row hrow => ⟨row, hrow, .inl rfl⟩, fun _ => rfl⟩
  · exact (leftRowsM_ensures (candidates_joinIndex a b) a.rows).mono fun rows hrows =>
      ⟨hrows, fun h => absurd h hnull⟩

theorem Fits.rows_leftJoined {rows : List Binding} (ha : a.Fits s us) (hb : b.Fits s ws)
    (h : (∀ row ∈ rows, IsLeftJoined a.rows b.rows row) ∧ (b = null → rows = a.rows)) :
    (leftJoined a b rows).rows = rows := by
  unfold leftJoined
  split
  · rename_i hnull
    subst hnull
    have hnone (row : Binding) (hrow : row ∈ rows) : False := by
      obtain ⟨l, hl, -⟩ := h.1 row hrow
      exact List.not_mem_nil hl
    exact (List.eq_nil_iff_forall_not_mem.mpr hnone).symm
  · split
    · rename_i hnull
      exact (h.2 hnull).symm
    · exact rows_ofRows_of_empty fun hvars row hrow =>
        ha.eq_empty_of_leftJoined hb (h.1 row hrow) hvars

section Conditions

variable {condition : Binding → Eval Bool}
  (hcondition : ∀ {r r'}, r.AgreeOn vs r' → (condition r).AgreeIn C (condition r'))

include hcondition

theorem Mirrored.retainM (h : Mirrored vs us s s' u m m') :
    RelatedIn C (Paired vs s s' u) (m.retainM condition) (m'.retainM condition) := by
  rw [retainM_eq_ofRows condition h.fits.real, retainM_eq_ofRows condition h.fits'.real]
  have hkept := keepM_related (fun _ _ hr => hcondition hr.agreeOn) h.rows
  refine (hkept.ensuring (fun _ _ _ => keepM_ensures _) fun _ _ _ => keepM_ensures _).bind ?_
  rintro kept kept' ⟨hkept, hsub, hsub'⟩
  exact .pure (h.ofRows hkept hsub.subset hsub'.subset h.fits.isClosed h.fits'.isClosed)

/-- The merges of a left row, or the row itself, are paired with those of its partner. -/
theorem leftRowsM_related {candidates candidates' : Binding → List Binding}
    {ls ls' rs rs' : List Binding}
    (hcandidates : ∀ l, (candidates l).filterMap l.merge? = rs.filterMap l.merge?)
    (hcandidates' : ∀ l, (candidates' l).filterMap l.merge? = rs'.filterMap l.merge?)
    (hl : Forall₂ (Binding.Paired vs s s' u) ls ls')
    (hr : Forall₂ (Binding.Paired vs s s' w) rs rs') :
    RelatedIn C (Forall₂ (Binding.Paired vs s s' (u.either (u.merge w))))
      (leftRowsM condition candidates ls) (leftRowsM condition candidates' ls') := by
  induction hl with
  | nil => exact .pure .nil
  | cons hxy _ ih =>
    rename_i l l' rest rest' _
    have hmerges : RelatedIn C (Forall₂ (Binding.Paired vs s s' (u.merge w)))
        (mergesM condition l (candidates l)) (mergesM condition l' (candidates' l')) := by
      rw [mergesM_eq, mergesM_eq, hcandidates, hcandidates']
      exact keepM_related (fun _ _ hr => hcondition hr.agreeOn)
        (List.rel_filterMap (fun _ _ hb => hxy.merge? hb) hr)
    refine hmerges.bind fun merges merges' hmerges => ih.bind fun rows rows' hrows => .pure ?_
    refine List.rel_append ?_ hrows
    cases hmerges with
    | nil => exact .cons (hxy.either_left _) .nil
    | cons hm hms => exact .cons (hm.either_right u) (hms.imp fun _ _ h => h.either_right u)

theorem Mirrored.leftJoinM (ha : Mirrored vs us s s' u a a') (hb : Mirrored vs ws s s' w b b') :
    RelatedIn C (Paired vs s s' (u.either (u.merge w))) (a.leftJoinM b condition)
      (a'.leftJoinM b' condition) := by
  rw [leftJoinM_eq_leftJoined ha.fits.real hb.fits.real,
    leftJoinM_eq_leftJoined ha.fits'.real hb.fits'.real]
  have hrows := leftRowsM_related hcondition (candidates_joinIndex a b)
    (candidates_joinIndex a' b') ha.rows hb.rows
  refine (hrows.ensuring (fun _ _ _ => leftRowsM_joined a b)
    fun _ _ _ => leftRowsM_joined a' b').bind ?_
  rintro rows rows' ⟨hpairs, hjoined, hjoined'⟩
  refine .pure ⟨?_, fun hseed => ?_⟩
  · rw [ha.fits.rows_leftJoined hb.fits hjoined, ha.fits'.rows_leftJoined hb.fits' hjoined']
    exact hpairs
  · have hl := ha.aligned hseed
    have hr := hb.aligned hseed
    unfold leftJoined
    by_cases hnull : a = null
    · rw [if_pos hnull, if_pos (hl.null_iff.mp hnull)]
      exact .refl null
    rw [if_neg hnull, if_neg fun h => hnull (hl.null_iff.mpr h)]
    by_cases knull : b = null
    · rw [if_pos knull, if_pos (hr.null_iff.mp knull)]
      exact hl
    rw [if_neg knull, if_neg fun h => knull (hr.null_iff.mpr h)]
    exact aligned_ofRows (hl.toDeclaredAlike.merge hr.toDeclaredAlike) hpairs.length_eq

end Conditions

end Solutions

/-! ## Plans -/

namespace Position

variable {p : Position} {b b' : Binding}

theorem resolve_congr (h : ∀ v, p = .var v → b.get? v = b'.get? v) :
    p.resolve b = p.resolve b' := by
  cases p with
  | term t => rfl
  | var v => exact h v rfl

theorem substitute_congr (h : ∀ v, p = .var v → b.get? v = b'.get? v) :
    p.substitute b = p.substitute b' := by
  rw [substitute, substitute, resolve_congr h]

end Position

namespace Plan

variable {e : Environment} {vs us ws : List Var} {u w : SeedUse} {plan left right : Plan}

/-- From two seeds that agree on the variables, the plan has paired solutions. -/
def Pairs (e : Environment) (vs : List Var) (u : SeedUse) (plan : Plan) : Prop :=
  ∀ s s' : Binding, s.AgreeOn vs s' → ∀ demand,
    RelatedIn (Context.Apart e s s') (Solutions.Paired vs s s' u) (plan demand) (plan demand)

/-- The solutions are paired, and they fit the seeds. -/
structure Mirrors (e : Environment) (vs us : List Var) (u : SeedUse) (plan : Plan) : Prop where
  pairs : plan.Pairs e vs u
  fits : plan.Fits e us

theorem Mirrors.related (h : plan.Mirrors e vs us u) {s s' : Binding} (hs : s.AgreeOn vs s')
    (demand : Demand) : RelatedIn (Context.Apart e s s') (Solutions.Mirrored vs us s s' u)
      (plan demand) (plan demand) := by
  have hfirst (c c' : Context) (hc : Context.Apart e s s' c c') :
      (plan demand).Ensures c (·.Fits s us) := hc.start_eq ▸ h.fits c hc.first demand
  have hsecond (c c' : Context) (hc : Context.Apart e s s' c c') :
      (plan demand).Ensures c' (·.Fits s' us) := hc.start_eq' ▸ h.fits c' hc.second demand
  exact ((h.pairs s s' hs demand).ensuring hfirst hsecond).mono
    fun m m' ⟨hpaired, hfits, hfits'⟩ => ⟨hpaired, hfits, hfits'⟩

/-! ### Scopes -/

theorem Pairs.input (h : plan.Pairs e vs u) (i : Nat) : (plan.input i).Pairs e vs u :=
  fun s s' hs demand => (h s s' hs demand).within_scope (fun _ hc => ⟨hc.inTime, hc.builtin⟩)
    fun _ _ hc => ⟨⟨hc.first, hc.second, hc.view_eq⟩, hc.seed_eq, hc.seed_eq'⟩

theorem Pairs.inExpression (h : plan.Pairs e vs u) : plan.inExpression.Pairs e vs u :=
  fun s s' hs demand => (h s s' hs demand).within_scope (fun _ hc => ⟨hc.inTime, hc.builtin⟩)
    fun _ _ hc => ⟨⟨hc.first, hc.second, hc.view_eq⟩, hc.seed_eq, hc.seed_eq'⟩

theorem Pairs.observed (h : plan.Pairs e vs u) (name : String) :
    (plan.observed name).Pairs e vs u := by
  intro s s' hs demand
  have halongside (c c' : Context) (hc : Context.Apart e s s' c c') := hc.toBeside.alongside
  refine (AgreeIn.checkTime halongside).bind_related fun _ => RelatedIn.read_bind fun c c' _ _ =>
    (AgreeIn.record _ _).bind_related fun _ => ?_
  have hinner : RelatedIn (Context.Apart e s s') (Solutions.Paired vs s s' u)
      ((plan demand).within fun c => { c with depth := c.depth + 1 })
      ((plan demand).within fun c => { c with depth := c.depth + 1 }) :=
    (h s s' hs demand).within_scope (fun _ hc => ⟨hc.inTime, hc.builtin⟩)
      fun _ _ hc => ⟨⟨hc.first, hc.second, hc.view_eq⟩, hc.seed_eq, hc.seed_eq'⟩
  exact hinner.bind fun m m' hm => (AgreeIn.record _ _).bind_related fun _ => .pure hm

theorem Mirrors.input (h : plan.Mirrors e vs us u) (i : Nat) :
    (plan.input i).Mirrors e vs us u := ⟨h.pairs.input i, h.fits.input i⟩

/-! ### Growing demand -/

section Growing

variable {C : Context → Context → Prop} {P Q : Solutions → Solutions → Prop} {source : Plan}
  (hsource : ∀ demand, RelatedIn C P (source demand) (source demand))
  (hform : ∀ {m m'}, P m m' → m.size = m'.size ∧ m.isSingleton = m'.isSingleton)
  (hsize : ∀ {m m'}, Q m m' → m.size = m'.size)

include hsource hform hsize

section Memory

variable {σ : Type} {K : σ → σ → Prop} {combine : σ → Solutions → Eval (Solutions × σ)}
  (hcombine : ∀ {memory memory' m m'}, K memory memory' → P m m' →
    RelatedIn C (fun r r' => Q r.1 r'.1 ∧ K r.2 r'.2) (combine memory m) (combine memory' m'))

include hcombine

/-- Both evaluations ask for more as often, as they know as much. -/
theorem grow_related (wanted asked : Nat) (memory memory' : σ) (hknown : K memory memory') :
    RelatedIn C Q (grow source wanted combine asked memory)
      (grow source wanted combine asked memory') := by
  induction asked, memory using grow.induct generalizing memory' with
  | case1 asked memory ih =>
    unfold grow
    refine (hsource _).bind fun m m' hm => (hcombine hknown hm).bind ?_
    rintro ⟨output, memory⟩ ⟨output', memory'⟩ ⟨houtput, hmemory⟩
    dsimp only at houtput hmemory ⊢
    rw [(hform hm).1, (hform hm).2, hsize houtput]
    split
    · exact .pure houtput
    · split
      · rename_i hasked
        exact ih memory hasked memory' hmemory
      · exact .pure houtput

theorem fromPrefix_related (memory : σ) (hknown : K memory memory) (demand : Demand) :
    RelatedIn C Q (source.fromPrefix memory combine demand)
      (source.fromPrefix memory combine demand) := by
  cases demand with
  | none =>
    exact (hsource none).bind fun m m' hm => (hcombine hknown hm).bind fun r r' hr => .pure hr.1
  | some wanted => exact grow_related hsource hform hsize hcombine wanted _ memory memory hknown

end Memory

theorem mapPrefix_related {combine : Solutions → Eval Solutions}
    (hcombine : ∀ m m', P m m' → RelatedIn C Q (combine m) (combine m')) (demand : Demand) :
    RelatedIn C Q (source.mapPrefix combine demand) (source.mapPrefix combine demand) :=
  fromPrefix_related (K := fun _ _ => True) hsource hform hsize
    (fun _ hm => (hcombine _ _ hm).bind fun _ _ ho => .pure ⟨ho, trivial⟩) () trivial demand

theorem withRight_related {right : Plan} {R : Solutions → Solutions → Prop}
    {combine : Solutions → Solutions → Eval Solutions}
    (hright : RelatedIn C R (right none) (right none)) (hnull : Q .null .null)
    (hempty : ∀ {m m'}, P m m' → m.isEmpty = m'.isEmpty)
    (hcombine : ∀ m m' r r', P m m' → R r r' → RelatedIn C Q (combine m r) (combine m' r'))
    (demand : Demand) :
    RelatedIn C Q (source.withRight right combine demand)
      (source.withRight right combine demand) := by
  have hremembered {memory memory' : Option Solutions} (h : Option.Rel R memory memory') :
      RelatedIn C R (remembered right memory) (remembered right memory') := by
    cases h with
    | none => exact hright
    | some hr => exact .pure hr
  refine fromPrefix_related (K := Option.Rel R) hsource hform hsize ?_ none .none demand
  intro memory memory' m m' hmemory hm
  rw [hempty hm]
  split
  · exact .pure ⟨hnull, hmemory⟩
  · exact (hremembered hmemory).bind fun r r' hr => (hcombine m m' r r' hm hr).bind fun o o' ho =>
      .pure ⟨ho, .some hr⟩

end Growing

/-! ### Binary operators -/

section Operators

variable {s s' : Binding} {C : Context → Context → Prop}

theorem mirrored_form {m m' : Solutions} (h : Solutions.Mirrored vs us s s' u m m') :
    m.size = m'.size ∧ m.isSingleton = m'.isSingleton :=
  ⟨h.size_eq, by rw [h.fits.real, h.fits'.real]⟩

theorem Mirrors.join (hl : left.Mirrors e vs us u) (hr : right.Mirrors e vs ws w) :
    (left.join right).Pairs e vs (u.merge w) := fun _ _ hs =>
  withRight_related (hl.related hs) mirrored_form (·.size_eq) (hr.related hs none)
    Solutions.paired_null (·.isEmpty_eq) fun _ _ _ _ hm hr => .pure (hm.join hr hs)

theorem Mirrors.leftJoin (hl : left.Mirrors e vs us u) (hr : right.Mirrors e vs ws w)
    {condition : Binding → Eval Bool} (hcondition : ∀ {r r' : Binding}, r.AgreeOn vs r' →
      (condition r).AgreeIn (Context.Beside e) (condition r')) :
    (left.leftJoin right condition).Pairs e vs (u.either (u.merge w)) := fun _ _ hs =>
  withRight_related (hl.related hs) mirrored_form (·.size_eq) (hr.related hs none)
    Solutions.paired_null (·.isEmpty_eq)
    fun _ _ _ _ hm hr => hm.leftJoinM (fun hrow => (hcondition hrow).apart) hr

/-- Without a seed a steady plan does the same in both evaluations. -/
theorem Steady.unseeded (h : plan.Steady) (hfits : plan.Fits e us) (demand : Demand) :
    RelatedIn (Context.Beside e) (fun m m' => m = m' ∧ m.Fits .empty us)
      (Eval.withSeed none (plan demand)) (Eval.withSeed none (plan demand)) := by
  have hagree := ((h demand).withSeed_alongside none).mono fun _ _ (hs : Context.Beside e _ _) =>
    hs.alongside
  have hensures (c : Context) (hc : c.environment = e) :
      (Eval.withSeed none (plan demand)).Ensures c (·.Fits .empty us) :=
    Ensures.within (hfits { c with seed := none } hc demand)
  exact (RelatedIn.ensuring hagree (fun c _ hs => hensures c hs.first)
    fun _ c' hs => hensures c' hs.second).mono fun _ _ ⟨heq, hfits, _⟩ => ⟨heq, hfits⟩

theorem Mirrors.minus (hl : left.Mirrors e vs us u) (hsteady : right.Steady)
    (hfits : right.Fits e ws) (hws : ws ⊆ vs) : (left.minus right).Pairs e vs u := by
  intro s s' hs
  have hright : RelatedIn (Context.Apart e s s') (fun m m' => m = m' ∧ m.Fits .empty ws)
      (Eval.withSeed none (right none)) (Eval.withSeed none (right none)) :=
    (hsteady.unseeded hfits none).apart
  refine withRight_related (hl.related hs) mirrored_form (·.size_eq) hright
    Solutions.paired_null (·.isEmpty_eq) ?_
  rintro m m' r _ hm ⟨rfl, hr⟩
  exact .pure (hm.minus hr hws hs)

/-- The right side is asked for what is missing, which is as much in both evaluations. -/
theorem Mirrors.union (hl : left.Mirrors e vs us u) (hr : right.Mirrors e vs ws w) :
    (left.union right ws).Pairs e vs (u.either w) := by
  intro s s' hs demand
  refine (hl.related hs demand).bind fun m m' hm => ?_
  dsimp only
  rw [(mirrored_form hm).1, (mirrored_form hm).2]
  split
  · exact .pure ((hm.extendVariables ws).mono fun _ _ h => h.either_left w)
  · exact (hr.related hs _).bind fun r r' hr => .pure (hm.union hr)

theorem Mirrors.filter (h : plan.Mirrors e vs us u) {condition : Binding → Eval Bool}
    (hcondition : ∀ {r r' : Binding}, r.AgreeOn vs r' →
      (condition r).AgreeIn (Context.Beside e) (condition r')) :
    (plan.filter condition).Pairs e vs u := fun _ _ hs =>
  mapPrefix_related (h.related hs) mirrored_form (·.size_eq)
    fun _ _ hm => hm.retainM fun hrow => (hcondition hrow).apart

/-! ### Matches -/

theorem any_isCompatible_eq {rows rows' : List Binding} {b b' : Binding} (hb : b.AgreeOn vs b')
    (h : Forall₂ (Binding.Paired vs b b' u) rows rows') :
    rows.any (·.isCompatible b) = rows'.any (·.isCompatible b') := by
  induction h with
  | nil => rfl
  | cons hr _ ih => rw [List.any_cons, List.any_cons, ih, hr.isCompatible_eq (.seeds hb)]

/-- From two rows a pattern has compatible solutions in both evaluations or in none. -/
theorem Mirrors.hasMatchFrom (h : plan.Mirrors e vs us u) {b b' : Binding} (hb : b.AgreeOn vs b')
    (asked : Nat) : (Plan.hasMatchFrom plan b asked).AgreeIn (Context.Apart e b b')
      (Plan.hasMatchFrom plan b' asked) := by
  induction asked using hasMatchFrom.induct with
  | case1 asked ih =>
    unfold Plan.hasMatchFrom
    refine (h.related hb _).bind fun m m' hm => ?_
    rw [(mirrored_form hm).1, (mirrored_form hm).2, any_isCompatible_eq hb hm.rows]
    split
    · exact .pure rfl
    · split
      · rename_i hasked
        exact ih m' hasked
      · exact .pure rfl

theorem Mirrors.hasMatch (h : plan.Mirrors e vs us u) {b b' : Binding} (hb : b.AgreeOn vs b') :
    (Plan.hasMatch plan b).AgreeIn (Context.Beside e) (Plan.hasMatch plan b') :=
  (h.hasMatchFrom hb 1).withSeeds

theorem Mirrors.existsJoin (hl : left.Mirrors e vs us u) (hr : right.Mirrors e vs ws w)
    (negated : Bool) : (left.existsJoin right negated).Pairs e vs u :=
  hl.filter fun hrow => (hr.hasMatch hrow).bind fun _ => .pure _

/-! ### Unary operators -/

theorem assignRows_related {v : Var} (hv : v ∈ vs) {f : Assignment}
    (hf : f.RespectsIn C (Binding.AgreeOn vs)) {bs bs' : List Binding}
    (h : Forall₂ (Binding.Paired vs (s.erase v) (s'.erase v) u) bs bs') :
    RelatedIn C (Forall₂ (Binding.Paired vs s s' u)) (assignRows v f bs) (assignRows v f bs') := by
  induction h with
  | nil => exact .pure .nil
  | cons hb _ ih =>
    unfold assignRows
    rw [Binding.contains, Binding.contains, hb.agreeOn v hv]
    split
    · exact .fail _
    · refine (hf hb.agreeOn).bind_related fun value => ih.bind fun rows rows' hrows => .pure ?_
      cases value with
      | none => exact .cons (hb.of_erase hv) hrows
      | some t => exact .cons ((hb.of_erase hv).insert hv t) hrows

/-- The variable that is assigned is declared in both evaluations. All others that the
seeds bind are in the seeds of the input. -/
theorem declaredAlike_extend {v : Var} {us us' : List Var}
    (h : (∃ w ∈ vs, w ∈ (s.erase v).vars) → Solutions.DeclaredAlike vs (s.erase v) us us') :
    Solutions.DeclaredAlike vs s (mergeVariables us [v]) (mergeVariables us' [v]) := by
  have hmem (us : List Var) : v ∈ mergeVariables us [v] :=
    mem_mergeVariables.mpr (.inr List.mem_cons_self)
  refine ⟨iff_of_false (List.ne_nil_of_mem (hmem us)) (List.ne_nil_of_mem (hmem us')), ?_⟩
  have herased (w : Var) (hw : w ∈ s.vars) (hne : w ≠ v) : w ∈ (s.erase v).vars := by
    rw [Binding.mem_vars, Binding.contains, Binding.get?_erase, if_neg hne]
    exact Binding.mem_vars.mp hw
  by_cases hseed : ∃ w ∈ vs, w ∈ (s.erase v).vars
  · rcases (h hseed).declared with hall | hsame
    · left
      intro w hw hws
      by_cases heq : w = v
      · subst heq
        exact ⟨hmem us, hmem us'⟩
      · obtain ⟨hfirst, hsecond⟩ := hall w hw (herased w hws heq)
        exact ⟨Solutions.subset_mergeVariables_left hfirst,
          Solutions.subset_mergeVariables_left hsecond⟩
    · right
      intro w hw
      rw [mem_mergeVariables, mem_mergeVariables, hsame w hw]
  · left
    intro w hw hws
    have heq : w = v := by
      by_contra hne
      exact hseed ⟨w, hw, herased w hws hne⟩
    subst heq
    exact ⟨hmem us, hmem us'⟩

theorem Mirrors.extend (h : plan.Mirrors e vs us u) {v : Var} (hv : v ∈ vs) {f : Assignment}
    (hf : f.RespectsIn (Context.Beside e) (Binding.AgreeOn vs)) :
    (plan.extend v f).Pairs e vs u := by
  intro s s' hs demand
  have hinner : RelatedIn (Context.Apart e s s')
      (Solutions.Mirrored vs us (s.erase v) (s'.erase v) u) (mapSeed (·.erase v) plan demand)
      (mapSeed (·.erase v) plan demand) := by
    refine (h.related (hs.erase v) demand).within_scope (fun _ hc => ⟨hc.inTime, hc.builtin⟩) ?_
    intro c c' hc
    refine ⟨⟨hc.first, hc.second, hc.view_eq⟩, ?_, ?_⟩
    · exact congrArg (Option.map (·.erase v)) hc.seed_eq
    · exact congrArg (Option.map (·.erase v)) hc.seed_eq'
  refine hinner.bind fun m m' hm => ?_
  rw [hm.fits.real, hm.fits'.real, if_neg Bool.false_ne_true, if_neg Bool.false_ne_true]
  have hne (us : List Var) : mergeVariables us [v] ≠ [] := fun hnil =>
    absurd (Solutions.mergeVariables_eq_nil hnil).2 (List.cons_ne_nil v [])
  refine (assignRows_related hv hf hm.rows).apart.bind fun rows rows' hrows => .pure ?_
  exact Solutions.paired_ofRows hrows (absurd · (hne _)) (absurd · (hne _)) fun _ =>
    declaredAlike_extend fun hseed => (hm.aligned hseed).toDeclaredAlike

theorem Mirrors.distinct (h : plan.Mirrors e vs us u) (hu : u ≠ .mixed) :
    plan.distinct.Pairs e vs u := fun _ _ hs =>
  mapPrefix_related (h.related hs) mirrored_form (·.size_eq)
    fun _ _ hm => .pure (hm.distinct hu)

theorem Mirrors.slice (h : plan.Mirrors e vs us u) (offset : Nat) (limit : Option Nat) :
    (plan.slice offset limit).Pairs e vs u := fun _ _ hs _ =>
  (h.related hs _).bind fun _ _ hm => .pure (hm.slice offset limit)

theorem Mirrors.limit (h : plan.Mirrors e vs us u) (count : Nat) :
    (plan.limit count).Pairs e vs u := fun _ _ hs _ =>
  (h.related hs _).bind fun _ _ hm => .pure (hm.truncate count)

theorem joinSeed_related {m : Solutions} (hm : m.Fits .empty us) (hus : us ⊆ vs)
    (hs : s.AgreeOn vs s') : RelatedIn (Context.Apart e s s') (Solutions.Paired vs s s' .carried)
      (joinSeed m) (joinSeed m) := by
  intro c c' _ hc p q
  rw [runFrom_joinSeed, runFrom_joinSeed, hc.start_eq, hc.start_eq']
  exact .ok (hm.joinSeeds hus hs) (.refl p q)

/-- Both evaluations project the seeds to the same seed of the input. -/
theorem Steady.project_pairs (h : plan.Steady) (hfits : plan.Fits e us) (hws : ws ⊆ vs) :
    (plan.project ws).Pairs e vs .carried := by
  intro s s' hs demand
  have hagree : (Plan.mapSeed (·.project ws) plan demand).AgreeIn (Context.Apart e s s')
      (Plan.mapSeed (·.project ws) plan demand) := by
    refine (h demand).within_scope (fun _ hc => ⟨hc.inTime, hc.builtin⟩) fun c c' hc => ?_
    refine ⟨⟨hc.view_eq, hc.toBeside.alongside.environment⟩, ?_⟩
    show c'.seed.map (·.project ws) = c.seed.map (·.project ws)
    rw [hc.seed_eq, hc.seed_eq', Option.map_some, Option.map_some, hs.project_eq hws]
  have hreal (c : Context) (hc : c.environment = e) :
      (Plan.mapSeed (·.project ws) plan demand).Ensures c (·.isSingleton = false) :=
    Ensures.within ((hfits { c with seed := c.seed.map (·.project ws) } hc demand).mono
      fun m hm => hm.real)
  refine (RelatedIn.ensuring hagree (fun c _ hc => hreal c hc.first)
    fun _ c' hc => hreal c' hc.second).bind ?_
  rintro m _ ⟨rfl, hm, -⟩
  exact joinSeed_related (Solutions.project_fits hm ws) hws hs

/-- The groups are the same in both evaluations. -/
theorem Steady.group_pairs (h : plan.Steady) (hfits : plan.Fits e us) (keys : List Var)
    {columns : List (Var × Column)} (hcolumns : ∀ c ∈ columns, c.2.Steady)
    (hvs : keys ++ columns.map (·.1) ⊆ vs) : (plan.group keys columns).Pairs e vs .dropped := by
  intro s s' hs demand
  refine ((h.unseeded hfits none).apart).bind ?_
  rintro m _ ⟨rfl, hm⟩
  rw [hm.real, if_neg Bool.false_ne_true]
  have hagree := (Column.rows_agree hcolumns keys (groupsOf keys m.rows)).mono
    fun _ _ (hc : Context.Apart e s s' _ _) => hc.toBeside.alongside
  refine (RelatedIn.ensuring hagree (fun _ _ _ => Column.rows_ensures keys columns _)
    fun _ _ _ => Column.rows_ensures keys columns _).bind ?_
  rintro rows _ ⟨rfl, hrows, -⟩
  refine .pure (Solutions.paired_self fun row hrow => ?_)
  rw [Solutions.rows_ofRows hrows] at hrow
  exact List.Subset.trans (hrows row hrow) hvs

/-- Whether there is a solution is the same in both evaluations. -/
theorem Mirrors.ask (he : e.isDryRun = false) (h : plan.Mirrors e vs us u) :
    plan.ask.Pairs e vs .dropped := by
  intro s s' hs demand
  refine RelatedIn.read_bind fun c c' _ hc => ?_
  rw [hc.first, hc.second, he, if_neg Bool.false_ne_true]
  refine (h.related hs _).bind fun m m' hm => .pure ?_
  rw [hm.isEmpty_eq]
  apply Solutions.paired_self
  split
  · exact fun row hrow => absurd hrow List.not_mem_nil
  · exact Solutions.identity_bindsOnly

/-! ### Graphs -/

theorem Pairs.enter (h : plan.Pairs e vs u) (g : ActiveGraph) (hs : s.AgreeOn vs s')
    (demand : Demand) : RelatedIn (Context.Apart e s s') (Solutions.Paired vs s s' u)
      (Eval.withGraph g (plan demand)) (Eval.withGraph g (plan demand)) :=
  (h s s' hs demand).within_scope (fun _ hc => ⟨hc.inTime, hc.builtin⟩) fun _ _ hc =>
    ⟨⟨hc.first, hc.second, congrArg (·.enter g) hc.view_eq⟩, hc.seed_eq, hc.seed_eq'⟩

theorem Pairs.graph (he : e.isDryRun = false) (h : plan.Pairs e vs u) (i : Iri) (ws : List Var) :
    (plan.graph (.iri i) ws).Pairs e vs u := by
  intro s s' hs demand
  refine RelatedIn.read_bind fun c c' _ hc => ?_
  dsimp only
  rw [hc.first, hc.second, hc.view_eq, he, if_neg Bool.false_ne_true]
  refine (AgreeIn.ofReading _).bind_related fun found => ?_
  cases found with
  | false => exact .pure Solutions.paired_null
  | true => exact h.enter _ hs demand

theorem bindName_paired {v : Var} (hv : v ∈ vs) (name : Term) {b b' : Binding}
    (hb : Binding.Paired vs s s' u b b') :
    Option.Rel (Binding.Paired vs s s' u) (bindName v name b) (bindName v name b') := by
  unfold bindName
  rw [← hb.agreeOn v hv]
  cases b.get? v with
  | none => exact .some (hb.insert hv name)
  | some t =>
    dsimp only
    split
    · exact .some hb
    · exact .none

/-- The graphs that a variable ranges over are the same, as both seeds name the same. -/
theorem graphsOf_agree {v : Var} (hv : v ∈ vs) (hs : s.AgreeOn vs s') :
    (graphsOf v).AgreeIn (Context.Apart e s s') (graphsOf v) := by
  refine RelatedIn.read_bind fun c c' _ hc => ?_
  rw [hc.seed_eq, hc.seed_eq', hc.view_eq, Option.bind_some, Option.bind_some, hs v hv]
  split
  · exact AgreeIn.ofReading _
  · split
    · exact .pure rfl
    · exact (AgreeIn.ofReading _).bind fun _ => .pure _

theorem overGraphs_related (h : plan.Pairs e vs u) {v : Var} (hv : v ∈ vs)
    (hs : s.AgreeOn vs s') (demand : Demand) (graphs : List Resource) {rows rows' : List Binding}
    (hrows : Forall₂ (Binding.Paired vs s s' u) rows rows') :
    RelatedIn (Context.Apart e s s') (Forall₂ (Binding.Paired vs s s' u))
      (overGraphs plan v demand graphs rows) (overGraphs plan v demand graphs rows') := by
  induction graphs generalizing rows rows' with
  | nil => exact .pure hrows
  | cons g rest ih =>
    unfold overGraphs
    rw [hrows.length_eq]
    refine (h.enter _ hs _).bind fun m m' hm => ?_
    have hmore := List.rel_append hrows
      (List.rel_filterMap (fun _ _ hb => bindName_paired hv g.toTerm hb) hm.rows)
    dsimp only
    cases demand with
    | none => exact ih hmore
    | some n =>
      dsimp only
      rw [hmore.length_eq]
      split
      · exact .pure hmore
      · exact ih hmore

/-- The declared variables are those of the tree in both evaluations. -/
theorem Pairs.graphs (he : e.isDryRun = false) (h : plan.Pairs e vs u) {v : Var} (hv : v ∈ vs)
    (ws : List Var) : (plan.graph (.var v) ws).Pairs e vs u := by
  intro s s' hs demand
  refine RelatedIn.read_bind fun c c' _ hc => ?_
  dsimp only
  rw [hc.first, hc.second, he, if_neg Bool.false_ne_true]
  refine (graphsOf_agree hv hs).bind_related fun gs => ?_
  refine (overGraphs_related h hv hs demand gs .nil).bind fun rows rows' hrows => .pure ?_
  have hne : mergeVariables ws [v] ≠ [] := fun hnil =>
    absurd (Solutions.mergeVariables_eq_nil hnil).2 (List.cons_ne_nil v [])
  exact Solutions.paired_ofRows hrows (absurd · hne) (absurd · hne) fun _ => .refl _

/-! ### Leaves -/

section Leaves

variable (he : e.isDryRun = false)

include he

theorem leaf_pairs {x : Eval Solutions} (h : ∀ s s' : Binding, s.AgreeOn vs s' →
      RelatedIn (Context.Apart e s s') (Solutions.Paired vs s s' u) x x) :
    (leaf us x).Pairs e vs u := by
  intro s s' hs demand
  refine RelatedIn.read_bind fun c c' _ hc => ?_
  rw [hc.first, hc.second, he, if_neg Bool.false_ne_true]
  exact h s s' hs

theorem values_pairs (hus : us ⊆ vs) (rows : List (List (Option Term))) :
    (values us rows).Pairs e vs .carried := by
  have hrows : ∀ row ∈ rows.map (valuesRow us), row.vars ⊆ us := by
    intro row hrow
    obtain ⟨values, -, rfl⟩ := List.mem_map.mp hrow
    exact vars_valuesRow us values
  have hfits : (Solutions.ofRows us (rows.map (valuesRow us))).Fits .empty us :=
    Solutions.ofRows_fits_empty (List.Subset.refl _) hrows
  exact leaf_pairs he fun s s' hs => joinSeed_related hfits hus hs

theorem pathSearch_pairs {a b : Position} (search : PathSearch) (ha : a.IsGiven) (hb : b.IsGiven)
    (hvs : Position.vars [a, b] ⊆ vs) : (pathSearch a search b).Pairs e vs .carried := by
  refine leaf_pairs he fun s s' hs => RelatedIn.read_bind fun c c' _ hc => ?_
  have hsame {p : Position} (hp : p ∈ [a, b]) : p.substitute s' = p.substitute s :=
    (Position.substitute_congr fun v hv => hs v (hvs (Position.mem_vars.mpr (hv ▸ hp)))).symm
  rw [hc.seed_eq, hc.seed_eq', Option.getD_some, Option.getD_some]
  dsimp only
  rw [hsame (by simp : a ∈ [a, b]), hsame (by simp : b ∈ [a, b])]
  have hagree := (search.relation_equivariant.alongside (ha.substitute s) (hb.substitute s)).mono
    fun _ _ (hc : Context.Apart e s s' _ _) => hc.toBeside.alongside
  have hends (c : Context) := search.relation_bindsEnds c (a.substitute s) (b.substitute s)
  refine (RelatedIn.ensuring hagree (fun c _ _ => hends c) fun _ c' _ => hends c').bind ?_
  rintro rows _ ⟨rfl, hrows, -⟩
  have hsub : Position.vars [a.substitute s, b.substitute s] ⊆ Position.vars [a, b] :=
    @Position.vars_substitute [a, b] s
  exact joinSeed_related (Solutions.ofRows_fits_empty hsub hrows) hvs hs

theorem service_pairs {name : NameRef} {silent : Bool} {pattern : Query.Pattern}
    (hname : ∀ v, name = .var v → v ∈ vs)
    (hanswer : ∀ handler, e.services = some handler → ∀ i m, name.MayCall i →
      handler ⟨i, pattern⟩ e.base = .ok m → m.Fits .empty us) (hus : us ⊆ vs) :
    (service name us silent pattern).Pairs e vs .carried := by
  refine leaf_pairs he fun s s' hs => ?_
  have hcalled : (serviceName name).AgreeIn (Context.Apart e s s') (serviceName name) := by
    cases name with
    | iri i => exact .pure _
    | var v =>
      refine RelatedIn.read_bind fun c c' _ hc => ?_
      rw [hc.seed_eq, hc.seed_eq', Option.bind_some, Option.bind_some, hs v (hname v rfl)]
      split
      · exact .pure rfl
      · exact .fail _
  have hmay (c : Context) : (serviceName name).Ensures c name.MayCall := by
    cases name with
    | iri i => exact .pure rfl
    | var v => exact (ensures_any _).mono fun _ _ => trivial
  have hsilent (err : QueryError) : RelatedIn (Context.Apart e s s')
      (Solutions.Paired vs s s' .carried) (if silent then Pure.pure .null else Eval.fail err)
      (if silent then Pure.pure .null else Eval.fail err) := by
    split
    · exact .pure Solutions.paired_null
    · exact .fail err
  refine (RelatedIn.ensuring hcalled (fun c _ _ => hmay c) fun _ c' _ => hmay c').bind ?_
  rintro i _ ⟨rfl, hi, -⟩
  refine RelatedIn.read_bind fun c c' _ hc => ?_
  dsimp only
  rw [hc.first, hc.second]
  cases hservices : e.services with
  | none => exact hsilent _
  | some handler =>
    refine (AgreeIn.record _ _).bind_related fun _ => ?_
    cases hm : handler ⟨i, pattern⟩ e.base with
    | error text => exact hsilent _
    | ok m => exact joinSeed_related (hanswer handler hservices i m hi hm) hus hs

end Leaves

end Operators

end Plan

end SparqlAlgebra
