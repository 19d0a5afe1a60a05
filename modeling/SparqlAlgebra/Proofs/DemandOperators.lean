import SparqlAlgebra.Proofs.Demand

/-!
# Operators that meet demands

Each operator follows the same operator on other inputs if its inputs meet the
demands for the solutions of these.

* `Plan.Meets.mapPrefix` and `Plan.Meets.withRight`: operators that combine the
  beginning of their input, alone or with all solutions of a second one;
* `Plan.Meets.union`, `Plan.Meets.slice` and others: operators that hand on a
  demand of their own.
-/

namespace SparqlAlgebra

open Eval

/-! ## Outcomes of loops over rows -/

namespace Eval

variable {c : Context} {condition : Binding → Eval Bool}

theorem outcome_keepM {α : Type} {test : α → Eval Bool}
    (h : ∀ x, (test x).Steady) (hc : c.Repeatable) (xs : List α) :
    (Solutions.keepM test xs).outcome c =
      Solutions.keepM (fun x => (test x).outcome c) xs := by
  induction xs with
  | nil => rfl
  | cons x xs ih =>
    have hrest : (Solutions.keepM test xs).Steady :=
      Solutions.keepM_steady fun x _ => h x
    unfold Solutions.keepM
    rw [outcome_bind (fun _ => hrest.bind fun _ => .pure _) hc]
    refine congrArg _ (funext fun holds => ?_)
    rw [outcome_bind (fun _ => .pure _) hc, ih]
    rfl

theorem outcome_retainM (h : ∀ b, (condition b).Steady) (hc : c.Repeatable)
    (s : Solutions) :
    (s.retainM condition).outcome c =
      s.retainM fun b => (condition b).outcome c := by
  cases s with
  | singleton vs => rfl
  | identity | null | table =>
    unfold Solutions.retainM
    rw [outcome_bind (fun _ => .pure _) hc, outcome_keepM h hc]
    rfl

theorem outcome_mergesM (h : ∀ b, (condition b).Steady) (hc : c.Repeatable)
    (left : Binding) (rs : List Binding) :
    (Solutions.mergesM condition left rs).outcome c =
      Solutions.mergesM (fun b => (condition b).outcome c) left rs := by
  induction rs with
  | nil => rfl
  | cons r rs ih =>
    have hrest := Solutions.mergesM_steady h left rs
    unfold Solutions.mergesM
    cases left.merge? r with
    | none => exact ih
    | some merged =>
      dsimp only
      rw [outcome_bind (fun _ => hrest.bind fun _ => .pure _) hc]
      refine congrArg _ (funext fun holds => ?_)
      rw [outcome_bind (fun _ => .pure _) hc, ih]
      rfl

theorem outcome_leftRowsM (h : ∀ b, (condition b).Steady) (hc : c.Repeatable)
    (candidates : Binding → List Binding) (ls : List Binding) :
    (Solutions.leftRowsM condition candidates ls).outcome c =
      Solutions.leftRowsM (fun b => (condition b).outcome c) candidates ls := by
  induction ls with
  | nil => rfl
  | cons l ls ih =>
    have hrest := Solutions.leftRowsM_steady h candidates ls
    unfold Solutions.leftRowsM
    rw [outcome_bind (fun _ => hrest.bind fun _ => .pure _) hc,
      outcome_mergesM h hc]
    refine congrArg _ (funext fun merges => ?_)
    rw [outcome_bind (fun _ => .pure _) hc, ih]
    rfl

theorem outcome_leftJoinM (h : ∀ b, (condition b).Steady) (hc : c.Repeatable)
    (a b : Solutions) :
    (a.leftJoinM b condition).outcome c =
      a.leftJoinM b fun b => (condition b).outcome c := by
  unfold Solutions.leftJoinM
  split
  · rfl
  · rfl
  · dsimp only
    split
    · rfl
    · rw [outcome_bind (fun _ => .pure _) hc, outcome_leftRowsM h hc]
      rfl

theorem outcome_assignRows {f : Assignment} (hf : f.Steady) (hc : c.Repeatable)
    {v : Var} (bs : List Binding) :
    (Plan.assignRows v f bs).outcome c =
      Solutions.assignedRows v (fun b => (f b).outcome c) bs := by
  induction bs with
  | nil => rfl
  | cons b rest ih =>
    have hrest := Plan.assignRows_steady hf v rest
    unfold Plan.assignRows Solutions.assignedRows Solutions.assignedValue
    split
    · rfl
    · rw [outcome_bind (fun _ => hrest.bind fun _ => .pure _) hc]
      refine congrArg _ (funext fun t => ?_)
      rw [outcome_bind (fun _ => .pure _) hc, ih]
      cases t <;> rfl

end Eval

theorem assignedRows_append {v : Var}
    {value : Binding → Except QueryError (Option Term)} (xs ys : List Binding) :
    Solutions.assignedRows v value (xs ++ ys) = do
      return (← Solutions.assignedRows v value xs) ++
        (← Solutions.assignedRows v value ys) := by
  induction xs with
  | nil =>
    rw [List.nil_append]
    cases Solutions.assignedRows v value ys <;> rfl
  | cons x xs ih =>
    rw [List.cons_append, Solutions.assignedRows, Solutions.assignedRows, ih]
    rcases Solutions.assignedValue v value x with err | t
    · rfl
    · rcases Solutions.assignedRows v value xs with err | rows
      · rfl
      · rcases Solutions.assignedRows v value ys with err | rows' <;> rfl

namespace Plan

variable {e : Environment} {vs ws zs : List Var}
  {plan plan' left left' right right' : Plan}

/-! ## Operators on the beginning of their input -/

/-- What is combined without a demand are all solutions of the input. -/
theorem yields_mapPrefix {c : Context} {o : Solutions} {combine : Solutions → Eval Solutions}
    (hsteady : ∀ s, (combine s).Steady) (hc : c.Repeatable)
    (ho : (plan.mapPrefix combine none).Yields c o) :
    ∃ m, (plan none).Yields c m ∧ (combine m).Yields c o := by
  have hpair (s : Solutions) : Eval.Steady (do return (← combine s, ())) :=
    (hsteady s).bind fun _ => .pure _
  obtain ⟨m, hm, ho⟩ := ho.of_bind (fun s => (hpair s).bind fun _ => .pure _) hc
  obtain ⟨⟨o', u⟩, ho', ho⟩ := ho.of_bind (fun _ => .pure _) hc
  cases ho.of_pure
  obtain ⟨out, hout, hpure⟩ := ho'.of_bind (fun _ => .pure _) hc
  cases hpure.of_pure
  exact ⟨m, hm, hout⟩

/-- Combining solutions by a progressive computation on their rows serves what it
makes of all solutions that the input serves. -/
theorem Serves.mapPrefix {c : Context} {m o : Solutions} (h : plan.Serves c vs m)
    (hc : c.Repeatable) (hplan : plan.Steady) (hm : m.IsSmall)
    {combine : Solutions → Eval Solutions} (hsteady : ∀ s, (combine s).Steady)
    {f : List Binding → Except QueryError (List Binding)} (hf : Progressive f)
    (hcarries : ∀ s, s.Binds vs →
      Solutions.Carries ws ((combine s).outcome c) (f s.rows))
    (ho : (combine m).outcome c = .ok o) : (plan.mapPrefix combine).Serves c ws o := by
  obtain ⟨hrows, hbinds⟩ := (hcarries m h.binds).of_ok ho
  refine fromPrefix_serves hc hplan (fun _ s => (hsteady s).bind fun _ => .pure _) h hm hbinds
    (fun _ => True) (fun _ s _ hs hbegin => ?_) () trivial
  obtain ⟨rows, hrows', hbegin'⟩ := hf m.rows _ hrows s.rows hbegin
  have hcarried := hcarries s hs
  rw [hrows'] at hcarried
  obtain ⟨found, hfound, rfl, hbinds'⟩ := hcarried
  refine ⟨found, (), (outcome_bind_ok (fun _ => .pure _) hc hfound), trivial,
    hbinds', hbegin', fun hall => ?_⟩
  rw [hall, hrows] at hrows'
  exact (Except.ok.inj hrows').symm

/-- Combining solutions is a progressive computation on their rows. -/
theorem Meets.mapPrefix (h : Meets e vs plan' plan)
    {combine : Solutions → Eval Solutions} (hsteady : ∀ s, (combine s).Steady)
    (hcombine : ∀ c, c.IsPlain e → ∃ f, Progressive f ∧ ∀ s, s.Binds vs →
      Solutions.Carries ws ((combine s).outcome c) (f s.rows)) :
    Follows e ws (plan'.mapPrefix combine) (plan.mapPrefix combine) := by
  have hpair (s : Solutions) : Eval.Steady (do return (← combine s, ())) :=
    (hsteady s).bind fun _ => .pure _
  refine ⟨h.steady.mapPrefix hsteady, h.steady'.mapPrefix hsteady,
    fun c hc o ho => ?_, fun c hc n o ho => ?_⟩
  · have hrep := hc.toRepeatable
    obtain ⟨m, hm, hout⟩ := yields_mapPrefix hsteady hrep ho
    obtain ⟨f, hf, hcarries⟩ := hcombine c hc
    exact (h.serves c hc m hm).mapPrefix hrep h.steady' (h.small c hc none m hm) hsteady hf
      hcarries (hout.outcome_eq (hsteady m) hrep)
  · obtain ⟨f, -, hcarries⟩ := hcombine c hc
    have hrep := hc.toRepeatable
    have halike : CombinesAlike c vs ws (fun (_ : Unit) _ => True)
        (fun _ found => do return (← combine found, ()))
        (fun _ found => do return (← combine found, ())) := by
      intro _ _ s s' _ hs hs' hrows r hr
      obtain ⟨out, hout, hpure⟩ := hr.of_bind (fun _ => .pure _) hrep
      cases hpure.of_pure
      obtain ⟨hf, hbinds⟩ := (hcarries s hs).of_ok
        (hout.outcome_eq (hsteady s) hrep)
      have hcarried := hcarries s' hs'
      rw [hrows, hf] at hcarried
      obtain ⟨out', hout', hrows', hbinds'⟩ := hcarried
      exact ⟨hbinds, (out', ()),
        outcome_bind_ok (fun _ => .pure _) hrep hout', trivial, hbinds', hrows'⟩
    obtain ⟨hbinds, hrepeats⟩ := grow_repeats hc h.toFollows (fun _ s => hpair s)
      (fun _ s => hpair s) halike n _ () () trivial ho
    exact ⟨hbinds, hrepeats⟩

/-! ## Operators with a second input -/

section WithRight

variable {combine : Solutions → Solutions → Eval Solutions} {c : Context}

/-- One step of an operator that combines left solutions with all right ones. -/
def combineRight (right : Plan)
    (combine : Solutions → Solutions → Eval Solutions)
    (memory : Option Solutions) (l : Solutions) :
    Eval (Solutions × Option Solutions) := do
  if l.isEmpty then return (.null, memory)
  let r ← remembered right memory
  return (← combine l r, some r)

theorem withRight_eq (left right : Plan) :
    left.withRight right combine =
      left.fromPrefix none (combineRight right combine) := rfl

theorem combineRight_steady (hr : right.Steady)
    (hsteady : ∀ l r, (combine l r).Steady) (memory : Option Solutions)
    (l : Solutions) : (combineRight right combine memory l).Steady := by
  unfold combineRight
  split
  · exact .pure _
  · refine AgreeIn.bind ?_ fun r => (hsteady l r).bind fun _ => .pure _
    cases memory with
    | none => exact hr none
    | some s => exact .pure s

/-- The right solutions of a step come from the memory or from the right side. -/
theorem yields_combineRight
    (hsteady : ∀ l r, (combine l r).Steady) (hc : c.Repeatable)
    {memory : Option Solutions} (hmemory : ∀ s ∈ memory, (right none).Yields c s)
    {l : Solutions} {r : Solutions × Option Solutions}
    (h : (combineRight right combine memory l).Yields c r) :
    (l.rows = [] ∧ r = (.null, memory)) ∨
      l.rows ≠ [] ∧ ∃ s, r.2 = some s ∧ (right none).Yields c s ∧
        (combine l s).Yields c r.1 := by
  unfold combineRight at h
  cases hempty : l.isEmpty with
  | true =>
    simp only [hempty, if_true] at h
    exact .inl ⟨List.isEmpty_iff.mp hempty, h.of_pure⟩
  | false =>
    simp only [hempty, Bool.false_eq_true, if_false] at h
    obtain ⟨s, hs, h⟩ := h.of_bind
      (fun s => (hsteady l s).bind fun _ => .pure _) hc
    obtain ⟨out, hout, hpure⟩ := h.of_bind (fun _ => .pure _) hc
    cases hpure.of_pure
    have hright : (right none).Yields c s := by
      cases memory with
      | none => exact hs
      | some t =>
        cases hs.of_pure
        exact hmemory s rfl
    refine .inr ⟨fun hnil => ?_, s, rfl, hright, hout⟩
    simp [Solutions.isEmpty, hnil] at hempty

theorem outcome_combineRight (hsteady : ∀ l r, (combine l r).Steady)
    (hc : c.Repeatable) {memory : Option Solutions} {l s out : Solutions}
    (hright : (right none).outcome c = .ok s)
    (hmemory : ∀ t ∈ memory, (right none).outcome c = .ok t)
    (hne : l.rows ≠ []) (hout : (combine l s).outcome c = .ok out) :
    (combineRight right combine memory l).outcome c = .ok (out, some s) := by
  have hempty : ¬ l.isEmpty = true := fun h => hne (List.isEmpty_iff.mp h)
  have hremembered : (remembered right memory).outcome c = .ok s := by
    cases memory with
    | none => exact hright
    | some t =>
      rw [← hright, hmemory t rfl]
      rfl
  unfold combineRight
  rw [if_neg hempty]
  exact (outcome_bind_ok (fun r => (hsteady l r).bind fun _ => .pure _) hc
    hremembered).trans (outcome_bind_ok (fun _ => .pure _) hc hout)

theorem outcome_combineRight_nil {memory : Option Solutions} {l : Solutions}
    (h : l.rows = []) :
    (combineRight right combine memory l).outcome c = .ok (.null, memory) := by
  have hempty : l.isEmpty = true := List.isEmpty_iff.mpr h
  unfold combineRight
  rw [if_pos hempty]
  rfl

/-- What is combined without a demand are all solutions of the left side. -/
theorem yields_withRight (hr : right.Steady) (hsteady : ∀ l r, (combine l r).Steady)
    (hc : c.Repeatable) {o : Solutions} (ho : (left.withRight right combine none).Yields c o) :
    ∃ m r, (left none).Yields c m ∧ (combineRight right combine none m).Yields c r ∧
      r.1 = o := by
  have hstep := combineRight_steady hr hsteady
  rw [withRight_eq] at ho
  obtain ⟨m, hm, ho⟩ := ho.of_bind (fun l => (hstep none l).bind fun _ => .pure _) hc
  obtain ⟨r, hr, ho⟩ := ho.of_bind (fun _ => .pure _) hc
  cases ho.of_pure
  exact ⟨m, r, hm, hr, rfl⟩

/-- An operator that combines left solutions with all right ones, by a progressive
computation on the left rows, serves what it makes of all left solutions. -/
theorem Serves.withRight {m : Solutions} (h : left'.Serves c vs m) (hc : c.Repeatable)
    (hl : left'.Steady) (hr : right'.Steady) (hm : m.IsSmall)
    (hsteady : ∀ l r, (combine l r).Steady)
    (hright : ∀ s, (right none).Yields c s → right'.Repeats c ws none s)
    {f : List Binding → List Binding → Except QueryError (List Binding)}
    (hf : ∀ rs, Progressive fun ls => f ls rs)
    (hcarries : ∀ l r, l.Binds vs → r.Binds ws →
      Solutions.Carries zs ((combine l r).outcome c) (f l.rows r.rows))
    {r : Solutions × Option Solutions}
    (hresult : (combineRight right combine none m).Yields c r) :
    (left'.withRight right' combine).Serves c zs r.1 := by
  have hresult := yields_combineRight hsteady hc
    (fun _ h => absurd h (Option.not_mem_none _)) hresult
  have hbinds : r.1.Binds zs := by
    rcases hresult with ⟨-, rfl⟩ | ⟨-, s, -, hs, hout⟩
    · exact Solutions.null_binds zs
    · exact ((hcarries m s h.binds (hright s hs).binds).of_ok
        (hout.outcome_eq (hsteady m s) hc)).2
  refine fromPrefix_serves hc hl (combineRight_steady hr hsteady) h hm
    hbinds (fun memory => ∀ t ∈ memory, (right' none).outcome c = .ok t)
    (fun memory l hmemory hl' hbegin => ?_) none
    (fun _ h => absurd h (Option.not_mem_none _))
  by_cases hnil : l.rows = []
  · -- without left solutions the right side is not asked
    refine ⟨.null, memory, outcome_combineRight_nil hnil, hmemory,
      Solutions.null_binds zs, List.nil_prefix, fun hall => ?_⟩
    rcases hresult with ⟨-, rfl⟩ | ⟨hne, -⟩
    · rfl
    · exact absurd (hall.symm.trans hnil) hne
  · rcases hresult with ⟨hnil', -⟩ | ⟨-, s, -, hs, hout⟩
    · rw [hnil'] at hbegin
      exact absurd (List.prefix_nil.mp hbegin) hnil
    · -- the other right side has the same rows, so the computation on them is the same
      obtain ⟨hsbinds, s', hs', hsbinds', hsrows⟩ := hright s hs
      have hrows := ((hcarries m s h.binds hsbinds).of_ok
        (hout.outcome_eq (hsteady m s) hc)).1
      obtain ⟨rows, hrows', hbegin'⟩ := hf s.rows m.rows _ hrows l.rows hbegin
      dsimp only at hrows'
      have hcarried := hcarries l s' hl' hsbinds'
      rw [hsrows, hrows'] at hcarried
      obtain ⟨out, hout', rfl, hbinds'⟩ := hcarried
      refine ⟨out, some s', outcome_combineRight hsteady hc hs' hmemory hnil hout',
        ?_, hbinds', hbegin', fun hall => ?_⟩
      · rintro t ht
        cases ht
        exact hs'
      · rw [hall, hrows] at hrows'
        exact (Except.ok.inj hrows').symm

/-- Combining left solutions with all right ones is a progressive computation on
the left rows. -/
theorem Meets.withRight (hl : Meets e vs left' left)
    (hr : Follows e ws right' right) (hsteady : ∀ l r, (combine l r).Steady)
    (hcombine : ∀ c, c.IsPlain e →
      ∃ f : List Binding → List Binding → Except QueryError (List Binding),
        (∀ rs, Progressive fun ls => f ls rs) ∧
        ∀ l r, l.Binds vs → r.Binds ws →
          Solutions.Carries zs ((combine l r).outcome c) (f l.rows r.rows)) :
    Follows e zs (left'.withRight right' combine)
      (left.withRight right combine) := by
  refine ⟨hl.steady.withRight hr.steady hsteady,
    hl.steady'.withRight hr.steady' hsteady, fun c hc o ho => ?_,
    fun c hc n o ho => ?_⟩
  · have hrep := hc.toRepeatable
    obtain ⟨m, r, hm, hresult, rfl⟩ := yields_withRight hr.steady hsteady hrep ho
    obtain ⟨f, hf, hcarries⟩ := hcombine c hc
    exact (hl.serves c hc m hm).withRight hrep hl.steady' hr.steady' (hl.small c hc none m hm)
      hsteady (fun s hs => hr.repeats hc hs) hf hcarries hresult
  · have hrep := hc.toRepeatable
    obtain ⟨f, -, hcarries⟩ := hcombine c hc
    have halike : CombinesAlike c vs zs
        (fun memory memory' => (∀ t ∈ memory, (right none).Yields c t) ∧
          ∀ t ∈ memory', (right' none).outcome c = .ok t)
        (combineRight right' combine) (combineRight right combine) := by
      rintro memory memory' l l' ⟨hmemory, hmemory'⟩ hl hl' hrows r hr'
      rcases yields_combineRight hsteady hrep hmemory hr' with
        ⟨hnil, rfl⟩ | ⟨hne, s, hr₂, hs, hout⟩
      · rw [← hrows] at hnil
        exact ⟨Solutions.null_binds zs, (.null, memory'),
          outcome_combineRight_nil hnil, ⟨hmemory, hmemory'⟩,
          Solutions.null_binds zs, rfl⟩
      · obtain ⟨hsbinds, s', hs', hsbinds', hsrows⟩ := hr.repeats hc hs
        obtain ⟨hf, hbinds⟩ := (hcarries l s hl hsbinds).of_ok
          (hout.outcome_eq (hsteady l s) hrep)
        have hcarried := hcarries l' s' hl' hsbinds'
        rw [hrows, hsrows, hf] at hcarried
        obtain ⟨out', hout', hrows', hbinds'⟩ := hcarried
        rw [← hrows] at hne
        refine ⟨hbinds, (out', some s'),
          outcome_combineRight hsteady hrep hs' hmemory' hne hout', ⟨?_, ?_⟩,
          hbinds', hrows'⟩
        · rintro t ht
          rw [hr₂] at ht
          cases ht
          exact hs
        · rintro t ht
          cases ht
          exact hs'
    rw [withRight_eq] at ho
    obtain ⟨hbinds, hrepeats⟩ := grow_repeats hc hl.toFollows
      (combineRight_steady hr.steady hsteady)
      (combineRight_steady hr.steady' hsteady) halike n _ none none
      ⟨fun _ h => absurd h (Option.not_mem_none _),
        fun _ h => absurd h (Option.not_mem_none _)⟩ ho
    exact ⟨hbinds, hrepeats⟩

end WithRight

/-! ## Joins, differences and selections -/

theorem pairRows_progressive (rs : List Binding) :
    Progressive fun ls => .ok (Solutions.pairRows ls rs) := by
  refine .of_monotone fun xs ys hys => ?_
  obtain ⟨rest, rfl⟩ := hys
  exact ⟨_, List.flatMap_append.symm⟩

theorem minusRows_progressive (rs : List Binding) :
    Progressive fun ls => .ok (Solutions.minusRows ls rs) :=
  .of_monotone fun _ _ hys => hys.filter _

theorem leftRows_progressive (condition : Binding → Except QueryError Bool)
    (rs : List Binding) : Progressive fun ls => Solutions.leftRows condition ls rs :=
  .of_append fun xs ys => leftRows_append condition rs xs ys

theorem dedup_progressive : Progressive fun rows => .ok (dedup rows) :=
  .of_monotone fun _ _ => dedup_monotone

theorem leftJoin_carries {c : Context} {condition : Binding → Eval Bool}
    (h : ∀ b, (condition b).Steady) (hc : c.Repeatable) {l r : Solutions} (hl : l.Binds vs)
    (hr : r.Binds ws) :
    Solutions.Carries (mergeVariables vs ws) ((l.leftJoinM r condition).outcome c)
      (Solutions.leftRows (fun b => (condition b).outcome c) l.rows r.rows) := by
  rw [outcome_leftJoinM h hc]
  exact Solutions.leftJoinM_carries _ hl hr

theorem filter_carries {c : Context} {condition : Binding → Eval Bool}
    (h : ∀ b, (condition b).Steady) (hc : c.Repeatable) {s : Solutions} (hs : s.Binds vs) :
    Solutions.Carries vs ((s.retainM condition).outcome c)
      (Solutions.keepM (fun b => (condition b).outcome c) s.rows) := by
  rw [outcome_retainM h hc]
  exact Solutions.retainM_carries _ hs

theorem Meets.join (hl : Meets e vs left' left) (hr : Follows e ws right' right) :
    Follows e (mergeVariables vs ws) (left'.join right') (left.join right) :=
  hl.withRight hr (fun _ _ => .pure _) fun _ _ =>
    ⟨_, pairRows_progressive, fun _ _ h h' => ⟨_, rfl, Solutions.rows_join h h'⟩⟩

theorem Meets.leftJoin (hl : Meets e vs left' left)
    (hr : Follows e ws right' right) {condition : Binding → Eval Bool}
    (h : ∀ b, (condition b).Steady) :
    Follows e (mergeVariables vs ws) (left'.leftJoin right' condition)
      (left.leftJoin right condition) :=
  hl.withRight hr (fun l r => Solutions.leftJoinM_steady h l r) fun _ hc =>
    ⟨_, leftRows_progressive _, fun _ _ hl' hr' => leftJoin_carries h hc.toRepeatable hl' hr'⟩

theorem Meets.minus (hl : Meets e vs left' left) (hr : Follows e ws right' right) :
    Follows e vs (left'.minus right') (left.minus right) := by
  have hr' := hr.within (fun c => { c with seed := none })
    (Context.isScope_seed fun _ => none) fun _ hc => hc.withSeed_none
  exact hl.withRight hr' (fun _ _ => .pure _) fun _ _ =>
    ⟨_, minusRows_progressive, fun _ _ h h' => ⟨_, rfl, Solutions.rows_minus h h'⟩⟩

theorem Meets.filter (h : Meets e vs plan' plan) {condition : Binding → Eval Bool}
    (hcondition : ∀ b, (condition b).Steady) :
    Follows e vs (plan'.filter condition) (plan.filter condition) :=
  h.mapPrefix (fun s => Solutions.retainM_steady hcondition s) fun _ hc =>
    ⟨_, keepM_progressive _, fun _ hs => filter_carries hcondition hc.toRepeatable hs⟩

/-- Both plans look for matches of the same pattern. -/
theorem Meets.existsJoin (hl : Meets e vs left' left) (hr : right.Steady)
    (negated : Bool) :
    Follows e vs (left'.existsJoin right negated) (left.existsJoin right negated) :=
  hl.filter fun b => (hasMatch_steady hr b).bind fun _ => .pure _

theorem Meets.distinct (h : Meets e vs plan' plan) :
    Follows e vs plan'.distinct plan.distinct :=
  h.mapPrefix (fun _ => .pure _) fun _ _ =>
    ⟨_, dedup_progressive, fun _ hs => ⟨_, rfl, Solutions.rows_distinct hs⟩⟩

/-! ## Operators that hand on a demand -/

theorem union_steady_rest (hr : right.Steady) (vs : List Var) (demand : Demand)
    (l : Solutions) : Eval.Steady (do
      let remaining := demand.map (· - l.size)
      if remaining = some 0 && !l.isSingleton then
        return l.extendVariables vs
      else return l.union (← right remaining)) := by
  dsimp only
  split
  · exact .pure _
  · exact (hr _).bind fun _ => .pure _

theorem yields_union {c : Context} {us : List Var} {o : Solutions} (hr : right.Steady)
    (hc : c.Repeatable) (ho : (left.union right us none).Yields c o) :
    ∃ l r, (left none).Yields c l ∧ (right none).Yields c r ∧ l.union r = o := by
  obtain ⟨l, hl, ho⟩ := ho.of_bind (union_steady_rest hr us none) hc
  obtain ⟨r, hr, ho⟩ := ho.of_bind (fun _ => .pure _) hc
  cases ho.of_pure
  exact ⟨l, r, hl, hr, rfl⟩

/-- A union asks the right side for what the left side lacks. -/
theorem Serves.union {c : Context} {l r : Solutions} {us : List Var}
    (hl : left.Serves c vs l) (hr : right.Serves c ws r) (hc : c.Repeatable)
    (hsteady : right.Steady) (hus : us ⊆ ws) :
    (left.union right us).Serves c (mergeVariables vs ws) (l.union r) := by
  obtain ⟨hrows, hbinds⟩ := Solutions.rows_union hl.binds hr.binds
  refine ⟨hbinds, fun demand => ?_⟩
  obtain ⟨l', hl', hlbinds, hlbegin, hlsize⟩ := hl.serves demand
  have hrest := outcome_bind_ok (union_steady_rest hsteady us demand) hc hl'
  by_cases hmet : demand.map (· - l'.size) = some 0
  · -- the left side is enough
    obtain ⟨hrows', hbinds'⟩ := Solutions.rows_extendVariables hlbinds us
    refine ⟨l'.extendVariables us, hrest.trans ?_, hbinds'.mono fun v hv => ?_, ?_, .inr ?_⟩
    · simp [hmet, hlbinds.real]
    · exact mem_mergeVariables.mpr ((mem_mergeVariables.mp hv).imp_right (hus ·))
    · rw [hrows', hrows]
      exact hlbegin.trans (List.prefix_append _ _)
    · obtain ⟨n, rfl, hn⟩ := Option.map_eq_some_iff.mp hmet
      refine ⟨n, rfl, ?_⟩
      have hsize : (l'.extendVariables us).size = l'.size :=
        congrArg List.length hrows'
      omega
  · obtain ⟨r', hr', hrbinds, hrbegin, hrsize⟩ :=
      hr.serves (demand.map (· - l'.size))
    obtain ⟨hrows', hbinds'⟩ := Solutions.rows_union hlbinds hrbinds
    have hall : l'.rows = l.rows := by
      rcases hlsize with h | ⟨n, rfl, hn⟩
      · exact h
      · exact absurd (congrArg some (Nat.sub_eq_zero_of_le hn)) hmet
    refine ⟨l'.union r', hrest.trans ?_, hbinds', ?_, ?_⟩
    · have hif : ¬ (decide (demand.map (· - l'.size) = some 0) &&
          !l'.isSingleton) = true := by simp [hmet]
      dsimp only
      rw [if_neg hif]
      exact outcome_bind_ok (fun _ => .pure _) hc hr'
    · rw [hrows', hrows, hall]
      exact (List.prefix_append_right_inj _).mpr hrbegin
    · rcases hrsize with h | ⟨n, hn, hle⟩
      · exact .inl (by rw [hrows', hrows, hall, h])
      · obtain ⟨k, rfl, rfl⟩ := Option.map_eq_some_iff.mp hn
        refine .inr ⟨k, rfl, ?_⟩
        have hsize : (l'.union r').size = l'.size + r'.size := by
          simp [Solutions.size, hrows']
        omega

theorem Meets.union (hl : Meets e vs left' left) (hr : Meets e ws right' right) :
    Follows e (mergeVariables vs ws) (left'.union right' ws)
      (left.union right ws) := by
  refine ⟨hl.steady.union hr.steady ws, hl.steady'.union hr.steady' ws,
    fun c hc o ho => ?_, fun c hc n o ho => ?_⟩
  · have hrep := hc.toRepeatable
    obtain ⟨l, r, hl₁, hr₁, rfl⟩ := yields_union hr.steady hrep ho
    exact (hl.serves c hc l hl₁).union (hr.serves c hc r hr₁) hrep hr.steady'
      (List.Subset.refl _)
  · have hrep := hc.toRepeatable
    obtain ⟨l, hl₁, ho⟩ := ho.of_bind
      (union_steady_rest hr.steady ws (some n)) hrep
    obtain ⟨hlbinds, l', hl', hlbinds', hlrows⟩ := hl.repeats hc hl₁
    have hsize : l'.size = l.size := congrArg List.length hlrows
    have hrest := outcome_bind_ok (union_steady_rest hr.steady' ws (some n)) hrep hl'
    dsimp only at ho hrest
    rw [hsize, hlbinds'.real] at hrest
    rw [hlbinds.real] at ho
    split at ho
    · rename_i hmet
      cases ho.of_pure
      rw [if_pos hmet] at hrest
      obtain ⟨hrows, hbinds⟩ := Solutions.rows_extendVariables hlbinds ws
      obtain ⟨hrows', hbinds'⟩ := Solutions.rows_extendVariables hlbinds' ws
      exact ⟨hbinds, _, hrest, hbinds', by rw [hrows, hrows', hlrows]⟩
    · rename_i hmet
      rw [if_neg hmet] at hrest
      obtain ⟨r, hr₁, ho⟩ := ho.of_bind (fun _ => .pure _) hrep
      cases ho.of_pure
      obtain ⟨hrbinds, r', hr', hrbinds', hrrows⟩ := hr.repeats hc hr₁
      obtain ⟨hrows, hbinds⟩ := Solutions.rows_union hlbinds hrbinds
      obtain ⟨hrows', hbinds'⟩ := Solutions.rows_union hlbinds' hrbinds'
      refine ⟨hbinds, _, hrest.trans ?_, hbinds', ?_⟩
      · exact outcome_bind_ok (fun _ => .pure _) hrep hr'
      · rw [hrows, hrows', hlrows, hrrows]

/-- The empty seed joins to nothing new. -/
theorem joinSeed_eq {c : Context} (hc : c.IsPlain e) (s : Solutions) :
    (joinSeed s).outcome c = .ok s := by
  unfold joinSeed
  rw [outcome_read_bind, hc.unseeded]
  rfl

/-- A computation on rows that, for enough of its input, yields enough of its
result: to yield as many rows as a demand says it takes as many rows as the
translated demand says. -/
def Translates (g : Demand → Demand)
    (f : List Binding → Except QueryError (List Binding)) : Prop :=
  ∀ xs zs, f xs = .ok zs → xs.length < maxCount → ∀ ys demand, ys <+: xs →
    (ys = xs ∨ ∃ n, g demand = some n ∧ n ≤ ys.length) →
      ∃ ws, f ys = .ok ws ∧ ws <+: zs ∧
        (ws = zs ∨ ∃ n, demand = some n ∧ n ≤ ws.length)

/-- A computation that yields one row for each row hands on the demand. -/
theorem translates_id {f : List Binding → Except QueryError (List Binding)}
    (hf : Progressive f) (hlength : ∀ xs zs, f xs = .ok zs → zs.length = xs.length) :
    Translates id f := by
  intro xs zs hxs _ ys demand hys hsize
  obtain ⟨ws, hws, hbegin⟩ := hf xs zs hxs ys hys
  refine ⟨ws, hws, hbegin, ?_⟩
  rcases hsize with rfl | ⟨n, hn, hle⟩
  · exact .inl (Except.ok.inj (hws.symm.trans hxs))
  · exact .inr ⟨n, hn, by rw [hlength ys ws hws]; exact hle⟩

/-- The same for the beginnings of some rows only. -/
def TranslatesFrom (g : Demand → Demand)
    (f : List Binding → Except QueryError (List Binding)) (xs zs : List Binding) : Prop :=
  ∀ ys demand, ys <+: xs → (ys = xs ∨ ∃ n, g demand = some n ∧ n ≤ ys.length) →
    ∃ ws, f ys = .ok ws ∧ ws <+: zs ∧ (ws = zs ∨ ∃ n, demand = some n ∧ n ≤ ws.length)

/-- An operator that asks its input once serves what it makes of all solutions
that its input serves. -/
theorem Serves.once {c : Context} {m o : Solutions} (h : plan.Serves c vs m)
    (hc : c.Repeatable) {g : Demand → Demand}
    {rest : Solutions → Eval Solutions} (hrest : ∀ s, (rest s).Steady)
    {f : List Binding → Except QueryError (List Binding)}
    (hf : TranslatesFrom g f m.rows o.rows)
    (hcarries : ∀ s, s.Binds vs →
      Solutions.Carries ws ((rest s).outcome c) (f s.rows)) (ho : o.Binds ws) :
    Serves c ws (fun demand => plan (g demand) >>= rest) o := by
  refine ⟨ho, fun demand => ?_⟩
  obtain ⟨s, hs, hsbinds, hbegin, hsize⟩ := h.serves (g demand)
  obtain ⟨rows, hrows', hbegin', hsize'⟩ := hf s.rows demand hbegin hsize
  have hcarried := hcarries s hsbinds
  rw [hrows'] at hcarried
  obtain ⟨out, hout, rfl, hbinds⟩ := hcarried
  exact ⟨out, (outcome_bind_ok hrest hc hs).trans hout, hbinds, hbegin', hsize'⟩

theorem Repeats.once {c : Context} {m o : Solutions} {demand : Demand}
    (h : plan.Repeats c vs demand m) (hc : c.Repeatable)
    {rest : Solutions → Eval Solutions} (hrest : ∀ s, (rest s).Steady)
    {f : List Binding → Except QueryError (List Binding)}
    (hcarries : ∀ s, s.Binds vs →
      Solutions.Carries ws ((rest s).outcome c) (f s.rows))
    (hrows : f m.rows = .ok o.rows) :
    ∃ s, (plan demand >>= rest).outcome c = .ok s ∧ s.Binds ws ∧
      s.rows = o.rows := by
  obtain ⟨-, s, hs, hsbinds, hsrows⟩ := h
  have hcarried := hcarries s hsbinds
  rw [hsrows, hrows] at hcarried
  obtain ⟨out, hout, hout', hbinds⟩ := hcarried
  exact ⟨out, (outcome_bind_ok hrest hc hs).trans hout, hbinds, hout'⟩

theorem Meets.once (h : Meets e vs plan' plan) {g : Demand → Demand}
    (hg : g none = none) {rest : Solutions → Eval Solutions}
    (hrest : ∀ s, (rest s).Steady)
    (hcarries : ∀ c, c.IsPlain e → ∃ f, Translates g f ∧ ∀ s, s.Binds vs →
      Solutions.Carries ws ((rest s).outcome c) (f s.rows)) :
    Follows e ws (fun demand => plan' (g demand) >>= rest)
      fun demand => plan (g demand) >>= rest := by
  refine ⟨fun _ => (h.steady _).bind hrest, fun _ => (h.steady' _).bind hrest,
    fun c hc o ho => ?_, fun c hc n o ho => ?_⟩
  · have hrep := hc.toRepeatable
    obtain ⟨m, hm, ho⟩ := ho.of_bind hrest hrep
    rw [hg] at hm
    obtain ⟨f, hf, hcarries⟩ := hcarries c hc
    have hserves := h.serves c hc m hm
    obtain ⟨hrows, hbinds⟩ := (hcarries m hserves.binds).of_ok
      (ho.outcome_eq (hrest m) hrep)
    exact hserves.once hrep hrest (hf m.rows o.rows hrows (h.small c hc none m hm)) hcarries
      hbinds
  · have hrep := hc.toRepeatable
    obtain ⟨m, hm, ho⟩ := ho.of_bind hrest hrep
    obtain ⟨f, -, hcarries⟩ := hcarries c hc
    have hrepeats := h.repeats hc hm
    obtain ⟨hrows, hbinds⟩ := (hcarries m hrepeats.binds).of_ok
      (ho.outcome_eq (hrest m) hrep)
    exact ⟨hbinds, hrepeats.once hrep hrest hcarries hrows⟩

theorem translates_project (ws : List Var) :
    Translates id fun rows => .ok (rows.map (·.project ws)) := by
  refine translates_id (.of_monotone fun _ _ hys => hys.map _) fun xs zs h => ?_
  cases h
  exact List.length_map _

theorem Meets.project (h : Meets e vs plan' plan) (ws : List Var) :
    Follows e ws (plan'.project ws) (plan.project ws) :=
  (h.mapSeed (·.project ws)).once (g := id) rfl (fun s => joinSeed_steady (s.project ws))
    fun _ hc => ⟨_, translates_project ws, fun _ hs =>
      ⟨_, joinSeed_eq hc _, Solutions.rows_project hs ws⟩⟩

theorem extend_steady_rest {f : Assignment} (hf : f.Steady) (v : Var) (s : Solutions) :
    Eval.Steady (do
      if s.isSingleton then return s.extendVariables [v]
      else
        return .ofRows (mergeVariables s.vars [v])
          (← assignRows v f s.rows)) := by
  split
  · exact .pure _
  · exact (assignRows_steady hf v _).bind fun _ => .pure _

/-- What an assignment makes of all inner solutions. -/
theorem extend_carries {f : Assignment} (hf : f.Steady) {c : Context} (hc : c.Repeatable)
    {v : Var} {s : Solutions} (hs : s.Binds vs) :
    Solutions.Carries (mergeVariables vs [v])
      (Eval.outcome (do
        if s.isSingleton then return s.extendVariables [v]
        else
          return .ofRows (mergeVariables s.vars [v])
            (← assignRows v f s.rows)) c)
      (Solutions.assignedRows v (fun b => (f b).outcome c) s.rows) := by
  simp only [hs.real, Bool.false_eq_true, if_false]
  rw [outcome_bind (fun _ => .pure _) hc, outcome_assignRows hf hc]
  exact Solutions.carries_ofRows
    (fun found => Solutions.vars_of_mem_assignedRows hs.wellFormed)
    fun found => Solutions.vars_of_mem_assignedRows hs.row_vars

theorem translates_extend (v : Var) (value : Binding → Except QueryError (Option Term)) :
    Translates id (Solutions.assignedRows v value) :=
  translates_id (.of_append fun xs ys => assignedRows_append xs ys)
    fun _ _ => Solutions.length_assignedRows

theorem Meets.extend (h : Meets e vs plan' plan) (v : Var) {f : Assignment}
    (hf : f.Steady) :
    Follows e (mergeVariables vs [v]) (plan'.extend v f) (plan.extend v f) :=
  (h.mapSeed (·.erase v)).once (g := id) rfl (extend_steady_rest hf v) fun c hc =>
    ⟨_, translates_extend v fun b => (f b).outcome c, fun _ hs =>
      extend_carries hf hc.toRepeatable hs⟩

/-- The demand of a slice: the solutions up to the end of what is needed. -/
def sliceDemand (offset : Nat) (limit : Option Nat) (demand : Demand) : Demand :=
  demand.map fun n => addCounts offset
    (match limit with
      | some m => min m n
      | none => n)

theorem translates_slice (offset : Nat) (limit : Option Nat) :
    Translates (sliceDemand offset limit)
      fun rows => .ok (Solutions.sliceRows offset limit rows) := by
  rintro xs zs hxs hsmall ys demand hys hsize
  cases hxs
  refine ⟨_, rfl, Solutions.sliceRows_monotone offset limit hys, ?_⟩
  rcases hsize with rfl | ⟨k, hk, hle⟩
  · exact .inl rfl
  · obtain ⟨n, rfl, rfl⟩ := Option.map_eq_some_iff.mp hk
    have hlength := hys.length_le
    -- the sum is not capped, since there are fewer rows than that
    refine (Solutions.sliceRows_eq_or_le hys ?_).imp_right fun h => ⟨n, rfl, h⟩
    unfold addCounts at hle
    cases limit with
    | none =>
      dsimp only at hle ⊢
      omega
    | some m =>
      dsimp only at hle ⊢
      omega

theorem Meets.slice (h : Meets e vs plan' plan) (offset : Nat)
    (limit : Option Nat) :
    Follows e vs (plan'.slice offset limit) (plan.slice offset limit) :=
  h.once (g := sliceDemand offset limit) rfl (fun _ => .pure _) fun _ _ =>
    ⟨_, translates_slice offset limit,
      fun _ hs => ⟨_, rfl, Solutions.rows_slice hs offset limit⟩⟩

/-! ## Limits -/

/-- The demand of a limit: no more than its count. -/
def limitDemand (count : Nat) : Demand → Demand
  | some n => some (min n count)
  | none => some count

/-- A limit serves the solutions up to its count. -/
theorem Serves.limit {c : Context} {m : Solutions} (h : plan.Serves c vs m)
    (hc : c.Repeatable) (count : Nat) :
    (plan.limit count).Serves c vs (m.truncate count) := by
  obtain ⟨hrows, hbinds⟩ := Solutions.rows_truncate h.binds count
  refine ⟨hbinds, fun demand => ?_⟩
  have hrest (s : Solutions) : Eval.Steady (do return s.truncate count) := .pure _
  obtain ⟨s, hs, hsbinds, hbegin, hsize⟩ := h.serves (limitDemand count demand)
  obtain ⟨hsrows, hsbinds'⟩ := Solutions.rows_truncate hsbinds count
  have hrun : (plan.limit count demand).outcome c = .ok (s.truncate count) := by
    unfold Plan.limit
    cases demand <;> exact outcome_bind_ok hrest hc hs
  refine ⟨_, hrun, hsbinds', ?_, ?_⟩
  · rw [hrows, hsrows]
    exact hbegin.take count
  · rcases hsize with hall | ⟨k, hk, hle⟩
    · exact .inl (by rw [hrows, hsrows, hall])
    · -- enough rows are there for the demand or for the count
      have htake : count ≤ s.size → (s.truncate count).rows = (m.truncate count).rows :=
        fun hcount => by
          rw [hrows, hsrows]
          refine (hbegin.take count).eq_of_length_le ?_
          have : s.rows.length = s.size := rfl
          simp only [List.length_take]
          omega
      cases demand with
      | none =>
        cases hk
        exact .inl (htake hle)
      | some n =>
        cases hk
        by_cases hn : n ≤ count
        · refine .inr ⟨n, rfl, ?_⟩
          have : (s.truncate count).size = min count s.size := by
            simp [Solutions.size, hsrows]
          omega
        · exact .inl (htake (by omega))

/-- A plan yields the first solutions of another one, of which it is asked for
no more than `count`. -/
structure Limits (e : Environment) (vs : List Var) (count : Nat)
    (plan' plan : Plan) : Prop where
  steady' : plan'.Steady
  serves : ∀ c, c.IsPlain e → ∀ m, (plan none).Yields c m →
    plan'.Serves c vs (m.truncate count)
  repeatsSome : ∀ c, c.IsPlain e → ∀ n m, n ≤ count → (plan (some n)).Yields c m →
    plan'.Repeats c vs (some n) (m.truncate count)

theorem Follows.limit (h : Follows e vs plan' plan) (count : Nat) :
    Limits e vs count (plan'.limit count) plan := by
  refine ⟨h.steady'.limit count,
    fun c hc m hm => (h.serves c hc m hm).limit hc.toRepeatable count,
    fun c hc n m hn hm => ?_⟩
  obtain ⟨hbinds, s, hs, hsbinds, hrows⟩ := h.repeats hc hm
  obtain ⟨hmrows, hmbinds⟩ := Solutions.rows_truncate hbinds count
  obtain ⟨hsrows, hsbinds'⟩ := Solutions.rows_truncate hsbinds count
  refine ⟨hmbinds, s.truncate count, ?_, hsbinds', by rw [hsrows, hmrows, hrows]⟩
  rw [← Nat.min_eq_left hn] at hs
  exact outcome_bind_ok (fun _ => .pure _) hc.toRepeatable hs

/-- Limits stay what they are at another place of the tree. -/
theorem Limits.of_outcome {count : Nat} {plan'' : Plan}
    (h : Limits e vs count plan' plan) (hsteady : plan''.Steady)
    (houtcome : ∀ c, c.IsPlain e → ∀ demand,
      (plan'' demand).outcome c = (plan' demand).outcome c) :
    Limits e vs count plan'' plan := by
  refine ⟨hsteady, fun c hc m hm => ?_, fun c hc n m hn hm => ?_⟩
  · obtain ⟨hbinds, hserves⟩ := h.serves c hc m hm
    refine ⟨hbinds, fun demand => ?_⟩
    rw [houtcome c hc]
    exact hserves demand
  · obtain ⟨hbinds, hrepeats⟩ := h.repeatsSome c hc n m hn hm
    refine ⟨hbinds, ?_⟩
    rw [houtcome c hc]
    exact hrepeats

theorem Limits.observed {count : Nat} (h : Limits e vs count plan' plan)
    (name : String) : Limits e vs count (plan'.observed name) plan := by
  refine h.of_outcome (h.steady'.observed name) fun c hc demand => ?_
  rw [outcome_observed name demand h.steady' hc.toRepeatable]
  exact (h.steady' demand).outcome_congr hc.toRepeatable ⟨⟨rfl, .refl _⟩, rfl⟩

theorem Limits.input {count : Nat} (h : Limits e vs count plan' plan) (i : Nat) :
    Limits e vs count (plan'.input i) plan :=
  h.of_outcome (h.steady'.input i) fun _ hc demand =>
    (h.steady' demand).outcome_congr hc.toRepeatable ⟨⟨rfl, .refl _⟩, rfl⟩

/-- A slice of limited solutions is the slice of all solutions, if the limit is
the end of the slice. -/
theorem Limits.slice {offset count : Nat}
    (h : Limits e vs (addCounts offset count) plan' plan)
    {other : Plan} (hplan : Meets e vs other plan) :
    Follows e vs (plan'.slice offset (some count)) (plan.slice offset (some count)) := by
  have hcarries (c : Context) (s : Solutions) (hs : s.Binds vs) :
      Solutions.Carries vs
        ((Pure.pure (s.slice offset (some count)) : Eval Solutions).outcome c)
        (.ok (Solutions.sliceRows offset (some count) s.rows)) :=
    ⟨_, rfl, Solutions.rows_slice hs offset (some count)⟩
  have hsame {m : Solutions} (hm : m.IsSmall) (hbinds : m.Binds vs) :
      Solutions.sliceRows offset (some count)
          (m.truncate (addCounts offset count)).rows =
        (m.slice offset (some count)).rows := by
    rw [(Solutions.rows_truncate hbinds _).1, (Solutions.rows_slice hbinds _ _).1]
    refine Solutions.sliceRows_take ?_
    have : m.rows.length < maxCount := hm
    unfold addCounts
    omega
  refine ⟨hplan.steady.slice offset _, h.steady'.slice offset _,
    fun c hc o ho => ?_, fun c hc n o ho => ?_⟩
  · have hrep := hc.toRepeatable
    obtain ⟨m, hm, ho⟩ := ho.of_bind (fun _ => .pure _) hrep
    cases ho.of_pure
    have hbinds := (hplan.serves c hc m hm).binds
    have hsmall := hplan.small c hc none m hm
    have hserves := h.serves c hc m hm
    have htruncated : (m.truncate (addCounts offset count)).IsSmall := by
      have : m.rows.length < maxCount := hsmall
      unfold Solutions.IsSmall Solutions.size
      rw [(Solutions.rows_truncate hbinds _).1, List.length_take]
      omega
    exact hserves.once hrep (fun _ => .pure _) (translates_slice offset (some count) _ _
      (congrArg Except.ok (hsame hsmall hbinds)) htruncated) (hcarries c)
      (Solutions.rows_slice hbinds offset (some count)).2
  · have hrep := hc.toRepeatable
    obtain ⟨m, hm, ho⟩ := ho.of_bind (fun _ => .pure _) hrep
    cases ho.of_pure
    have hbinds := (hplan.repeats hc hm).binds
    have hsmall := hplan.small c hc _ m hm
    have hle : addCounts offset (min count n) ≤ addCounts offset count := by
      unfold addCounts
      omega
    have hslice := (Solutions.rows_slice hbinds offset (some count)).2
    exact ⟨hslice, (h.repeatsSome c hc _ m hle hm).once hrep (fun _ => .pure _)
      (f := fun rows => .ok (Solutions.sliceRows offset (some count) rows))
      (hcarries c) (congrArg Except.ok (hsame hsmall hbinds))⟩

end Plan

end SparqlAlgebra
