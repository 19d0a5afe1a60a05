import SparqlAlgebra.Proofs.DemandIgnored
import SparqlAlgebra.Proofs.PlainExpressions
import Mathlib.Data.List.Perm.Basic

/-!
# Solutions in any order

Without a demand, the operators of the algebra do not look at the order of their
input: if the inputs of an operator yield the same solutions in another order,
so does the operator, and it fails if it failed before.

* `Unordered` computations on rows;
* `Plan.Shuffles`: whatever a plan yields, another plan yields in some order;
* `Plan.Shuffles.join` and others: every operator keeps this.
-/

namespace SparqlAlgebra

open Eval

/-! ## Rows in any order -/

/-- A computation on rows that, for its input in another order, yields its result
in another order. -/
def Unordered (f : List Binding → Except QueryError (List Binding)) : Prop :=
  ∀ xs ys, ys.Perm xs → ∀ zs, f xs = .ok zs → ∃ ws, f ys = .ok ws ∧ ws.Perm zs

theorem Unordered.of_perm {f : List Binding → List Binding}
    (h : ∀ xs ys, ys.Perm xs → (f ys).Perm (f xs)) : Unordered fun xs => .ok (f xs) := by
  intro xs ys hperm zs hxs
  cases hxs
  exact ⟨_, rfl, h xs ys hperm⟩

theorem dedup_perm {α : Type} [DecidableEq α] {xs ys : List α} (h : ys.Perm xs) :
    (dedup ys).Perm (dedup xs) :=
  (List.perm_ext_iff_of_nodup (nodup_dedup _) (nodup_dedup _)).mpr fun x => by
    rw [mem_dedup, mem_dedup, h.mem_iff]

namespace Solutions

theorem pairRows_perm {ls ls' rs rs' : List Binding} (hl : ls'.Perm ls)
    (hr : rs'.Perm rs) : (pairRows ls' rs').Perm (pairRows ls rs) :=
  hl.flatMap fun l _ => hr.filterMap l.merge?

theorem minusRows_perm {ls ls' rs rs' : List Binding} (hl : ls'.Perm ls)
    (hr : rs'.Perm rs) : (minusRows ls' rs').Perm (minusRows ls rs) := by
  have hexcluded (l : Binding) : isExcluded l rs' = isExcluded l rs := by
    unfold isExcluded
    rw [Bool.eq_iff_iff, List.any_eq_true, List.any_eq_true]
    exact exists_congr fun r => and_congr_left fun _ => hr.mem_iff
  unfold minusRows
  simp only [hexcluded]
  exact hl.filter _

/-- A test that always succeeds selects. -/
theorem keepM_ok {α : Type} (test : α → Bool) (xs : List α) :
    keepM (fun x => (.ok (test x) : Except QueryError Bool)) xs = .ok (xs.filter test) := by
  induction xs with
  | nil => rfl
  | cons x xs ih =>
    rw [keepM_cons, ih, List.filter_cons]
    rfl

/-- The rows of a left join for one left row. -/
def optionalRows (holds : Binding → Bool) (rs : List Binding) (l : Binding) :
    List Binding :=
  let merges := (rs.filterMap l.merge?).filter holds
  if merges.isEmpty then [l] else merges

theorem leftRows_ok (holds : Binding → Bool) (ls rs : List Binding) :
    leftRows (fun b => .ok (holds b)) ls rs = .ok (ls.flatMap (optionalRows holds rs)) := by
  induction ls with
  | nil => rfl
  | cons l ls ih =>
    rw [leftRows_cons, keepM_ok, ih, List.flatMap_cons]
    rfl

theorem optionalRows_perm (holds : Binding → Bool) {rs rs' : List Binding}
    (hr : rs'.Perm rs) (l : Binding) :
    (optionalRows holds rs' l).Perm (optionalRows holds rs l) := by
  have hmerges := (hr.filterMap l.merge?).filter holds
  unfold optionalRows
  dsimp only
  rw [hmerges.isEmpty_eq]
  split
  · exact .refl _
  · exact hmerges

/-- Every row is assigned a value on its own. -/
theorem assignedRows_unordered {v : Var}
    {value : Binding → Except QueryError (Option Term)} :
    Unordered (assignedRows v value) := by
  intro xs ys hperm zs hxs
  induction hperm generalizing zs with
  | nil => exact ⟨zs, hxs, .refl _⟩
  | cons x _ ih =>
    obtain ⟨t, rest, ht, hrest, rfl⟩ := assignedRows_cons_eq_ok.mp hxs
    obtain ⟨rest', hrest', hperm⟩ := ih _ hrest
    exact ⟨_, assignedRows_cons_eq_ok.mpr ⟨t, rest', ht, hrest', rfl⟩, hperm.cons _⟩
  | swap x y xs =>
    obtain ⟨t, _, ht, htail, rfl⟩ := assignedRows_cons_eq_ok.mp hxs
    obtain ⟨u, rest, hu, hrest, rfl⟩ := assignedRows_cons_eq_ok.mp htail
    have hswapped := assignedRows_cons_eq_ok.mpr ⟨t, rest, ht, hrest, rfl⟩
    exact ⟨_, assignedRows_cons_eq_ok.mpr ⟨u, _, hu, hswapped, rfl⟩, .swap _ _ _⟩
  | trans _ _ ih ih' =>
    obtain ⟨zs', hzs', hperm'⟩ := ih' _ hxs
    obtain ⟨ws, hws, hperm⟩ := ih _ hzs'
    exact ⟨ws, hws, hperm.trans hperm'⟩

end Solutions

namespace SortKey

variable {keys : List SortKey}

theorem values_succeeds (hkeys : ∀ k ∈ keys, k.key.IsMild) (row : Row) :
    (values row keys).Succeeds := by
  induction keys with
  | nil => exact .pure _
  | cons k rest ih =>
    exact ((hkeys k List.mem_cons_self).value? row).bind fun _ =>
      (ih fun l hl => hkeys l (List.mem_cons_of_mem _ hl)).bind fun _ => .pure _

/-- A solution without a value for a key is sorted before those with one. -/
theorem keyed_succeeds (hkeys : ∀ k ∈ keys, k.key.IsMild) (rows : List Binding) :
    (keyed keys rows).Succeeds := by
  induction rows with
  | nil => exact .pure _
  | cons b rest ih =>
    exact FailsWith.newSolutionId.bind fun _ => (values_succeeds hkeys _).bind fun _ =>
      ih.bind fun _ => .pure _

end SortKey

/-! ## Plans -/

/-- Whatever a plan yields without a demand in a plain context, another plan
yields in some order. -/
structure Plan.Shuffles (e : Environment) (vs : List Var) (plan' plan : Plan) : Prop where
  steady : plan.Steady
  steady' : plan'.Steady
  shuffles : ∀ c, c.IsPlain e → ∀ m, (plan none).outcome c = .ok m → m.Binds vs ∧
    ∃ m', (plan' none).outcome c = .ok m' ∧ m'.Binds vs ∧ m'.rows.Perm m.rows

namespace Plan

variable {e : Environment} {vs ws zs : List Var}
  {plan plan' left left' right right' : Plan}

/-! ### Scopes -/

/-- Runs may start after any progress. -/
theorem Shuffles.runFrom (h : Shuffles e vs plan' plan) {c : Context} (hc : c.IsPlain e)
    {p q : Progress} {m : Solutions} (hm : (plan none).runFrom c p = (.ok m, q))
    (p' : Progress) :
    ∃ m' q', (plan' none).runFrom c p' = (.ok m', q') ∧ m'.rows.Perm m.rows := by
  have hrep := hc.toRepeatable
  have hfst := (h.steady none).fst_runFrom hrep p
  rw [hm] at hfst
  obtain ⟨-, m', hm', -, hperm⟩ := h.shuffles c hc m hfst.symm
  exact ⟨m', _, Prod.ext (((h.steady' none).fst_runFrom hrep p').trans hm') rfl, hperm⟩

/-- Shuffling is about all plain contexts, so it is kept by changes of them. -/
theorem Shuffles.within (h : Shuffles e vs plan' plan) (change : Context → Context)
    (hchange : Context.IsScope change)
    (hplain : ∀ c, c.IsPlain e → (change c).IsPlain e) :
    Shuffles e vs (fun demand => (plan' demand).within change)
      fun demand => (plan demand).within change := by
  refine ⟨fun demand => (h.steady demand).within hchange,
    fun demand => (h.steady' demand).within hchange, fun c hc m hm => ?_⟩
  have hsame (x : Eval Solutions) : (x.within change).outcome c = x.outcome (change c) := by
    unfold outcome
    rw [runFrom_within, (hplain c hc).environment_eq, hc.environment_eq]
  rw [hsame] at hm ⊢
  exact h.shuffles _ (hplain c hc) m hm

theorem Shuffles.input (h : Shuffles e vs plan' plan) (i : Nat) :
    Shuffles e vs (plan'.input i) (plan.input i) :=
  h.within _ (Context.isScope_place (·.map (· ++ [i]))) fun _ hc => hc.elsewhere _

theorem Shuffles.mapSeed (h : Shuffles e vs plan' plan) (f : Binding → Binding) :
    Shuffles e vs (plan'.mapSeed f) (plan.mapSeed f) :=
  h.within _ (Context.isScope_seed (·.map f)) fun _ hc => hc.mapSeed f

theorem Shuffles.observed (h : Shuffles e vs plan' plan) (name name' : String) :
    Shuffles e vs (plan'.observed name') (plan.observed name) := by
  refine ⟨h.steady.observed name, h.steady'.observed name', fun c hc m hm => ?_⟩
  have hrep := hc.toRepeatable
  rw [outcome_observed name none h.steady hrep] at hm
  rw [outcome_observed name' none h.steady' hrep]
  exact h.shuffles _ (hc.deeper _) m hm

/-! ### Operators with one input -/

/-- An unordered computation on the rows of all solutions. -/
theorem Shuffles.andThen (h : Shuffles e vs plan' plan)
    {rest : Solutions → Eval Solutions} (hrest : ∀ s, (rest s).Steady)
    (hcarries : ∀ c, c.IsPlain e → ∃ f, Unordered f ∧ ∀ s, s.Binds vs →
      Solutions.Carries ws ((rest s).outcome c) (f s.rows)) :
    Shuffles e ws (fun demand => plan' demand >>= rest)
      fun demand => plan demand >>= rest := by
  refine ⟨fun _ => (h.steady _).bind hrest, fun _ => (h.steady' _).bind hrest,
    fun c hc o ho => ?_⟩
  have hrep := hc.toRepeatable
  obtain ⟨m, hm, ho⟩ := outcome_bind_eq_ok ho hrest hrep
  obtain ⟨hbinds, m', hm', hbinds', hperm⟩ := h.shuffles c hc m hm
  obtain ⟨f, hf, hcarries⟩ := hcarries c hc
  obtain ⟨hrows, hobinds⟩ := (hcarries m hbinds).of_ok ho
  obtain ⟨rows, hrows', hperm'⟩ := hf _ _ hperm _ hrows
  have hcarried := hcarries m' hbinds'
  rw [hrows'] at hcarried
  obtain ⟨o', ho', rfl, hobinds'⟩ := hcarried
  exact ⟨hobinds, o', (outcome_bind_ok hrest hrep hm').trans ho', hobinds', hperm'⟩

/-- What matters of a plan is its outcome without a demand. -/
theorem Shuffles.of_outcome {other other' : Plan} (h : Shuffles e vs plan' plan)
    (hsteady : other.Steady) (hsteady' : other'.Steady)
    (hsame : ∀ c, c.IsPlain e → (other none).outcome c = (plan none).outcome c)
    (hsame' : ∀ c, c.IsPlain e → (other' none).outcome c = (plan' none).outcome c) :
    Shuffles e vs other' other := by
  refine ⟨hsteady, hsteady', fun c hc m hm => ?_⟩
  rw [hsame c hc] at hm
  rw [hsame' c hc]
  exact h.shuffles c hc m hm

theorem outcome_mapPrefix {combine : Solutions → Eval Solutions} {c : Context}
    (hsteady : ∀ s, (combine s).Steady) (hc : c.Repeatable) :
    (plan.mapPrefix combine none).outcome c = (plan none >>= combine).outcome c := by
  have hpair (s : Solutions) : Eval.Steady (do return (← combine s, ())) :=
    (hsteady s).bind fun _ => .pure _
  rw [outcome_bind hsteady hc]
  refine (outcome_bind (fun s => (hpair s).bind fun _ => .pure _) hc).trans ?_
  refine congrArg _ (funext fun s => ?_)
  rw [outcome_bind (fun _ => .pure _) hc, outcome_bind (fun _ => .pure _) hc]
  cases (combine s).outcome c <;> rfl

theorem Shuffles.mapPrefix (h : Shuffles e vs plan' plan)
    {combine : Solutions → Eval Solutions} (hsteady : ∀ s, (combine s).Steady)
    (hcarries : ∀ c, c.IsPlain e → ∃ f, Unordered f ∧ ∀ s, s.Binds vs →
      Solutions.Carries ws ((combine s).outcome c) (f s.rows)) :
    Shuffles e ws (plan'.mapPrefix combine) (plan.mapPrefix combine) :=
  (h.andThen hsteady hcarries).of_outcome (h.steady.mapPrefix hsteady)
    (h.steady'.mapPrefix hsteady) (fun _ hc => outcome_mapPrefix hsteady hc.toRepeatable)
    fun _ hc => outcome_mapPrefix hsteady hc.toRepeatable

/-- A condition that has a truth value for every solution. -/
theorem Shuffles.filter (h : Shuffles e vs plan' plan) {condition : Binding → Eval Bool}
    (hcondition : ∀ b, (condition b).Steady)
    (hholds : ∀ c, c.IsPlain e → ∃ holds : Binding → Bool,
      ∀ b, (condition b).outcome c = .ok (holds b)) :
    Shuffles e vs (plan'.filter condition) (plan.filter condition) := by
  refine h.mapPrefix (fun s => Solutions.retainM_steady hcondition s) fun c hc => ?_
  obtain ⟨holds, hholds⟩ := hholds c hc
  refine ⟨fun rows => .ok (rows.filter holds), .of_perm fun _ _ hperm => hperm.filter _,
    fun s hs => ?_⟩
  have hcarries := Solutions.retainM_carries (fun b => .ok (holds b)) hs
  rw [Solutions.keepM_ok] at hcarries
  rw [outcome_retainM hcondition hc.toRepeatable]
  simpa only [hholds] using hcarries

theorem Shuffles.distinct (h : Shuffles e vs plan' plan) :
    Shuffles e vs plan'.distinct plan.distinct :=
  h.mapPrefix (fun _ => .pure _) fun _ _ => ⟨fun rows => .ok (dedup rows),
    .of_perm fun _ _ => dedup_perm, fun _ hs => ⟨_, rfl, Solutions.rows_distinct hs⟩⟩

theorem Shuffles.project (h : Shuffles e vs plan' plan) (ws : List Var) :
    Shuffles e ws (plan'.project ws) (plan.project ws) :=
  (h.mapSeed (·.project ws)).andThen (fun s => joinSeed_steady (s.project ws))
    fun _ hc => ⟨fun rows => .ok (rows.map (·.project ws)),
      .of_perm fun _ _ hperm => hperm.map _,
      fun _ hs => ⟨_, joinSeed_eq hc _, Solutions.rows_project hs ws⟩⟩

/-- An assignment fails for some row in any order, or for none. -/
theorem Shuffles.extend (h : Shuffles e vs plan' plan) (v : Var) {f : Assignment}
    (hf : f.Steady) :
    Shuffles e (mergeVariables vs [v]) (plan'.extend v f) (plan.extend v f) := by
  refine (h.mapSeed (·.erase v)).andThen (extend_steady_rest hf v) fun c hc =>
    ⟨Solutions.assignedRows v fun b => (f b).outcome c,
      Solutions.assignedRows_unordered, fun s hs => ?_⟩
  exact extend_carries hf hc.toRepeatable hs

theorem sortedRows_succeeds {c : Context} {keys : List SortKey}
    (hmild : ∀ k ∈ keys, k.key.IsMild) (hc : c.Repeatable) (rows : List Binding) :
    ∃ sorted, sortedRows c keys rows = .ok sorted := by
  obtain ⟨keyed, hkeyed⟩ := (SortKey.keyed_succeeds hmild rows).outcome_eq hc
  unfold sortedRows
  rw [hkeyed]
  exact ⟨_, rfl⟩

theorem Shuffles.orderBy (h : Shuffles e vs plan' plan) {keys : List SortKey}
    (hkeys : ∀ k ∈ keys, k.key.Steady) (hmild : ∀ k ∈ keys, k.key.IsMild) :
    Shuffles e vs (plan'.orderBy keys) (plan.orderBy keys) := by
  refine (h.andThen (orderBy_steady_rest hkeys) fun c hc =>
    ⟨sortedRows c keys, fun xs ys hperm zs hxs => ?_, fun s hs =>
      orderBy_carries hc.toRepeatable hs⟩).of_outcome
    (h.steady.orderBy hkeys) (h.steady'.orderBy hkeys) (fun _ _ => rfl) fun _ _ => rfl
  have hrep := hc.toRepeatable
  obtain ⟨ws, hsorted⟩ := sortedRows_succeeds hmild hrep ys
  have hws := sortedRows_perm hsorted
  exact ⟨ws, hsorted, hws.trans (hperm.trans (sortedRows_perm hxs).symm)⟩

/-! ### Operators with two inputs -/

section WithRight

variable {combine : Solutions → Solutions → Eval Solutions}

/-- The right solutions are asked for if there are left ones. -/
theorem outcome_withRight {c : Context} (hr : right.Steady)
    (hsteady : ∀ l r, (combine l r).Steady) (hc : c.Repeatable) :
    (left.withRight right combine none).outcome c =
      (left none).outcome c >>= fun l =>
        if l.isEmpty then pure .null
        else (right none).outcome c >>= fun r => (combine l r).outcome c := by
  have hstep := combineRight_steady hr hsteady
  rw [withRight_eq]
  refine (outcome_bind (fun l => (hstep none l).bind fun _ => .pure _) hc).trans ?_
  refine congrArg _ (funext fun l => ?_)
  rw [outcome_bind (fun _ => .pure _) hc]
  unfold combineRight
  cases hempty : l.isEmpty with
  | true => rfl
  | false =>
    simp only [Bool.false_eq_true, if_false]
    rw [outcome_bind (fun r => (hsteady l r).bind fun _ => .pure _) hc]
    show ((right none).outcome c >>= _) >>= _ = (right none).outcome c >>= _
    cases (right none).outcome c with
    | error err => rfl
    | ok r =>
      show (Eval.outcome (do return (← combine l r, some r)) c >>= _) = (combine l r).outcome c
      rw [outcome_bind (fun _ => .pure _) hc]
      cases (combine l r).outcome c <;> rfl

theorem Shuffles.withRight (hl : Shuffles e vs left' left) (hr : Shuffles e ws right' right)
    (hsteady : ∀ l r, (combine l r).Steady)
    (hcombine : ∀ c, c.IsPlain e → ∃ f : List Binding → List Binding → List Binding,
      (∀ ls ls' rs rs', ls'.Perm ls → rs'.Perm rs → (f ls' rs').Perm (f ls rs)) ∧
      ∀ l r, l.Binds vs → r.Binds ws →
        Solutions.Carries zs ((combine l r).outcome c) (.ok (f l.rows r.rows))) :
    Shuffles e zs (left'.withRight right' combine) (left.withRight right combine) := by
  refine ⟨hl.steady.withRight hr.steady hsteady, hl.steady'.withRight hr.steady' hsteady,
    fun c hc o ho => ?_⟩
  have hrep := hc.toRepeatable
  rw [outcome_withRight hr.steady hsteady hrep] at ho
  rw [outcome_withRight hr.steady' hsteady hrep]
  cases hleft : (left none).outcome c with
  | error err =>
    rw [hleft] at ho
    cases ho
  | ok l =>
    rw [hleft] at ho
    obtain ⟨hlbinds, l', hleft', hlbinds', hlperm⟩ := hl.shuffles c hc l hleft
    have hempty : l'.isEmpty = l.isEmpty := hlperm.isEmpty_eq
    simp only [hleft', bind, Except.bind, hempty] at ho ⊢
    split at ho
    · rename_i h
      cases ho
      exact ⟨Solutions.null_binds _, .null, by rw [if_pos h]; rfl, Solutions.null_binds _,
        .refl _⟩
    · rename_i h
      rw [if_neg h]
      cases hright : (right none).outcome c with
      | error err =>
        rw [hright] at ho
        cases ho
      | ok r =>
        rw [hright] at ho
        obtain ⟨hrbinds, r', hright', hrbinds', hrperm⟩ := hr.shuffles c hc r hright
        obtain ⟨f, hf, hcarries⟩ := hcombine c hc
        obtain ⟨hrows, hbinds⟩ := (hcarries l r hlbinds hrbinds).of_ok ho
        obtain ⟨o', ho', hrows', hbinds'⟩ := hcarries l' r' hlbinds' hrbinds'
        refine ⟨hbinds, o', by rw [hright']; exact ho', hbinds', ?_⟩
        rw [hrows', ← Except.ok.inj hrows]
        exact hf _ _ _ _ hlperm hrperm

end WithRight

theorem Shuffles.join (hl : Shuffles e vs left' left) (hr : Shuffles e ws right' right) :
    Shuffles e (mergeVariables vs ws) (left'.join right') (left.join right) :=
  hl.withRight hr (fun _ _ => .pure _) fun _ _ => ⟨Solutions.pairRows,
    fun _ _ _ _ => Solutions.pairRows_perm,
    fun _ _ h h' => ⟨_, rfl, Solutions.rows_join h h'⟩⟩

theorem Shuffles.leftJoin (hl : Shuffles e vs left' left) (hr : Shuffles e ws right' right)
    {condition : Binding → Eval Bool} (hcondition : ∀ b, (condition b).Steady)
    (hholds : ∀ c, c.IsPlain e → ∃ holds : Binding → Bool,
      ∀ b, (condition b).outcome c = .ok (holds b)) :
    Shuffles e (mergeVariables vs ws) (left'.leftJoin right' condition)
      (left.leftJoin right condition) := by
  refine hl.withRight hr (fun l r => Solutions.leftJoinM_steady hcondition l r)
    fun c hc => ?_
  obtain ⟨holds, hholds⟩ := hholds c hc
  refine ⟨fun ls rs => ls.flatMap (Solutions.optionalRows holds rs),
    fun ls ls' rs rs' hls hrs => hls.flatMap fun l _ => Solutions.optionalRows_perm holds hrs l,
    fun l r hl hr => ?_⟩
  have hcarries := Solutions.leftJoinM_carries (fun b => .ok (holds b)) hl hr
  rw [Solutions.leftRows_ok] at hcarries
  rw [outcome_leftJoinM hcondition hc.toRepeatable]
  simpa only [hholds] using hcarries

theorem Shuffles.minus (hl : Shuffles e vs left' left) (hr : Shuffles e ws right' right) :
    Shuffles e vs (left'.minus right') (left.minus right) := by
  have hr' := hr.within (fun c => { c with seed := none })
    (Context.isScope_seed fun _ => none) fun _ hc => hc.withSeed_none
  exact hl.withRight hr' (fun _ _ => .pure _) fun _ _ => ⟨Solutions.minusRows,
    fun _ _ _ _ => Solutions.minusRows_perm,
    fun _ _ h h' => ⟨_, rfl, Solutions.rows_minus h h'⟩⟩

theorem Shuffles.union (hl : Shuffles e vs left' left) (hr : Shuffles e ws right' right)
    (us us' : List Var) :
    Shuffles e (mergeVariables vs ws) (left'.union right' us') (left.union right us) := by
  refine ⟨hl.steady.union hr.steady us, hl.steady'.union hr.steady' us', fun c hc o ho => ?_⟩
  have hrep := hc.toRepeatable
  obtain ⟨l, hleft, ho⟩ := outcome_bind_eq_ok ho (union_steady_rest hr.steady us none) hrep
  obtain ⟨r, hright, ho⟩ := outcome_bind_eq_ok ho (fun _ => .pure _) hrep
  cases ho
  obtain ⟨hlbinds, l', hleft', hlbinds', hlperm⟩ := hl.shuffles c hc l hleft
  obtain ⟨hrbinds, r', hright', hrbinds', hrperm⟩ := hr.shuffles c hc r hright
  obtain ⟨hrows, hbinds⟩ := Solutions.rows_union hlbinds hrbinds
  obtain ⟨hrows', hbinds'⟩ := Solutions.rows_union hlbinds' hrbinds'
  refine ⟨hbinds, l'.union r', ?_, hbinds', ?_⟩
  · exact (outcome_bind_ok (union_steady_rest hr.steady' us' none) hrep hleft').trans
      (outcome_bind_ok (fun _ => .pure _) hrep hright')
  · rw [hrows, hrows']
    exact hlperm.append hrperm

/-! ### Graphs -/

theorem Shuffles.withGraph (h : Shuffles e vs plan' plan) (name : ActiveGraph) :
    Shuffles e vs (fun demand => Eval.withGraph name (plan' demand))
      fun demand => Eval.withGraph name (plan demand) :=
  h.within _ (Context.isScope_graph _) fun _ hc => hc.enter _

theorem Shuffles.graph (h : Shuffles e vs plan' plan) (i : Iri) (us us' : List Var) :
    Shuffles e vs (plan'.graph (.iri i) us') (plan.graph (.iri i) us) := by
  refine ⟨h.steady.graph _ us, h.steady'.graph _ us', fun c hc m hm => ?_⟩
  rw [outcome_graph h.steady hc.toRepeatable hc.real] at hm
  rw [outcome_graph h.steady' hc.toRepeatable hc.real]
  cases hfound : c.view.isAvailable (.iri i) with
  | error text =>
    rw [hfound] at hm
    cases hm
  | ok found =>
    rw [hfound] at hm
    cases found with
    | false =>
      cases hm
      exact ⟨Solutions.null_binds vs, .null, rfl, Solutions.null_binds vs, .refl _⟩
    | true => exact (h.withGraph _).shuffles c hc m hm

theorem vars_bindName {v : Var} {name : Term} {b row : Binding}
    (h : bindName v name b = some row) : row.vars ⊆ mergeVariables b.vars [v] := by
  unfold bindName at h
  intro w hw
  split at h
  · cases h
    refine mem_mergeVariables.mpr ?_
    exact (Binding.mem_vars_insert.mp hw).elim (fun h => .inr (List.mem_singleton.mpr h)) .inl
  · split at h
    · cases h
      exact Solutions.subset_mergeVariables_left hw
    · cases h

/-- The rows of every graph are those of the other plan in some order. -/
theorem Shuffles.overGraphs (h : Shuffles e vs plan' plan) (v : Var) {c : Context}
    (hc : c.IsPlain e) {graphs : List Resource} {rows rows' found : List Binding}
    (hrows : ∀ row ∈ rows, row.vars ⊆ mergeVariables vs [v]) (hperm : rows'.Perm rows)
    (hfound : (Plan.overGraphs plan v none graphs rows).outcome c = .ok found) :
    (∀ row ∈ found, row.vars ⊆ mergeVariables vs [v]) ∧
      ∃ found', (Plan.overGraphs plan' v none graphs rows').outcome c = .ok found' ∧
        found'.Perm found := by
  induction graphs generalizing rows rows' with
  | nil =>
    cases hfound
    exact ⟨hrows, rows', rfl, hperm⟩
  | cons g rest ih =>
    have hrep := hc.toRepeatable
    obtain ⟨s, hs, hfound⟩ :=
      outcome_bind_eq_ok hfound (fun _ => overGraphs_steady h.steady v none rest _) hrep
    obtain ⟨hbinds, s', hs', -, hsperm⟩ := (h.withGraph (.named g)).shuffles c hc s hs
    have hnamed := hsperm.filterMap (bindName v g.toTerm)
    have hvars : ∀ row ∈ rows ++ s.rows.filterMap (bindName v g.toTerm),
        row.vars ⊆ mergeVariables vs [v] := by
      intro row hrow
      rcases List.mem_append.mp hrow with hrow | hrow
      · exact hrows row hrow
      · obtain ⟨b, hb, hrow⟩ := List.mem_filterMap.mp hrow
        intro w hw
        refine mem_mergeVariables.mpr ?_
        exact (mem_mergeVariables.mp (vars_bindName hrow hw)).imp_left
          (hbinds.row_vars b hb ·)
    obtain ⟨hvars, found', hfound', hperm'⟩ := ih hvars (hperm.append hnamed) hfound
    refine ⟨hvars, found', ?_, hperm'⟩
    exact (outcome_bind_ok (fun _ => overGraphs_steady h.steady' v none rest _) hrep
      hs').trans hfound'

/-- A variable ranges over the same graphs on both sides. -/
theorem Shuffles.graphs (h : Shuffles e vs plan' plan) (v : Var) {us us' : List Var}
    (hus : vs ⊆ us) (hus' : vs ⊆ us') :
    Shuffles e (mergeVariables vs [v]) (plan'.graph (.var v) us')
      (plan.graph (.var v) us) := by
  have hmono {us : List Var} (hus : vs ⊆ us) {rows : List Binding}
      (hrows : ∀ row ∈ rows, row.vars ⊆ mergeVariables vs [v]) :
      (Solutions.ofRows (mergeVariables us [v]) rows).rows = rows ∧
        (Solutions.ofRows (mergeVariables us [v]) rows).Binds (mergeVariables vs [v]) := by
    have hwide : ∀ row ∈ rows, row.vars ⊆ mergeVariables us [v] := fun row hrow w hw =>
      mem_mergeVariables.mpr
        ((mem_mergeVariables.mp (hrows row hrow hw)).imp_left (hus ·))
    exact ⟨Solutions.rows_ofRows hwide, Solutions.ofRows_binds hwide hrows⟩
  refine ⟨h.steady.graph _ us, h.steady'.graph _ us', fun c hc m hm => ?_⟩
  rw [outcome_graphs h.steady hc.toRepeatable hc.real] at hm
  rw [outcome_graphs h.steady' hc.toRepeatable hc.real]
  cases hgs : (graphsOf v).outcome c with
  | error err =>
    rw [hgs] at hm
    cases hm
  | ok gs =>
    rw [hgs] at hm
    cases hfound : (Plan.overGraphs plan v none gs []).outcome c with
    | error err =>
      simp only [bind, Except.bind, hfound] at hm
      cases hm
    | ok found =>
      simp only [bind, Except.bind, hfound] at hm
      cases hm
      obtain ⟨hvars, found', hfound', hperm⟩ :=
        h.overGraphs v hc (by simp) (.refl _) hfound
      obtain ⟨hrows, hbinds⟩ := hmono hus hvars
      obtain ⟨hrows', hbinds'⟩ := hmono hus' fun row hrow => hvars row (hperm.subset hrow)
      refine ⟨hbinds, _, by simp only [bind, Except.bind, hfound'], hbinds', ?_⟩
      rw [hrows, hrows']
      exact hperm

/-! ### Leaves -/

theorem values_shuffles (vs : List Var) (rows : List (List (Option Term))) :
    Shuffles e vs (values vs rows) (values vs rows) := by
  have hsteady := values_steady vs rows
  refine ⟨hsteady, hsteady, fun c hc m hm => ?_⟩
  have hbinds := values_binds hc ((outcome_leaf hc.real none).symm.trans hm)
  exact ⟨hbinds, m, hm, hbinds, .refl _⟩

end Plan

end SparqlAlgebra
