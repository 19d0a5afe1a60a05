import SparqlAlgebra.Proofs.JoinLaws
import SparqlAlgebra.Proofs.SeedTrees

/-!
# Demands from a seed

A pattern of a condition is asked for one solution, then for two, then for four, and
so on. That is enough to find a match if the operators of the pattern honour their
demands while they start from a seed.

* `Plan.Honours`: from every seed, a plan serves what it yields without a demand;
* the operators honour demands if their inputs do. A projection does so only if the
  seed does not drop solutions of it;
* `Plan.outcome_hasMatch`: whether there is a match can be read off all solutions.
-/

namespace SparqlAlgebra

open Eval

/-! ## Contexts with a known seed -/

/-- Data is read from a seed that binds known variables only, and outcomes are
repeatable. -/
structure Context.IsSeeded (e : Environment) (known : List Var) (c : Context) : Prop
    extends c.Repeatable where
  isReal : c.IsReal e true
  start_vars : c.start.vars ⊆ known

namespace Context.IsSeeded

variable {e : Environment} {known : List Var} {c : Context}

theorem isDryRun (h : c.IsSeeded e known) : c.environment.isDryRun = false := h.isReal.real

theorem enter (h : c.IsSeeded e known) (g : ActiveGraph) :
    ({ c with view := c.view.enter g }).IsSeeded e known :=
  ⟨⟨⟨h.readable, h.inTime⟩, h.builtin⟩, h.isReal.enter g, h.start_vars⟩

theorem deeper (h : c.IsSeeded e known) (depth : Nat) :
    ({ c with depth := depth }).IsSeeded e known :=
  ⟨⟨⟨h.readable, h.inTime⟩, h.builtin⟩, h.isReal.deeper depth, h.start_vars⟩

theorem elsewhere (h : c.IsSeeded e known) (place : Option (List Nat)) :
    ({ c with place := place }).IsSeeded e known :=
  ⟨⟨⟨h.readable, h.inTime⟩, h.builtin⟩, h.isReal.elsewhere place, h.start_vars⟩

theorem erase (h : c.IsSeeded e known) (v : Var) :
    ({ c with seed := c.seed.map (Binding.erase · v) }).IsSeeded e (known.filter (· ≠ v)) := by
  refine ⟨⟨⟨h.readable, h.inTime⟩, h.builtin⟩, h.isReal.mapSeed _, fun w hw => ?_⟩
  rw [Context.start_mapSeed c (Binding.erase_empty v)] at hw
  refine List.mem_filter.mpr ⟨h.start_vars (c.start.vars_erase_subset v hw), ?_⟩
  obtain ⟨t, ht⟩ := Binding.mem_vars_iff.mp hw
  rw [Binding.get?_erase] at ht
  split at ht
  · cases ht
  · rename_i hne
    exact decide_eq_true hne

theorem project (h : c.IsSeeded e known) (vs : List Var) :
    ({ c with seed := c.seed.map (Binding.project · vs) }).IsSeeded e
      (known.filter (vs.contains ·)) := by
  refine ⟨⟨⟨h.readable, h.inTime⟩, h.builtin⟩, h.isReal.mapSeed _, fun w hw => ?_⟩
  rw [Context.start_mapSeed c (Binding.project_empty vs)] at hw
  obtain ⟨hwvs, hw⟩ := Binding.mem_vars_project.mp hw
  exact List.mem_filter.mpr ⟨h.start_vars hw, List.contains_iff_mem.mpr hwvs⟩

end Context.IsSeeded

/-- A seed on data in memory. -/
theorem Context.IsOnMemory.isSeeded {c : Context} (h : c.IsOnMemory) (b : Binding) :
    ({ c with seed := some b } : Context).IsSeeded c.environment b.vars :=
  ⟨⟨⟨h.answers.readable, h.inTime⟩, h.builtin⟩, ⟨rfl, h.real, rfl⟩, List.Subset.refl _⟩

namespace Plan

variable {c : Context} {e : Environment} {known vs ws zs own : List Var}
  {plan left right : Plan}

/-- From every seed with known variables, a plan yields for a demand what is needed of
what it yields without one. -/
structure Heeds (e : Environment) (known vs : List Var) (plan : Plan) : Prop where
  steady : plan.Steady
  serves : ∀ c, c.IsSeeded e known → ∀ m, (plan none).Yields c m →
    plan.Serves c (c.start.vars ++ vs) m

/-- A plan heeds demands, and its results are small. -/
structure Honours (e : Environment) (known vs : List Var) (plan : Plan) : Prop
    extends Heeds e known vs plan where
  small : ∀ c, c.IsSeeded e known → ∀ m, (plan none).Yields c m → m.IsSmall

/-! ## Scopes -/

theorem Serves.mono {m : Solutions} (h : plan.Serves c vs m) (hvs : vs ⊆ ws) :
    plan.Serves c ws m := by
  refine ⟨h.binds.mono hvs, fun demand => ?_⟩
  obtain ⟨s, hs, hbinds, hbegins⟩ := h.serves demand
  exact ⟨s, hs, hbinds.mono hvs, hbegins⟩

theorem Heeds.observed (h : Heeds e known vs plan) (name : String) :
    Honours e known vs (plan.observed name) := by
  refine ⟨⟨h.steady.observed name, fun c hc m hm => ?_⟩,
    fun c hc m hm => (yields_observed hc.toRepeatable hm).2⟩
  obtain ⟨hbinds, hserves⟩ :=
    h.serves _ (hc.deeper _) m (yields_observed hc.toRepeatable hm).1
  refine ⟨hbinds, fun demand => ?_⟩
  rw [outcome_observed name demand h.steady hc.toRepeatable]
  exact hserves demand

theorem Honours.input (h : Honours e known vs plan) (i : Nat) :
    Honours e known vs (plan.input i) :=
  ⟨⟨h.steady.input i, fun _ hc m hm => (h.serves _ (hc.elsewhere _) m hm).within
    (fun c => { c with place := c.place.map (· ++ [i]) }) rfl⟩,
    fun _ hc m hm => h.small _ (hc.elsewhere _) m hm⟩

/-- A plan that ignores demands serves what it yields. -/
theorem heeds_of_constant (h : plan.Starts e true vs own) (hsteady : plan.Steady)
    (hconstant : ∀ demand, plan demand = plan none) : Heeds e known vs plan := by
  refine ⟨hsteady, fun c hc m hm => ?_⟩
  have hm := hm.outcome_eq (hsteady none) hc.toRepeatable
  have hbinds := ((h c hc.isReal none).of_outcome hm).binds
  refine ⟨hbinds, fun demand => ⟨m, ?_, hbinds, Solutions.begins_of_eq rfl demand⟩⟩
  rw [hconstant demand]
  exact hm

/-! ## Operators with two inputs -/

/-- What the right side yields repeats itself. -/
theorem Steady.repeats (h : right.Steady) (hc : c.Repeatable)
    (hbinds : (right none).Ensures c (·.Binds ws)) {s : Solutions}
    (hs : (right none).Yields c s) : right.Repeats c ws none s := by
  have hs := hs.outcome_eq (h none) hc
  have hsbinds := hbinds.of_outcome hs
  exact ⟨hsbinds, s, hs, hsbinds, rfl⟩

theorem Honours.join (hl : Honours e known vs left) (hr : right.Steady)
    (hstarts : right.Starts e true ws own) :
    Heeds e known (mergeVariables vs ws) (left.join right) := by
  refine ⟨hl.steady.join hr, fun c hc o ho => ?_⟩
  have hrep := hc.toRepeatable
  obtain ⟨m, r, hm, hresult, rfl⟩ := yields_withRight hr (fun _ _ => .pure _) hrep ho
  refine Serves.mono ((hl.serves c hc m hm).withRight hrep hl.steady hr (hl.small c hc m hm)
    (fun _ _ => .pure _) (fun s hs => hr.repeats hrep ?_ hs) pairRows_progressive
    (fun _ _ h h' => ⟨_, rfl, Solutions.rows_join h h'⟩) hresult)
    (Solutions.append_mergeVariables_subset _ _ _)
  exact (hstarts c hc.isReal none).mono fun _ h => h.binds

theorem Honours.leftJoin (hl : Honours e known vs left) (hr : right.Steady)
    (hstarts : right.Starts e true ws own) {condition : Binding → Eval Bool}
    (h : ∀ b, (condition b).Steady) :
    Heeds e known (mergeVariables vs ws) (left.leftJoin right condition) := by
  refine ⟨hl.steady.leftJoin hr h, fun c hc o ho => ?_⟩
  have hrep := hc.toRepeatable
  have hsteady := fun l r => Solutions.leftJoinM_steady h l r
  obtain ⟨m, r, hm, hresult, rfl⟩ := yields_withRight hr hsteady hrep ho
  refine Serves.mono ((hl.serves c hc m hm).withRight hrep hl.steady hr (hl.small c hc m hm)
    hsteady (fun s hs => hr.repeats hrep ?_ hs) (leftRows_progressive _)
    (fun _ _ hl' hr' => leftJoin_carries h hrep hl' hr') hresult)
    (Solutions.append_mergeVariables_subset _ _ _)
  exact (hstarts c hc.isReal none).mono fun _ h => h.binds

/-- The right side of a difference does not start from the seed. -/
theorem Honours.minus (hl : Honours e known vs left) (hr : right.Steady)
    (hstarts : right.Starts e false ws own) : Heeds e known vs (left.minus right) := by
  refine ⟨hl.steady.minus hr, fun c hc o ho => ?_⟩
  have hrep := hc.toRepeatable
  have hr' : Plan.Steady fun demand => Eval.withSeed none (right demand) :=
    fun demand => (hr demand).withSeed none
  obtain ⟨m, r, hm, hresult, rfl⟩ := yields_withRight hr' (fun _ _ => .pure _) hrep ho
  have hright : (Eval.withSeed none (right none)).Ensures c
      (·.Binds (({ c with seed := none } : Context).start.vars ++ ws)) :=
    Ensures.within ((hstarts _ hc.isReal.withSeed_none none).mono fun _ h => h.binds)
  exact (hl.serves c hc m hm).withRight hrep hl.steady hr' (hl.small c hc m hm)
    (fun _ _ => .pure _) (fun s hs => hr'.repeats hrep hright hs) minusRows_progressive
    (fun _ _ h h' => ⟨_, rfl, Solutions.rows_minus h h'⟩) hresult

theorem Honours.union (hl : Honours e known vs left) (hr : Honours e known ws right) :
    Heeds e known (mergeVariables vs ws) (left.union right ws) := by
  refine ⟨hl.steady.union hr.steady ws, fun c hc o ho => ?_⟩
  have hrep := hc.toRepeatable
  obtain ⟨l, r, hl₁, hr₁, rfl⟩ := yields_union hr.steady hrep ho
  exact ((hl.serves c hc l hl₁).union (hr.serves c hc r hr₁) hrep hr.steady
    (List.subset_append_right _ _)).mono (Solutions.append_mergeVariables_subset _ _ _)

/-! ## Selections -/

theorem Honours.filter (h : Honours e known vs plan) {condition : Binding → Eval Bool}
    (hcondition : ∀ b, (condition b).Steady) : Heeds e known vs (plan.filter condition) := by
  refine ⟨h.steady.filter hcondition, fun c hc o ho => ?_⟩
  have hrep := hc.toRepeatable
  have hsteady := fun s => Solutions.retainM_steady (s := s) hcondition
  obtain ⟨m, hm, hout⟩ := yields_mapPrefix hsteady hrep ho
  exact (h.serves c hc m hm).mapPrefix hrep h.steady (h.small c hc m hm) hsteady
    (keepM_progressive _) (fun _ hs => filter_carries hcondition hrep hs)
    (hout.outcome_eq (hsteady m) hrep)

theorem Honours.existsJoin (h : Honours e known vs left) (hr : right.Steady)
    (negated : Bool) : Heeds e known vs (left.existsJoin right negated) :=
  h.filter fun b => (hasMatch_steady hr b).bind fun _ => .pure _

theorem Honours.distinct (h : Honours e known vs plan) : Heeds e known vs plan.distinct := by
  refine ⟨h.steady.distinct, fun c hc o ho => ?_⟩
  have hrep := hc.toRepeatable
  obtain ⟨m, hm, hout⟩ := yields_mapPrefix (fun _ => .pure _) hrep ho
  exact (h.serves c hc m hm).mapPrefix hrep h.steady (h.small c hc m hm) (fun _ => .pure _)
    dedup_progressive (fun _ hs => ⟨_, rfl, Solutions.rows_distinct hs⟩)
    (hout.outcome_eq (.pure _) hrep)

theorem Honours.slice (h : Honours e known vs plan) (offset : Nat) (limit : Option Nat) :
    Heeds e known vs (plan.slice offset limit) := by
  refine ⟨h.steady.slice offset limit, fun c hc o ho => ?_⟩
  have hrep := hc.toRepeatable
  obtain ⟨m, hm, ho⟩ := ho.of_bind (fun _ => .pure _) hrep
  cases ho.of_pure
  have hserves := h.serves c hc m hm
  obtain ⟨hrows, hbinds⟩ := Solutions.rows_slice hserves.binds offset limit
  exact hserves.once (g := sliceDemand offset limit) hrep (fun _ => .pure _)
    (translates_slice offset limit _ _ (congrArg Except.ok hrows.symm) (h.small c hc m hm))
    (fun _ hs => ⟨_, rfl, Solutions.rows_slice hs offset limit⟩) hbinds

/-! ## Operators that change the seed -/

/-- The input does not know the variable of an assignment. -/
theorem Honours.extend {v : Var} (h : Honours e (known.filter (· ≠ v)) vs plan)
    {f : Assignment} (hf : f.Steady) :
    Heeds e known (mergeVariables vs [v]) (plan.extend v f) := by
  refine ⟨h.steady.extend hf v, fun c hc o ho => ?_⟩
  have hrep := hc.toRepeatable
  obtain ⟨m, hm, ho⟩ := ho.of_bind (extend_steady_rest hf v) hrep
  have hsub : (c.start.erase v).vars ++ vs ⊆ c.start.vars ++ vs :=
    List.append_subset.mpr ⟨fun w hw =>
      List.mem_append_left _ (c.start.vars_erase_subset v hw), List.subset_append_right _ _⟩
  have hinner := h.serves _ (hc.erase v) m hm
  rw [Context.start_mapSeed c (Binding.erase_empty v)] at hinner
  have hserves := (hinner.mono hsub).within
    (fun c => { c with seed := c.seed.map (·.erase v) }) rfl
  obtain ⟨hrows, hbinds⟩ := (extend_carries hf hrep hserves.binds).of_ok
    (ho.outcome_eq (extend_steady_rest hf v m) hrep)
  refine (hserves.once (g := id) hrep (extend_steady_rest hf v)
    (translates_extend v _ _ _ hrows (h.small _ (hc.erase v) m hm))
    (fun _ hs => extend_carries hf hrep hs) hbinds).mono fun w hw => ?_
  simp only [mem_mergeVariables, List.mem_append] at hw ⊢
  tauto

/-- The rows of a projection that are compatible with a binding, merged with it. -/
def projectedRows (ws : List Var) (start : Binding) (rows : List Binding) : List Binding :=
  (rows.map (·.project ws)).filterMap (·.merge? start)

/-- The seed drops no row of a projection if they agree. -/
theorem translatesFrom_project {ws : List Var} {start : Binding} {rows : List Binding}
    (h : ∀ row ∈ rows, start.AgreesOutside [] (row.project ws)) :
    TranslatesFrom id (fun rows => .ok (projectedRows ws start rows)) rows
      (projectedRows ws start rows) := by
  have hlength {ys : List Binding} (hys : ys <+: rows) :
      (projectedRows ws start ys).length = ys.length := by
    rw [projectedRows, ← ys.length_map (f := (·.project ws)), List.filterMap_length_eq_length]
    intro row hrow
    obtain ⟨y, hy, rfl⟩ := List.mem_map.mp hrow
    have hcompatible := Binding.agreesOutside_nil.mp (h y (hys.subset hy))
    rw [Binding.merge?_comm, Binding.merge?, if_pos hcompatible]
    rfl
  intro ys demand hys hsize
  refine ⟨_, rfl, (hys.map _).filterMap _, ?_⟩
  -- as many solutions come out as are put in
  rcases hsize with rfl | ⟨n, hn, hle⟩
  · exact .inl rfl
  · exact .inr ⟨n, hn, by rw [hlength hys]; exact hle⟩

theorem project_carries {s : Solutions} (hs : s.Binds vs) (ws : List Var) (c : Context) :
    Solutions.Carries (c.start.vars ++ ws) ((joinSeed (s.project ws)).outcome c)
      (.ok (projectedRows ws c.start s.rows)) := by
  obtain ⟨hrows, hbinds⟩ := Solutions.rows_project hs ws
  obtain ⟨o, ho, horows, hobinds⟩ :=
    joinSeed_rows c hbinds (Progress.initial c.environment)
  refine ⟨o, congrArg Prod.fst ho, by rw [horows, hrows]; rfl, hobinds.mono fun v hv => ?_⟩
  exact List.mem_append.mpr (mem_mergeVariables.mp hv).symm

/-- A projection honours demands if its input does not compute a variable that the
seed may bind, and so its solutions are compatible with the seed. -/
theorem Honours.project {ws : List Var}
    (h : Honours e (known.filter (ws.contains ·)) vs plan) (hstarts : plan.Starts e true vs own)
    (hown : ∀ v ∈ ws, v ∈ own → v ∉ known) : Heeds e known ws (plan.project ws) := by
  refine ⟨h.steady.project ws, fun c hc o ho => ?_⟩
  have hrep := hc.toRepeatable
  obtain ⟨m, hm, ho⟩ := ho.of_bind (fun s => joinSeed_steady (s.project ws)) hrep
  have hserves := (h.serves _ (hc.project ws) m hm).within
    (fun c => { c with seed := c.seed.map (·.project ws) }) rfl
  have hagrees := ((hstarts _ (hc.isReal.mapSeed _) none).of_outcome
    (Yields.outcome_eq hm (h.steady none) (hc.project ws).toRepeatable)).agrees
  rw [Context.start_mapSeed c (Binding.project_empty ws)] at hagrees
  obtain ⟨hrows, hbinds⟩ := (project_carries hserves.binds ws c).of_ok
    (ho.outcome_eq (joinSeed_steady _) hrep)
  refine hserves.once (g := id) (f := fun rows => .ok (projectedRows ws c.start rows)) hrep
    (fun s => joinSeed_steady (s.project ws)) ?_ (fun _ hs => project_carries hs ws c) hbinds
  rw [← Except.ok.inj hrows]
  refine translatesFrom_project fun row hrow v _ s t hs ht => ?_
  -- the input starts from the values of the seed, and it does not compute them
  have hv : v ∈ ws := (Binding.mem_vars_project.mp (Binding.mem_vars_iff.mpr ⟨t, ht⟩)).1
  have hknown := hc.start_vars (Binding.mem_vars_iff.mpr ⟨s, hs⟩)
  rw [Binding.get?_project, if_pos hv] at ht
  refine hagrees row hrow v (fun hvown => hown v hv hvown hknown) s t ?_ ht
  rw [Binding.get?_project, if_pos hv]
  exact hs

theorem Heeds.graph (h : Heeds e known vs plan) (i : Iri) (us : List Var) :
    Heeds e known vs (plan.graph (.iri i) us) :=
  ⟨h.steady.graph _ us, fun _ hc _ hm => .graph h.steady h.steady hc.toRepeatable hc.isDryRun
    (fun m hm => h.serves _ (hc.enter _) m hm) hm⟩

end Plan

/-! ## Patterns -/

/-- A step that extends the seed is related to itself. -/
theorem Step.Starts.followsAt {c : Context} {vs : List Var} {s : Step} (h : s.Starts c vs)
    (hs : s.Steady) (hc : c.Repeatable) : Step.FollowsAt c (c.start.vars ++ vs) s s := by
  cases h with
  | extend h =>
    refine .extend hs fun b bs hbs b' hb' v hv => ?_
    exact (List.mem_append.mp (((h b).of_outcome hbs b' hb').2 hv)).elim
      (List.mem_append_left _) fun hv =>
        List.mem_append_right _ (List.mem_append_right _ hv)
  | assign hv value => exact .assign hs (List.mem_append_right _ hv)
  | subQuery number h =>
    exact .subQuery hs hs (fun _ hm => Plan.Steady.repeats hs hc h hm) (List.Subset.refl _)
  | filter condition => exact .filter hs

namespace Plan

variable {e : Environment} {known vs : List Var} {plan : Plan}

theorem bgp_heeds {steps : List Step} (hsteady : ∀ s ∈ steps, s.Steady)
    (hstarts : ∀ c, c.IsReal e true → ∀ s ∈ steps, s.Starts c vs)
    (hnumbered : Step.AreNumbered steps) : Heeds e known vs (bgp steps vs) := by
  refine ⟨bgp_steady hsteady vs, fun c hc o ho => ?_⟩
  refine bgp_serves hc.toRepeatable hc.isDryRun ?_ hnumbered hnumbered ho
  exact List.forall₂_same.mpr fun s hs =>
    (hstarts c hc.isReal s hs).followsAt (hsteady s hs) hc.toRepeatable

/-! ## Looking for a match -/

/-- A match is found among the first solutions if there is one. If fewer are returned
than asked for, these are all. -/
theorem outcome_hasMatchFrom {c : Context} {m : Solutions} (hc : c.Repeatable)
    (hplan : plan.Steady) (hserves : plan.Serves c vs m) (hm : m.IsSmall) (b : Binding)
    {asked : Nat} (hasked : 0 < asked) :
    (hasMatchFrom plan b asked).outcome c = .ok (m.rows.any (·.isCompatible b)) := by
  induction asked using hasMatchFrom.induct with
  | case1 asked ih =>
    obtain ⟨found, hfound, hbinds, hbegin, hsize⟩ := hserves.serves (some asked)
    have hle : found.size ≤ m.size := hbegin.length_le
    have hrest (s : Solutions) : Eval.Steady
        (if s.isSingleton || s.rows.any (·.isCompatible b) then Pure.pure true
        else if _h : asked ≤ s.size ∧ 0 < asked ∧ asked < maxCount then
          hasMatchFrom plan b (double asked)
        else Pure.pure false) := by
      split
      · exact .pure _
      · split
        · exact hasMatchFrom_agree hplan b _
        · exact .pure _
    unfold hasMatchFrom
    refine (outcome_bind_ok hrest hc hfound).trans ?_
    rw [hbinds.real, Bool.false_or]
    by_cases hany : found.rows.any (·.isCompatible b) = true
    · -- what is found is among all solutions
      rw [if_pos hany]
      obtain ⟨row, hrow, hcompatible⟩ := List.any_eq_true.mp hany
      have : m.rows.any (·.isCompatible b) = true :=
        List.any_eq_true.mpr ⟨row, hbegin.subset hrow, hcompatible⟩
      rw [this]
      rfl
    · rw [if_neg hany]
      by_cases hmore : asked ≤ found.size
      · -- there is room for another round, since there are not that many solutions
        have hlt : asked < maxCount := by
          have : m.size < maxCount := hm
          omega
        rw [dif_pos ⟨hmore, hasked, hlt⟩]
        exact ih found ⟨hmore, hasked, hlt⟩ (Nat.lt_trans hasked (lt_double hasked hlt))
      · -- fewer were returned than asked for, so there are no others
        rw [dif_neg fun h => hmore h.1]
        rcases hsize with hall | ⟨n, hn, hle'⟩
        · rw [← hall, Bool.eq_false_iff.mpr hany]
          rfl
        · cases hn
          exact absurd hle' hmore

/-- Whether there is a match can be read off all solutions from the seed. -/
theorem outcome_hasMatch {c : Context} {b : Binding} {m : Solutions}
    (h : Honours e known vs plan) (hc : ({ c with seed := some b }).IsSeeded e known)
    (hm : (plan none).Yields { c with seed := some b } m) :
    (hasMatch plan b).outcome c = .ok (m.rows.any (·.isCompatible b)) :=
  outcome_hasMatchFrom hc.toRepeatable h.steady (h.serves _ hc m hm) (h.small _ hc m hm) b
    Nat.one_pos

end Plan

end SparqlAlgebra
