import SparqlAlgebra.Proofs.EnsuredPlans

/-!
# Seeds

The pattern of a condition is evaluated for one solution at a time, its seed.
Operators start from the seed, join what they find with it, or drop it; then
they may bind a variable of the seed to another term.

* `Plan.joinSeed_rows`: joining with the seed keeps what is compatible with it;
* `Plan.Starts`: solutions bind variables of the seed and some further ones, and
  they agree with the seed except for the variables that are computed on the way;
* each operator starts from the seed if its inputs do.
-/

namespace SparqlAlgebra

open Eval

/-! ## Contexts with a seed -/

/-- Data is read, not only the variables of patterns; there is a seed or not. -/
structure Context.IsReal (e : Environment) (seeded : Bool) (c : Context) : Prop where
  environment_eq : c.environment = e
  real : c.environment.isDryRun = false
  isSome_seed : c.seed.isSome = seeded

namespace Context.IsReal

variable {e : Environment} {seeded : Bool} {c : Context}

theorem withSeed_none (h : c.IsReal e seeded) : ({ c with seed := none }).IsReal e false :=
  ⟨h.environment_eq, h.real, rfl⟩

theorem mapSeed (h : c.IsReal e seeded) (f : Binding → Binding) :
    ({ c with seed := c.seed.map f }).IsReal e seeded :=
  ⟨h.environment_eq, h.real, Option.isSome_map.trans h.isSome_seed⟩

theorem enter (h : c.IsReal e seeded) (g : ActiveGraph) :
    ({ c with view := c.view.enter g }).IsReal e seeded :=
  ⟨h.environment_eq, h.real, h.isSome_seed⟩

theorem deeper (h : c.IsReal e seeded) (depth : Nat) :
    ({ c with depth := depth }).IsReal e seeded :=
  ⟨h.environment_eq, h.real, h.isSome_seed⟩

theorem elsewhere (h : c.IsReal e seeded) (place : Option (List Nat)) :
    ({ c with place := place }).IsReal e seeded :=
  ⟨h.environment_eq, h.real, h.isSome_seed⟩

theorem unseeded (h : c.IsReal e false) : c.seed = none := by
  simpa using h.isSome_seed

end Context.IsReal

theorem Context.IsPlain.isReal {e : Environment} {c : Context} (h : c.IsPlain e) :
    c.IsReal e false := ⟨h.environment_eq, h.real, by simp [h.unseeded]⟩

theorem Context.start_mapSeed (c : Context) {f : Binding → Binding} (hf : f .empty = .empty) :
    ({ c with seed := c.seed.map f }).start = f c.start := by
  unfold start
  dsimp only
  cases c.seed with
  | none => exact hf.symm
  | some b => rfl

/-! ## Agreement with the seed -/

namespace Binding

variable {a b row : Binding} {own own' : List Var} {v : Var}

/-- The bindings do not disagree, except for some variables. -/
def AgreesOutside (own : List Var) (a b : Binding) : Prop :=
  ∀ v, v ∉ own → ∀ s t, a.get? v = some s → b.get? v = some t → s = t

theorem AgreesOutside.mono (h : a.AgreesOutside own b) (hown : own ⊆ own') :
    a.AgreesOutside own' b := fun v hv => h v fun hv' => hv (hown hv')

theorem agreesOutside_nil : a.AgreesOutside [] b ↔ a.isCompatible b = true := by
  rw [isCompatible_iff]
  exact forall_congr' fun v => by simp

theorem IsWithin.agreesOutside (h : a.IsWithin b) (own : List Var) : a.AgreesOutside own b :=
  fun v _ s _ hs ht => Option.some.inj ((h v s hs).symm.trans ht)

/-- A binding without variables of the other one agrees with it. -/
theorem agreesOutside_of_vars (h : ∀ v ∈ b.vars, v ∈ own) : a.AgreesOutside own b :=
  fun v hv _ t _ ht => absurd (h v (mem_vars_iff.mpr ⟨t, ht⟩)) hv

theorem AgreesOutside.merge (ha : row.AgreesOutside own a) (hb : row.AgreesOutside own b)
    {m : Binding} (hm : a.merge? b = some m) : row.AgreesOutside own m := by
  intro v hv s t hs ht
  rw [get?_of_merge? hm, Option.or_eq_some_iff] at ht
  exact ht.elim (ha v hv s t hs) fun ht => hb v hv s t hs ht.2

/-- An inserted value agrees if the other binding has it or has none. -/
theorem AgreesOutside.insert {t : Term} (h : a.AgreesOutside own b)
    (ht : ∀ s, v ∉ own → a.get? v = some s → s = t) : a.AgreesOutside own (b.insert v t) := by
  intro w hw s u hs hu
  rw [get?_insert] at hu
  split at hu
  · rename_i hwv
    cases hu
    rw [hwv] at hw hs
    exact ht s hw hs
  · exact h w hw s u hs hu

theorem erase_empty (v : Var) : Binding.empty.erase v = .empty :=
  ext_get? fun w => by simp

theorem project_empty (vs : List Var) : Binding.empty.project vs = .empty :=
  ext_get? fun w => by simp

theorem vars_erase_subset (b : Binding) (v : Var) : (b.erase v).vars ⊆ b.vars := by
  intro w hw
  obtain ⟨t, ht⟩ := mem_vars_iff.mp hw
  rw [get?_erase] at ht
  split at ht
  · cases ht
  · exact mem_vars_iff.mpr ⟨t, ht⟩

end Binding

/-- Solutions of a pattern that starts from a binding: they bind variables of the
binding and of the pattern, and they agree with the binding except for some
variables. -/
structure Solutions.StartsFrom (start : Binding) (vs own : List Var) (m : Solutions) :
    Prop where
  binds : m.Binds (start.vars ++ vs)
  agrees : ∀ row ∈ m.rows, start.AgreesOutside own row

namespace Solutions

variable {start : Binding} {vs ws own : List Var} {m o : Solutions}

theorem StartsFrom.of_subset (h : m.StartsFrom start vs own) (ho : o.Binds (start.vars ++ vs))
    (hrows : o.rows ⊆ m.rows) : o.StartsFrom start vs own :=
  ⟨ho, fun row hrow => h.agrees row (hrows hrow)⟩

theorem null_startsFrom : null.StartsFrom start vs own :=
  ⟨null_binds _, fun _ hrow => absurd hrow List.not_mem_nil⟩

/-- Variables that are declared without the seed are among those of all. -/
theorem append_mergeVariables_subset (us vs ws : List Var) :
    mergeVariables (us ++ vs) (us ++ ws) ⊆ us ++ mergeVariables vs ws := by
  intro v hv
  simp only [mem_mergeVariables, List.mem_append] at hv ⊢
  tauto

end Solutions

namespace Plan

variable {c : Context} {e : Environment} {seeded : Bool} {vs ws own own' : List Var}
  {plan left right : Plan}

/-- Whatever the plan yields in a context with data starts from the seed. -/
def Starts (e : Environment) (seeded : Bool) (vs own : List Var) (plan : Plan) : Prop :=
  ∀ c, c.IsReal e seeded → ∀ demand,
    (plan demand).Ensures c (·.StartsFrom c.start vs own)

/-- Without a seed, the start is the one empty binding, which is neutral. -/
theorem runFrom_joinSeed (c : Context) (s : Solutions) (p : Progress) :
    (joinSeed s).runFrom c p = (.ok (s.join (.ofBinding c.start)), p) := by
  have hneutral : s.join (.ofBinding .empty) = s := by cases s <;> rfl
  unfold joinSeed Context.start
  rw [runFrom_bind_ok c p (runFrom_read c p)]
  cases c.seed with
  | none =>
    rw [Option.getD_none, hneutral]
    rfl
  | some b =>
    rw [Option.getD_some]
    dsimp only
    split
    · rename_i hempty
      rw [Binding.ext_entries (b := .empty) (List.isEmpty_iff.mp hempty), hneutral]
      rfl
    · rfl

/-- Joining with the seed keeps the rows that are compatible with it. -/
theorem joinSeed_rows (c : Context) {s : Solutions} (hs : s.Binds vs) (p : Progress) :
    ∃ o, (joinSeed s).runFrom c p = (.ok o, p) ∧
      o.rows = s.rows.filterMap (·.merge? c.start) ∧
      o.Binds (mergeVariables vs c.start.vars) := by
  have hvars : ∀ row ∈ [c.start], row.vars ⊆ c.start.vars := by simp
  have hone : (Solutions.ofBinding c.start).rows = [c.start] := Solutions.rows_ofRows hvars
  have hbinds : (Solutions.ofBinding c.start).Binds c.start.vars :=
    Solutions.ofRows_binds hvars hvars
  obtain ⟨hrows, hjoin⟩ := Solutions.rows_join hs hbinds
  refine ⟨_, runFrom_joinSeed c s p, ?_, hjoin⟩
  rw [hrows, hone, Solutions.pairRows, List.filterMap_eq_flatMap_toList]
  refine List.flatMap_congr fun l _ => ?_
  cases hmerge : l.merge? c.start <;> simp [hmerge]

/-- What is joined with the seed agrees with it. -/
theorem joinSeed_ensures {s : Solutions} (hs : s.Binds (c.start.vars ++ vs)) :
    (joinSeed s).Ensures c (·.StartsFrom c.start vs []) := by
  intro p o q hrun
  obtain ⟨o', hrun', hrows, hbinds⟩ := joinSeed_rows c hs p
  cases hrun.symm.trans hrun'
  refine ⟨hbinds.mono fun v hv => ?_, fun row hrow => ?_⟩
  · rcases mem_mergeVariables.mp hv with hv | hv
    · exact hv
    · exact List.mem_append_left _ hv
  · rw [hrows] at hrow
    obtain ⟨l, -, hmerge⟩ := List.mem_filterMap.mp hrow
    exact (Binding.isWithin_of_merge? hmerge).2.agreesOutside []

/-! ## Scopes -/

theorem Starts.observed (h : plan.Starts e seeded vs own) (name : String) :
    (plan.observed name).Starts e seeded vs own := fun _ hc demand =>
  observed_ensures (h _ (hc.deeper _) demand) name

theorem Starts.input (h : plan.Starts e seeded vs own) (i : Nat) :
    (plan.input i).Starts e seeded vs own := fun _ hc demand =>
  (h _ (hc.elsewhere _) demand).within

/-! ## Operators with two inputs -/

theorem Starts.join (hl : left.Starts e seeded vs own) (hr : right.Starts e seeded ws own') :
    (left.join right).Starts e seeded (mergeVariables vs ws) (own ++ own') := by
  intro c hc
  refine withRight_ensures (hl c hc) (hr c hc none) Solutions.null_startsFrom
    fun l r hl hr => .pure ?_
  obtain ⟨hrows, hbinds⟩ := Solutions.rows_join hl.binds hr.binds
  refine ⟨hbinds.mono (Solutions.append_mergeVariables_subset _ _ _), fun row hrow => ?_⟩
  rw [hrows] at hrow
  obtain ⟨x, hx, hrow⟩ := List.mem_flatMap.mp hrow
  obtain ⟨y, hy, hmerge⟩ := List.mem_filterMap.mp hrow
  exact ((hl.agrees x hx).mono (List.subset_append_left _ _)).merge
    ((hr.agrees y hy).mono (List.subset_append_right _ _)) hmerge

theorem Starts.leftJoin (hl : left.Starts e seeded vs own)
    (hr : right.Starts e seeded ws own') (condition : Binding → Eval Bool) :
    (left.leftJoin right condition).Starts e seeded (mergeVariables vs ws) (own ++ own') := by
  intro c hc
  refine withRight_ensures (hl c hc) (hr c hc none) Solutions.null_startsFrom
    fun l r hl hr => (leftJoinM_ensures hl.binds hr.binds).mono fun o ho => ?_
  refine ⟨ho.1.mono (Solutions.append_mergeVariables_subset _ _ _), fun row hrow => ?_⟩
  obtain ⟨x, hx, rfl | ⟨y, hy, hmerge⟩⟩ := ho.2 row hrow
  · exact (hl.agrees row hx).mono (List.subset_append_left _ _)
  · exact ((hl.agrees x hx).mono (List.subset_append_left _ _)).merge
      ((hr.agrees y hy).mono (List.subset_append_right _ _)) hmerge

/-- The right side of a difference does not start from the seed. -/
theorem Starts.minus (hl : left.Starts e seeded vs own) (hr : right.Starts e false ws own') :
    (left.minus right).Starts e seeded vs own := by
  intro c hc
  refine withRight_ensures (hl c hc) (hr _ hc.withSeed_none none).within
    Solutions.null_startsFrom fun l r hl hr => .pure ?_
  obtain ⟨hrows, hbinds⟩ := Solutions.rows_minus hl.binds hr.binds
  refine hl.of_subset hbinds ?_
  rw [hrows]
  exact List.filter_subset_self _

theorem Starts.union (hl : left.Starts e seeded vs own) (hr : right.Starts e seeded ws own') :
    (left.union right ws).Starts e seeded (mergeVariables vs ws) (own ++ own') := by
  intro c hc
  refine union_ensures (hl c hc) (hr c hc) (fun l hl => ?_) fun l r hl hr => ?_
  · obtain ⟨hrows, hbinds⟩ := Solutions.rows_extendVariables hl.binds ws
    refine ⟨hbinds.mono fun v hv => ?_, fun row hrow => ?_⟩
    · simp only [mem_mergeVariables, List.mem_append] at hv ⊢
      tauto
    · rw [hrows] at hrow
      exact (hl.agrees row hrow).mono (List.subset_append_left _ _)
  · obtain ⟨hrows, hbinds⟩ := Solutions.rows_union hl.binds hr.binds
    refine ⟨hbinds.mono (Solutions.append_mergeVariables_subset _ _ _), fun row hrow => ?_⟩
    rw [hrows] at hrow
    rcases List.mem_append.mp hrow with hrow | hrow
    · exact (hl.agrees row hrow).mono (List.subset_append_left _ _)
    · exact (hr.agrees row hrow).mono (List.subset_append_right _ _)

/-! ## Selections -/

theorem Starts.filter (h : plan.Starts e seeded vs own) (condition : Binding → Eval Bool) :
    (plan.filter condition).Starts e seeded vs own := fun c hc =>
  mapPrefix_ensures (h c hc) fun _ hs => (retainM_ensures hs.binds).mono fun _ ho =>
    hs.of_subset ho.1 ho.2.subset

theorem Starts.existsJoin (h : left.Starts e seeded vs own) (right : Plan) (negated : Bool) :
    (left.existsJoin right negated).Starts e seeded vs own := h.filter _

theorem Starts.distinct (h : plan.Starts e seeded vs own) :
    plan.distinct.Starts e seeded vs own := by
  intro c hc
  refine mapPrefix_ensures (h c hc) fun s hs => .pure ?_
  obtain ⟨hrows, hbinds⟩ := Solutions.rows_distinct hs.binds
  refine hs.of_subset hbinds fun row hrow => ?_
  rw [hrows] at hrow
  exact mem_dedup.mp hrow

theorem Starts.slice (h : plan.Starts e seeded vs own) (offset : Nat) (limit : Option Nat) :
    (plan.slice offset limit).Starts e seeded vs own := by
  intro c hc demand
  refine (h c hc _).bind fun s hs => .pure ?_
  obtain ⟨hrows, hbinds⟩ := Solutions.rows_slice hs.binds offset limit
  exact hs.of_subset hbinds (hrows ▸ (Solutions.sliceRows_sublist _ _ _).subset)

theorem Starts.limit (h : plan.Starts e seeded vs own) (count : Nat) :
    (plan.limit count).Starts e seeded vs own := by
  intro c hc demand
  refine (h c hc _).bind fun s hs => .pure ?_
  obtain ⟨hrows, hbinds⟩ := Solutions.rows_truncate hs.binds count
  exact hs.of_subset hbinds (hrows ▸ List.take_subset _ _)

theorem Starts.orderBy (h : plan.Starts e seeded vs own) (keys : List SortKey) :
    (plan.orderBy keys).Starts e seeded vs own := by
  intro c hc demand
  refine (h c hc none).bind fun s hs => ?_
  split
  · exact .pure hs
  · refine (SortKey.keyed_ensures keys s.rows).bind fun rows hrows => .pure ?_
    have hsub : (stableSort (fun a b => decide
        (SortKey.compareValues (keys.map (·.descending)) a.1 b.1 = .lt)) rows).map (·.2) ⊆
        s.rows := by
      rw [← hrows]
      exact ((stableSort_perm _ rows).map _).subset
    have hown := fun row hrow => hs.binds.wellFormed row (hsub hrow)
    refine hs.of_subset (Solutions.ofRows_binds hown fun row hrow =>
      hs.binds.row_vars row (hsub hrow)) ?_
    rw [Solutions.rows_ofRows hown]
    exact hsub

/-! ## Operators that change the seed -/

/-- The variable of an assignment is computed, and its value in the seed is
hidden from the input. -/
theorem Starts.extend (h : plan.Starts e seeded vs own) (v : Var) (f : Assignment) :
    (plan.extend v f).Starts e seeded (mergeVariables vs [v]) (v :: own) := by
  intro c hc demand
  have hinner := h _ (hc.mapSeed (·.erase v)) demand
  rw [Context.start_mapSeed c (Binding.erase_empty v)] at hinner
  refine extend_ensures f hinner (fun s hs hsingleton => ?_) fun s rows hs hrows => ?_
  · rw [hs.binds.real] at hsingleton
    cases hsingleton
  -- apart from the variable, the input starts from the values of the seed
  have hagrees {row : Binding} (hrow : row ∈ s.rows) : c.start.AgreesOutside (v :: own) row := by
    intro w hw t u ht hu
    rw [List.mem_cons, not_or] at hw
    obtain ⟨hwv, hw⟩ := hw
    refine hs.agrees row hrow w hw t u ?_ hu
    rw [Binding.get?_erase, if_neg hwv, ht]
  have hvars {us : List Var} (hus : ∀ row ∈ s.rows, row.vars ⊆ us) :
      ∀ row ∈ rows, row.vars ⊆ mergeVariables us [v] := by
    intro row hrow w hw
    rw [mem_mergeVariables]
    obtain ⟨b, hb, rfl | ⟨t, rfl⟩⟩ := hrows row hrow
    · exact .inl (hus row hb hw)
    · exact (Binding.mem_vars_insert.mp hw).elim (fun h => .inr (by simp [h])) fun hw =>
        .inl (hus b hb hw)
  have hown := hvars hs.binds.wellFormed
  refine ⟨(Solutions.ofRows_binds hown (hvars hs.binds.row_vars)).mono fun w hw => ?_,
    fun row hrow => ?_⟩
  · rcases mem_mergeVariables.mp hw with hw | hw
    · rcases List.mem_append.mp hw with hw | hw
      · exact List.mem_append_left _ (c.start.vars_erase_subset v hw)
      · exact List.mem_append_right _ (Solutions.subset_mergeVariables_left hw)
    · exact List.mem_append_right _ (Solutions.subset_mergeVariables_right hw)
  · rw [Solutions.rows_ofRows hown] at hrow
    obtain ⟨b, hb, rfl | ⟨t, rfl⟩⟩ := hrows row hrow
    · exact hagrees hb
    · exact (hagrees hb).insert fun _ hv _ => absurd List.mem_cons_self hv

/-- Groups bind their own variables only. -/
theorem Starts.group (h : plan.Starts e false vs own) (keys : List Var)
    (columns : List (Var × Column)) :
    (plan.group keys columns).Starts e seeded (keys ++ columns.map (·.1))
      (keys ++ columns.map (·.1)) := by
  intro c hc demand
  refine group_ensures keys columns (h _ hc.withSeed_none none) (fun s hs hsingleton => ?_)
    fun rows hrows => ?_
  · rw [hs.binds.real] at hsingleton
    cases hsingleton
  · refine ⟨Solutions.ofRows_binds hrows fun row hrow v hv =>
      List.mem_append_right _ (hrows row hrow hv), fun row hrow => ?_⟩
    rw [Solutions.rows_ofRows hrows] at hrow
    exact Binding.agreesOutside_of_vars fun v hv => hrows row hrow hv

/-- A projection joins with the seed at the end. -/
theorem Starts.project (h : plan.Starts e seeded vs own) (ws : List Var) :
    (plan.project ws).Starts e seeded ws [] := by
  intro c hc demand
  refine Ensures.bind (h _ (hc.mapSeed _) demand).within fun s hs => joinSeed_ensures ?_
  exact (Solutions.rows_project hs.binds ws).2.mono (List.subset_append_right _ _)

/-! ## Leaves -/

/-- A run on data is no dry run. -/
theorem not_dry (hc : c.IsReal e seeded) {P : Prop} (hdry : c.environment.isDryRun = true) :
    P := by
  rw [hc.real] at hdry
  cases hdry

theorem values_starts (vs : List Var) (rows : List (List (Option Term))) :
    (values vs rows).Starts e seeded vs [] := by
  intro c hc
  refine values_ensures (not_dry hc) fun hvars => ?_
  exact joinSeed_ensures ((Solutions.ofRows_binds hvars hvars).mono
    (List.subset_append_right _ _))

theorem pathSearch_starts (s : Position) (search : PathSearch) (o : Position) :
    (pathSearch s search o).Starts e seeded (Position.vars [s, o]) [] := by
  intro c hc
  refine pathSearch_ensures (not_dry hc) fun ps hps rows hrows => ?_
  exact joinSeed_ensures (Solutions.ofRows_binds hrows fun row hrow v hv =>
    List.mem_append_right _ (hps (hrows row hrow hv)))

/-- What a service answers has to be about the variables of the call. -/
theorem service_starts {name : NameRef} {silent : Bool} {pattern : Query.Pattern}
    (h : ∀ handler, e.services = some handler → ∀ i s, name = .iri i ∨ seeded = true →
      handler ⟨i, pattern⟩ e.base = .ok s → s.Binds vs) :
    (service name vs silent pattern).Starts e seeded vs [] := by
  intro c hc
  apply service_ensures (not_dry hc) Solutions.null_startsFrom
  intro handler hhandler i s _ hname hs
  rw [hc.environment_eq] at hhandler hs
  rw [hc.isSome_seed] at hname
  exact joinSeed_ensures ((h handler hhandler i s hname hs).mono (List.subset_append_right _ _))

/-- Asking has the empty solution. -/
theorem ask_starts (inner : Plan) : inner.ask.Starts e seeded [] [] := by
  intro c _ demand
  apply ask_ensures Solutions.null_startsFrom
  refine ⟨Solutions.identity_binds _, fun row hrow => ?_⟩
  rw [List.mem_singleton.mp hrow]
  exact Binding.agreesOutside_of_vars fun v hv => absurd hv List.not_mem_nil

/-! ## Graphs -/

theorem Starts.graph (h : plan.Starts e seeded vs own) (i : Iri) (us : List Var) :
    (plan.graph (.iri i) us).Starts e seeded vs own := by
  intro c hc demand
  exact graph_ensures (h _ (hc.enter _) demand) Solutions.null_startsFrom us

/-- Without a seed a graph of any name binds its variable. With a seed the solutions
would bind variables that are not declared. -/
theorem Starts.graphs (h : plan.Starts e false vs own) (v : Var) :
    (plan.graph (.var v) vs).Starts e false (mergeVariables vs [v]) own := by
  intro c hc demand
  have hstart := Context.start_of_unseeded hc.unseeded
  have hnamed (g : Resource) (demand : Demand) :
      (plan demand).Ensures { c with view := c.view.enter (.named g) } fun s =>
        ∀ row ∈ s.rows.filterMap (bindName v g.toTerm), row.vars ⊆ mergeVariables vs [v] := by
    refine (h _ (hc.enter _) demand).mono fun s hs row hrow w hw => ?_
    obtain ⟨b, hb, hname⟩ := List.mem_filterMap.mp hrow
    have hbinds : b.vars ⊆ c.start.vars ++ vs := hs.binds.row_vars b hb
    rw [hstart] at hbinds
    exact mem_mergeVariables.mpr ((mem_mergeVariables.mp (vars_bindName hname hw)).imp_left
      (hbinds ·))
  refine graphs_ensures (not_dry hc) hnamed fun rows hrows => ?_
  rw [hstart]
  -- the empty start agrees with everything
  exact ⟨(Solutions.ofRows_binds hrows hrows).mono (List.subset_append_right _ _),
    fun row _ => (Binding.empty_isWithin row).agreesOutside own⟩

end Plan

end SparqlAlgebra
