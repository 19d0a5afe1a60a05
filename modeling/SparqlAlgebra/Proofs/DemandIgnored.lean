import SparqlAlgebra.Proofs.DemandOperators
import SparqlAlgebra.Proofs.PathEnds
import SparqlAlgebra.Proofs.SteadyTrees

/-!
# Operators that ignore demands

Groups and sorted solutions take all solutions of the input, asking takes one,
and leaves yield everything at once. These operators do the same for every
demand, so it is enough that they repeat their results.
-/

namespace SparqlAlgebra

open Eval

namespace Plan

variable {e : Environment} {vs ws : List Var} {plan plan' : Plan}

/-- Plans that ignore demands follow each other if they repeat their results. -/
theorem follows_of_constant {x x' : Eval Solutions} (hx : x.Steady)
    (hx' : x'.Steady) (h : ∀ c, c.IsPlain e → ∀ m, x.Yields c m →
      Repeats c vs none (fun _ => x') m) :
    Follows e vs (fun _ => x') fun _ => x := by
  refine ⟨fun _ => hx, fun _ => hx', fun c hc m hm => ?_, fun c hc _ m hm => ?_⟩
  · obtain ⟨hbinds, s, hs, hsbinds, hrows⟩ := h c hc m hm
    exact ⟨hbinds, fun demand =>
      ⟨s, hs, hsbinds, Solutions.begins_of_eq hrows demand⟩⟩
  · obtain ⟨hbinds, hrepeats⟩ := h c hc m hm
    exact ⟨hbinds, hrepeats⟩

/-- An operator that takes all solutions of its input. -/
theorem Follows.all (h : Follows e vs plan' plan) {rest : Solutions → Eval Solutions}
    (hrest : ∀ s, (rest s).Steady)
    (hcarries : ∀ c, c.IsPlain e →
      ∃ f : List Binding → Except QueryError (List Binding), ∀ s, s.Binds vs →
        Solutions.Carries ws ((rest s).outcome c) (f s.rows)) :
    Follows e ws (fun _ => plan' none >>= rest) fun _ => plan none >>= rest := by
  refine follows_of_constant ((h.steady none).bind hrest)
    ((h.steady' none).bind hrest) fun c hc o ho => ?_
  have hrep := hc.toRepeatable
  obtain ⟨m, hm, ho⟩ := ho.of_bind hrest hrep
  obtain ⟨f, hcarries⟩ := hcarries c hc
  have hrepeats := h.repeats hc hm
  obtain ⟨hrows, hbinds⟩ := (hcarries m hrepeats.binds).of_ok
    (ho.outcome_eq (hrest m) hrep)
  exact ⟨hbinds, hrepeats.once hrep hrest hcarries hrows⟩

/-! ## Asking -/

theorem outcome_ask {c : Context} (hc : c.Repeatable) (hreal : c.environment.isDryRun = false)
    (demand : Demand) :
    (plan.ask demand).outcome c = (plan (some 1)).outcome c >>= fun s =>
      .ok (if s.isEmpty then .null else .identity) := by
  unfold Plan.ask
  rw [act_eval, outcome_read_bind, hreal]
  exact outcome_bind (fun _ => .pure _) hc

/-- Asking looks at whether there is a first solution. -/
theorem ask_follows (hplan : plan.Steady) (hplan' : plan'.Steady)
    (h : ∀ c, c.IsPlain e → ∀ m, (plan (some 1)).Yields c m →
      ∃ s, (plan' (some 1)).outcome c = .ok s ∧ s.isEmpty = m.isEmpty) :
    Follows e [] plan'.ask plan.ask := by
  have hrest (s : Solutions) : Eval.Steady
      (Pure.pure (if s.isEmpty then Solutions.null else .identity)) := .pure _
  show Follows e [] (fun _ => plan'.ask none) fun _ => plan.ask none
  refine follows_of_constant (hplan.ask none) (hplan'.ask none) fun c hc o ho => ?_
  have hrep := hc.toRepeatable
  unfold Plan.ask at ho
  have ho := ho.of_read_bind
  rw [if_neg (by simp [hc.real])] at ho
  obtain ⟨m, hm, ho⟩ := ho.of_bind hrest hrep
  cases ho.of_pure
  obtain ⟨s, hs, hempty⟩ := h c hc m hm
  have hbinds : Solutions.Binds (if m.isEmpty then .null else .identity) [] := by
    split
    · exact Solutions.null_binds []
    · exact Solutions.identity_binds []
  refine ⟨hbinds, _, ?_, hbinds, rfl⟩
  rw [outcome_ask hrep hc.real, hs, ← hempty]
  rfl

theorem Follows.ask (h : Follows e vs plan' plan) :
    Follows e [] plan'.ask plan.ask := by
  refine ask_follows h.steady h.steady' fun c hc m hm => ?_
  obtain ⟨-, s, hs, -, hrows⟩ := h.repeats hc hm
  exact ⟨s, hs, by rw [Solutions.isEmpty, hrows, Solutions.isEmpty]⟩

/-- One solution is enough. -/
theorem Limits.ask (h : Limits e vs 1 plan' plan) {other : Plan}
    (hplan : Follows e vs other plan) : Follows e [] plan'.ask plan.ask := by
  refine ask_follows hplan.steady h.steady' fun c hc m hm => ?_
  obtain ⟨-, s, hs, -, hrows⟩ := h.repeatsSome c hc 1 m (Nat.le_refl 1) hm
  refine ⟨s, hs, ?_⟩
  have hbinds := (hplan.repeats hc hm).binds
  rw [Solutions.isEmpty, hrows, (Solutions.rows_truncate hbinds 1).1,
    Solutions.isEmpty]
  cases m.rows <;> rfl

end Plan

/-! ## Groups and sorted solutions -/

theorem insertDescending_perm {α : Type} (less : α → α → Bool) (x : α)
    (xs : List α) : (insertDescending less x xs).Perm (x :: xs) := by
  induction xs with
  | nil => exact .refl _
  | cons y ys ih =>
    unfold insertDescending
    split
    · exact (ih.cons y).trans (.swap x y ys)
    · exact .refl _

/-- Sorting keeps the elements. -/
theorem stableSort_perm {α : Type} (less : α → α → Bool) (xs : List α) :
    (stableSort less xs).Perm xs := by
  have hfold (sorted : List α) :
      (xs.foldl (fun sorted x => insertDescending less x sorted) sorted).Perm
        (xs ++ sorted) := by
    induction xs generalizing sorted with
    | nil => exact .refl _
    | cons x xs ih =>
      refine (ih _).trans ?_
      refine ((insertDescending_perm less x sorted).append_left xs).trans ?_
      exact List.perm_middle
  exact (List.reverse_perm _).trans (by simpa using hfold [])

namespace Plan

variable {e : Environment} {vs ws : List Var} {plan plan' : Plan}

theorem Follows.group (h : Follows e vs plan' plan) (keys : List Var)
    {columns : List (Var × Column)} (hcolumns : ∀ x ∈ columns, x.2.Steady) :
    Follows e (keys ++ columns.map (·.1)) (plan'.group keys columns)
      (plan.group keys columns) := by
  have hinner := h.within (fun c => { c with seed := none })
    (Context.isScope_seed fun _ => none) fun _ hc => hc.withSeed_none
  have hrest (s : Solutions) : Eval.Steady (do
      if s.isSingleton then
        return Solutions.singleton (keys ++ columns.map (·.1))
      else
        return Solutions.ofRows (keys ++ columns.map (·.1))
          (← Column.rows keys columns (groupsOf keys s.rows))) := by
    split
    · exact .pure _
    · exact (Column.rows_steady hcolumns keys _).bind fun _ => .pure _
  refine hinner.all hrest fun c hc =>
    ⟨fun rows => (Column.rows keys columns (groupsOf keys rows)).outcome c,
      fun s hs => ?_⟩
  have hrep := hc.toRepeatable
  simp only [hs.real, Bool.false_eq_true, if_false]
  rw [outcome_bind (fun _ => .pure _) hrep]
  have hvars (found : List Binding) (hfound :
      (Column.rows keys columns (groupsOf keys s.rows)).outcome c = .ok found) :=
    (Column.rows_ensures keys columns (groupsOf keys s.rows)).of_outcome hfound
  exact Solutions.carries_ofRows hvars hvars

/-- The rows in the order of their keys, or the error of a key. -/
def sortedRows (c : Context) (keys : List SortKey) (rows : List Binding) :
    Except QueryError (List Binding) := do
  let keyed ← (SortKey.keyed keys rows).outcome c
  return (stableSort (fun a b => SortKey.compareValues (keys.map (·.descending)) a.1 b.1 = .lt)
    keyed).map (·.2)

theorem sortedRows_perm {c : Context} {keys : List SortKey} {rows sorted : List Binding}
    (h : sortedRows c keys rows = .ok sorted) : sorted.Perm rows := by
  unfold sortedRows at h
  cases hkeyed : (SortKey.keyed keys rows).outcome c with
  | error err =>
    rw [hkeyed] at h
    cases h
  | ok found =>
    rw [hkeyed] at h
    cases h
    rw [← (SortKey.keyed_ensures keys rows).of_outcome hkeyed]
    exact (stableSort_perm _ found).map _

theorem orderBy_steady_rest {keys : List SortKey} (hkeys : ∀ k ∈ keys, k.key.Steady)
    (s : Solutions) : Eval.Steady (do
      if s.isSingleton then return s
      else
        let rows ← SortKey.keyed keys s.rows
        let directions := keys.map (·.descending)
        let less (a b : List (Option Term) × Binding) : Bool :=
          SortKey.compareValues directions a.1 b.1 = .lt
        return Solutions.ofRows s.vars ((stableSort less rows).map (·.2))) := by
  split
  · exact .pure _
  · exact (SortKey.keyed_steady hkeys _).bind fun _ => .pure _

theorem orderBy_carries {c : Context} {keys : List SortKey} (hc : c.Repeatable)
    {s : Solutions} (hs : s.Binds vs) :
    Solutions.Carries vs
      (Eval.outcome (do
        if s.isSingleton then return s
        else
          let rows ← SortKey.keyed keys s.rows
          let directions := keys.map (·.descending)
          let less (a b : List (Option Term) × Binding) : Bool :=
            SortKey.compareValues directions a.1 b.1 = .lt
          return Solutions.ofRows s.vars ((stableSort less rows).map (·.2))) c)
      (sortedRows c keys s.rows) := by
  have hvars {us : List Var} (h : ∀ row ∈ s.rows, row.vars ⊆ us) (sorted : List Binding)
      (hsorted : sortedRows c keys s.rows = .ok sorted) : ∀ row ∈ sorted, row.vars ⊆ us :=
    fun row hrow => h row ((sortedRows_perm hsorted).subset hrow)
  have hcarries := Solutions.carries_ofRows (hvars hs.wellFormed) (hvars hs.row_vars)
  simp only [hs.real, Bool.false_eq_true, if_false]
  rw [outcome_bind (fun _ => .pure _) hc]
  unfold sortedRows at hcarries ⊢
  cases hkeyed : (SortKey.keyed keys s.rows).outcome c with
  | error err => rfl
  | ok found =>
    rw [hkeyed] at hcarries
    exact hcarries

theorem Follows.orderBy (h : Follows e vs plan' plan) {keys : List SortKey}
    (hkeys : ∀ k ∈ keys, k.key.Steady) :
    Follows e vs (plan'.orderBy keys) (plan.orderBy keys) :=
  h.all (orderBy_steady_rest hkeys) fun c hc =>
    ⟨sortedRows c keys, fun _ hs => orderBy_carries hc.toRepeatable hs⟩

/-! ## Graphs and leaves -/

theorem graph_steady_rest (i : Iri) {x : Eval Solutions} (hx : x.Steady) (found : Bool) :
    Eval.Steady (if found then Eval.withGraph (.named (.iri i)) x else Pure.pure .null) := by
  cases found
  · exact .pure _
  · exact hx.withGraph _

/-- Whether there is a graph of that name is read first. -/
theorem outcome_graph {inner : Plan} (hi : inner.Steady) {c : Context} (hc : c.Repeatable)
    (hreal : c.environment.isDryRun = false) (i : Iri) (us : List Var) (demand : Demand) :
    (inner.graph (.iri i) us demand).outcome c =
      (Eval.ofReading (c.view.isAvailable (.iri i))).outcome c >>= fun found =>
        (if found then Eval.withGraph (.named (.iri i)) (inner demand)
          else Pure.pure .null : Eval Solutions).outcome c := by
  unfold Plan.graph
  rw [act_eval, outcome_read_bind]
  dsimp only
  rw [if_neg (by simp [hreal])]
  exact outcome_bind (graph_steady_rest i (hi demand)) hc

theorem yields_graph {c : Context} {i : Iri} {us : List Var} (hplan : plan.Steady)
    (hc : c.Repeatable) (hreal : c.environment.isDryRun = false) {demand : Demand}
    {m : Solutions} (hm : (plan.graph (.iri i) us demand).Yields c m) :
    ∃ found, c.view.isAvailable (.iri i) = .ok found ∧
      (if found then Eval.withGraph (.named (.iri i)) (plan demand)
        else Pure.pure .null : Eval Solutions).Yields c m := by
  have hm := hm.of_read_bind
  dsimp only at hm
  rw [if_neg (by simp [hreal])] at hm
  obtain ⟨found, hfound, hm⟩ := hm.of_bind (graph_steady_rest i (hplan demand)) hc
  refine ⟨found, ?_, hm⟩
  have hfound := hfound.outcome_eq (.ofReading _) hc
  cases havailable : c.view.isAvailable (.iri i) with
  | ok found' =>
    rw [havailable] at hfound
    exact congrArg Except.ok (Except.ok.inj hfound)
  | error text =>
    rw [havailable] at hfound
    cases hfound

/-- A named graph serves what the input serves within it. -/
theorem Serves.graph {c : Context} {i : Iri} {us : List Var} (hplan : plan.Steady)
    (hplan' : plan'.Steady) (hc : c.Repeatable) (hreal : c.environment.isDryRun = false)
    (h : ∀ m, (plan none).Yields { c with view := c.view.enter (.named (.iri i)) } m →
      plan'.Serves { c with view := c.view.enter (.named (.iri i)) } vs m)
    {m : Solutions} (hm : (plan.graph (.iri i) us none).Yields c m) :
    (plan'.graph (.iri i) us).Serves c vs m := by
  obtain ⟨found, hfound, hm⟩ := yields_graph hplan hc hreal hm
  have hread (demand : Demand) : (plan'.graph (.iri i) us demand).outcome c =
      (if found then Eval.withGraph (.named (.iri i)) (plan' demand)
        else Pure.pure .null : Eval Solutions).outcome c := by
    rw [outcome_graph hplan' hc hreal, hfound]
    rfl
  cases found with
  | false =>
    cases hm.of_pure
    exact ⟨Solutions.null_binds vs, fun demand =>
      ⟨.null, hread demand, Solutions.null_binds vs, Solutions.begins_of_eq rfl demand⟩⟩
  | true =>
    obtain ⟨hbinds, hserves⟩ := (h m hm).within
      (fun c => { c with view := c.view.enter (.named (.iri i)) }) rfl
    refine ⟨hbinds, fun demand => ?_⟩
    rw [hread]
    exact hserves demand

theorem Follows.graph (h : Follows e vs plan' plan) (i : Iri) (us : List Var) :
    Follows e vs (plan'.graph (.iri i) us) (plan.graph (.iri i) us) := by
  refine ⟨h.steady.graph _ us, h.steady'.graph _ us, fun c hc m hm => ?_,
    fun c hc n m hm => ?_⟩
  · exact .graph h.steady h.steady' hc.toRepeatable hc.real
      (fun m hm => h.serves _ (hc.enter _) m hm) hm
  · obtain ⟨found, hfound, hm⟩ := yields_graph h.steady hc.toRepeatable hc.real hm
    have hread : (plan'.graph (.iri i) us (some n)).outcome c =
        (if found then Eval.withGraph (.named (.iri i)) (plan' (some n))
          else Pure.pure .null : Eval Solutions).outcome c := by
      rw [outcome_graph h.steady' hc.toRepeatable hc.real, hfound]
      rfl
    cases found with
    | false =>
      cases hm.of_pure
      exact ⟨Solutions.null_binds vs, ⟨.null, hread, Solutions.null_binds vs, rfl⟩⟩
    | true =>
      obtain ⟨hbinds, hrepeats⟩ := (h.repeatsSome _ (hc.enter _) n m hm).within
        (fun c => { c with view := c.view.enter (.named (.iri i)) }) rfl
      refine ⟨hbinds, ?_⟩
      rw [hread]
      exact hrepeats

/-- The rows of a graph of any name are those of the graphs. -/
theorem outcome_graphs {inner : Plan} (hi : inner.Steady) {c : Context} (hc : c.Repeatable)
    (hreal : c.environment.isDryRun = false) (v : Var) (us : List Var) (demand : Demand) :
    (inner.graph (.var v) us demand).outcome c =
      (graphsOf v).outcome c >>= fun gs =>
        (overGraphs inner v demand gs []).outcome c >>= fun rows =>
          .ok (.ofRows (mergeVariables us [v]) rows) := by
  unfold Plan.graph
  rw [act_eval, outcome_read_bind]
  dsimp only
  rw [if_neg (by simp [hreal]), outcome_bind
    (fun gs => (overGraphs_steady hi v demand gs []).bind fun _ => .pure _) hc]
  exact congrArg _ (funext fun gs => outcome_bind (fun _ => .pure _) hc)

theorem outcome_leaf {x : Eval Solutions} {c : Context}
    (hreal : c.environment.isDryRun = false) (demand : Demand) :
    (leaf vs x demand).outcome c = x.outcome c := by
  unfold leaf
  rw [outcome_read_bind, hreal]
  rfl

/-- A leaf follows itself if it binds its variables only. -/
theorem leaf_follows {x : Eval Solutions} (hx : (leaf vs x).Steady)
    (h : ∀ c, c.IsPlain e → ∀ m, x.outcome c = .ok m → m.Binds vs) :
    Follows e vs (leaf vs x) (leaf vs x) := by
  refine follows_of_constant (hx none) (hx none) fun c hc m hm => ?_
  have hm := hm.outcome_eq (hx none) hc.toRepeatable
  have hbinds := h c hc m ((outcome_leaf hc.real none).symm.trans hm)
  exact ⟨hbinds, m, hm, hbinds, rfl⟩

theorem values_binds {c : Context} (hc : c.IsPlain e)
    {rows : List (List (Option Term))} {m : Solutions}
    (hm : (joinSeed (.ofRows vs (rows.map (valuesRow vs)))).outcome c = .ok m) :
    m.Binds vs := by
  rw [joinSeed_eq hc] at hm
  cases hm
  have hvars : ∀ row ∈ rows.map (valuesRow vs), row.vars ⊆ vs := fun row hrow => by
    obtain ⟨values, -, rfl⟩ := List.mem_map.mp hrow
    exact vars_valuesRow vs values
  exact Solutions.ofRows_binds hvars hvars

theorem values_follows (vs : List Var) (rows : List (List (Option Term))) :
    Follows e vs (values vs rows) (values vs rows) :=
  leaf_follows (values_steady vs rows) fun _ hc _ hm => values_binds hc hm

theorem pathSearch_follows {s o : Position} (search : PathSearch)
    (hs : s.IsGiven) (ho : o.IsGiven) :
    Follows e (Position.vars [s, o]) (pathSearch s search o)
      (pathSearch s search o) := by
  refine leaf_follows (pathSearch_steady search hs ho) fun c hc m hm => ?_
  rw [outcome_read_bind, hc.unseeded] at hm
  simp only [Option.getD_none, Position.substitute_empty] at hm
  have hrep := hc.toRepeatable
  obtain ⟨rows, hrows, hm⟩ := outcome_bind_eq_ok hm (fun _ => joinSeed_steady _) hrep
  rw [joinSeed_eq hc] at hm
  cases hm
  have hvars := (search.relation_bindsEnds c s o).of_outcome hrows
  exact Solutions.ofRows_binds hvars hvars

/-- What a service answers has to be about the variables of the call. -/
theorem service_follows {name : NameRef} {vs : List Var} {silent : Bool}
    {pattern : Query.Pattern}
    (h : ∀ handler, e.services = some handler → ∀ i s,
      name = .iri i → handler ⟨i, pattern⟩ e.base = .ok s → s.Binds vs) :
    Follows e vs (service name vs silent pattern) (service name vs silent pattern) := by
  refine leaf_follows (service_steady name vs silent pattern) fun c hc m hm => ?_
  have hrep := hc.toRepeatable
  have hsilent {err : QueryError} (hm : (if silent then Pure.pure Solutions.null
      else Eval.fail err : Eval Solutions).outcome c = .ok m) : m.Binds vs := by
    cases silent
    · cases hm
    · cases hm
      exact Solutions.null_binds vs
  cases name with
  | var v =>
    -- without a seed the variable has no value
    have hname : (serviceName (.var v)).outcome c = .error .unboundService := by
      unfold serviceName
      rw [outcome_read_bind, hc.unseeded]
      rfl
    obtain ⟨i, hi, -⟩ := outcome_bind_eq_ok hm (callService_steady silent pattern) hrep
    rw [hname] at hi
    cases hi
  | iri i =>
    replace hm :=
      (outcome_bind_ok (callService_steady silent pattern) hrep rfl).symm.trans hm
    unfold callService at hm
    rw [outcome_read_bind] at hm
    dsimp only at hm
    split at hm
    · exact hsilent hm
    · rename_i handler hhandler
      obtain ⟨-, -, hm⟩ :=
        outcome_bind_eq_ok hm (fun _ => serviceAnswer_steady silent _) hrep
      cases hanswer : handler ⟨i, pattern⟩ c.environment.base with
      | error text =>
        rw [hanswer] at hm
        exact hsilent hm
      | ok s =>
        rw [hanswer] at hm
        cases (joinSeed_eq hc s).symm.trans hm
        rw [hc.environment_eq] at hhandler hanswer
        exact h handler hhandler i m rfl hanswer

end Plan

end SparqlAlgebra
