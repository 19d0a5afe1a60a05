import SparqlAlgebra.Proofs.DemandIgnored
import Mathlib.Data.List.Forall2

/-!
# Basic graph patterns under a demand

Matching visits bindings in a fixed order and only ever adds to what it has
found, so stopping early leaves the beginning of what is found otherwise.

* `Step.Follows` relates the steps of two patterns that differ in their
  sub-queries only, and `Step.FollowsAt` does so in one context, with a seed or not;
* `Matches.Reaches` is what the induction on the steps carries: the second run
  has found the beginning of what the first one finds, and it lacks something
  only if its demand is met;
* `Plan.bgp_serves` and `Plan.bgp_follows` conclude that patterns with related steps
  follow each other.
-/

namespace SparqlAlgebra

open Eval

variable {e : Environment} {vs : List Var}

/-! ## Related steps -/

/-- Two steps are the same except for the plans of sub-queries, and they bind
the given variables only. -/
inductive Step.Follows (e : Environment) (vs : List Var) : Step → Step → Prop
  | extend {candidates : Binding → Eval (List Binding)}
    (steady : ∀ b, (candidates b).Steady)
    (binds : ∀ c, c.IsPlain e → ∀ b bs, (candidates b).outcome c = .ok bs →
      ∀ b' ∈ bs, b'.vars ⊆ b.vars ++ vs) :
    Step.Follows e vs (.extend candidates) (.extend candidates)
  | assign {v : Var} {value : Assignment} (steady : value.Steady) (hv : v ∈ vs) :
    Step.Follows e vs (.assign v value) (.assign v value)
  | subQuery {number : Nat} {query query' : Plan} {ws : List Var}
    (follows : Plan.Follows e ws query' query) (subset : ws ⊆ vs) :
    Step.Follows e vs (.subQuery number query') (.subQuery number query)
  | filter {condition : Binding → Eval Bool}
    (steady : ∀ b, (condition b).Steady) :
    Step.Follows e vs (.filter condition) (.filter condition)

/-- The same of two steps in one context only. -/
inductive Step.FollowsAt (c : Context) (vs : List Var) : Step → Step → Prop
  | extend {candidates : Binding → Eval (List Binding)}
    (steady : ∀ b, (candidates b).Steady)
    (binds : ∀ b bs, (candidates b).outcome c = .ok bs →
      ∀ b' ∈ bs, b'.vars ⊆ b.vars ++ vs) :
    Step.FollowsAt c vs (.extend candidates) (.extend candidates)
  | assign {v : Var} {value : Assignment} (steady : value.Steady) (hv : v ∈ vs) :
    Step.FollowsAt c vs (.assign v value) (.assign v value)
  | subQuery {number : Nat} {query query' : Plan} {ws : List Var} (steady : query.Steady)
    (steady' : query'.Steady)
    (repeats : ∀ s, (query none).Yields c s → query'.Repeats c ws none s) (subset : ws ⊆ vs) :
    Step.FollowsAt c vs (.subQuery number query') (.subQuery number query)
  | filter {condition : Binding → Eval Bool}
    (steady : ∀ b, (condition b).Steady) :
    Step.FollowsAt c vs (.filter condition) (.filter condition)

theorem Step.Follows.followsAt {step step' : Step} (h : Step.Follows e vs step' step)
    {c : Context} (hc : c.IsPlain e) : Step.FollowsAt c vs step' step := by
  cases h with
  | extend steady binds => exact .extend steady (binds c hc)
  | assign steady hv => exact .assign steady hv
  | subQuery follows subset =>
    exact .subQuery follows.steady follows.steady' (fun s hs => follows.repeats hc hs) subset
  | filter steady => exact .filter steady

theorem Step.Follows.steady {step step' : Step} (h : Step.Follows e vs step' step) :
    step.Steady ∧ step'.Steady := by
  cases h with
  | extend steady => exact ⟨steady, steady⟩
  | assign steady => exact ⟨steady, steady⟩
  | subQuery follows => exact ⟨follows.steady, follows.steady'⟩
  | filter steady => exact ⟨steady, steady⟩

theorem Step.FollowsAt.steady {c : Context} {step step' : Step}
    (h : Step.FollowsAt c vs step' step) : step.Steady ∧ step'.Steady := by
  cases h with
  | extend steady => exact ⟨steady, steady⟩
  | assign steady => exact ⟨steady, steady⟩
  | subQuery steady steady' => exact ⟨steady, steady'⟩
  | filter steady => exact ⟨steady, steady⟩

theorem Step.steady_of_related {related : Step → Step → Prop}
    (hrelated : ∀ step' step, related step' step → step.Steady ∧ step'.Steady)
    {steps steps' : List Step} (h : List.Forall₂ related steps' steps) :
    (∀ s ∈ steps, s.Steady) ∧ ∀ s ∈ steps', s.Steady := by
  induction h with
  | nil => simp
  | cons hstep _ ih =>
    obtain ⟨hsteady, hsteady'⟩ := hrelated _ _ hstep
    exact ⟨List.forall_mem_cons.mpr ⟨hsteady, ih.1⟩,
      List.forall_mem_cons.mpr ⟨hsteady', ih.2⟩⟩

/-- A number belongs to one sub-query only. -/
def Step.AreNumbered (steps : List Step) : Prop :=
  ∀ number query query', .subQuery number query ∈ steps →
    .subQuery number query' ∈ steps → query = query'

namespace Matches

/-! ## Related states -/

variable {c : Context} {all all' steps steps' : List Step} {demand demand' : Demand}
  {m m' r : Matches} {b : Binding}

/-- The remembered solutions are those of the sub-queries. -/
def Remembers (isAnswer : Plan → Solutions → Prop) (steps : List Step)
    (m : Matches) : Prop :=
  ∀ number query s, .subQuery number query ∈ steps →
    m.queries.lookup number = some s → isAnswer query s

/-- Two runs remember answers of their sub-queries, and either the first one has
no demand or both have the same one and have found equally many solutions. -/
structure Along (c : Context) (all all' : List Step) (demand demand' : Demand)
    (m m' : Matches) : Prop where
  remembers : m.Remembers (fun query s => (query none).Yields c s) all
  remembers' : m'.Remembers (fun query s => (query none).outcome c = .ok s) all'
  demands : demand = none ∨ demand = demand' ∧ m.found.size = m'.found.size

/-- While the first run goes on from `m` to `r`, the second one goes on from
`m'` and finds the beginning of what the first one finds. It lacks something
only if it has met a demand that the first run does not have. -/
def Reaches (c : Context) (vs : List Var) (all all' : List Step)
    (demand demand' : Demand) (m m' r : Matches) (x' : Eval Matches) : Prop :=
  ∃ r' rows rows', x'.outcome c = .ok r' ∧
    Along c all all' demand demand' r r' ∧
    r.found.toList = m.found.toList ++ rows ∧
    r'.found.toList = m'.found.toList ++ rows' ∧
    (∀ row ∈ rows, row.vars ⊆ vs) ∧ rows' <+: rows ∧
    (rows' = rows ∨ demand = none ∧ r'.meets demand' = true)

theorem Remembers.cons {isAnswer : Plan → Solutions → Prop}
    (h : m.Remembers isAnswer all) (hall : Step.AreNumbered all) {number : Nat}
    {query : Plan} (hquery : .subQuery number query ∈ all) {s : Solutions}
    (hs : isAnswer query s) :
    Remembers isAnswer all { m with queries := (number, s) :: m.queries } := by
  intro k other t hother ht
  dsimp only at ht
  rw [List.lookup_cons] at ht
  by_cases hk : k = number
  · subst hk
    rw [beq_self_eq_true] at ht
    cases ht
    rw [hall k other query hother hquery]
    exact hs
  · rw [beq_false_of_ne hk] at ht
    exact h k other t hother ht

/-- Nothing is found and nothing is lacking. -/
theorem reaches_stay (h : Along c all all' demand demand' m m') {x' : Eval Matches}
    (hx : x'.outcome c = .ok m') :
    Reaches c vs all all' demand demand' m m' m x' :=
  ⟨m', [], [], hx, h, by simp, by simp, by simp, List.prefix_rfl, .inl rfl⟩

/-- The first run goes on after the second one has met its demand. -/
theorem Reaches.later {r₁ r₂ : Matches} {x' y' : Eval Matches} {m₁' : Matches}
    {rows rows' : List Binding} (hx : x'.outcome c = .ok m₁')
    (halong : Along c all all' demand demand' r₁ m₁')
    (hfound : r₁.found.toList = m.found.toList ++ rows)
    (hfound' : m₁'.found.toList = m'.found.toList ++ rows')
    (hvars : ∀ row ∈ rows, row.vars ⊆ vs) (hbegin : rows' <+: rows)
    (hdemand : demand = none) (hmeets : m₁'.meets demand' = true)
    (hlater : Reaches c vs all all' demand demand' r₁ m₁' r₂ y') :
    Reaches c vs all all' demand demand' m m' r₂ x' := by
  obtain ⟨r', more, more', -, halong', hmore, -, hmvars, -, -⟩ := hlater
  refine ⟨m₁', rows ++ more, rows', hx, ⟨halong'.remembers, halong.remembers',
    .inl hdemand⟩, ?_, hfound', ?_, hbegin.trans (List.prefix_append _ _),
    .inr ⟨hdemand, hmeets⟩⟩
  · rw [hmore, hfound, List.append_assoc]
  · intro row hrow
    rcases List.mem_append.mp hrow with hrow | hrow
    · exact hvars row hrow
    · exact hmvars row hrow

/-! ## Candidates -/

/-- Trying candidates one after the other. -/
theorem overCandidates_reaches {next next' : Binding → Matches → Eval Matches}
    (hc : c.Repeatable) (hsteady : ∀ b m, (next b m).Steady)
    (hsteady' : ∀ b m, (next' b m).Steady) {bs : List Binding}
    (hnext : ∀ b ∈ bs, ∀ m m' r, Along c all all' demand demand' m m' →
      (next b m).Yields c r →
      Reaches c vs all all' demand demand' m m' r (next' b m'))
    (h : Along c all all' demand demand' m m')
    (hr : (overCandidates demand next bs m).Yields c r) :
    Reaches c vs all all' demand demand' m m' r
      (overCandidates demand' next' bs m') := by
  induction bs generalizing m m' with
  | nil =>
    cases hr.of_pure
    exact reaches_stay h rfl
  | cons b rest ih =>
    have ih {m m' : Matches} (h : Along c all all' demand demand' m m')
        (hr : (overCandidates demand next rest m).Yields c r) :=
      ih (fun b hb => hnext b (List.mem_cons_of_mem _ hb)) h hr
    have hgo := overCandidates_steady_rest hsteady demand rest
    have hgo' := overCandidates_steady_rest hsteady' demand' rest
    obtain ⟨r₁, hr₁, hr⟩ := hr.of_bind hgo hc
    obtain ⟨m₁', rows, rows', hm₁', halong, hfound, hfound', hvars, hbegin,
      hlack⟩ := hnext b List.mem_cons_self m m' r₁ h hr₁
    have hrest := outcome_bind_ok hgo' hc hm₁'
    unfold overCandidates
    by_cases hmeets : r₁.meets demand = true
    · -- the first run has a demand, so the second run has found the same
      rw [if_pos hmeets] at hr
      cases hr.of_pure
      rcases halong.demands with hnone | ⟨heq, hsize⟩
      · rw [hnone] at hmeets
        cases hmeets
      · have hmeets' : m₁'.meets demand' = true := by
          rw [← hmeets, ← heq]
          unfold meets
          rw [hsize]
        rw [if_pos hmeets'] at hrest
        exact ⟨m₁', rows, rows', hrest, halong, hfound, hfound', hvars, hbegin, hlack⟩
    · rw [if_neg hmeets] at hr
      have hlater := ih halong hr
      by_cases hmeets' : m₁'.meets demand' = true
      · -- only the second run has met its demand, so only it has one
        rw [if_pos hmeets'] at hrest
        have hnone : demand = none := by
          rcases halong.demands with hnone | ⟨heq, hsize⟩
          · exact hnone
          · refine absurd ?_ hmeets
            rw [← hmeets', heq]
            unfold meets
            rw [hsize]
        exact .later hrest halong hfound hfound' hvars hbegin hnone hmeets' hlater
      · rw [if_neg hmeets'] at hrest
        rcases hlack with rfl | ⟨-, hmet⟩
        · obtain ⟨r', more, more', hr', halong', hmore, hmore', hmvars, hmbegin,
            hmlack⟩ := hlater
          refine ⟨r', rows' ++ more, rows' ++ more', hrest.trans hr', halong', ?_, ?_,
            ?_, ?_, ?_⟩
          · rw [hmore, hfound, List.append_assoc]
          · rw [hmore', hfound', List.append_assoc]
          · intro row hrow
            rcases List.mem_append.mp hrow with hrow | hrow
            · exact hvars row hrow
            · exact hmvars row hrow
          · exact (List.prefix_append_right_inj rows').mpr hmbegin
          · exact hmlack.imp_left fun hmore => by rw [hmore]
        · exact absurd hmet hmeets'

/-! ## Sub-queries -/

theorem yields_solutionsOf (hc : c.Repeatable) (hall : Step.AreNumbered all)
    {number : Nat} {query : Plan} (hquery : .subQuery number query ∈ all)
    (h : m.Remembers (fun query s => (query none).Yields c s) all)
    {r : Solutions × Matches} (hr : (solutionsOf number query m).Yields c r) :
    (query none).Yields c r.1 ∧ r.2.found = m.found ∧
      r.2.Remembers (fun query s => (query none).Yields c s) all := by
  unfold solutionsOf at hr
  split at hr
  · rename_i s hs
    cases hr.of_pure
    exact ⟨h number query s hquery hs, rfl, h⟩
  · obtain ⟨s, hs, hr⟩ := hr.of_bind (fun _ => .pure _) hc
    cases hr.of_pure
    exact ⟨hs, rfl, h.cons hall hquery hs⟩

theorem outcome_solutionsOf (hc : c.Repeatable) (hall : Step.AreNumbered all)
    {number : Nat} {query : Plan} (hquery : .subQuery number query ∈ all)
    (h : m.Remembers (fun query s => (query none).outcome c = .ok s) all)
    {s : Solutions} (hs : (query none).outcome c = .ok s) :
    ∃ r : Matches, (solutionsOf number query m).outcome c = .ok (s, r) ∧
      r.found = m.found ∧
      r.Remembers (fun query s => (query none).outcome c = .ok s) all := by
  unfold solutionsOf
  split
  · rename_i t ht
    have heq := (h number query t hquery ht).symm.trans hs
    cases heq
    exact ⟨m, rfl, rfl, h⟩
  · exact ⟨_, outcome_bind_ok (fun _ => .pure _) hc hs, rfl, h.cons hall hquery hs⟩

/-! ## Steps -/

section Steps

variable {rest rest' : List Step}

/-- The remaining steps of both runs reach related states from every binding. -/
def RestReaches (c : Context) (vs : List Var) (all all' : List Step)
    (demand demand' : Demand) (rest rest' : List Step) : Prop :=
  ∀ b : Binding, b.vars ⊆ vs → ∀ m m' r,
    Along c all all' demand demand' m m' → (matchSteps demand rest b m).Yields c r →
      Reaches c vs all all' demand demand' m m' r (matchSteps demand' rest' b m')

variable (hc : c.Repeatable) (hb : b.vars ⊆ vs)
  (hgo : ∀ b m, (matchSteps demand rest b m).Steady)
  (hgo' : ∀ b m, (matchSteps demand' rest' b m).Steady)
  (hrest : RestReaches c vs all all' demand demand' rest rest')
  (h : Along c all all' demand demand' m m')

include hc hb hgo hgo' hrest h

theorem extend_reaches {candidates : Binding → Eval (List Binding)}
    (steady : ∀ b, (candidates b).Steady)
    (binds : ∀ b bs, (candidates b).outcome c = .ok bs →
      ∀ b' ∈ bs, b'.vars ⊆ b.vars ++ vs)
    (hr : (matchSteps demand (.extend candidates :: rest) b m).Yields c r) :
    Reaches c vs all all' demand demand' m m' r
      (matchSteps demand' (.extend candidates :: rest') b m') := by
  have hover (bs : List Binding) := overCandidates_steady hgo demand bs m
  have hover' (bs : List Binding) := overCandidates_steady hgo' demand' bs m'
  obtain ⟨-, -, hr⟩ := hr.of_bind (fun _ => (steady b).bind hover) hc
  obtain ⟨bs, hbs, hr⟩ := hr.of_bind hover hc
  have hbs := hbs.outcome_eq (steady b) hc
  have hvars : ∀ b' ∈ bs, b'.vars ⊆ vs := fun b' hb' v hv =>
    (List.mem_append.mp (binds b bs hbs b' hb' hv)).elim (hb ·) id
  obtain ⟨r', rows, rows', hr', hreaches⟩ := overCandidates_reaches hc hgo hgo'
    (fun b' hb' => hrest b' (hvars b' hb')) h hr
  refine ⟨r', rows, rows', ?_, hreaches⟩
  exact (outcome_bind_ok (fun _ => (steady b).bind hover') hc
    (outcome_tick hc)).trans ((outcome_bind_ok hover' hc hbs).trans hr')

theorem assign_reaches {v : Var} {value : Assignment} (steady : value.Steady)
    (hv : v ∈ vs)
    (hr : (matchSteps demand (.assign v value :: rest) b m).Yields c r) :
    Reaches c vs all all' demand demand' m m' r
      (matchSteps demand' (.assign v value :: rest') b m') := by
  have hvalue := assigned_steady hgo v b m
  have hvalue' := assigned_steady hgo' v b m'
  obtain ⟨-, -, hr⟩ := hr.of_bind (fun _ => assign_steady hgo steady v b m) hc
  have hstart : (matchSteps demand' (.assign v value :: rest') b m').outcome c = _ :=
    outcome_bind_ok (fun _ => assign_steady hgo' steady v b m') hc (outcome_tick hc)
  dsimp only at hr hstart
  by_cases hbound : b.contains v = true
  · rw [if_pos hbound] at hr
    cases hr.outcome_eq (.fail _) hc
  · rw [if_neg hbound] at hr hstart
    obtain ⟨t, ht, hr⟩ := hr.of_bind hvalue hc
    have ht := ht.outcome_eq (steady b) hc
    have hstart := hstart.trans (outcome_bind_ok hvalue' hc ht)
    cases t with
    | none =>
      obtain ⟨r', rows, rows', hr', hreaches⟩ := hrest b hb m m' r h hr
      exact ⟨r', rows, rows', hstart.trans hr', hreaches⟩
    | some t =>
      have hvars : (b.insert v t).vars ⊆ vs := fun w hw =>
        (Binding.mem_vars_insert.mp hw).elim (fun hwv => hwv ▸ hv) (hb ·)
      obtain ⟨r', rows, rows', hr', hreaches⟩ := hrest _ hvars m m' r h hr
      exact ⟨r', rows, rows', hstart.trans hr', hreaches⟩

theorem subQuery_reaches {number : Nat} {query query' : Plan} {ws : List Var}
    (hall : Step.AreNumbered all) (hall' : Step.AreNumbered all')
    (steady : query.Steady) (steady' : query'.Steady)
    (repeats : ∀ s, (query none).Yields c s → query'.Repeats c ws none s) (subset : ws ⊆ vs)
    (hmem : .subQuery number query ∈ all) (hmem' : .subQuery number query' ∈ all')
    (hr : (matchSteps demand (.subQuery number query :: rest) b m).Yields c r) :
    Reaches c vs all all' demand demand' m m' r
      (matchSteps demand' (.subQuery number query' :: rest') b m') := by
  have hover (x : Solutions × Matches) :=
    overCandidates_steady hgo demand (x.1.rows.filterMap b.merge?) x.2
  have hover' (x : Solutions × Matches) :=
    overCandidates_steady hgo' demand' (x.1.rows.filterMap b.merge?) x.2
  have hsolutions := solutionsOf_steady steady number m
  have hsolutions' := solutionsOf_steady steady' number m'
  obtain ⟨-, -, hr⟩ := hr.of_bind (fun _ => hsolutions.bind hover) hc
  obtain ⟨x, hx, hr⟩ := hr.of_bind hover hc
  obtain ⟨hquery, hfound, hremembers⟩ :=
    yields_solutionsOf hc hall hmem h.remembers hx
  obtain ⟨hbinds, s', hs', hbinds', hrows⟩ := repeats _ hquery
  obtain ⟨m₁', hm₁', hfound', hremembers'⟩ :=
    outcome_solutionsOf hc hall' hmem' h.remembers' hs'
  have halong : Along c all all' demand demand' x.2 m₁' :=
    ⟨hremembers, hremembers', by rw [hfound, hfound']; exact h.demands⟩
  have hvars : ∀ b' ∈ x.1.rows.filterMap b.merge?, b'.vars ⊆ vs := by
    intro b' hb' v hv
    obtain ⟨row, hrow, hmerge⟩ := List.mem_filterMap.mp hb'
    rcases (Binding.mem_vars_of_merge? hmerge).mp hv with hv | hv
    · exact hb hv
    · exact subset (hbinds.row_vars row hrow hv)
  obtain ⟨r', rows, rows', hr', hreaches⟩ := overCandidates_reaches hc hgo hgo'
    (fun b' hb' => hrest b' (hvars b' hb')) halong hr
  rw [hfound, hfound'] at hreaches
  refine ⟨r', rows, rows', ?_, hreaches⟩
  rw [← hrows] at hr'
  exact (outcome_bind_ok (fun _ => hsolutions'.bind hover') hc
    (outcome_tick hc)).trans ((outcome_bind_ok hover' hc hm₁').trans hr')

theorem filter_reaches {condition : Binding → Eval Bool}
    (steady : ∀ b, (condition b).Steady)
    (hr : (matchSteps demand (.filter condition :: rest) b m).Yields c r) :
    Reaches c vs all all' demand demand' m m' r
      (matchSteps demand' (.filter condition :: rest') b m') := by
  have hholds {rest : List Step} {demand : Demand} (m : Matches)
      (hgo : ∀ b m, (matchSteps demand rest b m).Steady) (holds : Bool) :
      Eval.Steady (if holds then matchSteps demand rest b m else Pure.pure m) := by
    cases holds
    · exact .pure _
    · exact hgo b m
  obtain ⟨-, -, hr⟩ := hr.of_bind (fun _ => (steady b).bind (hholds m hgo)) hc
  obtain ⟨holds, hb', hr⟩ := hr.of_bind (hholds m hgo) hc
  have hstart := (outcome_bind_ok (fun _ => (steady b).bind (hholds m' hgo'))
    hc (outcome_tick hc)).trans
      (outcome_bind_ok (hholds m' hgo') hc (hb'.outcome_eq (steady b) hc))
  cases holds with
  | false =>
    cases hr.of_pure
    exact reaches_stay h hstart
  | true =>
    obtain ⟨r', rows, rows', hr', hreaches⟩ := hrest b hb m m' r h hr
    exact ⟨r', rows, rows', hstart.trans hr', hreaches⟩

end Steps

/-- Related steps reach related states. -/
theorem matchSteps_reaches (demand demand' : Demand) (hc : c.Repeatable)
    (hall : Step.AreNumbered all) (hall' : Step.AreNumbered all')
    (hsteps : List.Forall₂ (Step.FollowsAt c vs) steps' steps) (hsub : steps ⊆ all)
    (hsub' : steps' ⊆ all') : RestReaches c vs all all' demand demand' steps steps' := by
  induction hsteps with
  | nil =>
    intro b hb m m' r h hr
    cases hr.of_pure
    refine ⟨_, [b], [b], rfl, ⟨h.remembers, h.remembers', ?_⟩, by simp, by simp,
      by simpa using hb, List.prefix_rfl, .inl rfl⟩
    exact h.demands.imp_right fun hd => ⟨hd.1, by simp [hd.2]⟩
  | @cons step' step rest' rest hstep hrest ih =>
    intro b hb m m' r h hr
    obtain ⟨hsteady, hsteady'⟩ := Step.steady_of_related (fun _ _ => (·.steady)) hrest
    obtain ⟨hmem, hsub⟩ := List.cons_subset.mp hsub
    obtain ⟨hmem', hsub'⟩ := List.cons_subset.mp hsub'
    have hgo := matchSteps_steady hsteady demand
    have hgo' := matchSteps_steady hsteady' demand'
    have ih := ih hsub hsub'
    cases hstep with
    | extend steady binds => exact extend_reaches hc hb hgo hgo' ih h steady binds hr
    | assign steady hv => exact assign_reaches hc hb hgo hgo' ih h steady hv hr
    | subQuery steady steady' repeats subset =>
      exact subQuery_reaches hc hb hgo hgo' ih h hall hall' steady steady' repeats subset hmem
        hmem' hr
    | filter steady => exact filter_reaches hc hb hgo hgo' ih h steady hr

end Matches

/-! ## Patterns -/

namespace Plan

section Patterns

variable {c : Context} {steps steps' : List Step}

/-- What a pattern makes of the rows that matching finds. -/
theorem outcome_bgp (hc : c.Repeatable) (hreal : c.environment.isDryRun = false)
    {demand : Demand} {r : Matches}
    (hr : (Matches.matchSteps demand steps c.start .empty).outcome c = .ok r) :
    (bgp steps vs demand).outcome c =
      .ok (.ofRows (mergeVariables c.start.vars vs) r.found.toList) := by
  unfold bgp
  rw [act_eval, outcome_read_bind]
  dsimp only
  rw [if_neg (by simp [hreal])]
  exact outcome_bind_ok (fun _ => .pure _) hc hr

theorem yields_bgp (hc : c.Repeatable) (hreal : c.environment.isDryRun = false)
    {demand : Demand} {o : Solutions} (ho : (bgp steps vs demand).Yields c o) :
    ∃ r, (Matches.matchSteps demand steps c.start .empty).Yields c r ∧
      o = .ofRows (mergeVariables c.start.vars vs) r.found.toList := by
  have ho := ho.of_read_bind
  dsimp only at ho
  rw [if_neg (by simp [hreal])] at ho
  obtain ⟨r, hr, ho⟩ := ho.of_bind (fun _ => .pure _) hc
  exact ⟨r, hr, ho.of_pure⟩

/-- Two patterns with related steps find the same rows as long as the second one has
not met its demand. -/
theorem bgp_reaches (hc : c.Repeatable) (hreal : c.environment.isDryRun = false)
    (hsteps : List.Forall₂ (Step.FollowsAt c (c.start.vars ++ vs)) steps' steps)
    (hnumbered : Step.AreNumbered steps) (hnumbered' : Step.AreNumbered steps')
    {demand : Demand} (demand' : Demand) (hdemand : demand = none ∨ demand = demand')
    {o : Solutions} (ho : (bgp steps vs demand).Yields c o) :
    o.Binds (c.start.vars ++ vs) ∧
      ∃ o', (bgp steps' vs demand').outcome c = .ok o' ∧ o'.Binds (c.start.vars ++ vs) ∧
        o'.rows <+: o.rows ∧
        (o'.rows = o.rows ∨ demand = none ∧ ∃ n, demand' = some n ∧ n ≤ o'.size) := by
  obtain ⟨r, hr, rfl⟩ := yields_bgp hc hreal ho
  obtain ⟨r', rows, rows', hr', -, hrows, hrows', hvars, hbegin, hlack⟩ :=
    Matches.matchSteps_reaches demand demand' hc hnumbered hnumbered' hsteps
      (List.Subset.refl _) (List.Subset.refl _) c.start (List.subset_append_left _ _)
      .empty .empty r
      ⟨fun _ _ _ _ h => (by cases h), fun _ _ _ _ h => (by cases h),
        hdemand.imp_right fun h => ⟨h, rfl⟩⟩ hr
  obtain rfl : r.found.toList = rows := by simpa [Matches.empty] using hrows
  obtain rfl : r'.found.toList = rows' := by simpa [Matches.empty] using hrows'
  have hbinds {found : List Binding} (h : ∀ row ∈ found, row.vars ⊆ c.start.vars ++ vs) :
      (Solutions.ofRows (mergeVariables c.start.vars vs) found).rows = found ∧
        (Solutions.ofRows (mergeVariables c.start.vars vs) found).Binds
          (c.start.vars ++ vs) := by
    have hown : ∀ row ∈ found, row.vars ⊆ mergeVariables c.start.vars vs :=
      fun row hrow v hv => mem_mergeVariables.mpr (List.mem_append.mp (h row hrow hv))
    exact ⟨Solutions.rows_ofRows hown, Solutions.ofRows_binds hown h⟩
  obtain ⟨hrows, hbinds'⟩ := hbinds hvars
  obtain ⟨hrows', hbinds''⟩ := hbinds fun row hrow => hvars row (hbegin.subset hrow)
  refine ⟨hbinds', _, outcome_bgp hc hreal hr', hbinds'', ?_, ?_⟩
  · rwa [hrows, hrows']
  · rw [Solutions.size, hrows, hrows']
    refine hlack.imp_right (And.imp_right fun hmeets => ?_)
    cases demand' with
    | none => cases hmeets
    | some n => exact ⟨n, rfl, by simpa [Matches.meets] using hmeets⟩

/-- A pattern serves what a pattern with related steps yields. -/
theorem bgp_serves (hc : c.Repeatable) (hreal : c.environment.isDryRun = false)
    (hsteps : List.Forall₂ (Step.FollowsAt c (c.start.vars ++ vs)) steps' steps)
    (hnumbered : Step.AreNumbered steps) (hnumbered' : Step.AreNumbered steps')
    {o : Solutions} (ho : (bgp steps vs none).Yields c o) :
    (bgp steps' vs).Serves c (c.start.vars ++ vs) o := by
  have hreaches := fun demand =>
    bgp_reaches hc hreal hsteps hnumbered hnumbered' demand (.inl rfl) ho
  refine ⟨(hreaches none).1, fun demand => ?_⟩
  obtain ⟨-, o', ho', hbinds', hbegin, hsize⟩ := hreaches demand
  exact ⟨o', ho', hbinds', hbegin, hsize.imp_right (·.2)⟩

end Patterns

/-- Basic graph patterns with related steps follow each other. -/
theorem bgp_follows {steps steps' : List Step}
    (hsteps : List.Forall₂ (Step.Follows e vs) steps' steps)
    (hnumbered : Step.AreNumbered steps) (hnumbered' : Step.AreNumbered steps') :
    Follows e vs (bgp steps' vs) (bgp steps vs) := by
  obtain ⟨hsteady, hsteady'⟩ := Step.steady_of_related (fun _ _ => (·.steady)) hsteps
  have hat {c : Context} (hc : c.IsPlain e) :
      List.Forall₂ (Step.FollowsAt c (c.start.vars ++ vs)) steps' steps := by
    rw [Context.start_of_unseeded hc.unseeded]
    exact .imp (fun _ _ h => h.followsAt hc) hsteps
  refine ⟨bgp_steady hsteady vs, bgp_steady hsteady' vs, fun c hc o ho => ?_,
    fun c hc n o ho => ?_⟩
  · -- a pattern that starts from nothing binds its own variables only
    have hserves := bgp_serves hc.toRepeatable hc.real (hat hc) hnumbered hnumbered' ho
    rwa [Context.start_of_unseeded hc.unseeded] at hserves
  · have hreaches := bgp_reaches hc.toRepeatable hc.real (hat hc) hnumbered hnumbered'
      (some n) (.inr rfl) ho
    rw [Context.start_of_unseeded hc.unseeded] at hreaches
    obtain ⟨hbinds, o', ho', hbinds', -, hrows | ⟨hnone, -⟩⟩ := hreaches
    · exact ⟨hbinds, o', ho', hbinds', hrows⟩
    · cases hnone

end Plan

end SparqlAlgebra
