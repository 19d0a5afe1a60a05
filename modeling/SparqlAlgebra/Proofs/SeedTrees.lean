import SparqlAlgebra.Proofs.Seeds

/-!
# Trees that start from a seed

Whatever a tree yields binds variables of the seed and of the tree, and agrees
with the seed on all variables that the tree does not compute. This holds for
every demand, whatever has been counted before and whatever expressions do.

* `Node.computed`: the variables that assignments and groups bind;
* `Node.declaresVars`: a graph with a variable name does not declare the variables
  of the seed, so it may stand only where there is none;
* `Matches.matchSteps_ensures`: matching extends the seed;
* `Node.plan_starts` is the induction over the tree.
-/

namespace SparqlAlgebra

open Eval

/-! ## Computed variables -/

/-- The variables that may have another value than in the seed, since the input
does not start from their value. -/
def Node.computed : Node → List Var
  | .join l r | .leftJoin l r _ | .union l r => l.computed ++ r.computed
  | .minus l _ | .existsJoin l _ _ => l.computed
  | .filter inner _ | .having inner _ | .orderBy inner _ | .distinct inner
  | .reduced inner | .slice inner _ _ | .limit inner _ | .graph inner _ => inner.computed
  | .extend inner v _ => v :: inner.computed
  | .group _ keys columns => keys ++ columns.map GroupValue.target
  | .bgp _ | .project _ _ | .service _ _ _ _ | .ask _ | .values _ _
  | .pathSearch _ _ _ | .custom _ _ _ => []

mutual

/-- Whether the solutions of a tree declare what they bind. Operators that are
defined elsewhere may do otherwise, and so do graphs with a variable name if there
is a seed. -/
def Node.declaresVars (seeded : Bool) : Node → Bool
  | .bgp es => Element.declareVars seeded es
  | .join l r | .leftJoin l r _ | .union l r =>
    l.declaresVars seeded && r.declaresVars seeded
  | .minus l r => l.declaresVars seeded && r.declaresVars false
  | .existsJoin inner _ _ | .filter inner _ | .having inner _ | .extend inner _ _
  | .orderBy inner _ | .distinct inner | .reduced inner | .project inner _
  | .slice inner _ _ | .limit inner _ | .graph inner (.iri _) => inner.declaresVars seeded
  | .graph inner (.var _) => !seeded && inner.declaresVars seeded
  | .group inner _ _ => inner.declaresVars false
  | .service _ _ _ _ | .ask _ | .values _ _ | .pathSearch _ _ _ => true
  | .custom _ _ _ => false

def Element.declareVars (seeded : Bool) : List Element → Bool
  | [] => true
  | .subQuery query :: rest => query.declaresVars seeded && Element.declareVars seeded rest
  | .triple _ :: rest | .path _ _ _ :: rest | .assign _ _ :: rest | .filter _ :: rest =>
    Element.declareVars seeded rest

end

mutual

/-- Without a seed every repeatable tree declares what it binds. -/
theorem Node.declaresVars_of_isRepeatable : ∀ n : Node, n.isRepeatable = true →
    n.declaresVars false = true
  | .bgp es, h => Element.declareVars_of_areRepeatable es h
  | .join l r, h | .leftJoin l r none, h | .union l r, h | .minus l r, h => by
    simp only [Node.isRepeatable, Bool.and_eq_true] at h
    simp only [Node.declaresVars, Bool.and_eq_true]
    exact ⟨l.declaresVars_of_isRepeatable h.1, r.declaresVars_of_isRepeatable h.2⟩
  | .leftJoin l r (some e), h => by
    simp only [Node.isRepeatable, Bool.and_eq_true] at h
    simp only [Node.declaresVars, Bool.and_eq_true]
    exact ⟨l.declaresVars_of_isRepeatable h.1.1, r.declaresVars_of_isRepeatable h.1.2⟩
  | .existsJoin inner _ _, h | .filter inner _, h | .having inner _, h
  | .extend inner _ _, h | .orderBy inner _, h | .group inner _ _, h => by
    simp only [Node.isRepeatable, Bool.and_eq_true] at h
    exact inner.declaresVars_of_isRepeatable h.1
  | .distinct inner, h | .reduced inner, h | .project inner _, h | .slice inner _ _, h
  | .limit inner _, h | .graph inner (.iri _), h | .graph inner (.var _), h =>
    inner.declaresVars_of_isRepeatable h
  | .service _ _ _ _, _ | .ask _, _ | .values _ _, _ | .pathSearch _ _ _, _ => rfl
  | .custom _ _ _, h => nomatch h

theorem Element.declareVars_of_areRepeatable : ∀ es : List Element,
    Element.areRepeatable es = true → Element.declareVars false es = true
  | [], _ => rfl
  | .triple _ :: rest, h | .path _ _ _ :: rest, h =>
    Element.declareVars_of_areRepeatable rest h
  | .assign _ _ :: rest, h | .filter _ :: rest, h => by
    simp only [Element.areRepeatable, Bool.and_eq_true] at h
    exact Element.declareVars_of_areRepeatable rest h.2
  | .subQuery query :: rest, h => by
    simp only [Element.areRepeatable, Bool.and_eq_true] at h
    simp only [Element.declareVars, Bool.and_eq_true]
    exact ⟨query.declaresVars_of_isRepeatable h.1, Element.declareVars_of_areRepeatable rest h.2⟩

end

/-! ## Matching from the seed -/

/-- What a step does with a binding: it goes on with more values, of the given
variables and those of the seed. -/
inductive Step.Widens (c : Context) (vs : List Var) : Step → Prop
  | extend {candidates : Binding → Eval (List Binding)}
    (h : ∀ b, (candidates b).Ensures c
      (∀ b' ∈ ·, b.IsWithin b' ∧ b'.vars ⊆ b.vars ++ vs)) :
    Step.Widens c vs (.extend candidates)
  | assign {v : Var} (hv : v ∈ vs) (value : Assignment) : Step.Widens c vs (.assign v value)
  | subQuery (number : Nat) {query : Plan}
    (h : (query none).Ensures c (∀ row ∈ ·.rows, row.vars ⊆ c.start.vars ++ vs)) :
    Step.Widens c vs (.subQuery number query)
  | filter (condition : Binding → Eval Bool) : Step.Widens c vs (.filter condition)

/-- The same of steps whose sub-queries declare what they bind. -/
inductive Step.Starts (c : Context) (vs : List Var) : Step → Prop
  | extend {candidates : Binding → Eval (List Binding)}
    (h : ∀ b, (candidates b).Ensures c
      (∀ b' ∈ ·, b.IsWithin b' ∧ b'.vars ⊆ b.vars ++ vs)) :
    Step.Starts c vs (.extend candidates)
  | assign {v : Var} (hv : v ∈ vs) (value : Assignment) : Step.Starts c vs (.assign v value)
  | subQuery (number : Nat) {query : Plan}
    (h : (query none).Ensures c (·.Binds (c.start.vars ++ vs))) :
    Step.Starts c vs (.subQuery number query)
  | filter (condition : Binding → Eval Bool) : Step.Starts c vs (.filter condition)

theorem Step.Starts.widens {c : Context} {vs : List Var} {s : Step} (h : s.Starts c vs) :
    s.Widens c vs := by
  cases h with
  | extend h => exact .extend h
  | assign hv value => exact .assign hv value
  | subQuery number h =>
    apply Step.Widens.subQuery
    exact h.mono fun found hfound => hfound.row_vars
  | filter condition => exact .filter condition

namespace Matches

variable {c : Context} {start b : Binding} {us vs : List Var} {m : Matches}

/-- What has been found extends the seed, by some variables only. So do the
remembered solutions of sub-queries. -/
structure StartsFrom (start : Binding) (us : List Var) (m : Matches) : Prop where
  found : ∀ row ∈ m.found.toList, start.IsWithin row ∧ row.vars ⊆ us
  queries : ∀ x ∈ m.queries, ∀ row ∈ x.2.rows, row.vars ⊆ us

theorem empty_startsFrom : empty.StartsFrom start us :=
  ⟨fun _ hrow => absurd hrow List.not_mem_nil, fun _ hx => absurd hx List.not_mem_nil⟩

theorem overCandidates_ensures {demand : Demand} {next : Binding → Matches → Eval Matches}
    {bs : List Binding} (hnext : ∀ b ∈ bs, ∀ m, m.StartsFrom start us →
      (next b m).Ensures c (·.StartsFrom start us)) (hm : m.StartsFrom start us) :
    (overCandidates demand next bs m).Ensures c (·.StartsFrom start us) := by
  induction bs generalizing m with
  | nil => exact .pure hm
  | cons b rest ih =>
    refine (hnext b List.mem_cons_self m hm).bind fun m' hm' => ?_
    split
    · exact .pure hm'
    · exact ih (fun b hb => hnext b (List.mem_cons_of_mem _ hb)) hm'

theorem solutionsOf_ensures {number : Nat} {query : Plan}
    (h : (query none).Ensures c (∀ row ∈ ·.rows, row.vars ⊆ us)) (hm : m.StartsFrom start us) :
    (solutionsOf number query m).Ensures c fun x =>
      (∀ row ∈ x.1.rows, row.vars ⊆ us) ∧ x.2.StartsFrom start us := by
  unfold solutionsOf
  split
  · rename_i s hs
    obtain ⟨_, _, hsplit, -⟩ := List.lookup_eq_some_iff.mp hs
    have hmem : (number, s) ∈ m.queries := hsplit ▸ List.mem_append_right _ List.mem_cons_self
    exact .pure ⟨hm.queries _ hmem, hm⟩
  · exact h.bind fun s hs => .pure ⟨hs, hm.found, List.forall_mem_cons.mpr ⟨hs, hm.queries⟩⟩

/-- Every step keeps the values of the seed. -/
theorem matchSteps_ensures {steps : List Step} (hsteps : ∀ s ∈ steps, s.Widens c vs)
    (demand : Demand) (hb : c.start.IsWithin b) (hvars : b.vars ⊆ c.start.vars ++ vs)
    (hm : m.StartsFrom c.start (c.start.vars ++ vs)) :
    (matchSteps demand steps b m).Ensures c (·.StartsFrom c.start (c.start.vars ++ vs)) := by
  induction steps generalizing b m with
  | nil =>
    refine .pure ⟨fun row hrow => ?_, hm.queries⟩
    rcases List.mem_append.mp (Array.toList_push ▸ hrow) with hrow | hrow
    · exact hm.found row hrow
    · rw [List.mem_singleton.mp hrow]
      exact ⟨hb, hvars⟩
  | cons step rest ih =>
    obtain ⟨hstep, hrest⟩ := List.forall_mem_cons.mp hsteps
    have ih {b : Binding} {m : Matches} := @ih b m hrest
    refine .after fun _ => ?_
    cases hstep with
    | @extend candidates h =>
      refine (h b).bind fun bs hbs => overCandidates_ensures (fun b' hb' m hm => ?_) hm
      refine ih (hb.trans (hbs b' hb').1) (fun v hv => ?_) hm
      rcases List.mem_append.mp ((hbs b' hb').2 hv) with hv | hv
      · exact hvars hv
      · exact List.mem_append_right _ hv
    | @assign v hv value =>
      dsimp only
      split
      · exact ensures_fail _
      · rename_i hbound
        refine .after fun t => ?_
        cases t with
        | none => exact ih hb hvars hm
        | some t =>
          -- the variable is new, so it has no value in the seed either
          have hnone : b.get? v = none := by
            simpa [Binding.contains, Option.isSome_iff_ne_none] using hbound
          refine ih (hb.trans (Binding.isWithin_insert hnone)) (fun w hw => ?_) hm
          rcases Binding.mem_vars_insert.mp hw with rfl | hw
          · exact List.mem_append_right _ hv
          · exact hvars hw
    | subQuery number h =>
      -- the solutions may be remembered, from another binding
      refine (solutionsOf_ensures h hm).bind fun x hx =>
        overCandidates_ensures (fun b' hb' m hm => ?_) hx.2
      obtain ⟨row, hrow, hmerge⟩ := List.mem_filterMap.mp hb'
      refine ih (hb.trans (Binding.isWithin_of_merge? hmerge).1) (fun v hv => ?_) hm
      exact ((Binding.mem_vars_of_merge? hmerge).mp hv).elim (hvars ·) (hx.1 row hrow ·)
    | filter condition =>
      refine .after fun holds => ?_
      cases holds with
      | true => exact ih hb hvars hm
      | false => exact .pure hm

end Matches

namespace Plan

variable {e : Environment} {seeded : Bool} {c : Context} {vs : List Var} {steps : List Step}

/-- A basic graph pattern yields what matching finds. -/
theorem found_of_bgp (hc : c.IsReal e seeded) (hsteps : ∀ s ∈ steps, s.Starts c vs)
    {demand : Demand} {o : Solutions} {p q : Progress}
    (ho : (bgp steps vs demand).runFrom c p = (.ok o, q)) :
    ∃ m, (Matches.matchSteps demand steps c.start .empty).runFrom c p = (.ok m, q) ∧
      m.StartsFrom c.start (c.start.vars ++ vs) ∧ o.rows = m.found.toList ∧
      o.Binds (c.start.vars ++ vs) := by
  unfold bgp at ho
  rw [act_eval, runFrom_bind_ok c p (runFrom_read c p)] at ho
  dsimp only at ho
  rw [if_neg (by simp [hc.real])] at ho
  obtain ⟨m, p', hm, ho⟩ := runFrom_bind_eq_ok ho
  cases ho
  have hwiden := fun s hs => (hsteps s hs).widens
  have hstart := Matches.matchSteps_ensures hwiden demand (.refl _)
    (List.subset_append_left _ _) Matches.empty_startsFrom p m _ hm
  have hown : ∀ row ∈ m.found.toList, row.vars ⊆ mergeVariables c.start.vars vs :=
    fun row hrow v hv =>
      mem_mergeVariables.mpr (List.mem_append.mp ((hstart.found row hrow).2 hv))
  exact ⟨m, hm, hstart, Solutions.rows_ofRows hown,
    Solutions.ofRows_binds hown fun row hrow => (hstart.found row hrow).2⟩

/-- A pattern extends the seed by its own variables. -/
theorem bgp_ensures {P : Solutions → Prop} (hsteps : ∀ s ∈ steps, s.Widens c vs)
    (hdry : c.environment.isDryRun = true → P (.singleton (mergeVariables c.start.vars vs)))
    (hrows : ∀ rows : List Binding,
      (∀ row ∈ rows, c.start.IsWithin row ∧ row.vars ⊆ c.start.vars ++ vs) →
        P (.ofRows (mergeVariables c.start.vars vs) rows)) (demand : Demand) :
    (bgp steps vs demand).Ensures c P := by
  refine .read_bind ?_
  dsimp only
  split
  · rename_i hdryRun
    exact .pure (hdry hdryRun)
  · exact (Matches.matchSteps_ensures hsteps demand (.refl _) (List.subset_append_left _ _)
      Matches.empty_startsFrom).bind fun m hm => .pure (hrows _ hm.found)

/-- A basic graph pattern starts from the seed and keeps its values. -/
theorem bgp_starts (hsteps : ∀ c, c.IsReal e seeded → ∀ s ∈ steps, s.Starts c vs) :
    (bgp steps vs).Starts e seeded vs [] := by
  intro c hc
  refine bgp_ensures (fun s hs => (hsteps c hc s hs).widens) (not_dry hc) fun rows hrows => ?_
  have hown : ∀ row ∈ rows, row.vars ⊆ mergeVariables c.start.vars vs := by
    intro row hrow v hv
    exact mem_mergeVariables.mpr (List.mem_append.mp ((hrows row hrow).2 hv))
  refine ⟨Solutions.ofRows_binds hown fun row hrow => (hrows row hrow).2, fun row hrow => ?_⟩
  rw [Solutions.rows_ofRows hown] at hrow
  exact (hrows row hrow).1.agreesOutside []

end Plan

/-! ## Trees -/

/-- Whether a node calls a service. -/
def Node.isService : Node → Bool
  | .service _ _ _ _ => true
  | _ => false

/-- The answers of services bind variables of the calls in a tree only. A service
that is called by a variable may be any, if a seed gives the variable a value. -/
def Environment.AnswersDeclare (e : Environment) (seeded : Bool) (n : Node) : Prop :=
  ∀ handler, e.services = some handler → ∀ name vs silent pattern,
    n.Contains (.service name vs silent pattern) → ∀ i s, name = .iri i ∨ seeded = true →
      handler ⟨i, pattern⟩ e.base = .ok s → s.Binds vs

namespace Environment

variable {e : Environment} {seeded : Bool} {n part : Node}

theorem AnswersBind.answersDeclare (h : e.AnswersBind n) : e.AnswersDeclare false n := by
  rintro handler hhandler name vs silent pattern hn i s (rfl | hfalse) hs
  · exact h handler hhandler i vs silent pattern hn s hs
  · cases hfalse

theorem AnswersDeclare.of_any (h : e.AnswersDeclare seeded n)
    (hany : ∀ test, part.any test = true → n.any test = true) : e.AnswersDeclare seeded part :=
  fun handler hhandler name vs silent pattern hpart =>
    h handler hhandler name vs silent pattern fun test htest => hany test (hpart test htest)

theorem AnswersDeclare.unseeded (h : e.AnswersDeclare seeded n) : e.AnswersDeclare false n := by
  rintro handler hhandler name vs silent pattern hn i s (hname | hfalse) hs
  · exact h handler hhandler name vs silent pattern hn i s (.inl hname) hs
  · cases hfalse

theorem answersDeclare_of_no_service (h : n.any Node.isService = false) :
    e.AnswersDeclare seeded n := by
  intro _ _ _ _ _ _ hn
  rw [hn Node.isService rfl] at h
  cases h

end Environment

variable {operators : OperatorRegistry} {e : Environment}

/-- What holds of the steps of elements, if it holds of each kind of step. -/
theorem Element.steps_cases {es : List Element} {i : Nat} {c : Context} {vs : List Var}
    {P : Step → Prop}
    (hextend : ∀ {candidates : Binding → Eval (List Binding)},
      (∀ b, (candidates b).Ensures c (∀ b' ∈ ·, b.IsWithin b' ∧ b'.vars ⊆ b.vars ++ vs)) →
        P (.extend candidates))
    (hassign : ∀ v ∈ vs, ∀ value, P (.assign v value))
    (hquery : ∀ query, .subQuery query ∈ es → query.vars ⊆ vs → ∀ i,
      P (.subQuery i (.input i (query.plan operators))))
    (hfilter : ∀ condition, P (.filter condition)) (hvs : Element.boundByAll es ⊆ vs) :
    ∀ s ∈ Element.steps operators i es, P s := by
  induction es generalizing i with
  | nil => simp [Element.steps]
  | cons element rest ih =>
    obtain ⟨hown, hvs⟩ := List.append_subset.mp hvs
    have hrest := fun j => ih (i := j) (fun query hmem =>
      hquery query (List.mem_cons_of_mem _ hmem)) hvs
    have hmono {b b' : Binding} {ws : List Var} (hws : ws ⊆ vs)
        (h : b.IsWithin b' ∧ b'.vars ⊆ b.vars ++ ws) :
        b.IsWithin b' ∧ b'.vars ⊆ b.vars ++ vs :=
      ⟨h.1, fun v hv => (List.mem_append.mp (h.2 hv)).elim (List.mem_append_left _) fun hv =>
        List.mem_append_right _ (hws hv)⟩
    cases element with
    | triple p =>
      refine List.forall_mem_cons.mpr ⟨hextend fun b => ?_, hrest i⟩
      exact (Step.matchTriple_ensures p b).mono fun _ h b' hb' => hmono hown (h b' hb')
    | path s path o =>
      refine List.forall_mem_cons.mpr ⟨hextend fun b => ?_, hrest i⟩
      exact (Step.matchPath_ensures s path o b).mono fun _ h b' hb' => hmono hown (h b' hb')
    | assign v value =>
      exact List.forall_mem_cons.mpr ⟨hassign v (hown List.mem_cons_self) _, hrest i⟩
    | filter condition => exact List.forall_mem_cons.mpr ⟨hfilter _, hrest i⟩
    | subQuery query =>
      exact List.forall_mem_cons.mpr ⟨hquery query List.mem_cons_self hown i, hrest (i + 1)⟩

/-- The elements of a pattern make steps that start from the seed. -/
theorem Element.steps_start {seeded : Bool} {es : List Element} {i : Nat} {vs : List Var}
    (hqueries : ∀ query, .subQuery query ∈ es →
      (query.plan operators).Starts e seeded query.vars query.computed)
    (hvs : Element.boundByAll es ⊆ vs) (c : Context) (hc : c.IsReal e seeded) :
    ∀ s ∈ Element.steps operators i es, s.Starts c vs := by
  refine Element.steps_cases .extend (fun _ hv => .assign hv) (fun query hquery hown i => ?_)
    .filter hvs
  refine .subQuery i (((hqueries query hquery).input i c hc none).mono fun s hs => ?_)
  refine hs.binds.mono fun v hv => ?_
  exact (List.mem_append.mp hv).elim (List.mem_append_left _) fun hv =>
    List.mem_append_right _ (hown hv)

mutual

/-- Whatever a tree yields starts from the seed: it binds variables of the seed and
of the tree, and it agrees with the seed on the variables that are not computed. -/
theorem Node.plan_starts : ∀ (n : Node) {seeded : Bool}, n.declaresVars seeded = true →
    e.AnswersDeclare seeded n → (n.plan operators).Starts e seeded n.vars n.computed
  | .bgp es, _, hn, ha => by
    have hqueries := Element.queries_start es hn fun query hquery => ha.of_any fun test ht => by
      simp [Node.any, Element.anyIn_of_mem hquery ht]
    exact (Plan.bgp_starts fun c hc => Element.steps_start hqueries
      (fun _ hv => mem_dedup.mpr hv) c hc).observed _
  | .join l r, _, hn, ha => by
    simp only [Node.declaresVars, Bool.and_eq_true] at hn
    have hl := l.plan_starts hn.1 (ha.of_any fun _ ht => by simp [Node.any, ht])
    have hr := r.plan_starts hn.2 (ha.of_any fun _ ht => by simp [Node.any, ht])
    exact ((hl.input 0).join (hr.input 1)).observed _
  | .leftJoin l r none, _, hn, ha | .leftJoin l r (some _), _, hn, ha => by
    simp only [Node.declaresVars, Bool.and_eq_true] at hn
    have hl := l.plan_starts hn.1 (ha.of_any fun _ ht => by simp [Node.any, ht])
    have hr := r.plan_starts hn.2 (ha.of_any fun _ ht => by simp [Node.any, ht])
    exact ((hl.input 0).leftJoin (hr.input 1) _).observed _
  | .union l r, _, hn, ha => by
    simp only [Node.declaresVars, Bool.and_eq_true] at hn
    have hl := l.plan_starts hn.1 (ha.of_any fun _ ht => by simp [Node.any, ht])
    have hr := r.plan_starts hn.2 (ha.of_any fun _ ht => by simp [Node.any, ht])
    exact ((hl.input 0).union (hr.input 1)).observed _
  | .minus l r, _, hn, ha => by
    simp only [Node.declaresVars, Bool.and_eq_true] at hn
    have hl := l.plan_starts hn.1 (ha.of_any fun _ ht => by simp [Node.any, ht])
    have hr := r.plan_starts hn.2 (ha.unseeded.of_any fun _ ht => by simp [Node.any, ht])
    exact ((hl.input 0).minus (hr.input 1)).observed _
  | .existsJoin inner _ _, _, hn, ha => by
    have h := inner.plan_starts hn (ha.of_any fun _ ht => by simp [Node.any, ht])
    exact ((h.input 0).existsJoin _ _).observed _
  | .filter inner _, _, hn, ha | .having inner _, _, hn, ha => by
    have h := inner.plan_starts hn (ha.of_any fun _ ht => by simp [Node.any, ht])
    exact ((h.input 0).filter _).observed _
  | .extend inner v _, _, hn, ha => by
    have h := inner.plan_starts hn (ha.of_any fun _ ht => by simp [Node.any, ht])
    exact ((h.input 0).extend v _).observed _
  | .group inner keys columns, _, hn, ha => by
    have h := inner.plan_starts hn (ha.unseeded.of_any fun _ ht => by simp [Node.any, ht])
    rw [Node.vars, Node.computed, ← @GroupValue.map_columns operators]
    exact ((h.input 0).group keys _).observed _
  | .orderBy inner _, _, hn, ha => by
    have h := inner.plan_starts hn (ha.of_any fun _ ht => by simp [Node.any, ht])
    exact ((h.input 0).orderBy _).observed _
  | .distinct inner, _, hn, ha => by
    have h := inner.plan_starts hn (ha.of_any fun _ ht => by simp [Node.any, ht])
    exact (h.input 0).distinct.observed _
  | .reduced inner, _, hn, ha => by
    have h := inner.plan_starts hn (ha.of_any fun _ ht => by simp [Node.any, ht])
    exact (h.input 0).observed _
  | .project inner vs, _, hn, ha => by
    have h := inner.plan_starts hn (ha.of_any fun _ ht => by simp [Node.any, ht])
    exact ((h.input 0).project vs).observed _
  | .slice inner offset limit, _, hn, ha => by
    have h := inner.plan_starts hn (ha.of_any fun _ ht => by simp [Node.any, ht])
    exact ((h.input 0).slice offset limit).observed _
  | .limit inner count, _, hn, ha => by
    have h := inner.plan_starts hn (ha.of_any fun _ ht => by simp [Node.any, ht])
    exact ((h.input 0).limit count).observed _
  | .graph inner (.iri i), _, hn, ha => by
    have h := inner.plan_starts hn (ha.of_any fun _ ht => by simp [Node.any, ht])
    exact ((h.input 0).graph i _).observed _
  | .graph inner (.var v), seeded, hn, ha => by
    simp only [Node.declaresVars, Bool.and_eq_true, Bool.not_eq_true'] at hn
    obtain ⟨rfl, hn⟩ := hn
    have h := inner.plan_starts hn (ha.of_any fun _ ht => by simp [Node.any, ht])
    exact ((h.input 0).graphs v).observed _
  | .service name vs silent pattern, _, _, ha => by
    refine (Plan.service_starts fun handler hhandler => ?_).observed _
    exact ha handler hhandler name vs silent pattern fun test ht => by simp [Node.any, ht]
  | .ask _, _, _, _ => (Plan.ask_starts _).observed _
  | .values vs rows, _, _, _ => (Plan.values_starts vs rows).observed _
  | .pathSearch s search o, _, _, _ => (Plan.pathSearch_starts s search o).observed _
  | .custom _ _ _, _, hn, _ => nomatch hn

theorem Element.queries_start : ∀ (es : List Element) {seeded : Bool},
    Element.declareVars seeded es = true →
    (∀ query, .subQuery query ∈ es → e.AnswersDeclare seeded query) →
    ∀ query, .subQuery query ∈ es →
      (query.plan operators).Starts e seeded query.vars query.computed
  | [], _, _, _ => fun _ hquery => absurd hquery List.not_mem_nil
  | .triple _ :: rest, _, hn, ha | .path _ _ _ :: rest, _, hn, ha
  | .assign _ _ :: rest, _, hn, ha | .filter _ :: rest, _, hn, ha => fun query hquery =>
    Element.queries_start rest hn (fun query hquery => ha query (List.mem_cons_of_mem _ hquery))
      query (by simpa using hquery)
  | .subQuery first :: rest, _, hn, ha => by
    simp only [Element.declareVars, Bool.and_eq_true] at hn
    have hfirst := first.plan_starts hn.1 (ha first List.mem_cons_self)
    have hrest := Element.queries_start rest hn.2 fun query hquery =>
      ha query (List.mem_cons_of_mem _ hquery)
    intro query hquery
    rcases List.mem_cons.mp hquery with heq | hquery
    · cases heq
      exact hfirst
    · exact hrest query hquery

end

end SparqlAlgebra
