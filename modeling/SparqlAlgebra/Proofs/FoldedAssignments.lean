import SparqlAlgebra.Proofs.ReachedRows

/-!
# Assignments folded into patterns

An assignment to the solutions of a basic graph pattern is lowered to an element at the
end of the pattern. With a demand, both stop at the same row. They differ in the seed: the
operator does not let the inner pattern start from a value of its variable, the element
meets the value and fails.

* `Node.outcome_extend` and `Node.outcome_bgp_assign`: both assign to the rows that the
  triples reach, from the seed without the variable and from the seed;
* `TriplePattern.assignedRows_reached`: what is reached with a value of the variable cannot
  be assigned another one;
* `Query.extendNode_rows`: when folding keeps the solutions, and `Query.extendNode_fails`
  for a seed with which it does not.
-/

namespace SparqlAlgebra

open Eval

/-! ## Patterns of triples -/

section Patterns

variable {operators : OperatorRegistry} {c : Context} {demand : Demand}
  {ps : List TriplePattern} {v : Var} {e : Expr}

theorem Element.steps_triples (es : List Element) (i : Nat) :
    steps operators i (ps.map .triple ++ es) =
      ps.map (fun p => .extend (Step.matchTriple p)) ++ steps operators i es := by
  induction ps with
  | nil => rfl
  | cons p rest ih => exact congrArg _ ih

theorem Element.isDirect_triples : ∀ e ∈ ps.map Element.triple, e.isDirect = true := by
  intro e he
  obtain ⟨p, -, rfl⟩ := List.mem_map.mp he
  rfl

theorem Plan.outcome_bgp_eq (hc : c.Repeatable) (hreal : c.environment.isDryRun = false)
    (steps : List Step) (vs : List Var) :
    (bgp steps vs demand).outcome c =
      ((Matches.matchSteps demand steps c.start .empty).outcome c).map fun r =>
        .ofRows (mergeVariables c.start.vars vs) r.found.toList := by
  unfold bgp
  rw [act_eval, outcome_read_bind]
  dsimp only
  rw [if_neg (by simp [hreal]), outcome_bind (fun _ => .pure _) hc]
  rfl

/-- A pattern yields the rows of its triples as the elements behind them change them. -/
theorem Node.outcome_bgp_reached (hc : c.ReadsMemory) {es : List Element}
    (hes : ∀ e ∈ es, e.isDirect = true) {f : Binding → Except QueryError Binding}
    (hf : ∀ b m, (Matches.matchSteps demand (Element.steps operators 0 es) b m).outcome c =
      (f b).map fun row => m.add [row]) :
    ((Node.bgp (ps.map .triple ++ es)).plan operators demand).outcome c =
      ((TriplePattern.reached c.view.facts demand ps 0 c.start).mapM f).map
        (.ofRows (mergeVariables c.start.vars (Node.bgp (ps.map .triple ++ es)).vars)) := by
  have hrep := hc.toRepeatable
  have hall : ∀ e ∈ ps.map Element.triple ++ es, e.isDirect = true :=
    List.forall_mem_append.mpr ⟨Element.isDirect_triples, hes⟩
  have hbehind : ∀ s ∈ Element.steps operators 0 es, s.Steady :=
    Element.steps_steady_of_areDirect hes 0
  have hsteps : ∀ s ∈ Element.steps operators 0 (ps.map .triple ++ es), s.Steady :=
    Element.steps_steady_of_areDirect hall 0
  refine (Plan.outcome_observed_eq (Plan.bgp_steady hsteps _) hrep _ demand).trans ?_
  rw [Plan.outcome_bgp_eq hrep hc.real, Element.steps_triples,
    Matches.outcome_matchSteps_reached hrep hbehind hf]
  show Except.map _ (Except.map _
    ((TriplePattern.reached c.view.facts demand ps 0 c.start).mapM f)) = _
  cases (TriplePattern.reached c.view.facts demand ps 0 c.start).mapM f with
  | error err => rfl
  | ok rows => simp [Except.map, Matches.add, Matches.empty]

theorem Element.mem_boundByAll_triples :
    v ∈ boundByAll (ps.map .triple) ↔ ∃ p ∈ ps, v ∈ p.vars := by
  induction ps with
  | nil => simp [boundByAll]
  | cons p rest ih =>
    show v ∈ p.vars ++ boundByAll (rest.map .triple) ↔ _
    rw [List.mem_append, ih, List.exists_mem_cons_iff]

/-- Assignments to rows are made one after the other. -/
theorem Solutions.assignedRows_eq_mapM (v : Var)
    (value : Binding → Except QueryError (Option Term)) (rows : List Binding) :
    assignedRows v value rows =
      rows.mapM fun b => (assignedValue v value b).map (assignedRow v b) := by
  induction rows with
  | nil => rfl
  | cons b rest ih =>
    unfold assignedRows
    rw [List.mapM_cons, ← ih]
    cases assignedValue v value b with
    | error err => rfl
    | ok t => cases assignedRows v value rest <;> rfl

/-- The element assigns to the rows that are reached from the seed. -/
theorem Node.outcome_bgp_assign (hc : c.ReadsMemory) (he : e.isPlain = true) :
    ((Node.bgp (ps.map .triple ++ [.assign v e])).plan operators demand).outcome c =
      (Solutions.assignedRows v (fun b => (e.assignment (e.meaning operators) b).outcome c)
          (TriplePattern.reached c.view.facts demand ps 0 c.start)).map
        (.ofRows (mergeVariables c.start.vars
          (Node.bgp (ps.map .triple ++ [.assign v e])).vars)) := by
  rw [Solutions.assignedRows_eq_mapM]
  refine Node.outcome_bgp_reached hc (by simpa [Element.isDirect] using he) fun b m => ?_
  refine (Matches.outcome_matchSteps_assign hc.toRepeatable (by simp [Element.steps]) he v b
    m).trans ?_
  show (Solutions.assignedValue v _ b >>= _) = Except.map _ (Except.map _ _)
  cases Solutions.assignedValue v
      (fun b => (e.assignment (e.meaning operators) b).outcome c) b with
  | error err => rfl
  | ok t => simp [bind, Except.bind, Except.map, Element.steps, Matches.matchSteps, Matches.add]

/-- A pattern of triples yields the rows that they reach from the seed. -/
theorem Node.outcome_bgp_triples (hc : c.ReadsMemory) :
    ∃ s, ((Node.bgp (ps.map .triple)).plan operators demand).outcome c = .ok s ∧
      s.isSingleton = false ∧
      s.rows = TriplePattern.reached c.view.facts demand ps 0 c.start := by
  have hrows : ∀ row ∈ TriplePattern.reached c.view.facts demand ps 0 c.start,
      row.vars ⊆ mergeVariables c.start.vars (Node.bgp (ps.map .triple)).vars := by
    intro row hrow w hw
    have hvars := (TriplePattern.mem_joinRows (TriplePattern.mem_joinRows_of_reached hrow)).2 w
    refine mem_mergeVariables.mpr ((hvars.mp hw).imp_right fun hp => ?_)
    exact mem_dedup.mpr (Element.mem_boundByAll_triples.mpr hp)
  have hend : ∀ b m, (Matches.matchSteps demand (Element.steps operators 0 []) b m).outcome c =
      (Except.ok b : Except QueryError Binding).map fun row => m.add [row] := by
    intro b m
    simp [Element.steps, Matches.matchSteps, Matches.add, Except.map]
  have hout : ((Node.bgp (ps.map .triple ++ [])).plan operators demand).outcome c = _ :=
    Node.outcome_bgp_reached hc (List.forall_mem_nil _) hend
  have hall : (TriplePattern.reached c.view.facts demand ps 0 c.start).mapM
      (Except.ok : Binding → Except QueryError Binding) =
        .ok (TriplePattern.reached c.view.facts demand ps 0 c.start) :=
    List.mapM_pure.trans (congrArg _ (List.map_id _))
  rw [List.append_nil, hall] at hout
  exact ⟨_, hout, Solutions.isSingleton_ofRows _ _, Solutions.rows_ofRows hrows⟩

/-- The operator assigns to the rows that are reached from the seed without its variable. -/
theorem Node.outcome_extend (hc : c.ReadsMemory) (he : e.isPlain = true) :
    ∃ vs, ((Node.extend (.bgp (ps.map .triple)) v e).plan operators demand).outcome c =
      (Solutions.assignedRows v (fun b => (e.assignment (e.meaning operators) b).outcome c)
          (TriplePattern.reached c.view.facts demand ps 0 (c.start.erase v))).map
        (.ofRows (mergeVariables vs [v])) := by
  have hrep := hc.toRepeatable
  have hvalue : (e.assignment (e.meaning operators)).Steady :=
    e.assignment_steady (Expr.meaning_steady_of_isPlain he)
  have hinner : ((Node.bgp (ps.map .triple)).plan operators).Steady :=
    Node.bgp_steady_of_areDirect Element.isDirect_triples
  -- the inner pattern is evaluated in this context
  let inside : Context := { c with seed := c.seed.map (·.erase v) }
  have hinside : inside.ReadsMemory := ⟨⟨⟨hc.readable, hc.inTime⟩, hc.builtin⟩, hc.memory, hc.real⟩
  have hstart : inside.start = c.start.erase v := c.start_mapSeed rfl
  obtain ⟨s, hs, hreal, hrows⟩ : ∃ s,
      ((Node.bgp (ps.map .triple)).plan operators demand).outcome inside = .ok s ∧
        s.isSingleton = false ∧
        s.rows = TriplePattern.reached c.view.facts demand ps 0 inside.start :=
    Node.outcome_bgp_triples hinside
  rw [hstart] at hrows
  refine ⟨s.vars, ?_⟩
  refine (Plan.outcome_observed_eq ((hinner.input 0).extend hvalue v) hrep _ demand).trans ?_
  have hseeded : (Plan.mapSeed (·.erase v) (.input 0 ((Node.bgp (ps.map .triple)).plan operators))
      demand).outcome c = .ok s :=
    (Plan.outcome_input hinner hinside.toRepeatable 0 demand).trans hs
  refine (outcome_bind_ok (Plan.extend_steady_rest hvalue v) hrep hseeded).trans ?_
  rw [if_neg (by simp [hreal]), outcome_bind (fun _ => .pure _) hrep,
    outcome_assignRows hvalue hrep, hrows]
  cases Solutions.assignedRows v _ (TriplePattern.reached c.view.facts demand ps 0
    (c.start.erase v)) <;> rfl

end Patterns

/-! ## Folding -/

namespace Binding

variable {b : Binding} {v : Var} {t : Term}

theorem erase_eq_self (h : b.get? v = none) : b.erase v = b := by
  refine ext_get? fun w => ?_
  rw [get?_erase]
  split
  · rename_i hw
    rw [hw, h]
  · rfl

theorem erase_isWithin (b : Binding) (v : Var) : (b.erase v).IsWithin b := by
  intro w u hw
  rw [get?_erase] at hw
  split at hw
  · cases hw
  · exact hw

theorem insert_erase (h : b.get? v = some t) : (b.erase v).insert v t = b := by
  refine ext_get? fun w => ?_
  rw [get?_insert, get?_erase]
  split
  · rename_i hw
    rw [hw, h]
  · rfl

end Binding

theorem Element.mem_boundByAll_assign (es : List Element) (v : Var) (e : Expr) :
    v ∈ boundByAll (es ++ [.assign v e]) := by
  induction es with
  | nil => exact List.mem_singleton_self v
  | cons e' rest ih => exact List.mem_append_right _ ih

/-- Solutions that declare a variable have the rows that they are made of. -/
theorem Solutions.rows_ofRows_of_mem {vs : List Var} {v : Var} (h : v ∈ vs)
    (rows : List Binding) : (ofRows vs rows).rows = rows :=
  rows_ofRows_of_ne_nil (List.ne_nil_of_mem h)

namespace TriplePattern

variable {facts : List Triple} {demand : Demand} {ps : List TriplePattern} {b : Binding}
  {v : Var} {t : Term} {value : Binding → Except QueryError (Option Term)}
  {found : List Binding}

/-- If there are no rows without a value of the variable, there are none with it. -/
theorem reached_eq_nil (hdemand : demand ≠ some 0)
    (h : reached facts demand ps 0 (b.erase v) = []) : reached facts demand ps 0 b = [] := by
  have hmet : demand.isMet 0 = false := by
    cases demand with
    | none => rfl
    | some k =>
      have hk : k ≠ 0 := fun hk => hdemand (by rw [hk])
      simp [Demand.isMet, hk]
  -- the seed only restricts what there is, but `reached` need not have all of it
  have hnone := joinRows_eq_nil_of_isWithin (b.erase_isWithin v) (joinRows_eq_nil hmet h)
  refine List.eq_nil_iff_forall_not_mem.mpr fun row hrow => ?_
  have hmem := mem_joinRows_of_reached hrow
  rw [hnone] at hmem
  exact List.not_mem_nil hmem

/-- If rows without a value of the variable can be assigned one, the triples do not have
the variable, and rows with a value of it cannot be assigned another one. -/
theorem assignedRows_reached (hb : b.get? v = some t)
    (h : Solutions.assignedRows v value (reached facts demand ps 0 (b.erase v)) = .ok found)
    (hfound : found ≠ []) :
    Solutions.assignedRows v value (reached facts demand ps 0 b) =
      .error (.variableAlreadyBound v) := by
  cases hrows : reached facts demand ps 0 (b.erase v) with
  | nil =>
    rw [hrows] at h
    cases h
    exact absurd rfl hfound
  | cons row rest =>
    rw [hrows] at h
    obtain ⟨u, found', hvalue, -, -⟩ := Solutions.assignedRows_cons_eq_ok.mp h
    have hunbound : row.contains v = false := by
      unfold Solutions.assignedValue at hvalue
      split at hvalue
      · cases hvalue
      · rename_i hcontains
        exact Bool.eq_false_iff.mpr hcontains
    -- a row binds all variables of the triples, and this one does not bind `v`
    have hmem : row ∈ reached facts demand ps 0 (b.erase v) := by
      rw [hrows]
      exact List.mem_cons_self
    have hvars := (mem_joinRows (mem_joinRows_of_reached hmem)).2 v
    have hps : ∀ p ∈ ps, v ∉ p.vars := by
      intro p hp hv
      have hbound := Binding.mem_vars.mp (hvars.mpr (.inr ⟨p, hp, hv⟩))
      rw [hunbound] at hbound
      cases hbound
    have hinsert : reached facts demand ps 0 ((b.erase v).insert v t) =
        (reached facts demand ps 0 (b.erase v)).map (·.insert v t) :=
      reached_insert hps (by rw [Binding.get?_erase, if_pos rfl])
    rw [Binding.insert_erase hb, hrows] at hinsert
    rw [hinsert, List.map_cons]
    unfold Solutions.assignedRows Solutions.assignedValue
    rw [if_pos (by simp [Binding.contains])]
    rfl

end TriplePattern

namespace Query

variable {operators : OperatorRegistry} {c : Context} {demand : Demand}
  {ps : List TriplePattern} {v : Var} {e : Expr}

/-- Let an assignment to the solutions of a pattern of triples succeed, under any demand
and with any seed. If the seed does not bind the variable, folding the assignment into the
pattern succeeds with the same rows in the same order, and so it does if there are no
solutions although some are asked for. If the seed binds the variable and there is a
solution, the folded pattern fails, as the variable is bound already. -/
theorem extendNode_rows (hc : c.ReadsMemory) (he : e.isPlain = true) {p q : Progress}
    {m : Solutions}
    (hm : ((Node.extend (.bgp (ps.map .triple)) v e).plan operators demand).runFrom c p =
      (.ok m, q)) (p' : Progress) :
    (c.start.get? v = none ∨ m.rows = [] ∧ demand ≠ some 0 →
      ∃ m' q', ((extendNode (.bgp (ps.map .triple)) v e).plan operators demand).runFrom c p' =
        (.ok m', q') ∧ m'.rows = m.rows) ∧
    (c.start.get? v ≠ none → m.rows ≠ [] →
      ∃ q', ((extendNode (.bgp (ps.map .triple)) v e).plan operators demand).runFrom c p' =
        (.error (.variableAlreadyBound v), q')) := by
  have hrep := hc.toRepeatable
  have hvalue : (e.assignment (e.meaning operators)).Steady :=
    e.assignment_steady (Expr.meaning_steady_of_isPlain he)
  have hall : ∀ e' ∈ ps.map Element.triple ++ [.assign v e], e'.isDirect = true :=
    List.forall_mem_append.mpr ⟨Element.isDirect_triples, List.forall_mem_singleton.mpr he⟩
  have hinner : ((Node.bgp (ps.map .triple)).plan operators).Steady :=
    Node.bgp_steady_of_areDirect Element.isDirect_triples
  have hsteady : ((Node.extend (.bgp (ps.map .triple)) v e).plan operators).Steady :=
    ((hinner.input 0).extend hvalue v).observed _
  have hfolded : ((extendNode (.bgp (ps.map .triple)) v e).plan operators).Steady :=
    Node.bgp_steady_of_areDirect hall
  -- both assign to the rows that are reached, from different seeds
  have hassign : ((extendNode (.bgp (ps.map .triple)) v e).plan operators demand).outcome c = _ :=
    Node.outcome_bgp_assign hc he
  obtain ⟨vs, hextend⟩ : ∃ vs,
      ((Node.extend (.bgp (ps.map .triple)) v e).plan operators demand).outcome c =
        (Solutions.assignedRows v (fun b => (e.assignment (e.meaning operators) b).outcome c)
          (TriplePattern.reached c.view.facts demand ps 0 (c.start.erase v))).map
            (.ofRows (mergeVariables vs [v])) :=
    Node.outcome_extend hc he
  rw [(hsteady demand).outcome_of_runFrom hrep hm] at hextend
  have hfold := (hfolded demand).fst_runFrom hrep p'
  rw [hassign] at hfold
  have hdeclared : v ∈ mergeVariables c.start.vars
      (Node.bgp (ps.map .triple ++ [.assign v e])).vars :=
    mem_mergeVariables.mpr (.inr (mem_dedup.mpr (Element.mem_boundByAll_assign _ v e)))
  cases hfound : Solutions.assignedRows v
      (fun b => (e.assignment (e.meaning operators) b).outcome c)
      (TriplePattern.reached c.view.facts demand ps 0 (c.start.erase v)) with
  | error err =>
    rw [hfound] at hextend
    cases hextend
  | ok found =>
    rw [hfound] at hextend
    cases hextend
    rw [Solutions.rows_ofRows_of_mem (mem_mergeVariables.mpr (.inr (List.mem_singleton_self v)))]
    refine ⟨fun hcase => ?_, fun hbound hrows => ?_⟩
    · -- without a value there is nothing to erase, and without rows nothing to assign to
      have hsame : Solutions.assignedRows v
          (fun b => (e.assignment (e.meaning operators) b).outcome c)
          (TriplePattern.reached c.view.facts demand ps 0 c.start) = .ok found := by
        rcases hcase with hunbound | ⟨rfl, hdemand⟩
        · rw [← hfound, Binding.erase_eq_self hunbound]
        · have hnone : TriplePattern.reached c.view.facts demand ps 0 (c.start.erase v) = [] :=
            List.length_eq_zero_iff.mp (Solutions.length_assignedRows hfound).symm
          rw [TriplePattern.reached_eq_nil hdemand hnone]
          rfl
      rw [hsame] at hfold
      exact ⟨_, _, Prod.ext hfold rfl, Solutions.rows_ofRows_of_mem hdeclared found⟩
    · obtain ⟨t, ht⟩ := Option.ne_none_iff_exists'.mp hbound
      rw [TriplePattern.assignedRows_reached ht hfound hrows] at hfold
      exact ⟨_, Prod.ext hfold rfl⟩

/-- A query on `sampleData` from the values of an outer solution. -/
def sampleSeeded (entries : List Entry) : Context :=
  { sampleContext with seed := some (.ofEntries entries) }

theorem extendNode_rows_sample :
    let c := sampleSeeded [(⟨"w"⟩, .iri ⟨"a"⟩)]
    let edges : List TriplePattern := [⟨.var ⟨"x"⟩, .term (.iri ⟨"p"⟩), .var ⟨"y"⟩⟩]
    c.ReadsMemory ∧ ∃ m q m' q',
      ((Node.extend (.bgp (edges.map .triple)) ⟨"z"⟩ (.var ⟨"x"⟩)).plan .empty none).runFrom c
        (.initial c.environment) = (.ok m, q) ∧
      ((extendNode (.bgp (edges.map .triple)) ⟨"z"⟩ (.var ⟨"x"⟩)).plan .empty none).runFrom c
        (.initial c.environment) = (.ok m', q') ∧
      m'.rows = m.rows ∧ m.size = 2 := by
  intro c edges
  have hc : c.ReadsMemory := sampleContext_isOnMemory.readsMemory _
  have hsize : (((Node.extend (.bgp (edges.map .triple)) ⟨"z"⟩ (.var ⟨"x"⟩)).plan .empty
      none).runFrom c (.initial c.environment)).1.toOption.map (·.size) = some 2 := by
    decide +kernel
  obtain ⟨m, q, hm, hsize⟩ := exists_ok_of_map hsize
  obtain ⟨m', q', hm', hrows⟩ := (extendNode_rows hc (e := .var ⟨"x"⟩) (by decide +kernel) hm
    (.initial c.environment)).1 (.inl (by decide +kernel))
  exact ⟨hc, m, q, m', q', hm, hm', hrows, hsize⟩

/-- The seed binds the variable of the assignment. The operator yields the value, which is
the one in the seed, and the folded pattern fails. -/
theorem extendNode_fails :
    let c := sampleSeeded [(⟨"x"⟩, .iri ⟨"b"⟩)]
    let value : Expr := .constant (.iri ⟨"b"⟩)
    ∃ m q q',
      ((Node.extend (.bgp []) ⟨"x"⟩ value).plan .empty none).runFrom c
        (.initial c.environment) = (.ok m, q) ∧
      m.rows = [c.start] ∧
      ((extendNode (.bgp []) ⟨"x"⟩ value).plan .empty none).runFrom c
        (.initial c.environment) = (.error (.variableAlreadyBound ⟨"x"⟩), q') := by
  intro c value
  have hrows : (((Node.extend (.bgp []) ⟨"x"⟩ value).plan .empty none).runFrom c
      (.initial c.environment)).1.toOption.map (·.rows) = some [c.start] := by decide +kernel
  have hfails : (((extendNode (.bgp []) ⟨"x"⟩ value).plan .empty none).runFrom c
      (.initial c.environment)).1 = .error (.variableAlreadyBound ⟨"x"⟩) := by decide +kernel
  obtain ⟨m, q, hm, hrows⟩ := exists_ok_of_map hrows
  exact ⟨m, q, _, hm, hrows, Prod.ext hfails rfl⟩

end Query

end SparqlAlgebra
