import SparqlAlgebra.Proofs.PathRefinements

/-!
# What a closure reaches

A search along a path ends because every node enters its queue once. Its start enters it
in any case, without being reached yet if the closure is not reflexive, and it may be no
node of the graph.

* `Relation.Loops` is the loop of a search without a bound on its turns;
* `Searched.loops`: with fuel for every node that is not reached yet, and one turn for
  each term in the queue, a search is this loop, and its queue is empty in the end;
* `Path.steps_iff`: one step of the search is one evaluation of the inner path with a
  free end, whatever the free variable and the progress;
* `Path.reachable_exact`: a closure reaches what is one or more steps away.
-/

namespace SparqlAlgebra

open Eval

/-! ## The loop of a search -/

namespace Relation

/-- The terms that a relation yields for a variable at its other end. -/
def successors (r : Relation) (free : Var) (t : Term) : Eval (List Term) :=
  return valuesOf free (← r (.term t) (.var free))

theorem mem_valuesOf {v : Var} {bs : List Binding} {t : Term} :
    t ∈ valuesOf v bs ↔ ∃ b ∈ bs, b.get? v = some t := by
  unfold valuesOf
  rw [mem_dedup, List.mem_filterMap]

/-- The loop of a search goes on until its queue is empty, however many turns this takes.
It leads from a queue, the terms reached so far and a progress to the terms reached in
the end and the progress then. -/
inductive Loops (step : Term → Eval (List Term)) (c : Context) :
    List Term → List Term → Progress → List Term → Progress → Prop where
  | done {reached : List Term} {p : Progress} : Loops step c [] reached p reached p
  | turn {t : Term} {queue reached next found : List Term} {p p' p'' q : Progress}
      (htick : tick.runFrom c p = (.ok (), p'))
      (hnext : (step t).runFrom c p' = (.ok next, p''))
      (hrest : Loops step c (queue ++ next.filter (!reached.contains ·))
        (reached ++ next.filter (!reached.contains ·)) p'' found q) :
      Loops step c (t :: queue) reached p found q

end Relation

/-- A search that has fuel for all nodes that are not reached yet empties its queue. The
measure is the number of these nodes and of the terms in the queue. -/
theorem Searched.loops {next : Term → List Term} {nodes queue reached : List Term}
    {start : Term} {reflexive : Bool} {step : Term → Eval (List Term)} {c : Context}
    (hc : c.Answers) (hstart : start ∈ nodes)
    (hnodes : ∀ s ∈ nodes, ∀ u, u ∈ next s → u ∈ nodes) (hnodup : ∀ s, (next s).Nodup)
    (fuel : Nat) {p : Progress}
    (hstep : ∀ (q : Progress) t, p.vars ≤ q.vars → (step t).Makes c q (next t))
    (h : Searched (fun t u => u ∈ next t) nodes start reflexive queue reached)
    (hfuel : nodes.length + queue.length ≤ fuel + reached.length) :
    ∃ found q, Relation.Loops step c queue reached p found q ∧
      (Relation.search step fuel queue reached).runFrom c p = (.ok found, q) ∧
      Searched (fun t u => u ∈ next t) nodes start reflexive [] found := by
  induction fuel generalizing queue reached p with
  | zero =>
    have hlength := List.Nodup.length_le_of_subset h.nodup h.within
    have hqueue : queue = [] := List.length_eq_zero_iff.mp (by omega)
    subst hqueue
    exact ⟨reached, p, .done, rfl, h⟩
  | succ fuel ih =>
    cases queue with
    | nil => exact ⟨reached, p, .done, rfl, h⟩
    | cons t queue =>
      obtain ⟨k, htick⟩ := runFrom_tick_ok hc.inTime p
      obtain ⟨n, m, hn, hnext⟩ := hstep { p with countdown := k } t (Nat.le_refl _)
      have hlater : ∀ (q : Progress) s, n ≤ q.vars → (step s).Makes c q (next s) := by
        intro q s hq
        exact hstep q s (Nat.le_trans hn hq)
      have hkept := h.step hstart hnodes (hnodup t) fun u => Iff.rfl
      obtain ⟨found, q, hloop, hrun, hsearched⟩ :=
        ih (p := { p with vars := n, countdown := m }) hlater hkept (by
          simp only [List.length_append, List.length_cons] at hfuel ⊢
          omega)
      refine ⟨found, q, .turn htick hnext hloop, ?_, hsearched⟩
      show (tick >>= fun _ => step t >>= fun next => _).runFrom c p = _
      rw [runFrom_bind_ok c p htick, runFrom_bind_ok c _ hnext]
      exact hrun

namespace Links

variable {d : Links} {v : DatasetView} {loops : Bool} {start : Term}

/-- What is near the start is the start itself or a node. -/
theorem Stay.next_within (h : d.Stay v loops) {s u : Term}
    (hs : s ∈ start :: v.factNodes) (hu : u ∈ d.next s) : u ∈ start :: v.factNodes := by
  rcases h.near_next hu with ⟨-, hnode⟩ | ⟨-, rfl⟩
  · exact List.mem_cons_of_mem _ hnode
  · exact hs

end Links

/-- The search of a closure from any start is its loop. -/
theorem Relation.Models.reachable_loops {r : Relation} {d : DatasetView → Links}
    (h : r.Models d) {c : Context} (hc : c.Answers) {loops : Bool}
    (hstay : (d c.view).Stay c.view loops) (start : Term) (reflexive : Bool) (p : Progress) :
    ∃ found q, (Relation.reachable r start reflexive).runFrom c p = (.ok found, q) ∧
      Relation.Loops (r.successors (.generated (p.vars + 1))) c [start]
        (if reflexive then [start] else []) { p with vars := p.vars + 1 } found q ∧
      Searched (fun t u => u ∈ (d c.view).next t) (start :: c.view.factNodes) start
        reflexive [] found := by
  have hstep : ∀ (q : Progress) t, p.vars + 1 ≤ q.vars →
      (r.successors (.generated (p.vars + 1)) t).Makes c q ((d c.view).next t) := by
    intro q t hq
    have hfree : (Position.var (.generated (p.vars + 1))).IsOld q.vars :=
      (Position.isOld_generated _).mono hq
    refine (h c hc q _ _ (Position.isOld_term t _) hfree).bind fun q' _ => ?_
    rw [Relation.valuesOf_bindings]
    exact .pure _
  have hinitial : Searched (fun t u => u ∈ (d c.view).next t) (start :: c.view.factNodes) start
      reflexive [start] (if reflexive then [start] else []) :=
    Searched.initial List.mem_cons_self
  -- the start is counted apart, as it may be no node
  have hbound := DatasetView.length_factNodes_le hc.readable
  obtain ⟨found, q, hloop, hrun, hsearched⟩ :=
    Searched.loops hc List.mem_cons_self
      (fun s hs u hu => hstay.next_within hs hu)
      (fun s => nodup_dedup _) (c.view.nodeBound + 2)
      (p := { p with vars := p.vars + 1 }) hstep hinitial (by
        simp only [List.length_cons, List.length_nil]
        omega)
  refine ⟨found, q, ?_, hloop, hsearched⟩
  unfold Relation.reachable
  rw [runFrom_bind_ok c p (runFrom_freshVar c p), runFrom_bind_ok c _ (runFrom_read c _)]
  exact hrun

/-! ## Steps along a path -/

namespace Path

/-- A path in one of its two directions. -/
def toward (path : Path) (backward : Bool) : Relation :=
  if backward then .swap path.relation else path.relation

/-- Evaluating a path from a term to a free end yields another term. The free variable is
one that the evaluation does not make for itself. -/
def Steps (path : Path) (backward : Bool) (c : Context) (t u : Term) : Prop :=
  ∃ (free : Var) (p q : Progress) (bs : List Binding), (Position.var free).IsOld p.vars ∧
    (path.toward backward (.term t) (.var free)).runFrom c p = (.ok bs, q) ∧
      ∃ b ∈ bs, b.get? free = some u

/-- The links of a path in one of its two directions. -/
def linksToward (v : DatasetView) (path : Path) (backward : Bool) : Links :=
  if backward then (path.links v).swap else path.links v

theorem toward_models (path : Path) (backward : Bool) :
    (path.toward backward).Models fun v => path.linksToward v backward := by
  cases backward with
  | false => exact path.relation_models
  | true => exact path.relation_models.swap

theorem linksToward_stay (v : DatasetView) (path : Path) (backward : Bool) :
    (path.linksToward v backward).Stay v path.mayBeEmpty := by
  cases backward with
  | false => exact path.links_stay v
  | true => exact (path.links_stay v).swap

variable {path : Path} {backward : Bool} {c : Context} {t u : Term}

/-- From any progress and with any free variable, the values of the free end are the
linked terms. -/
theorem exists_value_iff (hc : c.Answers) {free : Var} {p q : Progress} {bs : List Binding}
    (hfree : (Position.var free).IsOld p.vars)
    (hrun : (path.toward backward (.term t) (.var free)).runFrom c p = (.ok bs, q)) :
    (∃ b ∈ bs, b.get? free = some u) ↔ u ∈ (path.linksToward c.view backward).next t := by
  obtain ⟨n, k, -, hmodel⟩ :=
    path.toward_models backward c hc p _ _ (Position.isOld_term t _) hfree
  rw [hrun] at hmodel
  cases hmodel
  rw [← Relation.mem_valuesOf, Relation.valuesOf_bindings]

theorem steps_iff (hc : c.Answers) :
    path.Steps backward c t u ↔ u ∈ (path.linksToward c.view backward).next t := by
  constructor
  · rintro ⟨free, p, q, bs, hfree, hrun, hvalue⟩
    exact (exists_value_iff hc hfree hrun).mp hvalue
  · intro hu
    have hfree := Position.isOld_generated (Progress.initial c.environment).vars
    obtain ⟨n, k, -, hrun⟩ := path.toward_models backward c hc
      (Progress.initial c.environment) _ _ (Position.isOld_term t _) hfree
    exact ⟨_, _, _, _, hfree, hrun, (exists_value_iff hc hfree hrun).mpr hu⟩

/-- A closure reaches, each of them once, the terms that are one or more steps away, and
its start if it is reflexive. The search is a loop that ends by itself, on cycles too,
and from a start that no triple contains. -/
theorem reachable_exact (path : Path) (backward reflexive : Bool) (start : Term)
    {c : Context} (hc : c.Answers) (p : Progress) :
    ∃ reached q,
      (Relation.reachable (path.toward backward) start reflexive).runFrom c p =
        (.ok reached, q) ∧
      Relation.Loops ((path.toward backward).successors (.generated (p.vars + 1))) c [start]
        (if reflexive then [start] else []) { p with vars := p.vars + 1 } reached q ∧
      reached.Nodup ∧
      (∀ t, t ∈ reached ↔
        (reflexive = true ∧ t = start) ∨ Relation.TransGen (path.Steps backward c) start t) ∧
      (reflexive = false →
        (start ∈ reached ↔ Relation.TransGen (path.Steps backward c) start start)) := by
  obtain ⟨found, q, hrun, hloop, hsearched⟩ :=
    (path.toward_models backward).reachable_loops hc (path.linksToward_stay c.view backward)
      start reflexive p
  have hsteps : path.Steps backward c =
      fun t u => u ∈ (path.linksToward c.view backward).next t := by
    funext t u
    exact propext (steps_iff hc)
  have hmem : ∀ t, t ∈ found ↔
      (reflexive = true ∧ t = start) ∨ Relation.TransGen (path.Steps backward c) start t := by
    intro t
    rw [hsteps, hsearched.mem_iff, eq_comm (a := t)]
  refine ⟨found, q, hrun, hloop, hsearched.nodup, hmem, ?_⟩
  intro hreflexive
  rw [hmem start, hreflexive]
  simp

/-- Two edges that lead back to where they begin. -/
def sampleRing : MemoryDataset :=
  .ofQuads [⟨.iri ⟨"a"⟩, ⟨"p"⟩, .iri ⟨"b"⟩, .default⟩,
    ⟨.iri ⟨"b"⟩, ⟨"p"⟩, .iri ⟨"a"⟩, .default⟩]

/-- A query on `sampleRing`. -/
def ringContext : Context :=
  .initial ⟨sampleRing.toDataset, .default, none, []⟩
    ⟨.builtins, none, none, false, 1024, 0, false⟩

theorem reachable_exact_sample :
    let inner : Path := .oneOrMore (.property ⟨"p"⟩ false)
    let start : Term := .iri ⟨"a"⟩
    ringContext.Answers ∧ ∃ q,
      (Relation.reachable (inner.toward true) start false).runFrom ringContext
        (.initial ringContext.environment) = (.ok [.iri ⟨"b"⟩, start], q) ∧
      Relation.TransGen (inner.Steps true ringContext) start start := by
  intro inner start
  have hc : ringContext.Answers := ⟨sampleRing.isReadable, rfl⟩
  obtain ⟨reached, q, hrun, -, -, -, hback⟩ :=
    reachable_exact inner true false start hc (.initial ringContext.environment)
  have hreached : ((Relation.reachable (inner.toward true) start false).runFrom ringContext
      (.initial ringContext.environment)).1 = .ok [.iri ⟨"b"⟩, start] := by decide +kernel
  rw [hrun] at hreached
  cases hreached
  exact ⟨hc, q, hrun, (hback rfl).mp (by simp)⟩

end Path

end SparqlAlgebra
