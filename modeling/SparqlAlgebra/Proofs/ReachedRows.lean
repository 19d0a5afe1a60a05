import SparqlAlgebra.Proofs.AssignedGroups
import SparqlAlgebra.Proofs.SeededJoins

/-!
# The rows that triples reach

Matching triples goes from row to row until there are enough, and hands every row to the
elements behind the triples. If these make one row of each, as an assignment does, the
rows that are reached under a demand do not depend on them.

* `Demand.collect` are the rows of candidates one after the other, until they are enough;
* `TriplePattern.reached` are the rows that triples reach from a binding, and
  `TriplePattern.reached_insert` says that a value of a variable which the triples do not
  have is carried along;
* `Matches.outcome_matchSteps_reached`: matching makes of these rows, in their order, what
  the elements behind the triples make of them, up to the first error.
-/

namespace SparqlAlgebra

open Eval

/-! ## Rows under a demand -/

/-- Whether a number of solutions is enough. -/
def Demand.isMet (demand : Demand) (n : Nat) : Bool :=
  match demand with
  | none => false
  | some k => k ≤ n

/-- The rows that some bindings reach one after the other, until they are enough together
with `n` rows that were found before. -/
def Demand.collect (demand : Demand) (rowsOf : Nat → Binding → List Binding) :
    Nat → List Binding → List Binding
  | _, [] => []
  | n, b :: rest =>
    let rows := rowsOf n b
    if demand.isMet (n + rows.length) then rows
    else rows ++ collect demand rowsOf (n + rows.length) rest

namespace Demand

variable {demand : Demand} {rowsOf : Nat → Binding → List Binding} {n : Nat}
  {bs : List Binding}

theorem exists_of_mem_collect {row : Binding} (h : row ∈ demand.collect rowsOf n bs) :
    ∃ b ∈ bs, ∃ k, row ∈ rowsOf k b := by
  induction bs generalizing n with
  | nil => exact absurd h List.not_mem_nil
  | cons b rest ih =>
    have hlater {k : Nat} (hmem : row ∈ demand.collect rowsOf k rest) :
        ∃ b' ∈ b :: rest, ∃ k, row ∈ rowsOf k b' := by
      obtain ⟨b', hb', hrow⟩ := ih hmem
      exact ⟨b', List.mem_cons_of_mem _ hb', hrow⟩
    unfold collect at h
    dsimp only at h
    split at h
    · exact ⟨b, List.mem_cons_self, n, h⟩
    · rcases List.mem_append.mp h with hrow | hrow
      · exact ⟨b, List.mem_cons_self, n, hrow⟩
      · exact hlater hrow

/-- As long as there are not enough rows, all bindings are tried. -/
theorem eq_nil_of_collect (hn : demand.isMet n = false)
    (h : demand.collect rowsOf n bs = []) : ∀ b ∈ bs, rowsOf n b = [] := by
  induction bs with
  | nil => exact fun b hb => absurd hb List.not_mem_nil
  | cons b rest ih =>
    unfold collect at h
    dsimp only at h
    split at h
    · -- no row was found, so nothing can have been enough
      rename_i hmet
      rw [h, List.length_nil, Nat.add_zero, hn] at hmet
      cases hmet
    · obtain ⟨hfirst, hrest⟩ := List.append_eq_nil_iff.mp h
      rw [hfirst, List.length_nil, Nat.add_zero] at hrest
      exact List.forall_mem_cons.mpr ⟨hfirst, ih hrest⟩

theorem collect_map {g : Binding → Binding}
    (h : ∀ b ∈ bs, ∀ k, rowsOf k (g b) = (rowsOf k b).map g) :
    demand.collect rowsOf n (bs.map g) = (demand.collect rowsOf n bs).map g := by
  induction bs generalizing n with
  | nil => rfl
  | cons b rest ih =>
    have hfirst := h b List.mem_cons_self n
    have hrest (k : Nat) := @ih k fun b' hb' => h b' (List.mem_cons_of_mem _ hb')
    -- a map keeps the number of rows, so the same binding is the last one
    simp only [List.map_cons, collect, hfirst, List.length_map, hrest]
    split
    · rfl
    · rw [List.map_append]

end Demand

/-! ## Rows that triples reach -/

/-- A value of a variable that neither side has may be added before a merge or after it. -/
theorem Binding.insert_merge? {b r : Binding} {v : Var} {t : Term} (hb : b.get? v = none)
    (hr : v ∉ r.vars) : (b.insert v t).merge? r = (b.merge? r).map (·.insert v t) := by
  cases hmerge : b.merge? r with
  | some m =>
    rw [Binding.merge?_comm] at hmerge ⊢
    exact Binding.merge?_insert hmerge hr hb
  | none => exact Binding.merge?_eq_none_of_isWithin (Binding.isWithin_insert hb) (.refl r) hmerge

namespace TriplePattern

variable {facts : List Triple} {demand : Demand} {ps : List TriplePattern} {b row : Binding}
  {n : Nat} {v : Var} {t : Term}

/-- The rows that triples reach from a binding, if `n` rows were found before. -/
def reached (facts : List Triple) (demand : Demand) :
    List TriplePattern → Nat → Binding → List Binding
  | [], _, b => [b]
  | p :: rest, n, b =>
    demand.collect (reached facts demand rest) n ((p.rows facts).filterMap b.merge?)

theorem mem_joinRows_of_reached (h : row ∈ reached facts demand ps n b) :
    row ∈ joinRows facts ps [b] := by
  induction ps generalizing n b with
  | nil => exact h
  | cons p rest ih =>
    obtain ⟨b', hb', k, hrow⟩ := Demand.exists_of_mem_collect h
    rw [joinRows_cons]
    exact List.mem_flatMap.mpr ⟨b', hb', ih hrow⟩

/-- If some row is asked for and none is reached, there is none. -/
theorem joinRows_eq_nil (hn : demand.isMet n = false) (h : reached facts demand ps n b = []) :
    joinRows facts ps [b] = [] := by
  induction ps generalizing b with
  | nil => exact absurd h (List.cons_ne_nil b [])
  | cons p rest ih =>
    rw [joinRows_cons, List.flatMap_eq_nil_iff]
    intro b' hb'
    exact ih (Demand.eq_nil_of_collect hn h b' hb')

/-- From a binding with more values there are no rows where there were none. -/
theorem joinRows_eq_nil_of_isWithin {b' : Binding} (hb : b.IsWithin b')
    (h : joinRows facts ps [b] = []) : joinRows facts ps [b'] = [] := by
  rw [joinRows_singleton, List.filterMap_eq_nil_iff] at h ⊢
  intro x hx
  exact Binding.merge?_eq_none_of_isWithin hb (.refl x) (h x hx)

/-- A value of a variable that the triples do not have is carried along. -/
theorem reached_insert (hps : ∀ p ∈ ps, v ∉ p.vars) (hb : b.get? v = none) :
    reached facts demand ps n (b.insert v t) =
      (reached facts demand ps n b).map (·.insert v t) := by
  induction ps generalizing n b with
  | nil => rfl
  | cons p rest ih =>
    obtain ⟨hp, hrest⟩ := List.forall_mem_cons.mp hps
    have hrows : ∀ r ∈ p.rows facts, v ∉ r.vars := by
      intro r hr hv
      exact hp ((vars_of_mem_rows hr).mp hv)
    -- the candidates of the first triple carry the value, and the later triples start from them
    have hcandidates : (p.rows facts).filterMap (b.insert v t).merge? =
        ((p.rows facts).filterMap b.merge?).map (·.insert v t) := by
      rw [List.map_filterMap]
      exact List.filterMap_congr fun r hr => Binding.insert_merge? hb (hrows r hr)
    rw [reached, reached, hcandidates]
    refine Demand.collect_map fun b' hb' k => ih hrest ?_
    obtain ⟨r, hr, hmerge⟩ := List.mem_filterMap.mp hb'
    rw [Binding.merge?_comm] at hmerge
    rw [Binding.get?_merge_right hmerge fun hv => absurd hv (hrows r hr), hb]

end TriplePattern

/-! ## Matching triples and what is behind them -/

theorem length_of_mapM {α β ε : Type} {f : α → Except ε β} {xs : List α} {ys : List β}
    (h : xs.mapM f = .ok ys) : ys.length = xs.length := by
  induction xs generalizing ys with
  | nil =>
    cases h
    rfl
  | cons x xs ih =>
    rw [List.mapM_cons] at h
    cases hx : f x with
    | error e =>
      rw [hx] at h
      cases h
    | ok y =>
      cases hxs : xs.mapM f with
      | error e =>
        rw [hx, hxs] at h
        cases h
      | ok rest =>
        rw [hx, hxs] at h
        cases h
        rw [List.length_cons, List.length_cons, ih hxs]

namespace Matches

variable {c : Context} {demand : Demand} {f : Binding → Except QueryError Binding}

theorem meets_eq (m : Matches) (demand : Demand) :
    m.meets demand = demand.isMet m.found.size := by
  cases demand <;> rfl

theorem size_add (m : Matches) (rows : List Binding) :
    (m.add rows).found.size = m.found.size + rows.length := by
  simp [add]

/-- If every candidate goes on with the rows that it reaches, all of them do with the rows
that they collect. -/
theorem outcome_overCandidates_collect {next : Binding → Matches → Eval Matches}
    (hsteady : ∀ b m, (next b m).Steady) (hc : c.Repeatable)
    {rowsOf : Nat → Binding → List Binding}
    (hnext : ∀ b m, (next b m).outcome c = ((rowsOf m.found.size b).mapM f).map m.add)
    (bs : List Binding) (m : Matches) :
    (overCandidates demand next bs m).outcome c =
      ((demand.collect rowsOf m.found.size bs).mapM f).map m.add := by
  induction bs generalizing m with
  | nil => exact congrArg Except.ok m.add_nil.symm
  | cons b rest ih =>
    refine (outcome_bind (fun m => overCandidates_steady_rest hsteady demand rest m) hc).trans ?_
    rw [hnext]
    unfold Demand.collect
    dsimp only
    cases hrows : (rowsOf m.found.size b).mapM f with
    | error e =>
      split
      · rw [hrows]
        rfl
      · rw [List.mapM_append, hrows]
        rfl
    | ok found =>
      -- one result of each row, so there are enough of both at the same candidate
      have hsize : (m.add found).found.size =
          m.found.size + (rowsOf m.found.size b).length := by
        rw [size_add, length_of_mapM hrows]
      show (if (m.add found).meets demand then Pure.pure (m.add found)
        else overCandidates demand next rest (m.add found) : Eval Matches).outcome c = _
      rw [meets_eq, hsize]
      split
      · rw [hrows]
        rfl
      · rw [ih, hsize, List.mapM_append, hrows]
        cases (demand.collect rowsOf (m.found.size + (rowsOf m.found.size b).length)
            rest).mapM f with
        | error e => rfl
        | ok later => exact congrArg Except.ok (m.add_add found later)

/-- Matching triples hands the rows that they reach to the steps behind them. These steps
make one row of each, or fail. -/
theorem outcome_matchSteps_reached (hc : c.Repeatable) {tail : List Step}
    (hsteady : ∀ s ∈ tail, s.Steady)
    (htail : ∀ b m, (matchSteps demand tail b m).outcome c = (f b).map fun row => m.add [row])
    (ps : List TriplePattern) (b : Binding) (m : Matches) :
    (matchSteps demand (ps.map (fun p => Step.extend (Step.matchTriple p)) ++ tail) b m).outcome c =
      ((TriplePattern.reached c.view.facts demand ps m.found.size b).mapM f).map m.add := by
  induction ps generalizing b m with
  | nil =>
    show (matchSteps demand tail b m).outcome c = ([b].mapM f).map m.add
    rw [htail, List.mapM_cons]
    cases f b <;> rfl
  | cons p rest ih =>
    have hsteps : ∀ s ∈ rest.map (fun p => Step.extend (Step.matchTriple p)) ++ tail,
        s.Steady := by
      intro s hs
      rcases List.mem_append.mp hs with hs | hs
      · obtain ⟨p, -, rfl⟩ := List.mem_map.mp hs
        exact Step.matchTriple_steady p
      · exact hsteady s hs
    refine (outcome_matchSteps_triple hc hsteps p b m).trans ?_
    exact outcome_overCandidates_collect (matchSteps_steady hsteps demand) hc
      (fun b' m' => ih b' m') _ m

end Matches

end SparqlAlgebra
