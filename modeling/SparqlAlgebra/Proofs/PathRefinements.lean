import SparqlAlgebra.Proofs.Merging
import SparqlAlgebra.Proofs.PathCounts

/-!
# Paths with known ends

A path is matched with the values that its ends already have. This selects from the
solutions that the path has on its own, with one exception: a path that may be empty
relates every term to itself, but with two free ends it looks at nodes only. So a known
end has to be a node of the graph.

* `Links.Stay`: links do not leave the nodes, except from a term to itself where empty
  paths are allowed (`Path.links_stay`);
* `Path.pairs_perm`: with more known of the ends, the links that remain are those that
  the ends allow;
* `Path.extensions_perm`: matching a path with a binding joins the binding with the
  solutions of the path.
-/

namespace SparqlAlgebra

/-! ## Terms that a path relates -/

/-- Both terms are nodes, or they are the same where loops are allowed. -/
def Near (v : DatasetView) (loops : Bool) (a b : Term) : Prop :=
  (a ∈ v.factNodes ∧ b ∈ v.factNodes) ∨ (loops = true ∧ a = b)

namespace Near

variable {v : DatasetView} {loops loops' : Bool} {a b m : Term}

theorem refl (v : DatasetView) (a : Term) : Near v true a a := .inr ⟨rfl, rfl⟩

theorem symm (h : Near v loops a b) : Near v loops b a :=
  h.imp And.symm fun h => ⟨h.1, h.2.symm⟩

theorem mono (h : Near v loops a b) (hloops : loops = true → loops' = true) :
    Near v loops' a b := h.imp_right fun h => ⟨hloops h.1, h.2⟩

theorem trans (h : Near v loops a m) (k : Near v loops' m b) :
    Near v (loops && loops') a b := by
  rcases h with ⟨ha, hm⟩ | ⟨hl, rfl⟩
  · rcases k with ⟨-, hb⟩ | ⟨-, rfl⟩
    · exact .inl ⟨ha, hb⟩
    · exact .inl ⟨ha, hm⟩
  · exact k.mono fun hl' => by rw [hl, hl']; rfl

end Near

/-- The links relate nodes, or a term to itself where loops are allowed. -/
def Links.Stay (d : Links) (v : DatasetView) (loops : Bool) : Prop :=
  ∀ e, ∀ l ∈ d.pairs e, Near v loops l.1 l.2

namespace Links.Stay

variable {v : DatasetView} {d d' : Links} {loops loops' : Bool}

theorem edges (keep : Triple → Bool) (loops : Bool) : (Links.edges v keep).Stay v loops := by
  intro e l hl
  obtain ⟨t, ht, rfl⟩ := List.mem_map.mp hl
  exact .inl (Links.Count.mem_of_edge (List.mem_filter.mp ht).1)

theorem swap (h : d.Stay v loops) : d.swap.Stay v loops := by
  intro e l hl
  obtain ⟨k, hk, rfl⟩ := List.mem_map.mp hl
  exact (h e.swap k hk).symm

theorem either (h : d.Stay v loops) (k : d'.Stay v loops') :
    (d.either d').Stay v (loops || loops') := by
  intro e l hl
  rcases List.mem_append.mp hl with hl | hl
  · exact (h e l hl).mono fun hloops => by rw [hloops]; rfl
  · exact (k e l hl).mono fun hloops => by rw [hloops, Bool.or_true]

theorem identity : (Links.identity v).Stay v true := by
  intro e l hl
  refine .inr ⟨rfl, ?_⟩
  cases e with
  | fixed a b =>
    by_cases hab : a = b <;> simp [Links.identity, hab] at hl
    simp [hl]
  | start a | stop a => rw [List.mem_singleton.mp hl]
  | apart | same =>
    obtain ⟨t, -, rfl⟩ := List.mem_map.mp hl
    rfl

theorem reflexive (h : d.Stay v loops) : (d.reflexive v).Stay v true := by
  intro e l hl
  rcases List.mem_append.mp (mem_dedup.mp hl) with hl | hl
  · exact identity e l hl
  · exact (h e l hl).mono fun _ => rfl

theorem sequence (h : d.Stay v loops) (k : d'.Stay v loops') :
    (d.sequence d').Stay v (loops && loops') := by
  intro e l hl
  obtain ⟨first, hfirst, hl⟩ := List.mem_flatMap.mp hl
  obtain ⟨second, hsecond, rfl⟩ := List.mem_map.mp hl
  have hmiddle : second.1 = first.2 := Ends.eq_of_secondHalf_allows (d'.allowed _ second hsecond)
  have hnear := k _ second hsecond
  rw [hmiddle] at hnear
  exact (h _ first hfirst).trans hnear

theorem power (h : d.Stay v loops) (n : Nat) : (d.power n).Stay v loops := by
  induction n with
  | zero => exact h
  | succ n ih =>
    have hboth := ih.sequence h
    rwa [Bool.and_self] at hboth

/-! ### Closures -/

theorem near_next (h : d.Stay v loops) {a b : Term} (hb : b ∈ d.next a) : Near v loops a b := by
  obtain ⟨l, hl, rfl⟩ := List.mem_map.mp (mem_dedup.mp hb)
  have hstart : l.1 = a := by simpa [Ends.allows] using d.allowed _ l hl
  exact hstart ▸ h (.start a) l hl

/-- A search keeps near its start. What it still has to look at may be the start, which
counts as reached only if this is said or if a step leads there. -/
theorem near_search {next : Term → List Term} {a : Term}
    (hnext : ∀ s, ∀ t ∈ next s, Near v loops s t) (hloops : loops = true → loops' = true)
    (fuel : Nat) {queue reached : List Term} (hqueue : ∀ t ∈ queue, Near v true a t)
    (hreached : ∀ t ∈ reached, Near v loops' a t) :
    ∀ t ∈ Links.search next fuel queue reached, Near v loops' a t := by
  induction fuel generalizing queue reached with
  | zero =>
    cases queue <;> exact hreached
  | succ fuel ih =>
    cases queue with
    | nil => exact hreached
    | cons s queue =>
      have hnew : ∀ t ∈ (next s).filter (!reached.contains ·), Near v loops a t := fun t ht =>
        (hqueue s List.mem_cons_self).trans (hnext s t (List.mem_filter.mp ht).1)
      refine ih (fun t ht => ?_) (fun t ht => ?_)
      · rcases List.mem_append.mp ht with ht | ht
        · exact hqueue t (List.mem_cons_of_mem _ ht)
        · exact (hnew t ht).mono fun _ => rfl
      · rcases List.mem_append.mp ht with ht | ht
        · exact hreached t ht
        · exact (hnew t ht).mono hloops

theorem near_reachable (h : d.Stay v loops) (reflexive : Bool) {a b : Term}
    (hb : b ∈ d.reachable v a reflexive) : Near v (reflexive || loops) a b := by
  refine near_search (fun s t ht => h.near_next ht) (fun hl => by rw [hl, Bool.or_true]) _
    (fun t ht => ?_) (fun t ht => ?_) b hb
  · rw [List.mem_singleton.mp ht]
    exact .refl v a
  · cases reflexive with
    | false => exact absurd ht List.not_mem_nil
    | true =>
      rw [List.mem_singleton.mp ht]
      exact (Near.refl v a).mono fun _ => rfl

theorem closure (h : d.Stay v loops) (reflexive : Bool) :
    (d.closure v reflexive).Stay v (reflexive || loops) := by
  intro e l hl
  cases e with
  | fixed a b =>
    dsimp only [Links.closure] at hl
    split at hl
    · rename_i hb
      rw [List.mem_singleton.mp hl]
      exact h.near_reachable reflexive (List.contains_iff_mem.mp hb)
    · exact absurd hl List.not_mem_nil
  | start a =>
    obtain ⟨t, ht, rfl⟩ := List.mem_map.mp hl
    exact h.near_reachable reflexive ht
  | stop b =>
    obtain ⟨t, ht, rfl⟩ := List.mem_map.mp hl
    exact (h.swap.near_reachable reflexive ht).symm
  | apart =>
    obtain ⟨s, -, hl⟩ := List.mem_flatMap.mp hl
    obtain ⟨t, ht, rfl⟩ := List.mem_map.mp hl
    exact h.near_reachable reflexive ht
  | same =>
    obtain ⟨s, -, hl⟩ := List.mem_flatMap.mp hl
    split at hl
    · rename_i hs
      rw [List.mem_singleton.mp hl]
      exact h.near_reachable reflexive (List.contains_iff_mem.mp hs)
    · exact absurd hl List.not_mem_nil

end Links.Stay

/-! ## Paths that may be empty -/

/-- Whether a path can relate a term to itself without an edge. Unlike
`Path.matchesZeroLength` this looks below one or more repetitions, which are empty if
each of them is. -/
def Path.mayBeEmpty : Path → Bool
  | property _ _ | negatedSet _ _ => false
  | zeroOrOne _ | zeroOrMore _ => true
  | inverse inner | oneOrMore inner => inner.mayBeEmpty
  | sequence p q => p.mayBeEmpty && q.mayBeEmpty
  | alternative p q => p.mayBeEmpty || q.mayBeEmpty
  | fixedLength inner n => n = 0 || inner.mayBeEmpty

open Links in
/-- A path leaves the nodes only from a term to itself, and only if it may be empty. -/
theorem Path.links_stay (v : DatasetView) (path : Path) :
    (path.links v).Stay v path.mayBeEmpty := by
  induction path with
  | property p backward =>
    cases backward with
    | false => exact .edges _ _
    | true => exact (Stay.edges _ _).swap
  | inverse inner ih => exact ih.swap
  | sequence p q ihp ihq => exact ihp.sequence ihq
  | alternative p q ihp ihq => exact ihp.either ihq
  | zeroOrOne inner ih => exact ih.reflexive
  | zeroOrMore inner ih => exact ih.closure true
  | oneOrMore inner ih => exact ih.closure false
  | negatedSet forward backward =>
    exact (Stay.edges _ false).either (Stay.edges _ false).swap
  | fixedLength inner n ih =>
    cases n with
    | zero => exact Stay.identity
    | succ n =>
      have hlength : (fixedLength inner (n + 1)).mayBeEmpty = inner.mayBeEmpty := by
        simp [mayBeEmpty]
      rw [hlength]
      exact ih.power n

/-! ## Known ends -/

/-- With more known of the ends, those links remain that the ends allow. What is known
are nodes, unless the path cannot be empty. -/
theorem Path.pairs_perm {v : DatasetView} (hv : v.dataset.IsReadable) (path : Path)
    {e e' : Ends} (hallows : ∀ a b, e'.allows a b = true → e.allows a b = true)
    (hnodes : path.mayBeEmpty = true → ∀ a, e'.allows a a = true → a ∈ v.factNodes) :
    ((path.links v).pairs e').Perm
      (((path.links v).pairs e).filter fun l => e'.allows l.1 l.2) := by
  rw [List.perm_iff_count]
  intro l
  let keep (k : Term × Term) : Bool := e'.allows k.1 k.2
  show _ = (((path.links v).pairs e).filter keep).count l
  by_cases hl : keep l = true
  · rw [List.count_filter hl]
    by_cases hinside : l.1 ∈ v.factNodes ∧ l.2 ∈ v.factNodes
    · have hcount := path.links_count hv
      rw [hcount.count_eq e' l.1 l.2 hinside.1 hinside.2 hl,
        hcount.count_eq e l.1 l.2 hinside.1 hinside.2 (hallows _ _ hl)]
    · -- a link that leaves the nodes would be a loop, and what is known is a node
      have hnone (ends : Ends) : l ∉ (path.links v).pairs ends := by
        intro hmem
        rcases path.links_stay v ends l hmem with hmem | ⟨hempty, heq⟩
        · exact hinside hmem
        · have hloop : e'.allows l.1 l.1 = true := by
            have hl : e'.allows l.1 l.2 = true := hl
            rwa [← heq] at hl
          have hnode := hnodes hempty l.1 hloop
          exact hinside ⟨hnode, heq ▸ hnode⟩
      rw [List.count_eq_zero_of_not_mem (hnone e'), List.count_eq_zero_of_not_mem (hnone e)]
  · have hleft : l ∉ (path.links v).pairs e' := fun hmem =>
      hl ((path.links v).allowed e' l hmem)
    have hright : l ∉ ((path.links v).pairs e).filter keep :=
      fun hmem => hl (List.mem_filter.mp hmem).2
    rw [List.count_eq_zero_of_not_mem hleft, List.count_eq_zero_of_not_mem hright]

namespace Position

variable {s o : Position} {b : Binding} {l : Term × Term}

/-- The ends that are left once a binding is put in allow what the binding does. -/
theorem allows_substitute (s o : Position) (b : Binding) (l : Term × Term) :
    ((s.substitute b).ends (o.substitute b)).allows l.1 l.2 = true ↔
      (s.ends o).allows l.1 l.2 = true ∧ (∀ t, s.resolve b = some t → l.1 = t) ∧
        ∀ t, o.resolve b = some t → l.2 = t := by
  cases s with
  | term a =>
    cases o with
    | term d => simp [substitute, resolve, ends, Ends.allows]
    | var w => cases hw : b.get? w <;> simp [substitute, resolve, ends, Ends.allows, hw]
  | var v =>
    cases o with
    | term d =>
      cases hv : b.get? v <;> simp [substitute, resolve, ends, Ends.allows, hv]
    | var w =>
      by_cases hvw : v = w
      · subst hvw
        cases hv : b.get? v with
        | none => simp [substitute, resolve, ends, Ends.allows, hv]
        | some t =>
          simp only [substitute, resolve, ends, Ends.allows, hv, Bool.and_eq_true,
            decide_eq_true_eq, if_true, Option.some.injEq, forall_eq']
          exact ⟨fun h => ⟨h.1.trans h.2.symm, h⟩, fun h => h.2⟩
      · cases hv : b.get? v <;> cases hw : b.get? w <;>
          simp [substitute, resolve, ends, Ends.allows, hv, hw, hvw]

/-- A binding that changes a position has a value for its variable. -/
theorem exists_of_substitute_ne {p : Position} (h : p.substitute b ≠ p) :
    ∃ x, p = .var x ∧ ∃ t, b.get? x = some t := by
  cases p with
  | term t => exact absurd rfl h
  | var x =>
    cases hx : b.get? x with
    | none => exact absurd (by simp [substitute, resolve, hx]) h
    | some t => exact ⟨x, rfl, t, hx⟩

/-- A binding is compatible with linked ends if it gives them these terms, or none. -/
theorem isCompatible_bindEnds (h : (s.ends o).allows l.1 l.2 = true) :
    b.isCompatible (s.bindEnds o l) = true ↔
      ((s.substitute b).ends (o.substitute b)).allows l.1 l.2 = true := by
  rw [allows_substitute, Binding.isCompatible_iff]
  constructor
  · intro hcompatible
    refine ⟨h, fun t ht => ?_, fun t ht => ?_⟩
    · cases s with
      | term a =>
        have hat : a = t := Option.some.inj ht
        cases o <;> simp_all [ends, Ends.allows]
      | var v =>
        refine (hcompatible v t l.1 ht ?_).symm
        rw [get?_bindEnds]
        by_cases ho : o = .var v
        · rw [ho] at h
          rw [if_pos ho, eq_of_allows h]
        · rw [if_neg ho, if_pos rfl]
    · cases o with
      | term d =>
        have hdt : d = t := Option.some.inj ht
        cases s <;> simp_all [ends, Ends.allows]
      | var w =>
        refine (hcompatible w t l.2 ht ?_).symm
        rw [get?_bindEnds, if_pos rfl]
  · rintro ⟨-, hs, ho⟩ v x y hx hy
    rw [get?_bindEnds] at hy
    split at hy
    · rename_i hov
      rw [← Option.some.inj hy]
      exact (ho x (by rw [hov]; exact hx)).symm
    · split at hy
      · rename_i hsv
        rw [← Option.some.inj hy]
        exact (hs x (by rw [hsv]; exact hx)).symm
      · cases hy

/-- The ends that are left bind what the ends bind, except what is bound already. -/
theorem get?_bindEnds_substitute (s o : Position) (b : Binding) (l : Term × Term) (v : Var) :
    ((s.substitute b).bindEnds (o.substitute b) l).get? v =
      if b.get? v = none then (s.bindEnds o l).get? v else none := by
  rw [get?_bindEnds, get?_bindEnds]
  simp only [substitute_eq_var]
  by_cases hb : b.get? v = none <;> simp [hb]

/-- Merging with the ends that are left is merging with the ends, if they are allowed. -/
theorem merge?_bindEnds_substitute
    (h : ((s.substitute b).ends (o.substitute b)).allows l.1 l.2 = true) :
    b.merge? ((s.substitute b).bindEnds (o.substitute b) l) = b.merge? (s.bindEnds o l) := by
  have hleft : b.isCompatible ((s.substitute b).bindEnds (o.substitute b) l) = true := by
    refine Binding.isCompatible_iff.mpr fun v x y hx hy => ?_
    rw [get?_bindEnds_substitute, hx] at hy
    cases hy
  have hright : b.isCompatible (s.bindEnds o l) = true :=
    (isCompatible_bindEnds ((allows_substitute s o b l).mp h).1).mpr h
  have hmerge : b.merge? ((s.substitute b).bindEnds (o.substitute b) l) = some _ :=
    if_pos hleft
  have hmerge' : b.merge? (s.bindEnds o l) = some _ := if_pos hright
  rw [hmerge, hmerge', Option.some.injEq]
  refine Binding.ext_get? fun v => ?_
  rw [Binding.get?_of_merge? hmerge, Binding.get?_of_merge? hmerge', get?_bindEnds_substitute]
  cases hb : b.get? v <;> simp

end Position

/-- Matching a path with a binding joins the binding with the solutions of the path. If
the path may be empty, the binding gives nodes to its ends. -/
theorem Path.extensions_perm {v : DatasetView} (hv : v.dataset.IsReadable) (path : Path)
    (s o : Position) {b : Binding}
    (hnodes : path.mayBeEmpty = true → ∀ x ∈ Position.vars [s, o], ∀ t,
      b.get? x = some t → t ∈ v.factNodes) :
    (((path.links v).bindings (s.substitute b) (o.substitute b)).filterMap b.merge?).Perm
      (((path.links v).bindings s o).filterMap b.merge?) := by
  have hselect : (((path.links v).pairs (s.ends o)).filter fun l =>
        ((s.substitute b).ends (o.substitute b)).allows l.1 l.2).filterMap
          (fun l => b.merge? (s.bindEnds o l)) =
      ((path.links v).pairs (s.ends o)).filterMap fun l => b.merge? (s.bindEnds o l) := by
    rw [List.filterMap_filter]
    refine List.filterMap_congr fun l hl => ?_
    by_cases hallowed : ((s.substitute b).ends (o.substitute b)).allows l.1 l.2 = true
    · rw [if_pos hallowed]
    · have hincompatible : ¬ b.isCompatible (s.bindEnds o l) = true := fun h =>
        hallowed ((Position.isCompatible_bindEnds ((path.links v).allowed _ l hl)).mp h)
      rw [if_neg hallowed]
      exact (if_neg hincompatible).symm
  by_cases hbound : s.substitute b = s ∧ o.substitute b = o
  · rw [hbound.1, hbound.2]
  · have hmerge : ((path.links v).bindings (s.substitute b) (o.substitute b)).filterMap b.merge? =
        ((path.links v).pairs ((s.substitute b).ends (o.substitute b))).filterMap fun l =>
          b.merge? (s.bindEnds o l) := by
      unfold Links.bindings
      rw [List.filterMap_map]
      exact List.filterMap_congr fun l hl =>
        Position.merge?_bindEnds_substitute ((path.links v).allowed _ l hl)
    have hown : ((path.links v).bindings s o).filterMap b.merge? =
        ((path.links v).pairs (s.ends o)).filterMap fun l => b.merge? (s.bindEnds o l) := by
      unfold Links.bindings
      rw [List.filterMap_map]
      rfl
    rw [hmerge, hown, ← hselect]
    refine (path.pairs_perm hv (fun a d h => ?_) fun hempty a ha => ?_).filterMap _
    · exact ((Position.allows_substitute s o b (a, d)).mp h).1
    · -- one of the ends is bound, and a loop at it is at its value
      obtain ⟨-, hs, ho⟩ := (Position.allows_substitute s o b (a, a)).mp ha
      rcases Decidable.not_and_iff_or_not.mp hbound with hne | hne
      · obtain ⟨x, rfl, t, ht⟩ := Position.exists_of_substitute_ne hne
        rw [show a = t from hs t ht]
        exact hnodes hempty x (Position.mem_vars.mpr (by simp)) t ht
      · obtain ⟨x, rfl, t, ht⟩ := Position.exists_of_substitute_ne hne
        rw [show a = t from ho t ht]
        exact hnodes hempty x (Position.mem_vars.mpr (by simp)) t ht

end SparqlAlgebra
