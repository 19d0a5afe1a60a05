import SparqlAlgebra.Proofs.PairedPlans

/-!
# Patterns under two seeds

A basic graph pattern is matched step by step, from the seed on. From two seeds that give
the same values to the given variables, every step goes on with paired rows.

* `Plan.Mirrors.orderBy`: paired rows have the same keys, so they are put in the same order;
* `Step.Pairs` is what a step has to keep. Triple patterns and paths keep it if the
  variables in them are given (`Step.matchTriple_pairs`, `Step.matchPath_pairs`);
* `Matches.matchSteps_related` follows the steps, and `Plan.bgp_pairs` draws the conclusion
  for the pattern.
-/

namespace SparqlAlgebra

open List (Forall₂)
open Eval

variable {e : Environment} {vs us : List Var} {u : SeedUse} {s s' : Binding}
  {C : Context → Context → Prop}

/-! ## Sorting -/

section Sorting

variable {α β : Type} {R : α → β → Prop} {less : α → α → Bool} {less' : β → β → Bool}
  (hless : ∀ x x' y y', R x x' → R y y' → less x y = less' x' y')

include hless

theorem forall₂_insertDescending {x : α} {x' : β} (hx : R x x') {ys : List α} {ys' : List β}
    (h : Forall₂ R ys ys') :
    Forall₂ R (insertDescending less x ys) (insertDescending less' x' ys') := by
  induction h with
  | nil => exact .cons hx .nil
  | cons hy hys ih =>
    unfold insertDescending
    rw [hless _ _ _ _ hx hy]
    split
    · exact .cons hy ih
    · exact .cons hx (.cons hy hys)

/-- Elements are put in the same order if they are compared alike. -/
theorem forall₂_stableSort {xs : List α} {xs' : List β} (h : Forall₂ R xs xs') :
    Forall₂ R (stableSort less xs) (stableSort less' xs') := by
  unfold stableSort
  rw [List.forall₂_reverse_iff]
  exact List.rel_foldl (P := Forall₂ R) (R := R)
    (fun _ _ hys _ _ hx => forall₂_insertDescending hless hx hys) .nil h

end Sorting

theorem SortKey.keyed_related {keys : List SortKey}
    (hkeys : ∀ k ∈ keys, k.key.RespectsIn C (Binding.AgreeOn vs)) {bs bs' : List Binding}
    (h : Forall₂ (Binding.Paired vs s s' u) bs bs') :
    RelatedIn C (Forall₂ fun x x' => x.1 = x'.1 ∧ Binding.Paired vs s s' u x.2 x'.2)
      (keyed keys bs) (keyed keys bs') := by
  induction h with
  | nil => exact .pure .nil
  | cons hb _ ih =>
    exact RelatedIn.newSolutionId fun i j =>
      (values_agree hkeys hb.agreeOn i j).bind_related fun _ =>
        ih.bind fun _ _ hrows => .pure (.cons ⟨rfl, hb⟩ hrows)

theorem Plan.Mirrors.orderBy {inner : Plan} (h : inner.Mirrors e vs us u) {keys : List SortKey}
    (hkeys : ∀ k ∈ keys, k.key.RespectsIn (Context.Beside e) (Binding.AgreeOn vs)) :
    (inner.orderBy keys).Pairs e vs u := by
  intro s s' hs demand
  refine (h.related hs none).bind fun m m' hm => ?_
  rw [hm.fits.real, hm.fits'.real, if_neg Bool.false_ne_true, if_neg Bool.false_ne_true]
  have hkeyed : RelatedIn (Context.Apart e s s') _ _ _ :=
    (SortKey.keyed_related hkeys hm.rows).apart
  refine (hkeyed.ensuring (fun _ _ _ => SortKey.keyed_ensures keys _)
    fun _ _ _ => SortKey.keyed_ensures keys _).bind ?_
  rintro rows rows' ⟨hrows, hsame, hsame'⟩
  have hsub {rows : List (List (Option Term) × Binding)} {bs : List Binding}
      (hbs : rows.map (·.2) = bs) (less : List (Option Term) × Binding →
        List (Option Term) × Binding → Bool) : (stableSort less rows).map (·.2) ⊆ bs := by
    rw [← hbs]
    exact ((stableSort_perm less rows).map _).subset
  refine .pure (hm.ofRows ?_ (hsub hsame _) (hsub hsame' _) hm.fits.isClosed hm.fits'.isClosed)
  refine List.rel_map (fun _ _ hx => hx.2) (forall₂_stableSort ?_ hrows)
  intro x x' y y' hx hy
  rw [hx.1, hy.1]

/-! ## Steps -/

/-- Two functions of the same elements. -/
theorem forall₂_filterMap {α β : Type} {R : β → β → Prop} {f g : α → Option β} {xs : List α}
    (h : ∀ x ∈ xs, Option.Rel R (f x) (g x)) : Forall₂ R (xs.filterMap f) (xs.filterMap g) := by
  have hsame : Forall₂ (fun x y => x = y ∧ x ∈ xs) xs xs := forall₂_same fun x hx => ⟨rfl, hx⟩
  refine List.rel_filterMap ?_ hsame
  rintro x _ ⟨rfl, hx⟩
  exact h x hx

/-- What a step does with paired rows, or what it asks, is paired. -/
def Step.Pairs (e : Environment) (vs : List Var) : Step → Prop
  | .extend candidates => ∀ {s s' b b' : Binding}, Binding.Paired vs s s' .carried b b' →
    RelatedIn (Context.Beside e) (Forall₂ (Binding.Paired vs s s' .carried)) (candidates b)
      (candidates b')
  | .assign v value => v ∈ vs ∧ value.RespectsIn (Context.Beside e) (Binding.AgreeOn vs)
  | .subQuery _ query => ∃ u, query.Pairs e vs u
  | .filter condition => ∀ {b b' : Binding}, b.AgreeOn vs b' →
    (condition b).AgreeIn (Context.Beside e) (condition b')

namespace Step

variable {b b' : Binding}

theorem bindPosition_paired {p : Position} (hp : ∀ v, p = .var v → v ∈ vs) (value : Term)
    (hb : Binding.Paired vs s s' u b b') :
    Option.Rel (Binding.Paired vs s s' u) (bindPosition p value b) (bindPosition p value b') := by
  cases p with
  | term t => exact .some hb
  | var v =>
    simp only [bindPosition, ← hb.agreeOn v (hp v rfl)]
    cases b.get? v with
    | none => exact .some (hb.insert (hp v rfl) value)
    | some t =>
      dsimp only
      split
      · exact .some hb
      · exact .none

theorem bind_rel {o o' : Option Binding} {f : Binding → Option Binding}
    (h : Option.Rel (Binding.Paired vs s s' u) o o')
    (hf : ∀ b b', Binding.Paired vs s s' u b b' →
      Option.Rel (Binding.Paired vs s s' u) (f b) (f b')) :
    Option.Rel (Binding.Paired vs s s' u) (o >>= f) (o' >>= f) := by
  cases h with
  | none => exact .none
  | some hb => exact hf _ _ hb

theorem bindTriple_paired {p : TriplePattern} (hp : p.vars ⊆ vs) (t : Triple)
    (hb : Binding.Paired vs s s' u b b') :
    Option.Rel (Binding.Paired vs s s' u) (bindTriple p b t) (bindTriple p b' t) := by
  have hmem {q : Position} (hq : q ∈ [p.subject, p.predicate, p.object]) (v : Var)
      (hv : q = .var v) : v ∈ vs := hp (Position.mem_vars.mpr (hv ▸ hq))
  unfold bindTriple
  refine bind_rel (bindPosition_paired (hmem (by simp)) _ hb) fun _ _ hb => ?_
  refine bind_rel (bindPosition_paired (hmem (by simp)) _ hb) fun _ _ hb => ?_
  exact bindPosition_paired (hmem (by simp)) _ hb

theorem matchTriple_pairs {p : TriplePattern} (hp : p.vars ⊆ vs) :
    (Step.extend (matchTriple p)).Pairs e vs := by
  intro s s' b b' hb
  have hsame {q : Position} (hq : q ∈ [p.subject, p.predicate, p.object]) :
      q.resolve b = q.resolve b' :=
    Position.resolve_congr fun v hv => hb.agreeOn v (hp (Position.mem_vars.mpr (hv ▸ hq)))
  unfold matchTriple predicate?
  rw [hsame (by simp : p.subject ∈ _), hsame (by simp : p.predicate ∈ _),
    hsame (by simp : p.object ∈ _)]
  split
  · exact .pure .nil
  · refine (AgreeIn.triples (fun _ _ hs => hs.alongside) _ _ _).bind_related fun ts => .pure ?_
    exact forall₂_filterMap fun t _ => bindTriple_paired hp t hb

theorem matchPath_pairs {p o : Position} {path : Path} (hp : p.IsGiven) (ho : o.IsGiven)
    (hvs : Position.vars [p, o] ⊆ vs) : (Step.extend (matchPath p path o)).Pairs e vs := by
  intro s s' b b' hb
  have hsame {q : Position} (hq : q ∈ [p, o]) : q.substitute b = q.substitute b' :=
    Position.substitute_congr fun v hv => hb.agreeOn v (hvs (Position.mem_vars.mpr (hv ▸ hq)))
  unfold matchPath Path.solutions
  rw [hsame (by simp : p ∈ [p, o]), hsame (by simp : o ∈ [p, o])]
  have hagree := (path.relation_equivariant.alongside (hp.substitute b') (ho.substitute b')).mono
    fun _ _ (hc : Context.Beside e _ _) => hc.alongside
  have hends (c : Context) := path.relation_bindsEnds c (p.substitute b') (o.substitute b')
  have hsub : Position.vars [p.substitute b', o.substitute b'] ⊆ vs :=
    List.Subset.trans (@Position.vars_substitute [p, o] b') hvs
  simp only [bind_assoc, pure_bind]
  refine (RelatedIn.ensuring hagree (fun c _ _ => hends c) fun _ c' _ => hends c').bind ?_
  rintro rows _ ⟨rfl, hrows, -⟩
  refine .pure ?_
  rw [Solutions.rows_ofRows hrows]
  exact forall₂_filterMap fun r hr => hb.merge? (.of_vars (List.Subset.trans (hrows r hr) hsub))

end Step

/-! ## Matching -/

/-- The rows of a sub-query from two seeds, whatever becomes of the seeds in them. -/
def Solutions.RowsPaired (vs : List Var) (s s' : Binding) (m m' : Solutions) : Prop :=
  ∃ u, Forall₂ (Binding.Paired vs s s' u) m.rows m'.rows

/-- Two states of matching: the solutions found so far are paired, and so are those of
the sub-queries that were evaluated. -/
structure Matches.Paired (vs : List Var) (s s' : Binding) (m m' : Matches) : Prop where
  found : Forall₂ (Binding.Paired vs s s' .carried) m.found.toList m'.found.toList
  queries : Forall₂ (fun x x' => x.1 = x'.1 ∧ Solutions.RowsPaired vs s s' x.2 x'.2)
    m.queries m'.queries

namespace Matches

variable {m m' : Matches} {b b' : Binding}

theorem paired_empty : Matches.empty.Paired vs s s' Matches.empty := ⟨.nil, .nil⟩

theorem Paired.meets_eq (h : m.Paired vs s s' m') (demand : Demand) :
    m.meets demand = m'.meets demand := by
  have hsize : m.found.size = m'.found.size := h.found.length_eq
  cases demand with
  | none => rfl
  | some n => rw [meets, meets, hsize]

theorem overCandidates_related {next : Binding → Matches → Eval Matches}
    (hnext : ∀ {b b' m m'}, Binding.Paired vs s s' .carried b b' → Matches.Paired vs s s' m m' →
      RelatedIn C (Matches.Paired vs s s') (next b m) (next b' m')) (demand : Demand)
    {bs bs' : List Binding} (hbs : Forall₂ (Binding.Paired vs s s' .carried) bs bs')
    (hm : m.Paired vs s s' m') :
    RelatedIn C (Matches.Paired vs s s') (overCandidates demand next bs m)
      (overCandidates demand next bs' m') := by
  induction hbs generalizing m m' with
  | nil => exact .pure hm
  | cons hb _ ih =>
    refine (hnext hb hm).bind fun m m' hm => ?_
    rw [hm.meets_eq]
    split
    · exact .pure hm
    · exact ih hm

/-- The first entries of one number are related, or there is none on both sides. -/
theorem rel_lookup {α : Type} {R : α → α → Prop} {xs xs' : List (Nat × α)}
    (h : Forall₂ (fun x x' => x.1 = x'.1 ∧ R x.2 x'.2) xs xs') (number : Nat) :
    Option.Rel R (xs.lookup number) (xs'.lookup number) := by
  induction h with
  | nil => exact .none
  | cons hx _ ih =>
    obtain ⟨heq, hR⟩ := hx
    rw [List.lookup_cons, List.lookup_cons, heq]
    split
    · exact .some hR
    · exact ih

/-- A sub-query has paired solutions when it is reached, and these are remembered. -/
theorem solutionsOf_related {query : Plan} (h : query.Pairs e vs u) (number : Nat)
    (hs : s.AgreeOn vs s') (hm : m.Paired vs s s' m') :
    RelatedIn (Context.Apart e s s')
      (fun x x' => Solutions.RowsPaired vs s s' x.1 x'.1 ∧ x.2.Paired vs s s' x'.2)
      (solutionsOf number query m) (solutionsOf number query m') := by
  unfold solutionsOf
  have hlookup := rel_lookup (R := Solutions.RowsPaired vs s s') hm.queries number
  cases hfirst : m.queries.lookup number with
  | none =>
    rw [hfirst] at hlookup
    cases hsecond : m'.queries.lookup number with
    | some _ =>
      rw [hsecond] at hlookup
      cases hlookup
    | none =>
      refine (h s s' hs none).bind fun x x' hx => .pure ⟨⟨u, hx.rows⟩, hm.found, ?_⟩
      exact .cons ⟨rfl, u, hx.rows⟩ hm.queries
  | some _ =>
    rw [hfirst] at hlookup
    cases hsecond : m'.queries.lookup number with
    | none =>
      rw [hsecond] at hlookup
      cases hlookup
    | some _ =>
      rw [hsecond] at hlookup
      cases hlookup with
      | some hx => exact .pure ⟨hx, hm⟩

theorem matchSteps_related {steps : List Step} (hsteps : ∀ step ∈ steps, step.Pairs e vs)
    (hs : s.AgreeOn vs s') (demand : Demand) (hb : Binding.Paired vs s s' .carried b b')
    (hm : m.Paired vs s s' m') :
    RelatedIn (Context.Apart e s s') (Matches.Paired vs s s') (matchSteps demand steps b m)
      (matchSteps demand steps b' m') := by
  induction steps generalizing b b' m m' with
  | nil =>
    refine .pure ⟨?_, hm.queries⟩
    rw [Array.toList_push, Array.toList_push]
    exact List.rel_append hm.found (.cons hb .nil)
  | cons step rest ih =>
    have hstep := hsteps step List.mem_cons_self
    have ih {b b' : Binding} {m m' : Matches} := @ih m m' b b'
      fun step hmem => hsteps step (List.mem_cons_of_mem _ hmem)
    refine (AgreeIn.tick fun _ _ hc => hc.toBeside.alongside).bind_related fun _ => ?_
    cases step with
    | extend candidates =>
      exact (hstep hb).apart.bind fun bs bs' hbs => overCandidates_related ih demand hbs hm
    | assign v value =>
      obtain ⟨hv, hvalue⟩ := hstep
      dsimp only
      rw [Binding.contains, Binding.contains, hb.agreeOn v hv]
      split
      · exact .fail _
      · refine ((hvalue hb.agreeOn).apart).bind_related fun t => ?_
        cases t with
        | none => exact ih hb hm
        | some t => exact ih (hb.insert hv t) hm
    | subQuery number query =>
      obtain ⟨u, hquery⟩ := hstep
      refine (solutionsOf_related hquery number hs hm).bind ?_
      rintro ⟨x, m⟩ ⟨x', m'⟩ ⟨⟨w, hx⟩, hm⟩
      have hmerges := List.rel_filterMap (fun _ _ hr => hb.merge? hr) hx
      exact overCandidates_related ih demand hmerges hm
    | filter condition =>
      refine ((hstep hb.agreeOn).apart).bind_related fun holds => ?_
      cases holds with
      | false => exact .pure hm
      | true => exact ih hb hm

end Matches

/-- Matching starts from the seeds, and so does every solution that is found. -/
theorem Plan.bgp_pairs (he : e.isDryRun = false) {steps : List Step}
    (hsteps : ∀ step ∈ steps, step.Pairs e vs)
    (hwiden : ∀ c, c.environment = e → ∀ step ∈ steps, step.Widens c us) :
    (Plan.bgp steps us).Pairs e vs .carried := by
  intro s s' hs demand
  refine RelatedIn.read_bind fun c c' _ hc => ?_
  dsimp only
  rw [hc.first, hc.second, hc.seed_eq, hc.seed_eq', he, if_neg Bool.false_ne_true,
    if_neg Bool.false_ne_true, Option.getD_some, Option.getD_some]
  have hfirst (c c' : Context) (hc : Context.Apart e s s' c c') :
      (Matches.matchSteps demand steps s .empty).Ensures c (·.StartsFrom s (s.vars ++ us)) :=
    hc.start_eq ▸ Matches.matchSteps_ensures (hwiden c hc.first) demand (.refl _)
      (List.subset_append_left _ _) Matches.empty_startsFrom
  have hsecond (c c' : Context) (hc : Context.Apart e s s' c c') :
      (Matches.matchSteps demand steps s' .empty).Ensures c' (·.StartsFrom s' (s'.vars ++ us)) :=
    hc.start_eq' ▸ Matches.matchSteps_ensures (hwiden c' hc.second) demand (.refl _)
      (List.subset_append_left _ _) Matches.empty_startsFrom
  have hmatches := Matches.matchSteps_related hsteps hs demand (.seeds hs) Matches.paired_empty
  refine (hmatches.ensuring hfirst hsecond).bind fun m m' ⟨hm, hown, hown'⟩ => .pure ?_
  -- if no variable is declared, then a solution binds none
  have hclosed {start : Binding} {m : Matches} (hm : m.StartsFrom start (start.vars ++ us))
      (hnone : mergeVariables start.vars us = []) (row : Binding) (hrow : row ∈ m.found.toList) :
      row = .empty := by
    refine Binding.eq_empty fun v hv => ?_
    have hmem := mem_mergeVariables.mpr (List.mem_append.mp ((hm.found row hrow).2 hv))
    exact List.not_mem_nil (hnone ▸ hmem)
  exact Solutions.paired_ofRows hm.found (hclosed hown) (hclosed hown') fun hseed =>
    Solutions.declaredAlike_seeds hs hseed us us

end SparqlAlgebra
