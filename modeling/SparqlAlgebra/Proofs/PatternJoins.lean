import SparqlAlgebra.Proofs.AnyOrder
import SparqlAlgebra.Proofs.DemandTrees

/-!
# Patterns as joins

A triple pattern is matched with the values that the patterns before it have
bound. What this finds is the join with the solutions that the pattern has on
its own, so it does not matter which pattern comes first.

* `Step.extensions_eq`: matching with a binding and joining it with the solutions
  of the pattern come to the same;
* `Solutions.pairRows_swap`: two joins can be exchanged;
* `Solutions.joinAll_perm`: so any number of them can be put in any order.
-/

namespace SparqlAlgebra

/-- Bindings agree on the variables of the smaller one. -/
theorem Binding.IsWithin.agreeOn {a b : Binding} (h : a.IsWithin b) {vs : List Var}
    (hvs : vs ⊆ a.vars) : a.AgreeOn vs b := fun v hv => by
  obtain ⟨t, ht⟩ := mem_vars_iff.mp (hvs hv)
  rw [ht, h v t ht]

/-! ## Triples -/

theorem Position.resolve_mono {b b' : Binding} (h : b.IsWithin b') {p : Position}
    {t : Term} (hp : p.resolve b = some t) : p.resolve b' = some t := by
  cases p with
  | term u => exact hp
  | var v => exact h v t hp

namespace Step

variable {p : Position} {pattern : TriplePattern} {b b' : Binding} {t : Triple}
  {value : Term}

/-- Binding a position keeps the other values. If the position is a term, whether
it is the right one has to be known otherwise. -/
theorem bindPosition_spec (hp : ∀ u, p = .term u → u = value)
    (h : bindPosition p value b = some b') :
    b.IsWithin b' ∧ p.resolve b' = some value := by
  unfold bindPosition at h
  cases p with
  | term u =>
    cases h
    exact ⟨.refl b, congrArg some (hp u rfl)⟩
  | var v =>
    dsimp only at h
    split at h
    · rename_i hv
      cases h
      refine ⟨Binding.isWithin_insert hv, ?_⟩
      show (b.insert v value).get? v = some value
      rw [Binding.get?_insert, if_pos rfl]
    · rename_i u hv
      split at h
      · rename_i hu
        cases h
        exact ⟨.refl b, hu ▸ hv⟩
      · cases h

/-- Binding a position succeeds within a binding that has the value. -/
theorem exists_bindPosition (h : b.IsWithin b') (hp : p.resolve b' = some value) :
    ∃ m, bindPosition p value b = some m ∧ m.IsWithin b' := by
  unfold bindPosition
  cases p with
  | term u => exact ⟨b, rfl, h⟩
  | var v =>
    dsimp only
    cases hv : b.get? v with
    | none => exact ⟨_, rfl, Binding.insert_isWithin h hp⟩
    | some u =>
      have hu : u = value := Option.some.inj ((h v u hv).symm.trans hp)
      exact ⟨b, if_pos hu, h⟩

/-- A binding gives the positions of a pattern the terms of a triple. -/
structure Shows (pattern : TriplePattern) (b : Binding) (t : Triple) : Prop where
  subject : pattern.subject.resolve b = some t.subject.toTerm
  predicate : pattern.predicate.resolve b = some (.iri t.predicate)
  object : pattern.object.resolve b = some t.object

theorem Shows.mono (h : Shows pattern b t) (hb : b.IsWithin b') : Shows pattern b' t :=
  ⟨Position.resolve_mono hb h.subject, Position.resolve_mono hb h.predicate,
    Position.resolve_mono hb h.object⟩

/-- The variables of a pattern determine what it shows. -/
theorem Shows.project (h : Shows pattern b t) : Shows pattern (b.project pattern.vars) t := by
  have hresolve {p : Position} (hp : p ∈ pattern.positions) :
      p.resolve (b.project pattern.vars) = p.resolve b := by
    cases p with
    | term u => rfl
    | var v =>
      have hv : v ∈ pattern.vars := Position.mem_vars.mpr hp
      show (b.project pattern.vars).get? v = b.get? v
      rw [Binding.get?_project, if_pos hv]
  refine ⟨?_, ?_, ?_⟩
  · rw [hresolve (by simp [TriplePattern.positions]), h.subject]
  · rw [hresolve (by simp [TriplePattern.positions]), h.predicate]
  · rw [hresolve (by simp [TriplePattern.positions]), h.object]

theorem Shows.vars_subset (h : Shows pattern b t) : pattern.vars ⊆ b.vars := by
  intro v hv
  have hpositions := Position.mem_vars.mp hv
  simp only [TriplePattern.positions, List.mem_cons, List.not_mem_nil, or_false] at hpositions
  rcases hpositions with hp | hp | hp
  · exact Binding.mem_vars_iff.mpr ⟨_, hp ▸ h.subject⟩
  · exact Binding.mem_vars_iff.mpr ⟨_, hp ▸ h.predicate⟩
  · exact Binding.mem_vars_iff.mpr ⟨_, hp ▸ h.object⟩

/-- The extension of a binding by a triple that has the terms of the pattern. -/
def extension? (pattern : TriplePattern) (b : Binding) (t : Triple) : Option Binding :=
  match predicate? pattern.predicate b with
  | none => none
  | some i =>
    if t.hasTerms (pattern.subject.resolve b) i (pattern.object.resolve b) then
      bindTriple pattern b t
    else none

/-- The terms of a triple are those that a binding gives the positions. -/
theorem predicate?_eq_some_iff {i : Option Iri} :
    predicate? p b = some i ↔ p.resolve b = i.map .iri := by
  unfold predicate?
  cases hp : p.resolve b with
  | none => cases i <;> simp
  | some u => cases u <;> cases i <;> simp [eq_comm]

theorem extension?_spec (h : extension? pattern b t = some b') :
    b.IsWithin b' ∧ Shows pattern b' t ∧ b'.vars ⊆ b.vars ++ pattern.vars := by
  unfold extension? at h
  split at h
  · cases h
  rename_i i hi
  split at h
  · rename_i hterms
    obtain ⟨hs, hpredicate, ho⟩ := Triple.hasTerms_iff.mp hterms
    have hvars := vars_of_bindTriple h
    obtain ⟨b₁, h₁, h⟩ := Option.bind_eq_some_iff.mp h
    obtain ⟨b₂, h₂, h₃⟩ := Option.bind_eq_some_iff.mp h
    have hiri (u : Term) (hu : pattern.predicate = .term u) : u = .iri t.predicate := by
      have hu : some u = i.map Term.iri := by
        rw [← predicate?_eq_some_iff.mp hi, hu]
        rfl
      obtain ⟨j, hj, rfl⟩ := Option.map_eq_some_iff.mp hu.symm
      rw [hpredicate j hj]
    obtain ⟨hb₁, h₁⟩ := bindPosition_spec (fun u hu => hs u (by rw [hu]; rfl)) h₁
    obtain ⟨hb₂, h₂⟩ := bindPosition_spec hiri h₂
    obtain ⟨hb₃, h₃⟩ := bindPosition_spec (fun u hu => ho u (by rw [hu]; rfl)) h₃
    refine ⟨hb₁.trans (hb₂.trans hb₃), ⟨?_, ?_, h₃⟩, hvars⟩
    · exact Position.resolve_mono (hb₂.trans hb₃) h₁
    · exact Position.resolve_mono hb₃ h₂
  · cases h

/-- Within a binding that shows a triple there is an extension by it. -/
theorem exists_extension? (hb : b.IsWithin b') (hshows : Shows pattern b' t) :
    ∃ m, extension? pattern b t = some m ∧ m.IsWithin b' := by
  have hknown {p : Position} {u w : Term} (hp : p.resolve b' = some w)
      (hu : p.resolve b = some u) : u = w :=
    Option.some.inj ((Position.resolve_mono hb hu).symm.trans hp)
  obtain ⟨i, hi⟩ : ∃ i, predicate? pattern.predicate b = some i := by
    cases hu : pattern.predicate.resolve b with
    | none => exact ⟨none, predicate?_eq_some_iff.mpr hu⟩
    | some u =>
      cases hknown hshows.predicate hu
      exact ⟨some t.predicate, predicate?_eq_some_iff.mpr hu⟩
  have hpredicate (j : Iri) (hj : j ∈ i) : j = t.predicate := by
    have hj : pattern.predicate.resolve b = some (.iri j) := by
      rw [predicate?_eq_some_iff.mp hi, hj]
      rfl
    exact Term.iri.inj (hknown hshows.predicate hj)
  have hterms : t.hasTerms (pattern.subject.resolve b) i
      (pattern.object.resolve b) = true :=
    Triple.hasTerms_iff.mpr ⟨fun _ => hknown hshows.subject, hpredicate,
      fun _ => hknown hshows.object⟩
  -- the three positions are bound one after the other, all within `b'`
  obtain ⟨b₁, h₁, hb₁⟩ := exists_bindPosition hb hshows.subject
  obtain ⟨b₂, h₂, hb₂⟩ := exists_bindPosition hb₁ hshows.predicate
  obtain ⟨b₃, h₃, hb₃⟩ := exists_bindPosition hb₂ hshows.object
  refine ⟨b₃, ?_, hb₃⟩
  unfold extension?
  rw [hi]
  dsimp only
  rw [if_pos hterms]
  exact Option.bind_eq_some_iff.mpr ⟨b₁, h₁, Option.bind_eq_some_iff.mpr ⟨b₂, h₂, h₃⟩⟩

/-- An extension is the least binding that shows the triple and has the values so
far. -/
theorem extension?_eq_some_iff :
    extension? pattern b t = some b' ↔
      b.IsWithin b' ∧ Shows pattern b' t ∧ b'.vars ⊆ b.vars ++ pattern.vars := by
  refine ⟨extension?_spec, fun ⟨hb, hshows, hvars⟩ => ?_⟩
  obtain ⟨m, hm, hwithin⟩ := exists_extension? hb hshows
  obtain ⟨hbm, hmshows, -⟩ := extension?_spec hm
  rw [hm, hwithin.eq_of_vars fun v hv => ?_]
  exact (List.mem_append.mp (hvars hv)).elim (hbm.vars_subset ·) (hmshows.vars_subset ·)

/-- An extension is the merge with what the triple binds on its own. -/
theorem extension?_eq_merge? (pattern : TriplePattern) (b : Binding) (t : Triple) :
    extension? pattern b t = (extension? pattern .empty t).bind b.merge? := by
  refine Option.ext fun b' => ?_
  rw [Option.bind_eq_some_iff, extension?_eq_some_iff]
  constructor
  · rintro ⟨hb, hshows, hvars⟩
    have hown : extension? pattern .empty t = some (b'.project pattern.vars) :=
      extension?_eq_some_iff.mpr ⟨Binding.empty_isWithin _, hshows.project,
        fun v hv => (Binding.mem_vars_project.mp hv).1⟩
    refine ⟨_, hown, Binding.merge?_eq_some_iff.mpr
      ⟨hb, b'.project_isWithin pattern.vars, fun v hv => ?_⟩⟩
    rw [List.mem_append, Binding.mem_vars_project]
    exact (List.mem_append.mp (hvars hv)).imp_right fun hp => ⟨hp, hv⟩
  · rintro ⟨m, hm, hb'⟩
    obtain ⟨-, hshows, hmvars⟩ := extension?_spec hm
    obtain ⟨hb, hmb, hvars⟩ := Binding.merge?_eq_some_iff.mp hb'
    refine ⟨hb, hshows.mono hmb, fun v hv => ?_⟩
    rw [List.mem_append]
    exact (List.mem_append.mp (hvars hv)).imp_right (hmvars ·)

end Step

/-! ## Rows of patterns -/

/-- The solutions of a pattern on its own. -/
def TriplePattern.rows (facts : List Triple) (pattern : TriplePattern) : List Binding :=
  facts.filterMap (Step.extension? pattern .empty)

namespace Step

theorem extensions_eq (facts : List Triple) (pattern : TriplePattern) (b : Binding) :
    facts.filterMap (extension? pattern b) = (pattern.rows facts).filterMap b.merge? := by
  rw [TriplePattern.rows, List.filterMap_filterMap]
  exact List.filterMap_congr fun t _ => extension?_eq_merge? pattern b t

/-- Matching a pattern with a binding joins the binding with the solutions of the
pattern. -/
theorem outcome_matchTriple {c : Context} (hc : c.Repeatable) (pattern : TriplePattern)
    (b : Binding) :
    (matchTriple pattern b).outcome c =
      .ok ((pattern.rows c.view.facts).filterMap b.merge?) := by
  rw [← extensions_eq]
  unfold matchTriple
  cases hi : predicate? pattern.predicate b with
  | none =>
    have hnone (t : Triple) : extension? pattern b t = none := by
      unfold extension?
      rw [hi]
    rw [List.filterMap_congr fun t _ => hnone t, List.filterMap_none]
    rfl
  | some i =>
    have hfacts := c.view.triples_eq hc.readable (pattern.subject.resolve b) i
      (pattern.object.resolve b)
    have hread : (Eval.triples (pattern.subject.resolve b) i
        (pattern.object.resolve b)).outcome c = .ok (c.view.facts.filter
          (·.hasTerms (pattern.subject.resolve b) i (pattern.object.resolve b))) := by
      unfold Eval.outcome
      rw [Eval.runFrom_triples, hfacts]
      rfl
    refine (Eval.outcome_bind_ok (fun _ => .pure _) hc hread).trans ?_
    rw [Eval.outcome_pure, List.filterMap_filter]
    refine congrArg Except.ok (List.filterMap_congr fun t _ => ?_)
    unfold extension?
    rw [hi]

end Step

namespace Solutions

theorem flatMap_swap_perm {α β γ : Type} (xs : List α) (ys : List β) (f : α → β → List γ) :
    (xs.flatMap fun x => ys.flatMap (f x)).Perm (ys.flatMap fun y => xs.flatMap (f · y)) := by
  induction xs with
  | nil => simp
  | cons x xs ih =>
    simp only [List.flatMap_cons]
    exact (ih.append_left _).trans (List.flatMap_append_perm ys (f x) _)

/-- Two joins one after the other merge all triples of rows. -/
theorem pairRows_pairRows (rows xs ys : List Binding) :
    pairRows (pairRows rows xs) ys =
      rows.flatMap fun b => xs.flatMap fun x => ys.filterMap fun y =>
        (b.merge? x).bind (·.merge? y) := by
  unfold pairRows
  rw [List.flatMap_assoc]
  refine List.flatMap_congr fun b _ => ?_
  rw [List.filterMap_eq_flatMap_toList, List.flatMap_assoc]
  refine List.flatMap_congr fun x _ => ?_
  cases b.merge? x <;> simp [Option.bind]

/-- Two joins can be exchanged. -/
theorem pairRows_swap (rows xs ys : List Binding) :
    (pairRows (pairRows rows xs) ys).Perm (pairRows (pairRows rows ys) xs) := by
  rw [pairRows_pairRows, pairRows_pairRows]
  refine .flatMap (.refl _) fun b _ => ?_
  simp only [List.filterMap_eq_flatMap_toList]
  refine (flatMap_swap_perm xs ys _).trans ?_
  simp only [Binding.merge?_swap b]
  exact .refl _

/-! ## Several joins -/

/-- The rows joined with each of some lists of rows. -/
def joinAll : List (List Binding) → List Binding → List Binding
  | [], rows => rows
  | xs :: rest, rows => joinAll rest (pairRows rows xs)

theorem joinAll_perm_rows {lists : List (List Binding)} {rows rows' : List Binding}
    (h : rows'.Perm rows) : (joinAll lists rows').Perm (joinAll lists rows) := by
  induction lists generalizing rows rows' with
  | nil => exact h
  | cons xs rest ih => exact ih (pairRows_perm h (.refl _))

/-- The order of the joins does not matter. -/
theorem joinAll_perm {lists lists' : List (List Binding)} (h : lists'.Perm lists)
    (rows : List Binding) : (joinAll lists' rows).Perm (joinAll lists rows) := by
  induction h generalizing rows with
  | nil => exact .refl _
  | cons xs _ ih => exact ih _
  | swap xs ys rest => exact joinAll_perm_rows (pairRows_swap rows _ _)
  | trans _ _ ih ih' => exact (ih rows).trans (ih' rows)

/-- Every row is joined on its own. -/
theorem joinAll_flatMap {lists : List (List Binding)} (rows : List Binding) :
    joinAll lists rows = rows.flatMap fun b => joinAll lists [b] := by
  induction lists generalizing rows with
  | nil => simp [joinAll]
  | cons xs rest ih =>
    have hrow (b : Binding) : joinAll (xs :: rest) [b] =
        (xs.filterMap b.merge?).flatMap fun b' => joinAll rest [b'] := by
      rw [joinAll, ih, pairRows, List.flatMap_singleton]
    simp only [hrow]
    rw [joinAll, ih, pairRows, List.flatMap_assoc]

end Solutions

/-! ## Rows of several patterns -/

namespace TriplePattern

variable {facts : List Triple} {ps qs : List TriplePattern} {rows rows' : List Binding}

/-- The rows joined with the solutions of each of the patterns. -/
def joinRows (facts : List Triple) : List TriplePattern → List Binding → List Binding
  | [], rows => rows
  | p :: rest, rows => joinRows facts rest (Solutions.pairRows rows (p.rows facts))

theorem joinRows_eq (rows : List Binding) :
    joinRows facts ps rows = Solutions.joinAll (ps.map (·.rows facts)) rows := by
  induction ps generalizing rows with
  | nil => rfl
  | cons p rest ih => exact ih _

/-- The order of the patterns does not matter. -/
theorem joinRows_perm (h : qs.Perm ps) (rows : List Binding) :
    (joinRows facts qs rows).Perm (joinRows facts ps rows) := by
  rw [joinRows_eq, joinRows_eq]
  exact Solutions.joinAll_perm (h.map _) rows

theorem joinRows_flatMap (rows : List Binding) :
    joinRows facts ps rows = rows.flatMap fun b => joinRows facts ps [b] := by
  simp only [joinRows_eq]
  exact Solutions.joinAll_flatMap rows

/-- The first pattern extends a row, the others extend what it makes. -/
theorem joinRows_cons (p : TriplePattern) (ps : List TriplePattern) (b : Binding) :
    joinRows facts (p :: ps) [b] =
      ((p.rows facts).filterMap b.merge?).flatMap fun b' => joinRows facts ps [b'] := by
  rw [joinRows, joinRows_flatMap, Solutions.pairRows, List.flatMap_singleton]

theorem vars_of_mem_rows {p : TriplePattern} {b : Binding} (h : b ∈ p.rows facts) {v : Var} :
    v ∈ b.vars ↔ v ∈ p.vars := by
  obtain ⟨t, -, ht⟩ := List.mem_filterMap.mp h
  obtain ⟨-, hshows, hvars⟩ := Step.extension?_spec ht
  exact ⟨fun hv => hvars hv, fun hv => hshows.vars_subset hv⟩

/-- The joined rows have the values of the given one, and bind the variables of
the patterns. -/
theorem mem_joinRows {b b' : Binding} (h : b' ∈ joinRows facts ps [b]) :
    b.IsWithin b' ∧ ∀ v, v ∈ b'.vars ↔ v ∈ b.vars ∨ ∃ p ∈ ps, v ∈ p.vars := by
  induction ps generalizing b with
  | nil =>
    rw [List.mem_singleton.mp h]
    exact ⟨.refl b, fun v => by simp⟩
  | cons p rest ih =>
    rw [joinRows, joinRows_flatMap] at h
    obtain ⟨m, hm, hb'⟩ := List.mem_flatMap.mp h
    rw [Solutions.pairRows, List.flatMap_singleton] at hm
    obtain ⟨r, hr, hm⟩ := List.mem_filterMap.mp hm
    obtain ⟨hwithin, hvars⟩ := ih hb'
    refine ⟨(Binding.isWithin_of_merge? hm).1.trans hwithin, fun v => ?_⟩
    rw [hvars, Binding.mem_vars_of_merge? hm, vars_of_mem_rows hr, List.exists_mem_cons_iff,
      or_assoc]

end TriplePattern

end SparqlAlgebra
