import SparqlAlgebra.Proofs.SeedBounds
import SparqlAlgebra.Proofs.SeedPairs

/-!
# Solutions under two seeds

The solutions of one pattern from two seeds are paired row by row. This is not all that
matters: a difference looks at the variables that its sides declare, and under a seed
rows may bind more than that (see `Solutions.Fits`).

* `Solutions.Aligned` is what both evaluations declare, if the seeds bind one of the given
  variables;
* `Solutions.Paired` is what both of them yield, and `Solutions.Mirrored` adds that it
  fits the seeds. The operations on solutions keep them.
-/

namespace SparqlAlgebra

open List (Forall₂)

namespace Solutions

variable {vs ws ws' us us' : List Var} {s s' : Binding} {u w : SeedUse}
  {a a' b b' m m' r : Solutions} {rows rows' : List Binding}

theorem forall₂_pairRows {ls ls' rs rs' : List Binding}
    (hl : Forall₂ (Binding.Paired vs s s' u) ls ls')
    (hr : Forall₂ (Binding.Paired vs s s' w) rs rs') :
    Forall₂ (Binding.Paired vs s s' (u.merge w)) (pairRows ls rs) (pairRows ls' rs') :=
  List.rel_flatMap hl fun _ _ hb => List.rel_filterMap (fun _ _ hb' => hb.merge? hb') hr

/-! ## What both evaluations declare -/

/-- What two evaluations declare: both of them something or nothing, and of the
variables either the same or all that the seeds bind. -/
structure DeclaredAlike (vs : List Var) (s : Binding) (us us' : List Var) : Prop where
  nil_iff : us = [] ↔ us' = []
  declared : (∀ v ∈ vs, v ∈ s.vars → v ∈ us ∧ v ∈ us') ∨ ∀ v ∈ vs, v ∈ us ↔ v ∈ us'

theorem DeclaredAlike.refl (us : List Var) : DeclaredAlike vs s us us :=
  ⟨Iff.rfl, .inr fun _ _ => Iff.rfl⟩

theorem DeclaredAlike.symm (h : DeclaredAlike vs s us us') (hs : s.AgreeOn vs s') :
    DeclaredAlike vs s' us' us := by
  refine ⟨h.nil_iff.symm, h.declared.imp (fun h v hv hseed => ?_) fun h v hv => (h v hv).symm⟩
  exact (h v hv ((hs.mem_vars_iff hv).mpr hseed)).symm

theorem mergeVariables_eq_nil_iff : mergeVariables us ws = [] ↔ us = [] ∧ ws = [] := by
  constructor
  · exact mergeVariables_eq_nil
  · rintro ⟨rfl, rfl⟩
    rfl

theorem DeclaredAlike.merge (h : DeclaredAlike vs s us us') (h' : DeclaredAlike vs s ws ws') :
    DeclaredAlike vs s (mergeVariables us ws) (mergeVariables us' ws') := by
  refine ⟨?_, ?_⟩
  · rw [mergeVariables_eq_nil_iff, mergeVariables_eq_nil_iff, h.nil_iff, h'.nil_iff]
  · rcases h.declared with h | h
    · left
      intro v hv hseed
      exact ⟨subset_mergeVariables_left (h v hv hseed).1,
        subset_mergeVariables_left (h v hv hseed).2⟩
    · rcases h'.declared with h' | h'
      · left
        intro v hv hseed
        exact ⟨subset_mergeVariables_right (h' v hv hseed).1,
          subset_mergeVariables_right (h' v hv hseed).2⟩
      · right
        intro v hv
        rw [mem_mergeVariables, mem_mergeVariables, h v hv, h' v hv]

/-- The seeds themselves are declared. -/
theorem declaredAlike_seeds (hs : s.AgreeOn vs s') (h : ∃ v ∈ vs, v ∈ s.vars) (us us' : List Var) :
    DeclaredAlike vs s (mergeVariables s.vars us) (mergeVariables s'.vars us') := by
  obtain ⟨v, hv, hmem⟩ := h
  have hne {b : Binding} {us : List Var} (hb : v ∈ b.vars) : mergeVariables b.vars us ≠ [] :=
    List.ne_nil_of_mem (subset_mergeVariables_left hb)
  refine ⟨iff_of_false (hne hmem) (hne ((hs.mem_vars_iff hv).mp hmem)), .inl fun w hw hw' => ?_⟩
  exact ⟨subset_mergeVariables_left hw', subset_mergeVariables_left ((hs.mem_vars_iff hw).mp hw')⟩

/-- What two evaluations declare, if a given variable is bound in both seeds. Then an
empty result is written down in the same way. -/
structure Aligned (vs : List Var) (s : Binding) (m m' : Solutions) : Prop
    extends DeclaredAlike vs s m.vars m'.vars where
  null_iff : m = null ↔ m' = null

theorem Aligned.refl (m : Solutions) : Aligned vs s m m := ⟨.refl m.vars, Iff.rfl⟩

theorem aligned_ofRows (h : DeclaredAlike vs s us us') (hsize : rows.length = rows'.length) :
    Aligned vs s (ofRows us rows) (ofRows us' rows') := by
  have hnull {us : List Var} {rows : List Binding} :
      ofRows us rows = null ↔ us = [] ∧ rows.length = 0 := by
    constructor
    · intro heq
      have hvars := congrArg Solutions.vars heq
      have hlength := congrArg Solutions.size heq
      rw [vars_ofRows] at hvars
      rw [size_ofRows] at hlength
      exact ⟨hvars, hlength⟩
    · rintro ⟨rfl, hlength⟩
      rw [List.eq_nil_of_length_eq_zero hlength]
      rfl
  refine ⟨?_, ?_⟩
  · rw [vars_ofRows, vars_ofRows]
    exact h
  · rw [hnull, hnull, h.nil_iff, hsize]

/-! ## Pairs of solutions -/

/-- The solutions of two evaluations of one pattern from two seeds. -/
structure Paired (vs : List Var) (s s' : Binding) (u : SeedUse) (m m' : Solutions) : Prop where
  rows : Forall₂ (Binding.Paired vs s s' u) m.rows m'.rows
  aligned : (∃ v ∈ vs, v ∈ s.vars) → Aligned vs s m m'

theorem Paired.size_eq (h : Paired vs s s' u m m') : m.size = m'.size := h.rows.length_eq

theorem Paired.isEmpty_eq (h : Paired vs s s' u m m') : m.isEmpty = m'.isEmpty := by
  have hlength := h.rows.length_eq
  rw [isEmpty, isEmpty, Bool.eq_iff_iff, List.isEmpty_iff_length_eq_zero,
    List.isEmpty_iff_length_eq_zero, hlength]

theorem Paired.mono (h : Paired vs s s' u m m')
    (huse : ∀ r r', Binding.Paired vs s s' u r r' → Binding.Paired vs s s' w r r') :
    Paired vs s s' w m m' := ⟨h.rows.imp huse, h.aligned⟩

theorem Paired.symm (h : Paired vs s s' u m m') (hs : s.AgreeOn vs s') :
    Paired vs s' s u m' m := by
  refine ⟨h.rows.flip.imp fun _ _ hrow => hrow.symm, ?_⟩
  rintro ⟨v, hv, hseed⟩
  have haligned := h.aligned ⟨v, hv, (hs.mem_vars_iff hv).mpr hseed⟩
  exact ⟨haligned.toDeclaredAlike.symm hs, haligned.null_iff.symm⟩

theorem paired_null : Paired vs s s' u null null := ⟨.nil, fun _ => .refl null⟩

/-- Solutions that bind the given variables only, in both evaluations. -/
theorem paired_self (h : ∀ row ∈ m.rows, row.vars ⊆ vs) : Paired vs s s' .dropped m m :=
  ⟨forall₂_same fun row hrow => .of_vars (h row hrow), fun _ => .refl m⟩

theorem paired_ofRows (h : Forall₂ (Binding.Paired vs s s' u) rows rows')
    (hclosed : us = [] → ∀ row ∈ rows, row = .empty)
    (hclosed' : us' = [] → ∀ row ∈ rows', row = .empty)
    (hdeclared : (∃ v ∈ vs, v ∈ s.vars) → DeclaredAlike vs s us us') :
    Paired vs s s' u (ofRows us rows) (ofRows us' rows') := by
  refine ⟨?_, fun hseed => aligned_ofRows (hdeclared hseed) h.length_eq⟩
  rw [rows_ofRows_of_empty hclosed, rows_ofRows_of_empty hclosed']
  exact h

/-- Some of the rows on both sides. -/
theorem Paired.ofRows (h : Paired vs s s' u m m')
    (hrows : Forall₂ (Binding.Paired vs s s' w) rows rows') (hsub : rows ⊆ m.rows)
    (hsub' : rows' ⊆ m'.rows) (hm : m.IsClosed) (hm' : m'.IsClosed) :
    Paired vs s s' w (Solutions.ofRows m.vars rows) (Solutions.ofRows m'.vars rows') :=
  paired_ofRows hrows (fun hvars row hrow => hm hvars row (hsub hrow))
    (fun hvars row hrow => hm' hvars row (hsub' hrow)) fun hseed =>
      (h.aligned hseed).toDeclaredAlike

/-! ## Operations on pairs -/

theorem join_ne_null (ha : a.isSingleton = false) (hb : b.isSingleton = false) (h : a ≠ null)
    (h' : b ≠ null) (hpairs : a.vars = [] → b.vars = [] → pairRows a.rows b.rows ≠ []) :
    a.join b ≠ null ∧ ∀ v, v ∈ (a.join b).vars ↔ v ∈ a.vars ∨ v ∈ b.vars := by
  rcases join_cases ha hb with ⟨hnull | hnull, _⟩ | ⟨rfl, hj⟩ | ⟨rfl, hj⟩ | ⟨_, _, hj⟩
  · exact absurd hnull h
  · exact absurd hnull h'
  · rw [hj]
    exact ⟨h', fun v => (or_iff_right List.not_mem_nil).symm⟩
  · rw [hj]
    exact ⟨h, fun v => (or_iff_left List.not_mem_nil).symm⟩
  · rw [hj]
    refine ⟨fun hnull => ?_, fun v => by rw [vars_ofRows, mem_mergeVariables]⟩
    have hvars := congrArg Solutions.vars hnull
    have hsize := congrArg Solutions.size hnull
    rw [vars_ofRows] at hvars
    rw [size_ofRows] at hsize
    obtain ⟨hvars, hvars'⟩ := mergeVariables_eq_nil hvars
    exact hpairs hvars hvars' (List.eq_nil_of_length_eq_zero hsize)

/-- A join declares the same on both sides, unless it is empty on one of them only. -/
theorem Aligned.join (ha : Aligned vs s a a') (hb : Aligned vs s b b')
    (hreal : a.isSingleton = false) (hreal' : a'.isSingleton = false)
    (kreal : b.isSingleton = false) (kreal' : b'.isSingleton = false)
    (hpairs : a ≠ null → b ≠ null → a.vars = [] → b.vars = [] → pairRows a.rows b.rows ≠ [])
    (hpairs' : a' ≠ null → b' ≠ null → a'.vars = [] → b'.vars = [] →
      pairRows a'.rows b'.rows ≠ []) : Aligned vs s (a.join b) (a'.join b') := by
  by_cases hnull : a = null
  · have hnull' := ha.null_iff.mp hnull
    subst hnull hnull'
    exact .refl null
  by_cases knull : b = null
  · have knull' := hb.null_iff.mp knull
    subst knull knull'
    have hjoin (x : Solutions) : x.join null = null := by cases x <;> rfl
    rw [hjoin, hjoin]
    exact .refl null
  have hnull' : a' ≠ null := fun h => hnull (ha.null_iff.mpr h)
  have knull' : b' ≠ null := fun h => knull (hb.null_iff.mpr h)
  obtain ⟨hne, hvars⟩ := join_ne_null hreal kreal hnull knull (hpairs hnull knull)
  obtain ⟨hne', hvars'⟩ := join_ne_null hreal' kreal' hnull' knull' (hpairs' hnull' knull')
  have hmerge := ha.toDeclaredAlike.merge hb.toDeclaredAlike
  have hmem {us ws : List Var} (h : ∀ v, v ∈ us ↔ v ∈ ws) : us = [] ↔ ws = [] := by
    rw [List.eq_nil_iff_forall_not_mem, List.eq_nil_iff_forall_not_mem]
    exact forall_congr' fun v => not_congr (h v)
  have heq (v : Var) : v ∈ (a.join b).vars ↔ v ∈ mergeVariables a.vars b.vars := by
    rw [hvars v, mem_mergeVariables]
  have heq' (v : Var) : v ∈ (a'.join b').vars ↔ v ∈ mergeVariables a'.vars b'.vars := by
    rw [hvars' v, mem_mergeVariables]
  refine ⟨⟨?_, ?_⟩, iff_of_false hne hne'⟩
  · rw [hmem heq, hmem heq', hmerge.nil_iff]
  · simpa only [heq, heq'] using hmerge.declared

/-- Pairs of solutions that fit the seeds they come from. -/
structure Mirrored (vs us : List Var) (s s' : Binding) (u : SeedUse) (m m' : Solutions) : Prop
    extends Paired vs s s' u m m' where
  fits : m.Fits s us
  fits' : m'.Fits s' us

theorem Mirrored.symm (h : Mirrored vs us s s' u m m') (hs : s.AgreeOn vs s') :
    Mirrored vs us s' s u m' m := ⟨h.toPaired.symm hs, h.fits', h.fits⟩

/-- If there is a seed, solutions without variables are empty or neutral. -/
theorem Fits.pairRows_ne_nil (ha : a.Fits s us) (hb : b.Fits s ws) (hs : s.vars ≠ [])
    (h : a ≠ null) (h' : b ≠ null) (hvars : a.vars = []) (hvars' : b.vars = []) :
    pairRows a.rows b.rows ≠ [] := by
  have hsome {m : Solutions} {us : List Var} (hm : m.Fits s us) (hne : m ≠ null)
      (hnone : m.vars = []) : .empty ∈ m.rows := by
    obtain ⟨row, hrow⟩ := List.exists_mem_of_ne_nil _ fun hnil => hne (hm.isNormal hs hnone hnil)
    rw [← hm.isClosed hnone row hrow]
    exact hrow
  have hmem : .empty ∈ pairRows a.rows b.rows := List.mem_flatMap.mpr ⟨_, hsome ha h hvars,
    List.mem_filterMap.mpr ⟨_, hsome hb h' hvars', Binding.merge?_empty _⟩⟩
  exact List.ne_nil_of_mem hmem

theorem Mirrored.join (ha : Mirrored vs us s s' u a a') (hb : Mirrored vs ws s s' w b b')
    (hs : s.AgreeOn vs s') : Paired vs s s' (u.merge w) (a.join b) (a'.join b') := by
  constructor
  · rw [rows_join_of_isClosed ha.fits.real hb.fits.real ha.fits.isClosed hb.fits.isClosed,
      rows_join_of_isClosed ha.fits'.real hb.fits'.real ha.fits'.isClosed hb.fits'.isClosed]
    exact forall₂_pairRows ha.rows hb.rows
  · rintro ⟨v, hv, hseed⟩
    have hne : s.vars ≠ [] := List.ne_nil_of_mem hseed
    have hne' : s'.vars ≠ [] := List.ne_nil_of_mem ((hs.mem_vars_iff hv).mp hseed)
    exact (ha.aligned ⟨v, hv, hseed⟩).join (hb.aligned ⟨v, hv, hseed⟩) ha.fits.real ha.fits'.real
      hb.fits.real hb.fits'.real (ha.fits.pairRows_ne_nil hb.fits hne)
      (ha.fits'.pairRows_ne_nil hb.fits' hne')

/-- Solutions that were computed without a seed are joined with both seeds. -/
theorem Fits.joinSeeds (h : m.Fits .empty us) (hus : us ⊆ vs) (hs : s.AgreeOn vs s') :
    Paired vs s s' .carried (m.join (ofBinding s)) (m.join (ofBinding s')) := by
  have hone (start : Binding) : (ofBinding start).rows = [start] :=
    rows_ofRows fun row hrow => List.mem_singleton.mp hrow ▸ List.Subset.refl _
  have hfits (start : Binding) : (ofBinding start).Fits start [] := ofBinding_fits start []
  constructor
  · rw [rows_join_of_isClosed h.real (hfits s).real h.isClosed (hfits s).isClosed,
      rows_join_of_isClosed h.real (hfits s').real h.isClosed (hfits s').isClosed, hone, hone]
    have hrows : Forall₂ (Binding.Paired vs s s' .dropped) m.rows m.rows :=
      (paired_self fun row hrow => List.Subset.trans (h.wellFormed_of_unseeded row hrow)
        (List.Subset.trans h.declared_of_unseeded hus)).rows
    exact forall₂_pairRows hrows (.cons (.seeds hs) .nil)
  · rintro ⟨v, hv, hseed⟩
    have hseed' : v ∈ s'.vars := (hs.mem_vars_iff hv).mp hseed
    have hnone {start : Binding} (hmem : v ∈ start.vars) : (ofBinding start).vars ≠ [] := by
      rw [ofBinding, vars_ofRows]
      exact List.ne_nil_of_mem hmem
    have hseeds : Aligned vs s (ofBinding s) (ofBinding s') := by
      have halike := declaredAlike_seeds hs ⟨v, hv, hseed⟩ [] []
      have hmerge (us : List Var) : mergeVariables us [] = us := List.append_nil us
      rw [hmerge, hmerge] at halike
      exact aligned_ofRows halike rfl
    exact (Aligned.refl m).join hseeds h.real h.real (hfits s).real (hfits s').real
      (fun _ _ _ hvars => absurd hvars (hnone hseed))
      fun _ _ _ hvars => absurd hvars (hnone hseed')

theorem Fits.rows_union (ha : a.Fits s us) (hb : b.Fits s ws) :
    (a.union b).rows = a.rows ++ b.rows := by
  by_cases hnull : a = null
  · subst hnull
    rfl
  by_cases hnull' : b = null
  · subst hnull'
    rw [union_null]
    exact (List.append_nil _).symm
  rw [union_eq_ofRows ha.real hb.real hnull hnull']
  apply rows_ofRows_of_empty
  intro hvars
  obtain ⟨hvars, hvars'⟩ := mergeVariables_eq_nil hvars
  exact List.forall_mem_append.mpr ⟨ha.isClosed hvars, hb.isClosed hvars'⟩

theorem Mirrored.union (ha : Mirrored vs us s s' u a a') (hb : Mirrored vs ws s s' w b b') :
    Paired vs s s' (u.either w) (a.union b) (a'.union b') := by
  have hl := ha.mono fun r r' h => h.either_left w
  have hr := hb.mono fun r r' h => h.either_right u
  constructor
  · rw [ha.fits.rows_union hb.fits, ha.fits'.rows_union hb.fits']
    exact List.rel_append hl.rows hr.rows
  · intro hseed
    have hl := ha.aligned hseed
    have hr := hb.aligned hseed
    by_cases hnull : a = null
    · have hnull' := hl.null_iff.mp hnull
      subst hnull hnull'
      exact hr
    by_cases knull : b = null
    · have knull' := hr.null_iff.mp knull
      subst knull knull'
      rw [union_null, union_null]
      exact hl
    have hnull' : a' ≠ null := fun h => hnull (hl.null_iff.mpr h)
    have knull' : b' ≠ null := fun h => knull (hr.null_iff.mpr h)
    rw [union_eq_ofRows ha.fits.real hb.fits.real hnull knull,
      union_eq_ofRows ha.fits'.real hb.fits'.real hnull' knull']
    refine aligned_ofRows (hl.toDeclaredAlike.merge hr.toDeclaredAlike) ?_
    rw [List.length_append, List.length_append, ha.rows.length_eq, hb.rows.length_eq]

theorem Mirrored.extendVariables (h : Mirrored vs us s s' u m m') (ws : List Var) :
    Paired vs s s' u (m.extendVariables ws) (m'.extendVariables ws) := by
  have hrows {start : Binding} {x : Solutions} (hx : x.Fits start us) :
      (x.extendVariables ws).rows = x.rows := by
    by_cases hnull : x = null
    · subst hnull
      rfl
    rw [extendVariables_eq_ofRows hx.real hnull]
    exact rows_ofRows_of_empty fun hvars => hx.isClosed (mergeVariables_eq_nil hvars).1
  constructor
  · rw [hrows h.fits, hrows h.fits']
    exact h.rows
  · intro hseed
    have haligned := h.aligned hseed
    by_cases hnull : m = null
    · have hnull' := haligned.null_iff.mp hnull
      subst hnull hnull'
      exact .refl null
    have hnull' : m' ≠ null := fun h => hnull (haligned.null_iff.mpr h)
    rw [extendVariables_eq_ofRows h.fits.real hnull, extendVariables_eq_ofRows h.fits'.real hnull']
    exact aligned_ofRows (haligned.toDeclaredAlike.merge (.refl ws)) h.rows.length_eq

theorem Mirrored.distinct (h : Mirrored vs us s s' u m m') (hu : u ≠ .mixed) :
    Paired vs s s' u m.distinct m'.distinct := by
  rw [distinct_eq_ofRows h.fits.real, distinct_eq_ofRows h.fits'.real]
  have hrows := forall₂_dedup (fun _ _ _ _ hx hy => Binding.Paired.eq_iff hu hx hy) h.rows
  exact h.ofRows hrows (fun _ => mem_dedup.mp) (fun _ => mem_dedup.mp) h.fits.isClosed
    h.fits'.isClosed

theorem Mirrored.slice (h : Mirrored vs us s s' u m m') (offset : Nat) (limit : Option Nat) :
    Paired vs s s' u (m.slice offset limit) (m'.slice offset limit) := by
  rw [slice_eq_ofRows h.fits.real, slice_eq_ofRows h.fits'.real]
  exact h.ofRows (forall₂_sliceRows offset limit h.rows) (sliceRows_sublist _ _ _).subset
    (sliceRows_sublist _ _ _).subset h.fits.isClosed h.fits'.isClosed

theorem Mirrored.truncate (h : Mirrored vs us s s' u m m') (n : Nat) :
    Paired vs s s' u (m.truncate n) (m'.truncate n) := by
  unfold Solutions.truncate
  rw [h.size_eq]
  split
  · exact h.toPaired
  · exact h.slice 0 (some n)

/-! ## Differences -/

/-- No row is dropped on the other side if nothing is declared that both sides of a
difference share: what a row shares, all of them declare or none of them does. -/
theorem Mirrored.minusRows_eq_self (h : Mirrored vs us s s' u m m') (hr : r.Fits .empty ws)
    (hws : ws ⊆ vs) (hdisjoint : ∀ v ∈ m.vars, v ∉ r.vars)
    (hshared : ¬ ∀ v ∈ m'.vars, v ∉ r.vars) : minusRows m'.rows r.rows = m'.rows := by
  have hsub : r.vars ⊆ vs := List.Subset.trans hr.declared_of_unseeded hws
  apply Solutions.minusRows_eq_self
  intro l' hl' x hx
  refine Bool.eq_false_iff.mpr fun hshares => ?_
  obtain ⟨v, hv', hvx⟩ := Binding.sharesVariable_iff.mp hshares
  have hvr : v ∈ r.vars := hr.wellFormed_of_unseeded x hx v (Binding.mem_vars.mpr hvx)
  -- the row of this side binds the variable too, so the seed does
  obtain ⟨l, hl, hpair⟩ := exists_of_forall₂ h.rows l' hl'
  have hv : v ∈ l.vars :=
    (hpair.agreeOn.mem_vars_iff (hsub hvr)).mpr (Binding.mem_vars.mpr hv')
  have hseed : v ∈ s.vars := by
    rcases List.mem_append.mp (h.fits.bound l hl hv) with hv | hv
    · exact absurd hvr (hdisjoint v hv)
    · exact hv
  rcases (h.aligned ⟨v, hsub hvr, hseed⟩).declared with hall | hsame
  · exact hdisjoint v (hall v (hsub hvr) hseed).1 hvr
  · exact hshared fun w hw hwr => hdisjoint w ((hsame w (hsub hwr)).mpr hw) hwr

theorem isExcluded_eq {l l' : Binding} (hl : Binding.Paired vs s s' u l l')
    (hrows : ∀ x ∈ rows, x.vars ⊆ vs) : isExcluded l rows = isExcluded l' rows := by
  have hshares {a b x : Binding} (hab : a.AgreeOn vs b) (hx : x.vars ⊆ vs)
      (h : a.sharesVariable x = true) : b.sharesVariable x = true := by
    obtain ⟨v, hv, hvx⟩ := Binding.sharesVariable_iff.mp h
    refine Binding.sharesVariable_iff.mpr ⟨v, ?_, hvx⟩
    have hmem := hab.mem_vars_iff (hx (Binding.mem_vars.mpr hvx))
    exact Binding.mem_vars.mp (hmem.mp (Binding.mem_vars.mpr hv))
  rw [isExcluded, isExcluded, Bool.eq_iff_iff, List.any_eq_true, List.any_eq_true]
  refine exists_congr fun x => and_congr_right fun hx => ?_
  rw [hl.isCompatible_eq (.of_vars (hrows x hx)), Bool.eq_iff_iff.mpr
    ⟨hshares hl.agreeOn (hrows x hx), hshares hl.agreeOn.symm (hrows x hx)⟩]

/-- Nothing that is declared is shared on the first side. -/
theorem Mirrored.minus_of_disjoint (h : Mirrored vs us s s' u m m') (hr : r.Fits .empty ws)
    (hws : ws ⊆ vs) (hdisjoint : ∀ v ∈ m.vars, v ∉ r.vars) :
    Paired vs s s' u (m.minus r) (m'.minus r) := by
  rw [minus_eq_self h.fits.real hr.real hdisjoint]
  by_cases hdisjoint' : ∀ v ∈ m'.vars, v ∉ r.vars
  · rw [minus_eq_self h.fits'.real hr.real hdisjoint']
    exact h.toPaired
  · rw [minus_eq_ofRows h.fits'.real hr.real hdisjoint',
      h.minusRows_eq_self hr hws hdisjoint hdisjoint']
    have hrows : (Solutions.ofRows m'.vars m'.rows).rows = m'.rows :=
      rows_ofRows_of_empty h.fits'.isClosed
    refine ⟨hrows.symm ▸ h.rows, fun hseed => ?_⟩
    have haligned := h.aligned hseed
    -- something is declared on the second side, so it is on the first one
    have hne' : m'.vars ≠ [] := fun hnil =>
      hdisjoint' fun v hv => absurd (hnil ▸ hv) List.not_mem_nil
    have hne : m.vars ≠ [] := fun hnil => hne' (haligned.nil_iff.mp hnil)
    have hnotNull {x : Solutions} (hx : x.vars ≠ []) : x ≠ null := fun hnull => hx (hnull ▸ rfl)
    refine ⟨?_, iff_of_false (hnotNull hne) (hnotNull ?_)⟩
    · rw [vars_ofRows]
      exact haligned.toDeclaredAlike
    · rw [vars_ofRows]
      exact hne'

/-- The right side of a difference does not start from the seed. -/
theorem Mirrored.minus (h : Mirrored vs us s s' u m m') (hr : r.Fits .empty ws) (hws : ws ⊆ vs)
    (hs : s.AgreeOn vs s') : Paired vs s s' u (m.minus r) (m'.minus r) := by
  by_cases hdisjoint : ∀ v ∈ m.vars, v ∉ r.vars
  · exact h.minus_of_disjoint hr hws hdisjoint
  by_cases hdisjoint' : ∀ v ∈ m'.vars, v ∉ r.vars
  · exact ((h.symm hs).minus_of_disjoint hr hws hdisjoint').symm hs.symm
  rw [minus_eq_ofRows h.fits.real hr.real hdisjoint,
    minus_eq_ofRows h.fits'.real hr.real hdisjoint']
  have hright (x : Binding) (hx : x ∈ r.rows) : x.vars ⊆ vs :=
    List.Subset.trans (hr.wellFormed_of_unseeded x hx)
      (List.Subset.trans hr.declared_of_unseeded hws)
  have hrows : Forall₂ (Binding.Paired vs s s' u) (minusRows m.rows r.rows)
      (minusRows m'.rows r.rows) := by
    refine List.rel_filter (fun l l' hl => ?_) h.rows
    show (!isExcluded l r.rows) = true ↔ (!isExcluded l' r.rows) = true
    rw [isExcluded_eq hl hright]
  exact h.ofRows hrows (List.filter_subset_self _) (List.filter_subset_self _) h.fits.isClosed
    h.fits'.isClosed

end Solutions

end SparqlAlgebra
