import SparqlAlgebra.Proofs.PathLinks
import SparqlAlgebra.Proofs.Renaming
import SparqlAlgebra.Proofs.Rows

/-!
# The names of variables do not matter to paths

A path is evaluated twice, with other names for the variables at its ends and after
other variables have been made. Both evaluations fail with the same error, or both
succeed, with the same solutions up to the names. Nothing is assumed about the data:
reading may fail.

* `Eval.Tracks` is what two such evaluations have in common, with its rules for
  sequences, readings and made variables;
* `Relation.Equivariant` says it of a relation, for all permutations of variables. The
  ends must be old for both evaluations; a made variable is then paired with the one
  that the other evaluation makes (`exists_perm`);
* `Path.relation_equivariant` is the induction over paths. Given ends keep their names,
  so that the solutions are the same (`Relation.Equivariant.steady`).
-/

namespace SparqlAlgebra

/-- At most variables have been made and work has been counted since. -/
structure Progress.Later (p q : Progress) : Prop where
  vars_le : p.vars ≤ q.vars
  log_eq : q.log = p.log

namespace Progress.Later

variable {p q r : Progress}

theorem refl (p : Progress) : p.Later p := ⟨Nat.le_refl _, rfl⟩

theorem trans (h : p.Later q) (k : q.Later r) : p.Later r :=
  ⟨Nat.le_trans h.vars_le k.vars_le, k.log_eq.trans h.log_eq⟩

end Progress.Later

namespace Eval

variable {α β γ δ : Type} {R : α → β → Prop} {S : γ → δ → Prop} {c c' : Context}
  {p p' : Progress}

/-! ## Evaluations along one another -/

/-- The outcomes of two evaluations are related, and both only make variables. -/
def Tracks (R : α → β → Prop) (c c' : Context) (p p' : Progress) (x : Eval α) (y : Eval β) :
    Prop :=
  RelatedRuns (fun q q' => p.Later q ∧ p'.Later q') neverStops R (x.runFrom c p)
    (y.runFrom c' p')

namespace Tracks

theorem pure {a : α} {b : β} (h : R a b) : Tracks R c c' p p' (pure a) (pure b) :=
  RelatedRuns.pure h ⟨.refl p, .refl p'⟩

/-- What follows may use that both evaluations have gone on. -/
theorem bind {x : Eval α} {y : Eval β} {f : α → Eval γ} {g : β → Eval δ}
    (h : Tracks R c c' p p' x y)
    (k : ∀ a b q q', R a b → p.Later q → p'.Later q' → Tracks S c c' q q' (f a) (g b)) :
    Tracks S c c' p p' (x >>= f) (y >>= g) :=
  RelatedRuns.bind h fun a b q q' hab hlater =>
    (k a b q q' hab hlater.1 hlater.2).counting fun _ _ hthen =>
      ⟨hlater.1.trans hthen.1, hlater.2.trans hthen.2⟩

/-- What follows may use both contexts. -/
theorem read_bind {f : Context → Eval α} {g : Context → Eval β}
    (h : Tracks R c c' p p' (f c) (g c')) :
    Tracks R c c' p p' (read >>= f) (read >>= g) := RelatedRuns.read_bind h

theorem triples (hs : c.Alongside c') (s : Option Term) (i : Option Iri) (o : Option Term) :
    Tracks Eq c c' p p' (Eval.triples s i o) (Eval.triples s i o) :=
  RelatedRuns.triples hs.view_eq s i o ⟨.refl p, .refl p'⟩

theorem nodes (hs : c.Alongside c') : Tracks Eq c c' p p' Eval.nodes Eval.nodes :=
  RelatedRuns.nodes hs.view_eq ⟨.refl p, .refl p'⟩

theorem tick (hc : c.Settled) (hs : c.Alongside c') : Tracks Eq c c' p p' tick tick := by
  obtain ⟨n, hp⟩ := runFrom_tick_ok hc.inTime p
  obtain ⟨m, hq⟩ := runFrom_tick_ok (hc.of_alongside hs).inTime p'
  unfold Tracks
  rw [hp, hq]
  exact .ok rfl ⟨⟨Nat.le_refl _, rfl⟩, ⟨Nat.le_refl _, rfl⟩⟩

/-- Both evaluations go on with a variable that is younger than all of theirs. -/
theorem freshVar_bind {f : Var → Eval α} {g : Var → Eval β}
    (h : ∀ q q' : Progress, p.Later q → q.vars = p.vars + 1 → p'.Later q' →
      q'.vars = p'.vars + 1 →
        Tracks R c c' q q' (f (.generated q.vars)) (g (.generated q'.vars))) :
    Tracks R c c' p p' (freshVar >>= f) (freshVar >>= g) := by
  have hp : p.Later { p with vars := p.vars + 1 } := ⟨Nat.le_succ _, rfl⟩
  have hp' : p'.Later { p' with vars := p'.vars + 1 } := ⟨Nat.le_succ _, rfl⟩
  refine RelatedRuns.bind_ok (runFrom_freshVar c p) (runFrom_freshVar c' p') ?_
  exact (h _ _ hp rfl hp' rfl).counting fun _ _ hthen => ⟨hp.trans hthen.1, hp'.trans hthen.2⟩

end Tracks

end Eval

/-! ## Ends under other names -/

/-- The position is old for the first evaluation, and so is it under its other name for
the second one. -/
structure Position.OldUnder (ρ : Equiv.Perm Var) (p p' : Progress) (e : Position) : Prop where
  first : e.IsOld p.vars
  second : (e.rename ρ).IsOld p'.vars

namespace Position

variable {ρ : Equiv.Perm Var} {p p' q q' : Progress} {e : Position}

theorem oldUnder_term (t : Term) : (term t).OldUnder ρ p p' :=
  ⟨isOld_term t _, isOld_term t _⟩

theorem OldUnder.later (h : e.OldUnder ρ p p') (hp : p.Later q) (hp' : p'.Later q') :
    e.OldUnder ρ q q' :=
  ⟨h.first.mono hp.vars_le, h.second.mono hp'.vars_le⟩

theorem OldUnder.congr {σ : Equiv.Perm Var} (h : e.OldUnder ρ p p')
    (he : e.rename σ = e.rename ρ) : e.OldUnder σ p p' :=
  ⟨h.first, he ▸ h.second⟩

theorem OldUnder.substitute (h : e.OldUnder ρ p p') (b : Binding) :
    (e.substitute b).OldUnder ρ p p' := by
  unfold Position.substitute
  split
  · exact oldUnder_term _
  · exact h

/-- Two variables that were made last are names of one another. -/
theorem oldUnder_generated {m n : Nat} (h : ρ (.generated m) = .generated n)
    (hm : m ≤ p.vars) (hn : n ≤ p'.vars) : (var (.generated m)).OldUnder ρ p p' := by
  constructor
  · exact (isOld_generated m).mono hm
  · rw [rename, h]
    exact (isOld_generated n).mono hn

end Position

/-- A permutation can be changed to pair two variables. All variables keep their names
but the first one and the one that had the second name. -/
theorem exists_perm (ρ : Equiv.Perm Var) (m n : Var) :
    ∃ σ : Equiv.Perm Var, σ m = n ∧ ∀ v, v ≠ m → ρ v ≠ n → σ v = ρ v := by
  refine ⟨Equiv.swap (ρ m) n * ρ, ?_, ?_⟩
  · rw [Equiv.Perm.mul_apply, Equiv.swap_apply_left]
  · intro v hvm hvn
    have hne : ρ v ≠ ρ m := fun h => hvm (ρ.injective h)
    rw [Equiv.Perm.mul_apply, Equiv.swap_apply_of_ne_of_ne hne hvn]

open Eval

namespace Relation

variable {c c' : Context} {p p' : Progress} {ρ : Equiv.Perm Var} {r q : Relation}

/-- The second solutions are the first ones under other names. -/
def Renames (ρ : Equiv.Perm Var) (bs bs' : List Binding) : Prop :=
  bs' = bs.map (Binding.rename ρ)

/-- Other names for the variables at the ends lead to the same solutions under these
names, or to the same error. -/
def Equivariant (r : Relation) : Prop :=
  ∀ c c' : Context, c.Settled → c.Alongside c' → ∀ (ρ : Equiv.Perm Var) (p p' : Progress)
    (s o : Position), s.OldUnder ρ p p' → o.OldUnder ρ p p' →
      Tracks (Renames ρ) c c' p p' (r s o) (r (s.rename ρ) (o.rename ρ))

/-! ## Edges -/

theorem bindingsOf_tracks (hc : c.Settled) (hs : c.Alongside c')
    {bind bind' : Triple → Option Binding}
    (h : ∀ t, bind' t = (bind t).map (Binding.rename ρ)) (ts : List Triple) :
    Tracks (Renames ρ) c c' p p' (bindingsOf bind ts) (bindingsOf bind' ts) := by
  induction ts generalizing p p' with
  | nil => exact .pure rfl
  | cons t rest ih =>
    apply (Tracks.tick hc hs).bind
    intro _ _ q q' _ _ _
    apply ih.bind
    intro bs bs' _ _ hbs _ _
    apply Tracks.pure
    show (bind' t).toList ++ bs' = ((bind t).toList ++ bs).map (Binding.rename ρ)
    rw [hbs, h t, List.map_append]
    cases bind t with
    | none => rfl
    | some b => rfl

theorem edges_equivariant (predicate : Iri) : (edges predicate).Equivariant := by
  intro c c' hc hs ρ p p' s o _ _
  unfold edges
  rw [Position.toTerm?_rename, Position.toTerm?_rename]
  apply (Tracks.triples hs _ _ _).bind
  rintro ts _ q q' rfl _ _
  apply bindingsOf_tracks hc hs
  intro t
  exact unify_rename ρ s o _ _

theorem edgesOutside_equivariant (excluded : List Iri) :
    (edgesOutside excluded).Equivariant := by
  intro c c' hc hs ρ p p' s o _ _
  unfold edgesOutside
  split
  · exact .pure rfl
  · rw [Position.toTerm?_rename, Position.toTerm?_rename]
    apply (Tracks.triples hs _ _ _).bind
    rintro ts _ q q' rfl _ _
    apply bindingsOf_tracks hc hs
    intro t
    split
    · rfl
    · exact unify_rename ρ s o _ _

/-! ## Combinations -/

theorem Equivariant.swap (h : r.Equivariant) : r.swap.Equivariant := by
  intro c c' hc hs ρ p p' s o hold hold'
  exact h c c' hc hs ρ p p' o s hold' hold

theorem Equivariant.either (hr : r.Equivariant) (hq : q.Equivariant) :
    (r.either q).Equivariant := by
  intro c c' hc hs ρ p p' s o hold hold'
  apply (hr c c' hc hs ρ p p' s o hold hold').bind
  intro bs bs' q₁ q₁' hbs hp hp'
  apply (hq c c' hc hs ρ q₁ q₁' s o (hold.later hp hp') (hold'.later hp hp')).bind
  intro ds ds' _ _ hds _ _
  apply Tracks.pure
  show bs' ++ ds' = (bs ++ ds).map (Binding.rename ρ)
  rw [hbs, hds, List.map_append]

theorem zeroLength_equivariant : zeroLength.Equivariant := by
  intro c c' hc hs ρ p p' s o _ _
  cases s with
  | term t =>
    cases o with
    | term u =>
      apply Tracks.pure
      show _ = _
      split
      · rfl
      · rfl
    | var w => exact .pure rfl
  | var v =>
    cases o with
    | term u => exact .pure rfl
    | var w =>
      apply (Tracks.nodes hs).bind
      rintro ts _ q q' rfl _ _
      apply Tracks.pure
      show _ = List.map _ (List.map _ _)
      rw [List.map_map]
      apply List.map_congr_left
      intro t _
      simp only [Function.comp_apply, Binding.rename_insert, Binding.rename_empty]

/-- Solutions under different names stay different when repetitions are dropped. -/
theorem Equivariant.reflexive (h : r.Equivariant) : r.reflexive.Equivariant := by
  intro c c' hc hs ρ p p' s o hold hold'
  apply (zeroLength_equivariant c c' hc hs ρ p p' s o hold hold').bind
  intro bs bs' q₁ q₁' hbs hp hp'
  apply (h c c' hc hs ρ q₁ q₁' s o (hold.later hp hp') (hold'.later hp hp')).bind
  intro ds ds' _ _ hds _ _
  apply Tracks.pure
  show dedup (bs' ++ ds') = (dedup (bs ++ ds)).map (Binding.rename ρ)
  rw [hbs, hds, ← List.map_append]
  exact dedup_map _ fun a _ b _ hab => Binding.rename_injective ρ hab

/-! ## Sequences -/

theorem continueAll_tracks {f g : Binding → Eval (List Binding)} {σ : Equiv.Perm Var}
    (h : ∀ b q q', p.Later q → p'.Later q' →
      Tracks (Renames ρ) c c' q q' (f b) (g (b.rename σ))) (lefts : List Binding) :
    Tracks (Renames ρ) c c' p p' (continueAll f lefts)
      (continueAll g (lefts.map (Binding.rename σ))) := by
  induction lefts generalizing p p' with
  | nil => exact .pure rfl
  | cons b rest ih =>
    apply (h b p p' (.refl p) (.refl p')).bind
    intro bs bs' q q' hbs hp hp'
    have hrest := ih fun b r r' hr hr' => h b r r' (hp.trans hr) (hp'.trans hr')
    apply hrest.bind
    intro ds ds' _ _ hds _ _
    apply Tracks.pure
    show bs' ++ ds' = (bs ++ ds).map (Binding.rename ρ)
    rw [hbs, hds, List.map_append]

/-- The second half of a sequence is evaluated with names for the inner node, which are
gone in the end. -/
theorem continueWith_tracks (hq : q.Equivariant) (hc : c.Settled) (hs : c.Alongside c')
    {σ : Equiv.Perm Var} {m : Var} {s o : Position}
    (hsame : ∀ v ∈ Position.vars [s, o], σ v = ρ v) (hold : o.OldUnder σ p p')
    (left : Binding) :
    Tracks (Renames ρ) c c' p p' (continueWith q m s o left)
      (continueWith q (σ m) (s.rename ρ) (o.rename ρ) (left.rename σ)) := by
  have hends : ∀ e ∈ [s, o], e.rename ρ = e.rename σ := by
    intro e he
    apply Position.rename_congr
    rintro v rfl
    exact (hsame v (Position.mem_vars.mpr he)).symm
  have hvars : Position.vars [s.rename ρ, o.rename ρ] = (Position.vars [s, o]).map σ := by
    rw [hends s (by simp), hends o (by simp)]
    exact Position.vars_rename σ [s, o]
  unfold continueWith
  rw [Binding.get?_rename_apply]
  cases left.get? m with
  | none => exact .pure rfl
  | some node =>
    have hfound := hq c c' hc hs σ p p' (.term node) _ (Position.oldUnder_term node)
      (hold.substitute left)
    rw [← Position.substitute_rename, ← hends o (by simp)] at hfound
    apply hfound.bind
    intro found found' _ _ hnames _ _
    apply Tracks.pure
    show (found'.filterMap (left.rename σ).merge?).map _ = List.map _ (List.map _ _)
    rw [hnames, Binding.filterMap_merge?_rename, hvars, List.map_map, List.map_map]
    apply List.map_congr_left
    intro b _
    rw [Function.comp_apply, Function.comp_apply, ← Binding.rename_project]
    apply Binding.rename_congr
    intro v hv
    exact hsame v (Binding.mem_vars_project.mp hv).1

theorem Equivariant.sequence (hr : r.Equivariant) (hq : q.Equivariant) :
    (r.sequence q).Equivariant := by
  intro c c' hc hs ρ p p' s o hold hold'
  apply Tracks.freshVar_bind
  intro q₁ q₁' hp hvars hp' hvars'
  obtain ⟨σ, hσ, hkeeps⟩ := exists_perm ρ (.generated q₁.vars) (.generated q₁'.vars)
  -- the ends are told apart from the inner node, so that `σ` does not rename them
  have hsame : ∀ v ∈ Position.vars [s, o], σ v = ρ v := by
    intro v hv
    have hend : (Position.var v).OldUnder ρ p p' := by
      rcases List.mem_pair.mp (Position.mem_vars.mp hv) with rfl | rfl
      · exact hold
      · exact hold'
    apply hkeeps v
    · exact fun h => hend.first q₁.vars (by omega) (congrArg _ h)
    · exact fun h => hend.second q₁'.vars (by omega) (congrArg _ h)
  have hstart : s.rename σ = s.rename ρ := by
    apply Position.rename_congr
    rintro v rfl
    exact hsame v (Position.mem_vars.mpr (by simp))
  have hstop : o.rename σ = o.rename ρ := by
    apply Position.rename_congr
    rintro v rfl
    exact hsame v (Position.mem_vars.mpr (by simp))
  have hfirst := hr c c' hc hs σ q₁ q₁' s (.var (.generated q₁.vars))
    ((hold.congr hstart).later hp hp')
    (Position.oldUnder_generated hσ (Nat.le_refl _) (Nat.le_refl _))
  rw [hstart] at hfirst
  rw [Position.rename, hσ] at hfirst
  apply hfirst.bind
  intro lefts lefts' q₂ q₂' hlefts hq₂ hq₂'
  rw [hlefts, ← hσ]
  apply continueAll_tracks
  intro b q₃ q₃' hq₃ hq₃'
  apply continueWith_tracks hq hc hs hsame
  exact (hold'.congr hstop).later ((hp.trans hq₂).trans hq₃) ((hp'.trans hq₂').trans hq₃')

theorem Equivariant.power (h : r.Equivariant) (n : Nat) : (r.power n).Equivariant := by
  induction n with
  | zero => exact h
  | succ n ih => exact ih.sequence h

theorem Equivariant.times (h : r.Equivariant) (n : Nat) : (r.times n).Equivariant := by
  cases n with
  | zero => exact zeroLength_equivariant
  | succ n => exact h.power n

/-! ## Closures -/

theorem valuesOf_rename (v : Var) (bs : List Binding) :
    valuesOf (ρ v) (bs.map (Binding.rename ρ)) = valuesOf v bs := by
  unfold valuesOf
  rw [List.filterMap_map]
  congr 1
  apply List.filterMap_congr
  intro b _
  exact Binding.get?_rename_apply ρ b v

theorem search_tracks (hc : c.Settled) (hs : c.Alongside c')
    {step step' : Term → Eval (List Term)}
    (h : ∀ t q q', p.Later q → p'.Later q' → Tracks Eq c c' q q' (step t) (step' t))
    (fuel : Nat) (queue reached : List Term) :
    Tracks Eq c c' p p' (search step fuel queue reached)
      (search step' fuel queue reached) := by
  induction fuel generalizing p p' queue reached with
  | zero =>
    cases queue with
    | nil => exact .pure rfl
    | cons t queue => exact .pure rfl
  | succ fuel ih =>
    cases queue with
    | nil => exact .pure rfl
    | cons t queue =>
      apply (Tracks.tick hc hs).bind
      intro _ _ q q' _ hp hp'
      apply (h t q q' hp hp').bind
      rintro next _ r r' rfl hq hq'
      apply ih
      intro t u u' hu hu'
      exact h t u u' ((hp.trans hq).trans hu) ((hp'.trans hq').trans hu')

/-- What is reached does not have names. -/
theorem reachable_tracks (h : r.Equivariant) (hc : c.Settled) (hs : c.Alongside c')
    (start : Term) (reflexive : Bool) :
    Tracks Eq c c' p p' (reachable r start reflexive) (reachable r start reflexive) := by
  apply Tracks.freshVar_bind
  intro q q' _ _ _ _
  apply Tracks.read_bind
  rw [hs.view_eq]
  apply search_tracks hc hs
  intro t u u' hu hu'
  obtain ⟨σ, hσ, -⟩ := exists_perm 1 (.generated q.vars) (.generated q'.vars)
  have hnext := h c c' hc hs σ u u' (.term t) (.var (.generated q.vars))
    (Position.oldUnder_term t) (Position.oldUnder_generated hσ hu.vars_le hu'.vars_le)
  rw [Position.rename, Position.rename, hσ] at hnext
  apply hnext.bind
  intro bs bs' _ _ hbs _ _
  apply Tracks.pure
  rw [hbs, ← hσ, valuesOf_rename]

theorem starts_tracks (h : r.Equivariant) (hc : c.Settled) (hs : c.Alongside c')
    (reflexive : Bool) : Tracks Eq c c' p p' (starts r reflexive) (starts r reflexive) := by
  cases reflexive with
  | true => exact .nodes hs
  | false =>
    apply Tracks.freshVar_bind
    intro q q' _ _ _ _
    apply Tracks.freshVar_bind
    intro u u' hu huvars hu' huvars'
    -- the variable at the start is paired first, and stays paired
    obtain ⟨τ, hτ, -⟩ := exists_perm 1 (.generated q.vars) (.generated q'.vars)
    obtain ⟨σ, hσ, hkeeps⟩ := exists_perm τ (.generated u.vars) (.generated u'.vars)
    have hstart : σ (.generated q.vars) = .generated q'.vars := by
      rw [← hτ]
      apply hkeeps
      · intro h
        have := Var.generated_inj h
        omega
      · rw [hτ]
        intro h
        have := Var.generated_inj h
        omega
    have hpairs := h c c' hc hs σ u u' (.var (.generated q.vars)) (.var (.generated u.vars))
      (Position.oldUnder_generated hstart hu.vars_le hu'.vars_le)
      (Position.oldUnder_generated hσ (Nat.le_refl _) (Nat.le_refl _))
    rw [Position.rename, Position.rename, hstart, hσ] at hpairs
    apply hpairs.bind
    intro bs bs' _ _ hbs _ _
    apply Tracks.pure
    rw [hbs, ← hstart, valuesOf_rename]

theorem pairsFrom_rename (v w : Var) (start : Term) (reached : List Term) :
    pairsFrom (ρ v) (ρ w) start reached =
      (pairsFrom v w start reached).map (Binding.rename ρ) := by
  unfold pairsFrom
  by_cases h : v = w
  · rw [if_pos h, if_pos (congrArg ρ h)]
    split
    · rfl
    · rfl
  · rw [if_neg h, if_neg fun heq => h (ρ.injective heq), List.map_map]
    apply List.map_congr_left
    intro t _
    simp only [Function.comp_apply, Binding.rename_insert, Binding.rename_empty]

theorem closureFrom_tracks {reach : Term → Eval (List Term)}
    (h : ∀ t q q', Tracks Eq c c' q q' (reach t) (reach t)) (v w : Var)
    (starts : List Term) :
    Tracks (Renames ρ) c c' p p' (closureFrom reach v w starts)
      (closureFrom reach (ρ v) (ρ w) starts) := by
  induction starts generalizing p p' with
  | nil => exact .pure rfl
  | cons t rest ih =>
    apply (h t p p').bind
    rintro reached _ _ _ rfl _ _
    apply ih.bind
    intro bs bs' _ _ hbs _ _
    apply Tracks.pure
    show _ ++ bs' = (_ ++ bs).map (Binding.rename ρ)
    rw [pairsFrom_rename, hbs, List.map_append]

theorem Equivariant.closure (h : r.Equivariant) (reflexive : Bool) :
    (r.closure reflexive).Equivariant := by
  intro c c' hc hs ρ p p' s o _ _
  -- the binding of one end to what has been reached
  have hmap (v : Var) (ts : List Term) : Renames ρ (ts.map (Binding.empty.insert v ·))
      (ts.map (Binding.empty.insert (ρ v) ·)) := by
    unfold Renames
    rw [List.map_map]
    rfl
  cases s with
  | term t =>
    cases o with
    | term u =>
      apply (reachable_tracks h hc hs t reflexive).bind
      rintro reached _ _ _ rfl _ _
      apply Tracks.pure
      show _ = _
      split
      · rfl
      · rfl
    | var w =>
      apply (reachable_tracks h hc hs t reflexive).bind
      rintro reached _ _ _ rfl _ _
      exact .pure (hmap w reached)
  | var v =>
    cases o with
    | term u =>
      apply (reachable_tracks h.swap hc hs u reflexive).bind
      rintro reached _ _ _ rfl _ _
      exact .pure (hmap v reached)
    | var w =>
      apply (starts_tracks h hc hs reflexive).bind
      rintro starts _ _ _ rfl _ _
      apply closureFrom_tracks
      intro t q q'
      exact reachable_tracks h hc hs t reflexive

end Relation

/-- The names of the variables at the ends do not matter to a path. -/
theorem Path.relation_equivariant (path : Path) : path.relation.Equivariant := by
  induction path with
  | property p backward =>
    cases backward
    · exact Relation.edges_equivariant p
    · exact (Relation.edges_equivariant p).swap
  | inverse inner ih => exact ih.swap
  | sequence p q ihp ihq => exact ihp.sequence ihq
  | alternative p q ihp ihq => exact ihp.either ihq
  | zeroOrOne inner ih => exact ih.reflexive
  | zeroOrMore inner ih => exact ih.closure true
  | oneOrMore inner ih => exact ih.closure false
  | negatedSet forward backward =>
    apply (Relation.edgesOutside_equivariant forward).either
    rw [Relation.backEdgesOutside_eq]
    exact (Relation.edgesOutside_equivariant backward).swap
  | fixedLength inner n ih => exact ih.times n

theorem PathSearch.relation_equivariant (search : PathSearch) :
    search.relation.Equivariant := by
  cases search with
  | zeroLength => exact Relation.zeroLength_equivariant
  | zeroOrMore p => exact Path.relation_equivariant _
  | oneOrMore p => exact Path.relation_equivariant _
  | negatedSet forward backward => exact Path.relation_equivariant _

end SparqlAlgebra
