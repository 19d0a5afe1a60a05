import SparqlAlgebra.Proofs.PathEnds
import SparqlAlgebra.Proofs.PathNames

/-!
# Runs that differ in names

An evaluation that is given other names for variables should do the same under these
names. Then it also counts the same: it makes as many variables, numbers as many solutions
and looks at the clock as often. So nothing has to be assumed about time, about random
functions or about the data, and a variable that is made during one run has the same name
in the other.

* `Eval.Parallel` is what two such runs have in common, with its rules for sequences,
  scopes and absorbed errors;
* `Relation.Parallel` says it of relations, for a renaming that keeps the names of made
  variables, and `Path.relation_parallel` is the induction over paths;
* `Path.solutions_mapVars`: other names for the ends of a path give the same solutions under
  these names, unless an end is called like a made variable.
-/

namespace SparqlAlgebra

/-- As much was counted before. What observers were told may differ. -/
structure Progress.SameCounts (p p' : Progress) : Prop where
  solutions_eq : p'.solutions = p.solutions
  vars_eq : p'.vars = p.vars
  calls_eq : p'.calls = p.calls
  countdown_eq : p'.countdown = p.countdown

theorem Progress.SameCounts.refl (p : Progress) : p.SameCounts p := ⟨rfl, rfl, rfl, rfl⟩

/-- Two contexts in which the same is read. -/
structure Context.SameData (c c' : Context) : Prop where
  view_eq : c'.view = c.view
  environment_eq : c'.environment = c.environment

theorem Context.SameData.refl (c : Context) : c.SameData c := ⟨rfl, rfl⟩

namespace Eval

variable {α β γ δ : Type} {R : α → β → Prop} {S : γ → δ → Prop} {c c' : Context}

/-! ## Runs -/

/-- From the same counts two runs have related outcomes and count the same. -/
def Parallel (R : α → β → Prop) (c c' : Context) (x : Eval α) (y : Eval β) : Prop :=
  ∀ p p', p.SameCounts p' →
    RelatedRuns Progress.SameCounts neverStops R (x.runFrom c p) (y.runFrom c' p')

namespace Parallel

theorem outcomes {x : Eval α} {y : Eval β} (h : Parallel R c c' x y) {p p' : Progress}
    (hp : p.SameCounts p') : RelatedOutcomes R (x.runFrom c p).1 (y.runFrom c' p').1 :=
  (h p p' hp).outcomes

theorem pure {a : α} {b : β} (h : R a b) : Parallel R c c' (pure a) (pure b) :=
  fun _ _ hp => .pure h hp

theorem fail (e : QueryError) : Parallel R c c' (fail e) (fail e) := fun _ _ hp => .fail e hp

theorem bind {x : Eval α} {y : Eval β} {f : α → Eval γ} {g : β → Eval δ}
    (h : Parallel R c c' x y) (k : ∀ a b, R a b → Parallel S c c' (f a) (g b)) :
    Parallel S c c' (x >>= f) (y >>= g) := fun p p' hp =>
  (h p p' hp).bind fun a b q q' hab => k a b hab q q'

/-- What follows the same result. -/
theorem bind_same {x y : Eval α} {f : α → Eval γ} {g : α → Eval δ}
    (h : Parallel Eq c c' x y) (k : ∀ a, Parallel S c c' (f a) (g a)) :
    Parallel S c c' (x >>= f) (y >>= g) := by
  refine h.bind fun a b hab => ?_
  subst hab
  exact k a

theorem read_bind {f : Context → Eval α} {g : Context → Eval β}
    (h : Parallel R c c' (f c) (g c')) : Parallel R c c' (read >>= f) (read >>= g) :=
  fun p p' hp => .read_bind (h p p' hp)

theorem within {x : Eval α} {y : Eval β} {change change' : Context → Context}
    (h : Parallel R (change c) (change' c') x y) :
    Parallel R c c' (x.within change) (y.within change') := h

/-- The same errors are absorbed. -/
theorem absorb {x : Eval α} {y : Eval β} (h : Parallel R c c' x y) :
    Parallel (RelatedOutcomes R) c c' x.absorb y.absorb := fun p p' hp =>
  (h p p' hp).absorb fun _ he => he.elim

/-! ### Primitives -/

theorem ofOption (o : Option α) : Parallel Eq c c' (ofOption o) (ofOption o) :=
  fun _ _ hp => .ofOption o hp

theorem ofReading (r : Except String α) : Parallel Eq c c' (ofReading r) (ofReading r) :=
  fun _ _ hp => .ofReading r hp

theorem checkTime (h : c.SameData c') : Parallel Eq c c' checkTime checkTime :=
  fun _ _ hp => .checkTime (congrArg Environment.timedOut h.environment_eq) hp

theorem tick (h : c.SameData c') : Parallel Eq c c' tick tick := fun _ _ hp =>
  .tick h.environment_eq hp.countdown_eq fun _ =>
    ⟨hp.solutions_eq, hp.vars_eq, hp.calls_eq, rfl⟩

theorem newSolutionId : Parallel Eq c c' newSolutionId newSolutionId := by
  intro p p' hp
  rw [runFrom_newSolutionId, runFrom_newSolutionId, hp.solutions_eq]
  exact .ok rfl ⟨rfl, hp.vars_eq, hp.calls_eq, hp.countdown_eq⟩

theorem newCall : Parallel Eq c c' newCall newCall := by
  intro p p' hp
  rw [runFrom_newCall, runFrom_newCall, hp.calls_eq]
  exact .ok rfl ⟨hp.solutions_eq, hp.vars_eq, rfl, hp.countdown_eq⟩

/-- Both runs make the same variable. -/
theorem freshVar_bind {f : Var → Eval α} {g : Var → Eval β}
    (h : ∀ k, Parallel R c c' (f (.generated (k + 1))) (g (.generated (k + 1)))) :
    Parallel R c c' (freshVar >>= f) (freshVar >>= g) := by
  intro p p' hp
  refine .bind_ok (runFrom_freshVar c p) (runFrom_freshVar c' p') ?_
  rw [hp.vars_eq]
  exact h p.vars _ _ ⟨hp.solutions_eq, rfl, hp.calls_eq, hp.countdown_eq⟩

theorem record (e e' : Event) : Parallel Eq c c' (record e) (record e') := by
  intro p p' hp
  rw [runFrom_record, runFrom_record]
  exact .ok rfl ⟨hp.solutions_eq, hp.vars_eq, hp.calls_eq, hp.countdown_eq⟩

theorem triples (h : c.SameData c') (s : Option Term) (i : Option Iri) (o : Option Term) :
    Parallel Eq c c' (triples s i o) (triples s i o) := fun _ _ hp =>
  .triples h.view_eq s i o hp

theorem nodes (h : c.SameData c') : Parallel Eq c c' nodes nodes := fun _ _ hp =>
  .nodes h.view_eq hp

end Parallel

end Eval

/-! ## Relations -/

/-- The renaming keeps the names of variables that are made for inner nodes. -/
def Var.KeepsMade (ρ : Equiv.Perm Var) : Prop :=
  ∀ k, ρ (.generated (k + 1)) = .generated (k + 1)

open Eval

namespace Relation

variable {ρ : Equiv.Perm Var} {c c' : Context} {r q : Relation}

/-- Under other names for its ends the relation does the same. -/
def Parallel (ρ : Equiv.Perm Var) (r : Relation) : Prop :=
  ∀ c c' : Context, c.SameData c' → ∀ s o : Position,
    Eval.Parallel (Renames ρ) c c' (r s o) (r (s.rename ρ) (o.rename ρ))

theorem Renames.append {as as' bs bs' : List Binding} (ha : Renames ρ as as')
    (hb : Renames ρ bs bs') : Renames ρ (as ++ bs) (as' ++ bs') := by
  unfold Renames at *
  rw [ha, hb, List.map_append]

/-! ### Edges -/

theorem bindingsOf_parallel (hc : c.SameData c') {bind bind' : Triple → Option Binding}
    (h : ∀ t, bind' t = (bind t).map (Binding.rename ρ)) (ts : List Triple) :
    Eval.Parallel (Renames ρ) c c' (bindingsOf bind ts) (bindingsOf bind' ts) := by
  induction ts with
  | nil => exact .pure rfl
  | cons t rest ih =>
    refine (Eval.Parallel.tick hc).bind_same fun _ => ih.bind fun bs bs' hbs => .pure ?_
    refine Renames.append ?_ hbs
    unfold Renames
    rw [h t]
    cases bind t <;> rfl

theorem edges_parallel (predicate : Iri) : (edges predicate).Parallel ρ := by
  intro c c' hc s o
  unfold edges
  rw [Position.toTerm?_rename, Position.toTerm?_rename]
  exact (Eval.Parallel.triples hc _ _ _).bind_same fun ts =>
    bindingsOf_parallel hc (fun t => unify_rename ρ s o _ _) ts

theorem edgesOutside_parallel (excluded : List Iri) : (edgesOutside excluded).Parallel ρ := by
  intro c c' hc s o
  unfold edgesOutside
  split
  · exact .pure rfl
  · rw [Position.toTerm?_rename, Position.toTerm?_rename]
    refine (Eval.Parallel.triples hc _ _ _).bind_same fun ts =>
      bindingsOf_parallel hc (fun t => ?_) ts
    split
    · rfl
    · exact unify_rename ρ s o _ _

/-! ### Combinations -/

theorem Parallel.swap (h : r.Parallel ρ) : r.swap.Parallel ρ := fun c c' hc s o =>
  h c c' hc o s

theorem Parallel.either (hr : r.Parallel ρ) (hq : q.Parallel ρ) : (r.either q).Parallel ρ :=
  fun c c' hc s o => (hr c c' hc s o).bind fun _ _ hbs => (hq c c' hc s o).bind
    fun _ _ hds => .pure (hbs.append hds)

theorem zeroLength_parallel : zeroLength.Parallel ρ := by
  intro c c' hc s o
  cases s with
  | term t =>
    cases o with
    | term u =>
      refine .pure ?_
      unfold Renames
      split <;> rfl
    | var w => exact .pure rfl
  | var v =>
    cases o with
    | term u => exact .pure rfl
    | var w =>
      refine (Eval.Parallel.nodes hc).bind_same fun ts => .pure ?_
      unfold Renames
      rw [List.map_map]
      refine List.map_congr_left fun t _ => ?_
      simp only [Function.comp_apply, Binding.rename_insert, Binding.rename_empty]

/-- Different solutions stay different under other names. -/
theorem Parallel.reflexive (h : r.Parallel ρ) : r.reflexive.Parallel ρ := by
  refine fun c c' hc s o => (zeroLength_parallel c c' hc s o).bind fun bs bs' hbs =>
    (h c c' hc s o).bind fun ds ds' hds => .pure ?_
  unfold Renames
  rw [hbs.append hds]
  exact dedup_map _ fun a _ b _ hab => Binding.rename_injective ρ hab

/-! ### Sequences -/

theorem continueAll_parallel {f g : Binding → Eval (List Binding)}
    (h : ∀ b, Eval.Parallel (Renames ρ) c c' (f b) (g (b.rename ρ))) (lefts : List Binding) :
    Eval.Parallel (Renames ρ) c c' (continueAll f lefts)
      (continueAll g (lefts.map (Binding.rename ρ))) := by
  induction lefts with
  | nil => exact .pure rfl
  | cons b rest ih =>
    exact (h b).bind fun _ _ hbs => ih.bind fun _ _ hds => .pure (hbs.append hds)

theorem continueWith_parallel (hq : q.Parallel ρ) (hc : c.SameData c') {m : Var}
    (hm : ρ m = m) (s o : Position) (left : Binding) :
    Eval.Parallel (Renames ρ) c c' (continueWith q m s o left)
      (continueWith q m (s.rename ρ) (o.rename ρ) (left.rename ρ)) := by
  have hget : (left.rename ρ).get? m = left.get? m := by
    rw [← Binding.get?_rename_apply ρ left m, hm]
  unfold continueWith
  rw [hget]
  cases left.get? m with
  | none => exact .pure rfl
  | some node =>
    dsimp only
    rw [Position.substitute_rename]
    refine (hq c c' hc (.term node) (o.substitute left)).bind fun found found' hfound => .pure ?_
    have hvars : Position.vars [s.rename ρ, o.rename ρ] = (Position.vars [s, o]).map ρ :=
      Position.vars_rename ρ [s, o]
    unfold Renames at *
    rw [hfound, Binding.filterMap_merge?_rename, hvars, List.map_map, List.map_map]
    exact List.map_congr_left fun b _ => (Binding.rename_project ρ b _).symm

/-- The inner node has the same name in both runs. -/
theorem Parallel.sequence (hρ : Var.KeepsMade ρ) (hr : r.Parallel ρ) (hq : q.Parallel ρ) :
    (r.sequence q).Parallel ρ := by
  refine fun c c' hc s o => .freshVar_bind fun k => ?_
  have hfirst := hr c c' hc s (.var (.generated (k + 1)))
  rw [Position.rename, hρ] at hfirst
  refine hfirst.bind fun lefts lefts' hlefts => ?_
  rw [hlefts]
  exact continueAll_parallel (continueWith_parallel hq hc (hρ k) s o) lefts

theorem Parallel.power (hρ : Var.KeepsMade ρ) (h : r.Parallel ρ) (n : Nat) :
    (r.power n).Parallel ρ := by
  induction n with
  | zero => exact h
  | succ n ih => exact ih.sequence hρ h

theorem Parallel.times (hρ : Var.KeepsMade ρ) (h : r.Parallel ρ) :
    ∀ n, (r.times n).Parallel ρ
  | 0 => zeroLength_parallel
  | n + 1 => h.power hρ n

/-! ### Closures -/

theorem search_parallel (hc : c.SameData c') {step step' : Term → Eval (List Term)}
    (h : ∀ t, Eval.Parallel Eq c c' (step t) (step' t)) (fuel : Nat)
    (queue reached : List Term) :
    Eval.Parallel Eq c c' (search step fuel queue reached)
      (search step' fuel queue reached) := by
  induction fuel generalizing queue reached with
  | zero => cases queue <;> exact .pure rfl
  | succ fuel ih =>
    cases queue with
    | nil => exact .pure rfl
    | cons t queue =>
      exact (Eval.Parallel.tick hc).bind_same fun _ => (h t).bind_same fun _ => ih _ _

theorem reachable_parallel (hρ : Var.KeepsMade ρ) (h : r.Parallel ρ) (hc : c.SameData c')
    (start : Term) (reflexive : Bool) :
    Eval.Parallel Eq c c' (reachable r start reflexive) (reachable r start reflexive) := by
  refine .freshVar_bind fun k => .read_bind ?_
  rw [hc.view_eq]
  refine search_parallel hc (fun t => ?_) _ _ _
  have hnext := h c c' hc (.term t) (.var (.generated (k + 1)))
  rw [Position.rename, Position.rename, hρ] at hnext
  refine hnext.bind fun bs bs' hbs => .pure ?_
  have hvalues := valuesOf_rename (ρ := ρ) (.generated (k + 1)) bs
  rw [hρ] at hvalues
  rw [hbs, hvalues]

theorem starts_parallel (hρ : Var.KeepsMade ρ) (h : r.Parallel ρ) (hc : c.SameData c')
    (reflexive : Bool) : Eval.Parallel Eq c c' (starts r reflexive) (starts r reflexive) := by
  cases reflexive with
  | true => exact .nodes hc
  | false =>
    refine .freshVar_bind fun k => .freshVar_bind fun l => ?_
    have hpairs := h c c' hc (.var (.generated (k + 1))) (.var (.generated (l + 1)))
    rw [Position.rename, Position.rename, hρ, hρ] at hpairs
    refine hpairs.bind fun bs bs' hbs => .pure ?_
    have hvalues := valuesOf_rename (ρ := ρ) (.generated (k + 1)) bs
    rw [hρ] at hvalues
    rw [hbs, hvalues]

theorem closureFrom_parallel {reach : Term → Eval (List Term)}
    (h : ∀ t, Eval.Parallel Eq c c' (reach t) (reach t)) (v w : Var) (starts : List Term) :
    Eval.Parallel (Renames ρ) c c' (closureFrom reach v w starts)
      (closureFrom reach (ρ v) (ρ w) starts) := by
  induction starts with
  | nil => exact .pure rfl
  | cons t rest ih =>
    exact (h t).bind_same fun reached => ih.bind fun _ _ hbs =>
      .pure (Renames.append (pairsFrom_rename v w t reached) hbs)

theorem Parallel.closure (hρ : Var.KeepsMade ρ) (h : r.Parallel ρ) (reflexive : Bool) :
    (r.closure reflexive).Parallel ρ := by
  intro c c' hc s o
  have hreach {r : Relation} (h : r.Parallel ρ) (t : Term) :=
    reachable_parallel hρ h hc t reflexive
  -- the binding of one end to what has been reached
  have hone (v : Var) (ts : List Term) : Renames ρ (ts.map (Binding.empty.insert v ·))
      (ts.map (Binding.empty.insert (ρ v) ·)) := by
    unfold Renames
    rw [List.map_map]
    rfl
  cases s with
  | term t =>
    cases o with
    | term u =>
      refine (hreach h t).bind_same fun reached => .pure ?_
      unfold Renames
      split <;> rfl
    | var w => exact (hreach h t).bind_same fun reached => .pure (hone w reached)
  | var v =>
    cases o with
    | term u => exact (hreach h.swap u).bind_same fun reached => .pure (hone v reached)
    | var w =>
      exact (starts_parallel hρ h hc reflexive).bind_same fun ts =>
        closureFrom_parallel (hreach h) v w ts

end Relation

/-- Under other names for its ends a path is followed in the same way. -/
theorem Path.relation_parallel {ρ : Equiv.Perm Var} (hρ : Var.KeepsMade ρ) (path : Path) :
    path.relation.Parallel ρ := by
  induction path with
  | property p backward =>
    cases backward with
    | false => exact Relation.edges_parallel p
    | true => exact (Relation.edges_parallel p).swap
  | inverse inner ih => exact ih.swap
  | sequence p q ihp ihq => exact ihp.sequence hρ ihq
  | alternative p q ihp ihq => exact ihp.either ihq
  | zeroOrOne inner ih => exact ih.reflexive
  | zeroOrMore inner ih => exact ih.closure hρ true
  | oneOrMore inner ih => exact ih.closure hρ false
  | negatedSet forward backward =>
    refine (Relation.edgesOutside_parallel forward).either ?_
    rw [Relation.backEdgesOutside_eq]
    exact (Relation.edgesOutside_parallel backward).swap
  | fixedLength inner n ih => exact ih.times hρ n

theorem PathSearch.relation_parallel {ρ : Equiv.Perm Var} (hρ : Var.KeepsMade ρ)
    (search : PathSearch) : search.relation.Parallel ρ := by
  cases search with
  | zeroLength => exact Relation.zeroLength_parallel
  | zeroOrMore p => exact Path.relation_parallel hρ _
  | oneOrMore p => exact Path.relation_parallel hρ _
  | negatedSet forward backward => exact Path.relation_parallel hρ _

/-! ## Ends under other names -/

/-- A permutation can give some variables their new names and keep others, if different
variables have different new names and none of the kept names is concerned. -/
theorem exists_perm_pairs {ι : Type} {f g : ι → Var} {P : Var → Prop} (is : List ι)
    (hpairs : ∀ i ∈ is, ∀ j ∈ is, f i = f j ↔ g i = g j)
    (hkeep : ∀ i ∈ is, ¬ P (f i) ∧ ¬ P (g i)) :
    ∃ ρ : Equiv.Perm Var, (∀ i ∈ is, ρ (f i) = g i) ∧ ∀ v, P v → ρ v = v := by
  induction is with
  | nil => exact ⟨1, fun _ hi => absurd hi List.not_mem_nil, fun _ _ => rfl⟩
  | cons i is ih =>
    obtain ⟨τ, hτ, hkept⟩ := ih
      (fun j hj k hk => hpairs j (List.mem_cons_of_mem i hj) k (List.mem_cons_of_mem i hk))
      fun j hj => hkeep j (List.mem_cons_of_mem i hj)
    -- only this pair is added, and a pair that was there before is not torn apart
    obtain ⟨σ, hσ, hothers⟩ := exists_perm τ (f i) (g i)
    have hi := hkeep i List.mem_cons_self
    refine ⟨σ, ?_, fun v hv => ?_⟩
    · rintro j (_ | ⟨_, hj⟩)
      · exact hσ
      · have hiff := hpairs j (List.mem_cons_of_mem i hj) i List.mem_cons_self
        by_cases heq : f j = f i
        · rw [heq, hσ, hiff.mp heq]
        · rw [hothers (f j) heq (hτ j hj ▸ mt hiff.mpr heq), hτ j hj]
    · have hsame := hkept v hv
      rw [hothers v (fun h => hi.1 (h ▸ hv)) fun h => hi.2 (h ▸ hsame.symm ▸ hv), hsame]

variable {r : Var → Var} {ρ : Equiv.Perm Var}

/-- The binding with other names for its variables. -/
def Binding.mapVars (r : Var → Var) (b : Binding) : Binding :=
  .ofEntries (b.entries.map fun e => (r e.1, e.2))

theorem Binding.rename_eq_mapVars {b : Binding} (h : ∀ v ∈ b.vars, ρ v = r v) :
    b.rename ρ = b.mapVars r := by
  refine congrArg Binding.ofEntries (List.map_congr_left fun e he => ?_)
  rw [h e.1 (List.mem_map.mpr ⟨e, he, rfl⟩)]

/-- The position with another name for its variable. -/
def Position.mapVars (r : Var → Var) : Position → Position
  | .term t => .term t
  | .var v => .var (r v)

theorem Position.rename_eq_mapVars {e : Position} (h : ∀ v, e = .var v → ρ v = r v) :
    e.rename ρ = e.mapVars r := by
  cases e with
  | term t => rfl
  | var v => exact congrArg Position.var (h v rfl)

/-- The solutions with other names for their variables. -/
def Solutions.mapVars (r : Var → Var) : Solutions → Solutions
  | .identity => .identity
  | .null => .null
  | .singleton vs => .singleton (vs.map r)
  | .table vs rows => .table (vs.map r) (rows.map (Binding.mapVars r))

theorem Solutions.mapVars_ofRows (vs : List Var) (rows : List Binding) :
    (ofRows vs rows).mapVars r = ofRows (vs.map r) (rows.map (Binding.mapVars r)) := by
  cases vs with
  | nil => rcases rows with _ | ⟨_, _ | _⟩ <;> rfl
  | cons v vs => rfl

/-- The name of an old end is none that is made. -/
theorem Position.IsOld.not_made {e : Position} (h : e.IsOld 0) {v : Var} (hv : e = .var v) :
    ¬ ∃ k, v = .generated (k + 1) :=
  fun ⟨k, hk⟩ => h _ (Nat.succ_pos k) (hv.trans (congrArg Position.var hk))

/-- A permutation that keeps the names of made variables can give two old ends their new
names. -/
theorem exists_perm_ends (hr : Function.Injective r) {s o : Position} (hs : s.IsOld 0)
    (ho : o.IsOld 0) (hs' : (s.mapVars r).IsOld 0) (ho' : (o.mapVars r).IsOld 0) :
    ∃ ρ, Var.KeepsMade ρ ∧ ∀ v ∈ Position.vars [s, o], ρ v = r v := by
  have hends : ∀ v ∈ Position.vars [s, o],
      (¬ ∃ k, v = .generated (k + 1)) ∧ ¬ ∃ k, r v = .generated (k + 1) := by
    intro v hv
    rcases List.mem_pair.mp (Position.mem_vars.mp hv) with h | h
    · exact ⟨hs.not_made h.symm, hs'.not_made (congrArg (Position.mapVars r) h.symm)⟩
    · exact ⟨ho.not_made h.symm, ho'.not_made (congrArg (Position.mapVars r) h.symm)⟩
  obtain ⟨ρ, hρ, hmade⟩ := exists_perm_pairs (f := id) (g := r)
    (P := fun v => ∃ k, v = .generated (k + 1)) (Position.vars [s, o])
    (fun _ _ _ _ => hr.eq_iff.symm) hends
  exact ⟨ρ, fun k => hmade _ ⟨k, rfl⟩, hρ⟩

/-- Other names for the ends of a path lead to the same solutions under these names, in
the same order, or to the same error. The ends must not be called like a variable that is
made for an inner node. -/
theorem Path.solutions_mapVars (hr : Function.Injective r) (path : Path) {s o : Position}
    (hs : s.IsOld 0) (ho : o.IsOld 0) (hs' : (s.mapVars r).IsOld 0)
    (ho' : (o.mapVars r).IsOld 0) (c : Context) (p : Progress) :
    RelatedOutcomes (fun m m' => m' = m.mapVars r) ((path.solutions s o).runFrom c p).1
      ((path.solutions (s.mapVars r) (o.mapVars r)).runFrom c p).1 := by
  obtain ⟨ρ, hmade, hρ⟩ := exists_perm_ends hr hs ho hs' ho'
  have hstart : s.rename ρ = s.mapVars r := Position.rename_eq_mapVars fun v hv =>
    hρ v (Position.mem_vars.mpr (by simp [hv]))
  have hstop : o.rename ρ = o.mapVars r := Position.rename_eq_mapVars fun v hv =>
    hρ v (Position.mem_vars.mpr (by simp [hv]))
  have hvars : Position.vars [s.mapVars r, o.mapVars r] = (Position.vars [s, o]).map r := by
    rw [← hstart, ← hstop]
    exact (Position.vars_rename ρ [s, o]).trans (List.map_congr_left hρ)
  have hrun := (path.relation_parallel hmade c c (.refl c) s o).outcomes (.refl p)
  rw [hstart, hstop] at hrun
  have hbinds := path.relation_bindsEnds c s o p
  unfold Path.solutions
  rw [runFrom_bind, runFrom_bind]
  rcases hx : (path.relation s o).runFrom c p with ⟨_, q⟩
  rcases hy : (path.relation (s.mapVars r) (o.mapVars r)).runFrom c p with ⟨_, q'⟩
  rw [hx, hy] at hrun
  cases hrun with
  | error e => exact .error e
  | ok hrows =>
    refine .ok ?_
    -- rows only mention the ends, and these have their new names from the permutation
    rw [Solutions.mapVars_ofRows, hvars, hrows]
    refine congrArg _ (List.map_congr_left fun b hb => Binding.rename_eq_mapVars fun v hv => ?_)
    exact hρ v (hbinds _ q hx b hb hv)

/-- Two edges in a row. -/
def Path.sampleEdges : Path := .sequence (.property ⟨"p"⟩ false) (.property ⟨"p"⟩ false)

theorem Path.solutions_mapVars_sample :
    RelatedOutcomes (fun m m' => m' = m.mapVars fun v => ⟨"_" ++ v.name⟩)
      ((sampleEdges.solutions (.var ⟨"x"⟩) (.var ⟨"y"⟩)).runFrom sampleContext
        (.initial sampleContext.environment)).1
      ((sampleEdges.solutions (.var ⟨"_x"⟩) (.var ⟨"_y"⟩)).runFrom sampleContext
        (.initial sampleContext.environment)).1 := by
  have hold {name : String} (h : ¬ "__path".toList <+: name.toList) :
      (Position.var ⟨name⟩).IsOld 0 := by
    intro k _ hk
    have hname : name = "__path" ++ toString k := congrArg Var.name (Position.var.inj hk)
    rw [hname, String.toList_append] at h
    exact h (List.prefix_append _ _)
  have hinjective : Function.Injective fun v : Var => (⟨"_" ++ v.name⟩ : Var) := fun v w h =>
    congrArg Var.mk ((String.append_right_inj _).mp (congrArg Var.name h))
  have hx' : (Position.var ⟨"_x"⟩).IsOld 0 := hold (by decide)
  have hy' : (Position.var ⟨"_y"⟩).IsOld 0 := hold (by decide)
  exact solutions_mapVars (s := .var ⟨"x"⟩) (o := .var ⟨"y"⟩) hinjective sampleEdges
    (hold (by decide)) (hold (by decide)) hx' hy' sampleContext _

/-- The end of two edges is called like their inner node. -/
theorem Path.solutions_swap_made :
    let begin := Progress.initial sampleContext.environment
    let r : Equiv.Perm Var := Equiv.swap ⟨"y"⟩ ⟨"__path1"⟩
    Function.Injective r ∧ r ⟨"x"⟩ = ⟨"x"⟩ ∧ r ⟨"y"⟩ = ⟨"__path1"⟩ ∧
      (∃ m q, (sampleEdges.solutions (.var ⟨"x"⟩) (.var ⟨"y"⟩)).runFrom sampleContext begin =
        (.ok m, q) ∧ m.size = 1) ∧
      ∃ m q, (sampleEdges.solutions (.var (r ⟨"x"⟩)) (.var (r ⟨"y"⟩))).runFrom sampleContext
        begin = (.ok m, q) ∧ m.size = 0 := by
  intro begin r
  have hx : r ⟨"x"⟩ = ⟨"x"⟩ := Equiv.swap_apply_of_ne_of_ne (by decide) (by decide)
  have hy : r ⟨"y"⟩ = ⟨"__path1"⟩ := Equiv.swap_apply_left _ _
  have hfound : ((sampleEdges.solutions (.var ⟨"x"⟩) (.var ⟨"y"⟩)).runFrom sampleContext
      (.initial sampleContext.environment)).1.toOption.map (·.size) = some 1 := by decide +kernel
  have hlost : ((sampleEdges.solutions (.var ⟨"x"⟩) (.var ⟨"__path1"⟩)).runFrom sampleContext
      (.initial sampleContext.environment)).1.toOption.map (·.size) = some 0 := by decide +kernel
  refine ⟨r.injective, hx, hy, exists_ok_of_map hfound, ?_⟩
  rw [hx, hy]
  exact exists_ok_of_map hlost

end SparqlAlgebra
