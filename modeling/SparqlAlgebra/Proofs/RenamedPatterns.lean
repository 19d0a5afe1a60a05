import SparqlAlgebra.Proofs.PairedPatterns
import SparqlAlgebra.Proofs.RenamedPlans

/-!
# Patterns, groups and orders under other names

The operators that keep state between rows do the same under other names.

* `Step.Parallel` is what two steps of a basic graph pattern have in common, and
  `Matches.matchSteps_parallel` follows the steps. A triple pattern or a path does the same
  for a binding under other names (`Step.matchTriple_parallel`, `Step.matchPath_parallel`);
* groups have no names but those of their members (`groupsOf_rename`), and rows with the
  same keys are put in the same order (`Plan.Parallel.orderBy`).
-/

namespace SparqlAlgebra

open SparqlAlgebra.Relation (Renames)
open List (Forall₂)
open Eval

variable {ρ : Equiv.Perm Var} {c c' : Context}

/-! ## Candidates -/

theorem Position.resolve_rename (p : Position) (b : Binding) :
    (p.rename ρ).resolve (b.rename ρ) = p.resolve b := by
  cases p with
  | term t => rfl
  | var v => exact Binding.get?_rename_apply ρ b v

/-- The pattern with other names for its variables. -/
def TriplePattern.rename (ρ : Equiv.Perm Var) (t : TriplePattern) : TriplePattern :=
  ⟨t.subject.rename ρ, t.predicate.rename ρ, t.object.rename ρ⟩

theorem TriplePattern.vars_rename (t : TriplePattern) : (t.rename ρ).vars = t.vars.map ρ :=
  Position.vars_rename ρ t.positions

namespace Step

theorem bindPosition_rename (p : Position) (t : Term) (b : Binding) :
    bindPosition (p.rename ρ) t (b.rename ρ) = (bindPosition p t b).map (Binding.rename ρ) := by
  cases p with
  | term _ => rfl
  | var v =>
    simp only [bindPosition, Position.rename, Binding.get?_rename_apply]
    cases b.get? v with
    | none => exact congrArg some (Binding.rename_insert ρ b v t).symm
    | some u =>
      dsimp only
      split
      · rfl
      · rfl

theorem bindTriple_rename (p : TriplePattern) (b : Binding) (t : Triple) :
    bindTriple (p.rename ρ) (b.rename ρ) t = (bindTriple p b t).map (Binding.rename ρ) := by
  have hbind (o : Option Binding) {f f' : Binding → Option Binding}
      (hf : ∀ b, f' (b.rename ρ) = (f b).map (Binding.rename ρ)) :
      (o.map (Binding.rename ρ)) >>= f' = (o >>= f).map (Binding.rename ρ) := by
    cases o with
    | none => rfl
    | some b => exact hf b
  unfold bindTriple
  rw [TriplePattern.rename, bindPosition_rename, hbind]
  intro b
  rw [bindPosition_rename, hbind]
  exact bindPosition_rename p.object t.object

theorem matchTriple_parallel (hc : c.ServedBy ρ c') (p : TriplePattern) (b : Binding) :
    Eval.Parallel (Renames ρ) c c' (matchTriple p b) (matchTriple (p.rename ρ) (b.rename ρ)) := by
  have hpredicate : predicate? (p.rename ρ).predicate (b.rename ρ) = predicate? p.predicate b := by
    unfold predicate? TriplePattern.rename
    rw [Position.resolve_rename]
  unfold matchTriple
  rw [hpredicate]
  split
  · exact .pure rfl
  · rw [TriplePattern.rename, Position.resolve_rename, Position.resolve_rename]
    refine (Eval.Parallel.triples hc.toSameData _ _ _).bind_same fun ts => .pure ?_
    unfold Renames
    rw [List.map_filterMap]
    exact List.filterMap_congr fun t _ => bindTriple_rename p b t

theorem renames_merge? {rows rows' : List Binding} (b : Binding) (h : Renames ρ rows rows') :
    Renames ρ (rows.filterMap b.merge?) (rows'.filterMap (b.rename ρ).merge?) := by
  unfold Renames at *
  rw [h, Binding.filterMap_merge?_rename]

theorem matchPath_parallel (hρ : Var.KeepsMade ρ) (hc : c.ServedBy ρ c') (s : Position)
    (path : Path) (o : Position) (b : Binding) :
    Eval.Parallel (Renames ρ) c c' (matchPath s path o b)
      (matchPath (s.rename ρ) path (o.rename ρ) (b.rename ρ)) := by
  unfold matchPath Path.solutions
  rw [Position.substitute_rename, Position.substitute_rename]
  have hvars (s o : Position) :
      SameVars ρ (Position.vars [s, o]) (Position.vars [s.rename ρ, o.rename ρ]) :=
    Position.vars_rename ρ [s, o] ▸ .map _
  refine Eval.Parallel.bind (R := Solutions.Renamed ρ) ?_ fun m m' hm =>
    .pure (renames_merge? b hm.rows_eq)
  exact (path.relation_parallel hρ c c' hc.toSameData _ _).bind fun _ _ hrows =>
    .pure (.ofRows (hvars _ _) hrows)

end Step

/-! ## Matching -/

/-- The second step does for a binding under other names what the first one does. -/
inductive Step.Parallel (ρ : Equiv.Perm Var) : Step → Step → Prop
  | extend {candidates candidates' : Binding → Eval (List Binding)}
    (h : ∀ c c', c.ServedBy ρ c' → ∀ b,
      Eval.Parallel (Renames ρ) c c' (candidates b) (candidates' (b.rename ρ))) :
    Parallel ρ (.extend candidates) (.extend candidates')
  | assign {v : Var} (hv : ρ v = v) {value value' : Assignment}
    (h : ParallelOn ρ value value') : Parallel ρ (.assign v value) (.assign (ρ v) value')
  | subQuery (number : Nat) {query query' : Plan} (h : query.Parallel ρ query') :
    Parallel ρ (.subQuery number query) (.subQuery number query')
  | filter {condition condition' : Binding → Eval Bool} (h : ParallelOn ρ condition condition') :
    Parallel ρ (.filter condition) (.filter condition')

namespace Matches

/-- As many solutions were found, and those of sub-queries are remembered. -/
structure Renamed (ρ : Equiv.Perm Var) (m m' : Matches) : Prop where
  found : Renames ρ m.found.toList m'.found.toList
  queries : Forall₂ (fun x x' => x.1 = x'.1 ∧ x.2.Renamed ρ x'.2) m.queries m'.queries

variable {m m' : Matches}

theorem renamed_empty : Matches.empty.Renamed ρ .empty := ⟨rfl, .nil⟩

theorem Renamed.meets_eq (h : m.Renamed ρ m') (demand : Demand) :
    m'.meets demand = m.meets demand := by
  have hsize : m'.found.size = m.found.size := by
    rw [← Array.length_toList, h.found, List.length_map, Array.length_toList]
  cases demand with
  | none => rfl
  | some n => rw [meets, meets, hsize]

theorem overCandidates_parallel {next next' : Binding → Matches → Eval Matches}
    (hnext : ∀ b m m', m.Renamed ρ m' →
      Eval.Parallel (Renamed ρ) c c' (next b m) (next' (b.rename ρ) m'))
    (demand : Demand) {bs bs' : List Binding} (hbs : Renames ρ bs bs') (hm : m.Renamed ρ m') :
    Eval.Parallel (Renamed ρ) c c' (overCandidates demand next bs m)
      (overCandidates demand next' bs' m') := by
  unfold Renames at hbs
  subst hbs
  induction bs generalizing m m' with
  | nil => exact .pure hm
  | cons b rest ih =>
    refine (hnext b m m' hm).bind fun m m' hm => ?_
    rw [hm.meets_eq]
    split
    · exact .pure hm
    · exact ih hm

/-- A sub-query is evaluated in both runs when it is reached, or remembered in both. -/
theorem solutionsOf_parallel (hc : c.RenamedBy ρ c') {query query' : Plan}
    (h : query.Parallel ρ query') (number : Nat) (hm : m.Renamed ρ m') :
    Eval.Parallel (fun x x' => x.1.Renamed ρ x'.1 ∧ x.2.Renamed ρ x'.2) c c'
      (solutionsOf number query m) (solutionsOf number query' m') := by
  have hlookup := rel_lookup (R := Solutions.Renamed ρ) hm.queries number
  unfold solutionsOf
  cases hfirst : m.queries.lookup number <;> cases hsecond : m'.queries.lookup number <;>
    rw [hfirst, hsecond] at hlookup <;> cases hlookup
  · exact (h c c' hc none).bind fun s s' hs =>
      .pure ⟨hs, hm.found, .cons ⟨rfl, hs⟩ hm.queries⟩
  · rename_i hs
    exact .pure ⟨hs, hm⟩

theorem matchSteps_parallel (hc : c.RenamedBy ρ c') (demand : Demand) {steps steps' : List Step}
    (hsteps : Forall₂ (Step.Parallel ρ) steps steps') (b : Binding) (hm : m.Renamed ρ m') :
    Eval.Parallel (Renamed ρ) c c' (matchSteps demand steps b m)
      (matchSteps demand steps' (b.rename ρ) m') := by
  induction hsteps generalizing b m m' with
  | nil =>
    refine .pure ⟨?_, hm.queries⟩
    rw [Array.toList_push, Array.toList_push]
    exact hm.found.append rfl
  | cons hstep _ ih =>
    have ih (b : Binding) (m m' : Matches) (hm : m.Renamed ρ m') := ih b hm
    refine (Eval.Parallel.tick hc.toSameData).bind_same fun _ => ?_
    cases hstep with
    | extend h =>
      exact (h c c' hc.toServedBy b).bind fun _ _ hbs =>
        overCandidates_parallel ih demand hbs hm
    | @assign v hv value value' h =>
      dsimp only
      rw [Binding.contains_rename]
      split
      · rw [hv]
        exact .fail _
      · -- without a value the other elements are matched with the binding as it is
        refine (h c c' hc.toServedBy b).bind_same fun t => ?_
        cases t with
        | none => exact ih b m m' hm
        | some t =>
          dsimp only
          rw [← Binding.rename_insert]
          exact ih _ m m' hm
    | subQuery number h =>
      refine (solutionsOf_parallel hc h number hm).bind ?_
      rintro ⟨s, m⟩ ⟨s', m'⟩ ⟨hs, hm⟩
      exact overCandidates_parallel ih demand (Step.renames_merge? b hs.rows_eq) hm
    | filter h =>
      refine (h c c' hc.toServedBy b).bind_same fun holds => ?_
      cases holds
      · exact .pure hm
      · exact ih b m m' hm

end Matches

theorem Plan.bgp_parallel {steps steps' : List Step}
    (h : Forall₂ (Step.Parallel ρ) steps steps') {vs vs' : List Var} (hvs : SameVars ρ vs vs') :
    (Plan.bgp steps vs).Parallel ρ (Plan.bgp steps' vs') := by
  refine fun c c' hc demand => .read_bind ?_
  have hstart : c'.seed.getD .empty = (c.seed.getD .empty).rename ρ := hc.start_eq
  rw [hstart, hc.environment_eq]
  dsimp only
  have hvars := (SameVars.ofBinding (c.seed.getD .empty)).merge hvs
  split
  · exact .pure (.singleton hvars)
  · exact (Matches.matchSteps_parallel hc demand h _ Matches.renamed_empty).bind fun _ _ hm =>
      .pure (.ofRows hvars hm.found)

/-! ## Groups -/

theorem addToGroup_rename (key : GroupKey) (b : Binding)
    (groups : List (GroupKey × List Binding)) :
    addToGroup key (b.rename ρ) (groups.map fun g => (g.1, g.2.map (Binding.rename ρ))) =
      (addToGroup key b groups).map fun g => (g.1, g.2.map (Binding.rename ρ)) := by
  induction groups with
  | nil => rfl
  | cons g rest ih =>
    rw [List.map_cons]
    unfold addToGroup
    split
    · rw [List.map_cons, List.map_append]
      rfl
    · rw [ih, List.map_cons]

/-- The same rows have the same keys. -/
theorem groupsOf_rename (keys : List Var) (rows : List Binding) :
    groupsOf (keys.map ρ) (rows.map (Binding.rename ρ)) =
      (groupsOf keys rows).map fun g => (g.1, g.2.map (Binding.rename ρ)) := by
  have hkeys (b : Binding) : (keys.map ρ).map (b.rename ρ).get? = keys.map b.get? := by
    rw [List.map_map]
    exact List.map_congr_left fun v _ => Binding.get?_rename_apply ρ b v
  have hfold (groups : List (GroupKey × List Binding)) :
      (rows.map (Binding.rename ρ)).foldl
        (fun groups b => addToGroup ((keys.map ρ).map b.get?) b groups)
        (groups.map fun g => (g.1, g.2.map (Binding.rename ρ))) =
      (rows.foldl (fun groups b => addToGroup (keys.map b.get?) b groups) groups).map
        fun g => (g.1, g.2.map (Binding.rename ρ)) := by
    induction rows generalizing groups with
    | nil => rfl
    | cons b rest ih =>
      rw [List.map_cons, List.foldl_cons, List.foldl_cons, hkeys, addToGroup_rename, ih]
  have hgroups := hfold []
  rw [List.map_nil] at hgroups
  unfold groupsOf
  dsimp only
  rw [hgroups, List.isEmpty_map, List.isEmpty_map]
  split
  · rfl
  · rfl

/-- The second column computes for members under other names what the first one does. -/
inductive Column.Parallel (ρ : Equiv.Perm Var) : Column → Column → Prop
  | countRows (distinct : Bool) : Parallel ρ (.countRows distinct) (.countRows distinct)
  | apply (function : AggregateFunction) {m m' : Meaning} (h : m.Parallel ρ m')
    (distinct : Bool) : Parallel ρ (.apply function m distinct) (.apply function m' distinct)

/-- A variable with its column, and the variable under its other name. -/
def Column.ParallelAt (ρ : Equiv.Perm Var) (x x' : Var × Column) : Prop :=
  x'.1 = ρ x.1 ∧ x.2.Parallel ρ x'.2

namespace Column

theorem argumentValues_parallel (hc : c.ServedBy ρ c') {m m' : Meaning} (h : m.Parallel ρ m')
    (bs : List Binding) : Eval.Parallel Eq c c' (argumentValues m bs)
      (argumentValues m' (bs.map (Binding.rename ρ))) := by
  induction bs with
  | nil => exact .pure rfl
  | cons b rest ih =>
    exact Eval.Parallel.newSolutionId.bind_same fun i => (h.value? hc i b).bind_same fun _ =>
      ih.bind_same fun _ => .pure rfl

theorem Parallel.value? (hc : c.ServedBy ρ c') {column column' : Column}
    (h : column.Parallel ρ column') (members : List Binding) :
    Eval.Parallel Eq c c' (column.value? members)
      (column'.value? (members.map (Binding.rename ρ))) := by
  cases h with
  | countRows distinct =>
    have hdistinct : dedup (members.map (Binding.rename ρ)) =
        (dedup members).map (Binding.rename ρ) :=
      Relation.dedup_map _ fun a _ b _ hab => Binding.rename_injective ρ hab
    refine .pure ?_
    rw [hdistinct]
    cases distinct <;> simp only [if_true, Bool.false_eq_true, if_false, List.length_map]
  | apply function h distinct =>
    unfold Column.value?
    dsimp only
    cases function.onGroup? distinct with
    | none => exact .fail _
    | some f => exact (argumentValues_parallel hc h members).bind_same fun _ => .pure rfl

theorem bindAll_parallel (hc : c.ServedBy ρ c') {columns columns' : List (Var × Column)}
    (h : Forall₂ (ParallelAt ρ) columns columns') (members : List Binding) (b : Binding) :
    Eval.Parallel (fun b b' => b' = b.rename ρ) c c' (bindAll members columns b)
      (bindAll (members.map (Binding.rename ρ)) columns' (b.rename ρ)) := by
  induction h generalizing b with
  | nil => exact .pure rfl
  | @cons x x' _ _ hx _ ih =>
    obtain ⟨v, column⟩ := x
    obtain ⟨_, column'⟩ := x'
    obtain ⟨rfl, hcolumn⟩ := hx
    refine (hcolumn.value? hc members).bind_same fun t => ?_
    cases t with
    | none => exact ih b
    | some t =>
      dsimp only
      rw [← Binding.rename_insert]
      exact ih _

theorem rows_parallel (hc : c.ServedBy ρ c') (keys : List Var)
    {columns columns' : List (Var × Column)} (h : Forall₂ (ParallelAt ρ) columns columns')
    (groups : List (GroupKey × List Binding)) :
    Eval.Parallel (Renames ρ) c c' (rows keys columns groups)
      (rows (keys.map ρ) columns' (groups.map fun g => (g.1, g.2.map (Binding.rename ρ)))) := by
  induction groups with
  | nil => exact .pure rfl
  | cons g rest ih =>
    rw [List.map_cons]
    unfold rows
    rw [Plan.valuesRow_rename]
    refine (bindAll_parallel hc h g.2 _).bind fun b b' hb => ih.bind fun rows rows' hrows =>
      .pure ?_
    unfold Renames at *
    rw [hb, hrows, List.map_cons]

end Column

theorem Plan.Parallel.group {inner inner' : Plan} (hi : inner.Parallel ρ inner')
    (keys : List Var) {columns columns' : List (Var × Column)}
    (h : Forall₂ (Column.ParallelAt ρ) columns columns') :
    (inner.group keys columns).Parallel ρ (inner'.group (keys.map ρ) columns') := by
  have hvars : keys.map ρ ++ columns'.map (·.1) = (keys ++ columns.map (·.1)).map ρ := by
    rw [List.map_append, List.map_map]
    congr 1
    induction h with
    | nil => rfl
    | cons hx _ ih => rw [List.map_cons, List.map_cons, hx.1, ih, Function.comp_apply]
  intro c c' hc _
  have hinner : Eval.Parallel (Solutions.Renamed ρ) c c' (Eval.withSeed none (inner none))
      (Eval.withSeed none (inner' none)) := (hi _ _ (hc.withSeed none) none).within
  refine hinner.bind fun s s' hs => ?_
  rw [hs.isSingleton_eq, hvars, hs.rows_eq, groupsOf_rename]
  split
  · exact .pure (.singleton (.map _))
  · exact (Column.rows_parallel hc.toServedBy keys h _).bind fun _ _ hrows =>
      .pure (.ofRows (.map _) hrows)

/-! ## Orders -/

/-- The second key has the values of the first one. -/
structure SortKey.Parallel (ρ : Equiv.Perm Var) (k k' : SortKey) : Prop where
  key : k.key.Parallel ρ k'.key
  descending_eq : k'.descending = k.descending

namespace SortKey

theorem values_parallel (hc : c.ServedBy ρ c') {keys keys' : List SortKey}
    (h : Forall₂ (SortKey.Parallel ρ) keys keys') (i : Nat) (b : Binding) :
    Eval.Parallel Eq c c' (values ⟨b, i⟩ keys) (values ⟨b.rename ρ, i⟩ keys') := by
  induction h with
  | nil => exact .pure rfl
  | cons hk _ ih =>
    exact (hk.key.value? hc i b).bind_same fun _ => ih.bind_same fun _ => .pure rfl

/-- A row with its keys, and the row under other names with the same keys. -/
def SameKeys (ρ : Equiv.Perm Var) (x x' : List (Option Term) × Binding) : Prop :=
  x'.1 = x.1 ∧ x'.2 = x.2.rename ρ

theorem keyed_parallel (hc : c.ServedBy ρ c') {keys keys' : List SortKey}
    (h : Forall₂ (SortKey.Parallel ρ) keys keys') (bs : List Binding) :
    Eval.Parallel (Forall₂ (SameKeys ρ)) c c' (keyed keys bs)
      (keyed keys' (bs.map (Binding.rename ρ))) := by
  induction bs with
  | nil => exact .pure .nil
  | cons b rest ih =>
    exact Eval.Parallel.newSolutionId.bind_same fun i =>
      (values_parallel hc h i b).bind_same fun _ => ih.bind fun _ _ hrows =>
        .pure (.cons ⟨rfl, rfl⟩ hrows)

theorem renames_of_sameKeys {xs xs' : List (List (Option Term) × Binding)}
    (h : Forall₂ (SameKeys ρ) xs xs') : Renames ρ (xs.map (·.2)) (xs'.map (·.2)) := by
  unfold Renames
  induction h with
  | nil => rfl
  | cons hx _ ih => rw [List.map_cons, List.map_cons, List.map_cons, hx.2, ih]

end SortKey

theorem Plan.Parallel.orderBy {inner inner' : Plan} (hi : inner.Parallel ρ inner')
    {keys keys' : List SortKey} (h : Forall₂ (SortKey.Parallel ρ) keys keys') :
    (inner.orderBy keys).Parallel ρ (inner'.orderBy keys') := by
  have hdirections : keys'.map (·.descending) = keys.map (·.descending) := by
    induction h with
    | nil => rfl
    | cons hk _ ih => rw [List.map_cons, List.map_cons, hk.descending_eq, ih]
  refine fun c c' hc _ => (hi c c' hc none).bind fun s s' hs => ?_
  rw [hs.isSingleton_eq, hs.rows_eq]
  split
  · exact .pure hs
  · refine (SortKey.keyed_parallel hc.toServedBy h s.rows).bind fun xs xs' hxs => .pure ?_
    rw [hdirections]
    refine .ofRows hs.sameVars (SortKey.renames_of_sameKeys (forall₂_stableSort ?_ hxs))
    intro x x' y y' hx hy
    rw [hx.1, hy.1]

end SparqlAlgebra
