import SparqlAlgebra.Proofs.DryRuns
import SparqlAlgebra.Proofs.JoinSemiring
import SparqlAlgebra.Proofs.PlainExpressions
import Mathlib.Algebra.BigOperators.Group.List.Lemmas
import Mathlib.Algebra.GroupWithZero.Nat
import Mathlib.Data.Finset.Card

/-!
# Grouped solutions

Groups are collected while the solutions are read: a solution joins the group of its tuple
of values, and the first one of a tuple opens its group. So there is a group for each of the
different tuples, in the order in which they occur first, and its members are the solutions
with this tuple. What is counted for a group is then a matter of its members.

* `groupsOf_eq`: the groups are given by the tuples and their members;
* `GroupValue.Counts` is what a number means for the members of a group, and
  `GroupValue.value_counts` says that the number which is computed means it;
* `Plan.group_partitions`: the solutions of a grouped plan.
-/

namespace SparqlAlgebra

open Eval List

/-! ## Tuples and members -/

/-- The values of the keys in a row; an unbound key is a value of its own. -/
def tupleOf (keys : List Var) (b : Binding) : GroupKey := keys.map b.get?

/-- The different tuples of the rows, each at the place of its first row. Without keys there
is one tuple, even if there is no row. -/
def tuplesOf (keys : List Var) (rows : List Binding) : List GroupKey :=
  if keys = [] then [[]] else dedup (rows.map (tupleOf keys))

/-- The rows with a tuple. -/
def membersOf (keys : List Var) (key : GroupKey) (rows : List Binding) : List Binding :=
  rows.filter fun b => tupleOf keys b = key

theorem dedup_concat {α : Type} [DecidableEq α] (xs : List α) (x : α) :
    dedup (xs ++ [x]) = if x ∈ dedup xs then dedup xs else dedup xs ++ [x] := by
  rw [dedup_append]
  by_cases h : x ∈ xs <;> simp [dedup, h]

/-- A row goes to the group of its tuple; if there is none, it is the first row of one. -/
theorem addToGroup_map (key : GroupKey) (b : Binding) {ks : List GroupKey}
    (members : GroupKey → List Binding) (hks : ks.Nodup) (hnew : key ∉ ks → members key = []) :
    addToGroup key b (ks.map fun k => (k, members k)) =
      (if key ∈ ks then ks else ks ++ [key]).map fun k =>
        (k, if k = key then members k ++ [b] else members k) := by
  induction ks with
  | nil => simp [addToGroup, hnew List.not_mem_nil]
  | cons k ks ih =>
    obtain ⟨hk, hks⟩ := List.nodup_cons.mp hks
    rw [List.map_cons, addToGroup]
    by_cases heq : k = key
    · subst heq
      -- Keys occur once, so the groups behind this one are as before.
      have hrest : ∀ k' ∈ ks, (k', members k') =
          (k', if k' = k then members k' ++ [b] else members k') := by
        intro k' hk'
        rw [if_neg (by rintro rfl; exact hk hk')]
      simpa using List.map_congr_left hrest
    · have hne : ¬ key = k := fun h => heq h.symm
      rw [if_neg heq, ih hks fun h => hnew (by simp [hne, h])]
      by_cases hmem : key ∈ ks <;> simp [hmem, heq, hne]

/-- Reading the rows one by one makes a group of each tuple. -/
theorem foldl_addToGroup (keys : List Var) (rows : List Binding) :
    rows.foldl (fun groups b => addToGroup (keys.map b.get?) b groups) [] =
      (dedup (rows.map (tupleOf keys))).map fun k => (k, membersOf keys k rows) := by
  induction rows using List.reverseRecOn with
  | nil => rfl
  | append_singleton rows b ih =>
    -- The groups are extended at the end, so the induction takes the last row away.
    have hnew : tupleOf keys b ∉ dedup (rows.map (tupleOf keys)) →
        membersOf keys (tupleOf keys b) rows = [] := by
      intro h
      refine List.filter_eq_nil_iff.mpr fun b' hb' heq => h ?_
      rw [mem_dedup, ← of_decide_eq_true heq]
      exact List.mem_map_of_mem hb'
    have hmembers (k : GroupKey) :
        (if k = tupleOf keys b then membersOf keys k rows ++ [b] else membersOf keys k rows) =
          membersOf keys k (rows ++ [b]) := by
      by_cases hk : k = tupleOf keys b
      · simp [membersOf, hk]
      · have hne : ¬ tupleOf keys b = k := fun h => hk h.symm
        simp [membersOf, hk, hne]
    rw [List.foldl_concat, ih, List.map_append, List.map_singleton, dedup_concat]
    refine (addToGroup_map (tupleOf keys b) b _ (nodup_dedup _) hnew).trans ?_
    simp only [hmembers]
    congr

theorem groupsOf_eq (keys : List Var) (rows : List Binding) :
    groupsOf keys rows = (tuplesOf keys rows).map fun k => (k, membersOf keys k rows) := by
  unfold groupsOf tuplesOf
  rw [foldl_addToGroup]
  cases keys with
  | cons v vs => simp
  | nil =>
    cases rows with
    | nil => rfl
    | cons b rows =>
      -- All rows have the empty tuple.
      have hrest : (dedup (rows.map (tupleOf []))).filter (· ≠ tupleOf [] b) = [] := by
        refine List.filter_eq_nil_iff.mpr fun k hk => ?_
        obtain ⟨b', -, rfl⟩ := List.mem_map.mp (mem_dedup.mp hk)
        simp [tupleOf]
      rw [List.map_cons, dedup, hrest]
      rfl

/-- Every tuple is that of some binding. -/
theorem exists_of_mem_tuplesOf {keys : List Var} {rows : List Binding} {key : GroupKey}
    (h : key ∈ tuplesOf keys rows) : ∃ b, key = tupleOf keys b := by
  unfold tuplesOf at h
  split at h
  case isTrue hkeys =>
    subst hkeys
    exact ⟨.empty, List.mem_singleton.mp h⟩
  case isFalse =>
    obtain ⟨b, -, rfl⟩ := List.mem_map.mp (mem_dedup.mp h)
    exact ⟨b, rfl⟩

/-- The occurrences of all different elements are all elements. -/
theorem sum_countP_dedup {α : Type} [DecidableEq α] (xs : List α) :
    ((dedup xs).map fun x => xs.countP (· = x)).sum = xs.length := by
  have hperm : (dedup xs).Perm xs.dedup :=
    (List.perm_ext_iff_of_nodup (nodup_dedup xs) (List.nodup_dedup xs)).mpr fun x => by
      rw [mem_dedup, List.mem_dedup]
  rw [(hperm.map _).sum_eq, ← List.sum_map_count_dedup_eq_length xs]
  refine congrArg List.sum (List.map_congr_left fun x _ => ?_)
  exact List.countP_congr fun y _ => by simp

/-- No row is in two groups and none is left out. -/
theorem sum_length_membersOf (keys : List Var) (rows : List Binding) :
    ((tuplesOf keys rows).map fun k => (membersOf keys k rows).length).sum = rows.length := by
  unfold tuplesOf
  split
  case isTrue hkeys =>
    subst hkeys
    simp [membersOf, tupleOf]
  case isFalse =>
    have hlength (k : GroupKey) :
        (membersOf keys k rows).length = (rows.map (tupleOf keys)).countP (· = k) := by
      rw [membersOf, ← List.countP_eq_length_filter, List.countP_map]
      rfl
    simp only [hlength]
    rw [sum_countP_dedup, List.length_map]

/-- The number of different elements. -/
theorem length_dedup {α : Type} [DecidableEq α] (xs : List α) :
    (dedup xs).length = xs.toFinset.card := by
  have hsame : (dedup xs).toFinset = xs.toFinset := by
    ext x
    rw [List.mem_toFinset, List.mem_toFinset, mem_dedup]
  rw [← hsame, List.toFinset_card_of_nodup (nodup_dedup xs)]

/-! ## Values of keys -/

/-- The row of a tuple has the values of the keys and no others. -/
theorem Plan.get?_valuesRow (f : Var → Option Term) (keys : List Var) (v : Var) :
    (valuesRow keys (keys.map f)).get? v = if v ∈ keys then f v else none := by
  -- A key that occurs again is bound to the same value again.
  have hfold (b : Binding) :
      (((keys.zip (keys.map f)).filterMap fun e => e.2.map (e.1, ·)).foldl
        (fun b (e : Entry) => b.insert e.1 e.2) b).get? v =
        if v ∈ keys then (f v).or (b.get? v) else b.get? v := by
    induction keys generalizing b with
    | nil => rfl
    | cons k ks ih =>
      rw [List.map_cons, List.zip_cons_cons]
      cases hk : f k with
      | none =>
        rw [List.filterMap_cons_none (by rfl), ih]
        by_cases hv : v = k
        · subst hv
          simp [hk]
        · simp [hv]
      | some t =>
        rw [List.filterMap_cons_some (by rfl), List.foldl_cons, ih, Binding.get?_insert]
        by_cases hv : v = k
        · subst hv
          by_cases hmem : v ∈ ks <;> simp [hk, hmem]
        · simp [hv]
  have hempty := hfold .empty
  rw [Binding.get?_empty, Option.or_none] at hempty
  exact hempty

/-! ## Counting -/

/-- The evaluation of an expression for a row can yield the value, or no value because of an
error that aggregates absorb. -/
def Expr.HasValue (operators : OperatorRegistry) (c : Context) (e : Expr) (b : Binding)
    (v : Option Term) : Prop :=
  ∃ p q, Eval.runFrom (do
    let i ← Eval.newSolutionId
    (e.meaning operators).value? ⟨b, i⟩) c p = (.ok v, q)

namespace GroupValue

/-- What is computed for the members of a group. -/
def column (operators : OperatorRegistry) : GroupValue → Column
  | countRows _ distinct => .countRows distinct
  | apply _ function e distinct => .apply function (e.meaning operators) distinct

theorem columns_eq_map (operators : OperatorRegistry) (values : List GroupValue) :
    columns operators values = values.map fun x => (x.target, x.column operators) := by
  induction values with
  | nil => rfl
  | cons x rest ih =>
    cases x with
    | countRows v distinct => exact congrArg _ ih
    | apply v function e distinct => exact congrArg _ ih

/-- Whether solutions are counted, or the values of an expression that asks for no matches. -/
def isCount : GroupValue → Bool
  | countRows _ _ => true
  | apply _ .count e _ => !e.containsMatch
  | apply _ _ _ _ => false

/-- The number of members, of different members, of members with a value of an expression,
or of different values. -/
def Counts (operators : OperatorRegistry) (c : Context) (members : List Binding) (n : Nat) :
    GroupValue → Prop
  | countRows _ false => n = members.length
  | countRows _ true => n = members.toFinset.card
  | apply _ .count e false => ∃ vs, Forall₂ (e.HasValue operators c) members vs ∧
      n = vs.countP Option.isSome
  | apply _ .count e true => ∃ vs, Forall₂ (e.HasValue operators c) members vs ∧
      n = (vs.filterMap id).toFinset.card
  | apply _ _ _ _ => False

end GroupValue

/-- Distinct values are counted once, and failures not at all. -/
theorem Aggregate.filterMap_distinctValues (vs : List (Option Term)) :
    (distinctValues vs).filterMap id = dedup (vs.filterMap id) := by
  induction vs with
  | nil => rfl
  | cons v vs ih =>
    cases v with
    | none => exact ih
    | some t =>
      show t :: ((distinctValues vs).filter (· ≠ some t)).filterMap id = t :: _
      rw [← ih, List.filterMap_filter, List.filter_filterMap]
      congr 1
      refine List.filterMap_congr fun v _ => ?_
      cases v with
      | none => simp
      | some u => by_cases h : u = t <;> simp [h, Option.filter]

/-- The values without the failures. -/
theorem Aggregate.count_eq_length (vs : List (Option Term)) :
    Aggregate.count vs = (vs.filterMap id).length := by
  rw [List.length_filterMap_eq_countP, List.countP_eq_length_filter]
  rfl

/-- An EXISTS-free expression has a value for a row, or none. -/
theorem Expr.hasValue_run (operators : OperatorRegistry) {c : Context} {e : Expr}
    (he : e.containsMatch = false) (hc : c.HasBuiltins) (b : Binding) (p : Progress) :
    ∃ v q, Eval.runFrom (do
      let i ← Eval.newSolutionId
      (e.meaning operators).value? ⟨b, i⟩) c p = (.ok v, q) ∧ e.HasValue operators c b v := by
  have hmild : (e.meaning operators).IsMild := e.meaning_mild he
  have hsucceeds : Eval.Succeeds (do
      let i ← Eval.newSolutionId
      (e.meaning operators).value? ⟨b, i⟩) :=
    FailsWith.newSolutionId.bind fun i => hmild.value? ⟨b, i⟩
  obtain ⟨v, q, hrun⟩ := hsucceeds.runFrom_eq hc p
  exact ⟨v, q, hrun, p, q, hrun⟩

/-- Without random and custom functions there is only one. -/
theorem Expr.HasValue.unique {operators : OperatorRegistry} {c : Context} {e : Expr}
    {b : Binding} {v v' : Option Term} (he : e.isPlain = true) (hc : c.Settled)
    (h : e.HasValue operators c b v) (h' : e.HasValue operators c b v') : v = v' := by
  obtain ⟨p, q, hrun⟩ := h
  obtain ⟨p', q', hrun'⟩ := h'
  have hsteady : (e.meaning operators).Steady := Expr.meaning_steady_of_isPlain he
  have hsame := RelatedIn.newSolutionId fun i j => hsteady.value? (rfl : b = b) i j
  have hfst := (AgreeIn.run hsame hc (.refl c) p p').1
  rw [hrun, hrun'] at hfst
  cases hfst
  rfl

/-- There is a value, or none, for every member of a group. -/
theorem Column.argumentValues_run (operators : OperatorRegistry) {c : Context} {e : Expr}
    (he : e.containsMatch = false) (hc : c.HasBuiltins) (members : List Binding)
    (p : Progress) :
    ∃ vs q, (argumentValues (e.meaning operators) members).runFrom c p = (.ok vs, q) ∧
      Forall₂ (e.HasValue operators c) members vs := by
  induction members generalizing p with
  | nil => exact ⟨[], p, rfl, .nil⟩
  | cons b rest ih =>
    obtain ⟨v, p', hv, hhas⟩ := Expr.hasValue_run operators he hc b p
    obtain ⟨vs, q, hvs, hrest⟩ := ih p'
    refine ⟨v :: vs, q, ?_, .cons hhas hrest⟩
    have hsplit : argumentValues (e.meaning operators) (b :: rest) = (do
        let v ← (do
          let i ← Eval.newSolutionId
          (e.meaning operators).value? ⟨b, i⟩)
        return v :: (← argumentValues (e.meaning operators) rest)) := by
      simp only [argumentValues, act_eval, bind_assoc]
    rw [hsplit, runFrom_bind_ok c p hv, runFrom_bind_ok c p' hvs]
    rfl

namespace GroupValue

variable (operators : OperatorRegistry) {c : Context}

/-- The number that is computed for a group is the number of what is counted. -/
theorem value_counts {x : GroupValue} (hx : x.isCount = true) (hc : c.HasBuiltins)
    (members : List Binding) (p : Progress) :
    ∃ (n : Nat) (q : Progress), ((x.column operators).value? members).runFrom c p =
      (.ok (some (intTerm n)), q) ∧ x.Counts operators c members n := by
  cases x with
  | countRows v distinct =>
    cases distinct with
    | false => exact ⟨members.length, p, rfl, rfl⟩
    | true => exact ⟨(dedup members).length, p, rfl, length_dedup members⟩
  | apply v function e distinct =>
    cases function <;> try cases hx
    have he : e.containsMatch = false := by simpa [isCount] using hx
    obtain ⟨vs, q, hvs, hhas⟩ := Column.argumentValues_run operators he hc members p
    have hrun (values : List (Option Term) → List (Option Term)) :
        Eval.runFrom (do
          let vs ← Column.argumentValues (e.meaning operators) members
          return some (intTerm (Aggregate.count (values vs)))) c p =
          (.ok (some (intTerm (Aggregate.count (values vs)))), q) := by
      rw [runFrom_bind_ok c p hvs]
      rfl
    cases distinct with
    | false => exact ⟨_, q, hrun id, vs, hhas, List.countP_eq_length_filter.symm⟩
    | true =>
      refine ⟨_, q, hrun Aggregate.distinctValues, vs, hhas, ?_⟩
      rw [Aggregate.count_eq_length, Aggregate.filterMap_distinctValues, length_dedup]

/-- The numbers are bound to their variables, and nothing else is. -/
theorem bindAll_counts {values : List GroupValue} (hvalues : ∀ x ∈ values, x.isCount = true)
    (htargets : (values.map target).Nodup) (hc : c.HasBuiltins) (members : List Binding)
    (b : Binding) (p : Progress) :
    ∃ row q, (Column.bindAll members (columns operators values) b).runFrom c p =
        (.ok row, q) ∧
      (∀ x ∈ values, ∃ n : Nat, row.get? x.target = some (intTerm n) ∧
        x.Counts operators c members n) ∧
      ∀ v, v ∉ values.map target → row.get? v = b.get? v := by
  induction values generalizing b p with
  | nil => exact ⟨b, p, rfl, fun _ hx => absurd hx List.not_mem_nil, fun _ _ => rfl⟩
  | cons x rest ih =>
    obtain ⟨hx, hrest⟩ := List.forall_mem_cons.mp hvalues
    obtain ⟨hnew, htargets⟩ := List.nodup_cons.mp htargets
    obtain ⟨n, p', hn, hcounts⟩ := value_counts operators hx hc members p
    obtain ⟨row, q, hrow, hbound, hother⟩ :=
      ih hrest htargets (b.insert x.target (intTerm n)) p'
    refine ⟨row, q, ?_, List.forall_mem_cons.mpr ⟨⟨n, ?_, hcounts⟩, hbound⟩, fun v hv => ?_⟩
    · rw [columns_eq_map, List.map_cons, Column.bindAll, runFrom_bind_ok c p hn,
        ← columns_eq_map]
      exact hrow
    · rw [hother x.target hnew, Binding.get?_insert, if_pos rfl]
    · obtain ⟨hne, hv⟩ := not_or.mp (mt List.mem_cons.mpr hv)
      rw [hother v hv, Binding.get?_insert, if_neg hne]

/-- What a row tells of a group: the values of its tuple, and what is counted for its
members. -/
structure Summarizes (operators : OperatorRegistry) (c : Context) (keys : List Var)
    (values : List GroupValue) (key : GroupKey) (members : List Binding) (row : Binding) :
    Prop where
  key : tupleOf keys row = key
  counts : ∀ x ∈ values, ∃ n : Nat, row.get? x.target = some (intTerm n) ∧
    x.Counts operators c members n
  others : ∀ v, v ∉ keys → v ∉ values.map target → row.get? v = none

theorem rows_summarize {keys : List Var} {values : List GroupValue}
    (hvalues : ∀ x ∈ values, x.isCount = true) (htargets : (values.map target).Nodup)
    (hkeys : ∀ v ∈ keys, v ∉ values.map target) (hc : c.HasBuiltins)
    (members : GroupKey → List Binding) {ks : List GroupKey}
    (hks : ∀ k ∈ ks, ∃ b, k = tupleOf keys b) (p : Progress) :
    ∃ rows q, (Column.rows keys (columns operators values)
        (ks.map fun k => (k, members k))).runFrom c p = (.ok rows, q) ∧
      Forall₂ (fun k => Summarizes operators c keys values k (members k)) ks rows := by
  induction ks generalizing p with
  | nil => exact ⟨[], p, rfl, .nil⟩
  | cons k rest ih =>
    obtain ⟨⟨b, hb⟩, hrest⟩ := List.forall_mem_cons.mp hks
    obtain ⟨row, p', hrow, hcounts, hother⟩ := bindAll_counts operators hvalues
      htargets hc (members k) (Plan.valuesRow keys k) p
    obtain ⟨rows, q, hrows, hall⟩ := ih hrest p'
    have hvalue (v : Var) (hv : v ∉ values.map target) :
        row.get? v = if v ∈ keys then b.get? v else none := by
      rw [hother v hv, hb]
      exact Plan.get?_valuesRow b.get? keys v
    refine ⟨row :: rows, q, ?_, .cons ⟨?_, hcounts, fun v hv hv' => ?_⟩ hall⟩
    · rw [List.map_cons, Column.rows, runFrom_bind_ok c p hrow, runFrom_bind_ok c p' hrows]
      rfl
    · rw [hb]
      exact List.map_congr_left fun v hv => by rw [hvalue v (hkeys v hv), if_pos hv]
    · rw [hvalue v hv', if_neg hv]

end GroupValue

/-! ## Grouped plans -/

open GroupValue in
/-- There is one solution for each of the different tuples of values of the keys, in the
order in which they occur first. It tells the values of its tuple and counts the members of
the group. The numbers of members add up to the number of all solutions, and without keys
there is one solution. -/
theorem Plan.group_partitions {operators : OperatorRegistry} {inner : Plan} {keys : List Var}
    {values : List GroupValue} {demand : Demand} {c : Context} {p p' : Progress} {s : Solutions}
    (hvalues : ∀ x ∈ values, x.isCount = true) (htargets : (values.map target).Nodup)
    (hkeys : ∀ v ∈ keys, v ∉ values.map target) (hc : c.HasBuiltins)
    (hinner : (Eval.withSeed none (inner none)).runFrom c p = (.ok s, p'))
    (hs : s.isSingleton = false) :
    ∃ out q, (inner.group keys (columns operators values) demand).runFrom c p = (.ok out, q) ∧
      out.vars = keys ++ values.map target ∧
      Forall₂ (fun key => Summarizes operators c keys values key (membersOf keys key s.rows))
        (tuplesOf keys s.rows) out.rows ∧
      (∀ v, countRows v false ∈ values → ∃ counts : List Nat,
        out.rows.map (·.get? v) = counts.map (fun n : Nat => some (intTerm n)) ∧
          counts.sum = s.rows.length) ∧
      (keys = [] → out.rows.length = 1) := by
  obtain ⟨rows, q, hrows, hall⟩ := rows_summarize operators hvalues htargets
    hkeys hc (fun key => membersOf keys key s.rows) (fun _ => exists_of_mem_tuplesOf) p'
  rw [← groupsOf_eq] at hrows
  have hvars : (columns operators values).map (·.1) = values.map target := by
    rw [columns_eq_map, List.map_map]
    rfl
  have hout : (Solutions.ofRows (keys ++ values.map target) rows).rows = rows := by
    refine Solutions.rows_ofRows fun row hrow => ?_
    rw [← hvars]
    exact Column.rows_ensures keys _ _ _ _ _ hrows row hrow
  refine ⟨.ofRows (keys ++ values.map target) rows, q, ?_, Solutions.vars_ofRows _ _, ?_⟩
  · unfold Plan.group
    rw [withSeed_eval, runFrom_bind_ok c p hinner, hs, if_neg Bool.false_ne_true,
      runFrom_bind_ok c p' hrows, hvars]
    rfl
  · rw [hout]
    refine ⟨hall, fun v hv => ?_, ?_⟩
    · refine ⟨(tuplesOf keys s.rows).map fun k => (membersOf keys k s.rows).length, ?_,
        sum_length_membersOf keys s.rows⟩
      have hlengths : Forall₂ (fun row k => row.get? v =
          some (intTerm (membersOf keys k s.rows).length)) rows (tuplesOf keys s.rows) := by
        refine (hall.imp fun k row h => ?_).flip
        obtain ⟨n, hn, rfl⟩ := h.counts _ hv
        exact hn
      rw [List.map_map, ← List.forall₂_eq_eq_eq, List.forall₂_map_left_iff,
        List.forall₂_map_right_iff]
      exact hlengths
    · rintro rfl
      rw [← hall.length_eq]
      rfl

namespace GroupValue

/-- Members, different members, and members with a value. -/
def sampleCounts : List GroupValue :=
  [.countRows ⟨"all"⟩ false, .countRows ⟨"different"⟩ true,
    .apply ⟨"known"⟩ .count (.var ⟨"y"⟩) false]

def sampleInput : List Binding :=
  [.ofEntries [(⟨"x"⟩, .iri ⟨"a"⟩), (⟨"y"⟩, .iri ⟨"b"⟩)], .empty,
    .ofEntries [(⟨"x"⟩, .iri ⟨"a"⟩)], .ofEntries [(⟨"x"⟩, .iri ⟨"a"⟩), (⟨"y"⟩, .iri ⟨"b"⟩)]]

end GroupValue

open GroupValue in
/-- Three rows of one tuple, two of them equal, and one row without a value of the key. -/
theorem Plan.group_partitions_sample :
    let inner : Plan := fun _ => pure (.table [⟨"x"⟩, ⟨"y"⟩] sampleInput)
    ∃ out q, (inner.group [⟨"x"⟩] (columns .empty sampleCounts) none).runFrom sampleContext
        (.initial sampleContext.environment) = (.ok out, q) ∧
      out.vars = [⟨"x"⟩, ⟨"all"⟩, ⟨"different"⟩, ⟨"known"⟩] ∧
      Forall₂ (fun key => Summarizes .empty sampleContext [⟨"x"⟩] sampleCounts key
        (membersOf [⟨"x"⟩] key sampleInput)) (tuplesOf [⟨"x"⟩] sampleInput) out.rows ∧
      ∃ counts : List Nat, out.rows.map (·.get? ⟨"all"⟩) =
        counts.map (fun n : Nat => some (intTerm n)) ∧ counts.sum = 4 := by
  intro inner
  have hinner : (Eval.withSeed none (inner none)).runFrom sampleContext
      (.initial sampleContext.environment) =
        (.ok (.table [⟨"x"⟩, ⟨"y"⟩] sampleInput), .initial sampleContext.environment) := rfl
  obtain ⟨out, q, hrun, hvars, hrows, hsum, -⟩ :=
    @Plan.group_partitions .empty inner [⟨"x"⟩] sampleCounts none sampleContext _ _ _
      (by decide) (by decide) (by decide) (fun _ => rfl) hinner rfl
  exact ⟨out, q, hrun, hvars, hrows, hsum ⟨"all"⟩ List.mem_cons_self⟩

example : tuplesOf [⟨"x"⟩] GroupValue.sampleInput = [[some (.iri ⟨"a"⟩)], [none]] := by
  decide

open GroupValue in
/-- The one row of a dry run is no solution, so that it is not counted, and a call of a builtin
function that is not registered fails for good. -/
theorem Plan.group_not_partition :
    (¬ ∀ (inner : Plan) (keys : List Var) (values : List GroupValue) (c : Context)
      (p p' : Progress) (s : Solutions), (∀ x ∈ values, x.isCount = true) →
      (values.map target).Nodup → (∀ v ∈ keys, v ∉ values.map target) → c.HasBuiltins →
      (Eval.withSeed none (inner none)).runFrom c p = (.ok s, p') →
      ∃ out q, (inner.group keys (columns .empty values) none).runFrom c p = (.ok out, q) ∧
        Forall₂ (fun key => Summarizes .empty c keys values key (membersOf keys key s.rows))
          (tuplesOf keys s.rows) out.rows) ∧
    ¬ ∀ (inner : Plan) (keys : List Var) (values : List GroupValue) (c : Context)
      (p p' : Progress) (s : Solutions), (∀ x ∈ values, x.isCount = true) →
      (values.map target).Nodup → (∀ v ∈ keys, v ∉ values.map target) →
      (Eval.withSeed none (inner none)).runFrom c p = (.ok s, p') → s.isSingleton = false →
      ∃ out q, (inner.group keys (columns .empty values) none).runFrom c p = (.ok out, q) := by
  constructor
  · intro h
    obtain ⟨out, q, hrun, hrows⟩ :=
      h (.input 0 ((Node.values [⟨"x"⟩] [[some (.iri ⟨"a"⟩)]]).plan .empty)) []
        [.countRows ⟨"n"⟩ false] dryContext (.initial dryContext.environment) _
        (.singleton [⟨"x"⟩]) (by decide) (by decide) (by decide) (fun _ => rfl) rfl
    have hout : out = .singleton [⟨"n"⟩] := by
      cases hrun
      rfl
    subst hout
    cases hrows with
    | cons hrow _ =>
      obtain ⟨n, hn, -⟩ := hrow.counts _ List.mem_cons_self
      cases hn
  · intro h
    let bare : Context := { sampleContext with
      environment := { sampleContext.environment with functions := fun _ => none } }
    obtain ⟨out, q, hrun⟩ :=
      h (fun _ => pure .identity) [] [.apply ⟨"n"⟩ .count (.call (.builtin .rand) []) false]
        bare (.initial bare.environment) _ .identity (by decide) (by decide) (by decide) rfl rfl
    cases hrun

end SparqlAlgebra
