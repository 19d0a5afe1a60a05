import SparqlAlgebra.Proofs.Ensures

/-!
# The terms that paths find

A path may lead anywhere in the active graph, but not out of it: what it binds is
a node of the active graph, or a term that an end is fixed to. This holds in any
view, also in one that fails to answer, so it bounds how long a search along a path
can go on.

* `Relation.FindsNodes` and how the combinations of relations keep it;
* `Path.relation_findsNodes` is the induction over paths.
-/

namespace SparqlAlgebra

open Eval

/-- All values of the binding have a property. -/
def Binding.Takes (P : Term → Prop) (b : Binding) : Prop :=
  ∀ v t, b.get? v = some t → P t

namespace Binding

variable {P Q : Term → Prop} {a b m : Binding} {v : Var} {t : Term}

theorem empty_takes : empty.Takes P := fun v t h => by
  rw [get?_empty] at h
  cases h

theorem Takes.mono (h : b.Takes P) (hP : ∀ t, P t → Q t) : b.Takes Q :=
  fun v t ht => hP t (h v t ht)

theorem Takes.insert (h : b.Takes P) (ht : P t) : (b.insert v t).Takes P := by
  intro w u hu
  rw [get?_insert] at hu
  split at hu
  · cases hu
    exact ht
  · exact h w u hu

theorem Takes.merge? (ha : a.Takes P) (hb : b.Takes P) (h : a.merge? b = some m) :
    m.Takes P := by
  intro v t ht
  rw [get?_of_merge? h] at ht
  rcases Option.or_eq_some_iff.mp ht with ht | ⟨-, ht⟩
  · exact ha v t ht
  · exact hb v t ht

theorem Takes.project (h : b.Takes P) (vs : List Var) : (b.project vs).Takes P := by
  intro v t ht
  rw [get?_project] at ht
  split at ht
  · exact h v t ht
  · cases ht

end Binding

theorem Position.substitute_eq_term {p : Position} {b : Binding} {t : Term}
    (h : p.substitute b = .term t) : p = .term t ∨ ∃ v, b.get? v = some t := by
  cases p with
  | term u => exact .inl h
  | var v =>
    cases hget : b.get? v with
    | none => simp [substitute, resolve, hget] at h
    | some u =>
      have hu : u = t := by simpa [substitute, resolve, hget] using h
      exact .inr ⟨v, hu ▸ hget⟩

/-! ## Reading -/

namespace Eval

variable {c : Context}

theorem triples_ensures (s : Option Term) (i : Option Iri) (o : Option Term) :
    (triples s i o).Ensures c (· ⊆ c.view.facts) :=
  .read_bind (ensures_ofReading fun _ h => DatasetView.triples_subset h)

theorem nodes_ensures : nodes.Ensures c (· = c.view.factNodes) :=
  .read_bind (ensures_ofReading fun _ h => DatasetView.eq_factNodes h)

end Eval

namespace Relation

/-- A term that a path between two positions may find in a view. -/
def IsFound (v : DatasetView) (s o : Position) (t : Term) : Prop :=
  t ∈ v.factNodes ∨ s = .term t ∨ o = .term t

/-- Whatever the relation binds is a node, or a term that an end is fixed to. -/
def FindsNodes (r : Relation) : Prop :=
  ∀ c s o, (r s o).Ensures c (∀ row ∈ ·, row.Takes (IsFound c.view s o))

variable {r q : Relation} {c : Context}

/-! ## Edges -/

theorem takes_of_unifyPosition {P : Term → Prop} {p : Position} {t : Term} {b row : Binding}
    (h : unifyPosition p t b = some row) (hb : b.Takes P) (ht : P t) : row.Takes P := by
  unfold unifyPosition at h
  split at h
  · split at h
    · cases h
      exact hb
    · cases h
  · split at h
    · split at h
      · cases h
        exact hb
      · cases h
    · cases h
      exact hb.insert ht

theorem takes_of_unify {P : Term → Prop} {s o : Position} {a b : Term} {row : Binding}
    (h : unify s o a b = some row) (ha : P a) (hb : P b) : row.Takes P := by
  obtain ⟨half, hs, ho⟩ := Option.bind_eq_some_iff.mp h
  exact takes_of_unifyPosition ho (takes_of_unifyPosition hs Binding.empty_takes ha) hb

/-- What is bound by the triples that were read. -/
theorem bindingsOf_takes {P : Term → Prop} {bind : Triple → Option Binding}
    {ts : List Triple} (h : ∀ t ∈ ts, ∀ row, bind t = some row → row.Takes P) :
    (bindingsOf bind ts).Ensures c (∀ row ∈ ·, row.Takes P) := by
  induction ts with
  | nil => exact .pure fun _ hrow => absurd hrow List.not_mem_nil
  | cons t rest ih =>
    have ih := ih fun u hu => h u (List.mem_cons_of_mem _ hu)
    refine .after fun _ => ih.bind fun found hfound => .pure ?_
    refine List.forall_mem_append.mpr ⟨fun row hrow => ?_, hfound⟩
    exact h t List.mem_cons_self row (Option.mem_toList.mp hrow)

theorem subject_mem {t : Triple} (h : t ∈ c.view.facts) :
    t.subject.toTerm ∈ c.view.factNodes :=
  DatasetView.mem_factNodes.mpr ⟨t, h, .inl rfl⟩

theorem object_mem {t : Triple} (h : t ∈ c.view.facts) : t.object ∈ c.view.factNodes :=
  DatasetView.mem_factNodes.mpr ⟨t, h, .inr rfl⟩

/-- Triples bind their ends, in whichever direction. -/
theorem scan_takes {x : Eval (List Triple)} (hx : x.Ensures c (· ⊆ c.view.facts))
    {s o : Position} {bind : Triple → Option Binding}
    (h : ∀ t row, bind t = some row →
      ∃ a b, a ∈ [t.subject.toTerm, t.object] ∧ b ∈ [t.subject.toTerm, t.object] ∧
        unify s o a b = some row) :
    (x >>= bindingsOf bind).Ensures c (∀ row ∈ ·, row.Takes (IsFound c.view s o)) := by
  refine hx.bind fun ts hts => bindingsOf_takes fun t ht row hrow => ?_
  have hend (a : Term) (ha : a ∈ [t.subject.toTerm, t.object]) : IsFound c.view s o a := by
    rcases List.mem_pair.mp ha with rfl | rfl
    · exact .inl (subject_mem (hts ht))
    · exact .inl (object_mem (hts ht))
  obtain ⟨a, b, ha, hb, hunify⟩ := h t row hrow
  exact takes_of_unify hunify (hend a ha) (hend b hb)

theorem edges_findsNodes (predicate : Iri) : (edges predicate).FindsNodes := fun _ _ _ =>
  scan_takes (triples_ensures _ _ _) fun t _ h =>
    ⟨t.subject.toTerm, t.object, List.mem_cons_self, List.mem_pair.mpr (.inr rfl), h⟩

theorem edgesOutside_findsNodes (excluded : List Iri) :
    (edgesOutside excluded).FindsNodes := by
  intro c s o
  unfold edgesOutside
  split
  · exact .pure fun _ hrow => absurd hrow List.not_mem_nil
  · refine scan_takes (triples_ensures _ _ _) fun t row h => ?_
    split at h
    · cases h
    · exact ⟨_, _, List.mem_cons_self, List.mem_pair.mpr (.inr rfl), h⟩

theorem backEdgesOutside_findsNodes (excluded : List Iri) :
    (backEdgesOutside excluded).FindsNodes := by
  intro c s o
  unfold backEdgesOutside
  split
  · exact .pure fun _ hrow => absurd hrow List.not_mem_nil
  · refine scan_takes (triples_ensures _ _ _) fun t row h => ?_
    split at h
    · cases h
    · exact ⟨_, _, List.mem_pair.mpr (.inr rfl), List.mem_cons_self, h⟩

/-! ## Combinations -/

theorem FindsNodes.swap (h : r.FindsNodes) : r.swap.FindsNodes := by
  intro c s o
  refine (h c o s).mono fun rows hrows row hrow => (hrows row hrow).mono fun t ht => ?_
  exact ht.imp_right Or.symm

theorem FindsNodes.either (hr : r.FindsNodes) (hq : q.FindsNodes) :
    (r.either q).FindsNodes := by
  intro c s o
  refine (hr c s o).bind fun rows hrows => (hq c s o).bind fun rows' hrows' => .pure ?_
  exact List.forall_mem_append.mpr ⟨hrows, hrows'⟩

theorem continueAll_takes {P : Term → Prop} {f : Binding → Eval (List Binding)}
    {bs : List Binding} (hf : ∀ b ∈ bs, (f b).Ensures c (∀ row ∈ ·, row.Takes P)) :
    (continueAll f bs).Ensures c (∀ row ∈ ·, row.Takes P) := by
  induction bs with
  | nil => exact .pure fun _ hrow => absurd hrow List.not_mem_nil
  | cons b rest ih =>
    have ih := ih fun b' hb' => hf b' (List.mem_cons_of_mem _ hb')
    refine (hf b List.mem_cons_self).bind fun found hfound =>
      ih.bind fun more hmore => .pure ?_
    exact List.forall_mem_append.mpr ⟨hfound, hmore⟩

/-- The second half starts from a term that the first half has found. -/
theorem FindsNodes.sequence (hr : r.FindsNodes) (hq : q.FindsNodes) :
    (r.sequence q).FindsNodes := by
  intro c s o
  refine .after fun middle => (hr c s _).bind fun lefts hlefts => ?_
  refine continueAll_takes fun left hleft => ?_
  have hfirst : left.Takes (IsFound c.view s o) := (hlefts left hleft).mono fun t ht => by
    rcases ht with ht | ht | ht
    · exact .inl ht
    · exact .inr (.inl ht)
    · cases ht
  unfold continueWith
  split
  · exact .pure fun _ hrow => absurd hrow List.not_mem_nil
  · rename_i node hnode
    refine (hq c _ _).bind fun found hfound => .pure fun row hrow => ?_
    obtain ⟨whole, hwhole, rfl⟩ := List.mem_map.mp hrow
    obtain ⟨right, hright, hmerge⟩ := List.mem_filterMap.mp hwhole
    refine (hfirst.merge? ((hfound right hright).mono fun t ht => ?_) hmerge).project _
    -- the ends of the second half are the middle and what the first half leaves of `o`
    rcases ht with ht | ht | ht
    · exact .inl ht
    · cases ht
      exact hfirst _ _ hnode
    · rcases Position.substitute_eq_term ht with ht | ⟨v, hv⟩
      · exact .inr (.inr ht)
      · exact hfirst v t hv

theorem zeroLength_findsNodes : zeroLength.FindsNodes := by
  intro c s o
  cases s with
  | term t =>
    cases o with
    | term u =>
      refine .pure fun row hrow => ?_
      split at hrow
      · rw [List.mem_singleton.mp hrow]
        exact Binding.empty_takes
      · cases hrow
    | var v =>
      refine .pure fun row hrow => ?_
      rw [List.mem_singleton.mp hrow]
      exact Binding.empty_takes.insert (.inr (.inl rfl))
  | var v =>
    cases o with
    | term t =>
      refine .pure fun row hrow => ?_
      rw [List.mem_singleton.mp hrow]
      exact Binding.empty_takes.insert (.inr (.inr rfl))
    | var w =>
      refine nodes_ensures.bind fun nodes hnodes => .pure fun row hrow => ?_
      obtain ⟨t, ht, rfl⟩ := List.mem_map.mp hrow
      have ht : IsFound c.view (.var v) (.var w) t := .inl (hnodes ▸ ht)
      exact (Binding.empty_takes.insert ht).insert ht

theorem FindsNodes.reflexive (h : r.FindsNodes) : r.reflexive.FindsNodes := by
  intro c s o
  refine (zeroLength_findsNodes c s o).bind fun same hsame =>
    (h c s o).bind fun rows hrows => .pure fun row hrow => ?_
  exact (List.mem_append.mp (mem_dedup.mp hrow)).elim (hsame row) (hrows row)

theorem FindsNodes.power (h : r.FindsNodes) (n : Nat) : (r.power n).FindsNodes := by
  induction n with
  | zero => exact h
  | succ n ih => exact ih.sequence h

theorem FindsNodes.times (h : r.FindsNodes) : ∀ n, (r.times n).FindsNodes
  | 0 => zeroLength_findsNodes
  | n + 1 => h.power n

/-! ## Closures -/

/-- The next terms of a search, each once. -/
theorem next_ensures (h : r.FindsNodes) (t : Term) (next : Var) :
    (do return valuesOf next (← r (.term t) (.var next))).Ensures c fun found =>
      found.Nodup ∧ ∀ u ∈ found, u = t ∨ u ∈ c.view.factNodes := by
  refine (h c _ _).bind fun rows hrows => .pure ⟨nodup_dedup _, fun u hu => ?_⟩
  obtain ⟨row, hrow, hget⟩ := List.mem_filterMap.mp (mem_dedup.mp hu)
  -- the far end is a variable, so it fixes no term
  rcases hrows row hrow _ _ hget with hu | hu | hu
  · exact .inr hu
  · cases hu
    exact .inl rfl
  · cases hu

theorem search_ensures {P : Term → Prop} {step : Term → Eval (List Term)}
    (hstep : ∀ t, P t → (step t).Ensures c (∀ u ∈ ·, P u)) (fuel : Nat)
    (queue reached : List Term) (hqueue : ∀ t ∈ queue, P t) (hreached : ∀ t ∈ reached, P t) :
    (search step fuel queue reached).Ensures c (∀ t ∈ ·, P t) := by
  induction fuel generalizing queue reached with
  | zero => cases queue <;> exact .pure hreached
  | succ fuel ih =>
    cases queue with
    | nil => exact .pure hreached
    | cons t queue =>
      obtain ⟨ht, hqueue⟩ := List.forall_mem_cons.mp hqueue
      refine .after fun _ => (hstep t ht).bind fun next hnext => ?_
      have hnew : ∀ u ∈ next.filter (!reached.contains ·), P u := fun u hu =>
        hnext u (List.mem_of_mem_filter hu)
      exact ih _ _ (List.forall_mem_append.mpr ⟨hqueue, hnew⟩)
        (List.forall_mem_append.mpr ⟨hreached, hnew⟩)

/-- What is reached from a start is the start itself or a node. -/
theorem reachable_ensures (h : r.FindsNodes) (start : Term) (reflexive : Bool) :
    (reachable r start reflexive).Ensures c
      (∀ t ∈ ·, t = start ∨ t ∈ c.view.factNodes) := by
  refine .after fun next => .read_bind ?_
  refine search_ensures (fun t ht => (next_ensures h t next).mono fun found hfound u hu => ?_)
    _ _ _ (fun t ht => .inl (List.mem_singleton.mp ht)) fun t ht => ?_
  · rcases hfound.2 u hu with rfl | hu
    · exact ht
    · exact .inr hu
  · split at ht
    · exact .inl (List.mem_singleton.mp ht)
    · cases ht

theorem starts_ensures (h : r.FindsNodes) (reflexive : Bool) :
    (starts r reflexive).Ensures c (· ⊆ c.view.factNodes) := by
  cases reflexive with
  | true => exact nodes_ensures.mono fun _ hnodes => hnodes ▸ List.Subset.refl _
  | false =>
    refine .after fun s => .after fun o => (h c _ _).bind fun rows hrows => .pure ?_
    intro t ht
    obtain ⟨row, hrow, hget⟩ := List.mem_filterMap.mp (mem_dedup.mp ht)
    rcases hrows row hrow _ _ hget with ht | ht | ht
    · exact ht
    · cases ht
    · cases ht

theorem pairsFrom_takes {P : Term → Prop} {v w : Var} {start : Term} {reached : List Term}
    (hstart : P start) (hreached : ∀ t ∈ reached, P t) :
    ∀ row ∈ pairsFrom v w start reached, row.Takes P := by
  intro row hrow
  unfold pairsFrom at hrow
  split at hrow
  · split at hrow
    · rw [List.mem_singleton.mp hrow]
      exact Binding.empty_takes.insert hstart
    · cases hrow
  · obtain ⟨t, ht, rfl⟩ := List.mem_map.mp hrow
    exact (Binding.empty_takes.insert hstart).insert (hreached t ht)

theorem closureFrom_takes {P : Term → Prop} {reach : Term → Eval (List Term)} (v w : Var)
    {starts : List Term} (hstarts : ∀ t ∈ starts, P t)
    (hreach : ∀ t, P t → (reach t).Ensures c (∀ u ∈ ·, P u)) :
    (closureFrom reach v w starts).Ensures c (∀ row ∈ ·, row.Takes P) := by
  induction starts with
  | nil => exact .pure fun _ hrow => absurd hrow List.not_mem_nil
  | cons start rest ih =>
    obtain ⟨hstart, hrest⟩ := List.forall_mem_cons.mp hstarts
    refine (hreach start hstart).bind fun reached hreached =>
      (ih hrest).bind fun rows hrows => .pure ?_
    exact List.forall_mem_append.mpr ⟨pairsFrom_takes hstart hreached, hrows⟩

theorem FindsNodes.closure (h : r.FindsNodes) (reflexive : Bool) :
    (r.closure reflexive).FindsNodes := by
  intro c s o
  -- a search with one fixed end binds the other end to what it reaches
  have hone {reached : List Term} {a : Term} (v : Var)
      (hreached : ∀ t ∈ reached, t = a ∨ t ∈ c.view.factNodes)
      (ha : IsFound c.view s o a) :
      ∀ row ∈ reached.map (Binding.empty.insert v ·), row.Takes (IsFound c.view s o) := by
    intro row hrow
    obtain ⟨t, ht, rfl⟩ := List.mem_map.mp hrow
    refine Binding.empty_takes.insert ?_
    rcases hreached t ht with rfl | ht
    · exact ha
    · exact .inl ht
  cases s with
  | term start =>
    cases o with
    | term stop =>
      refine .after fun reached => .pure fun row hrow => ?_
      split at hrow
      · rw [List.mem_singleton.mp hrow]
        exact Binding.empty_takes
      · cases hrow
    | var v =>
      exact (reachable_ensures h start reflexive).bind fun reached hreached =>
        .pure (hone v hreached (.inr (.inl rfl)))
  | var v =>
    cases o with
    | term stop =>
      exact (reachable_ensures h.swap stop reflexive).bind fun reached hreached =>
        .pure (hone v hreached (.inr (.inr rfl)))
    | var w =>
      refine (starts_ensures h reflexive).bind fun starts hstarts => ?_
      refine closureFrom_takes v w (fun t ht => .inl (hstarts ht)) fun t ht => ?_
      refine (reachable_ensures h t reflexive).mono fun reached hreached u hu => ?_
      rcases hreached u hu with rfl | hu
      · exact ht
      · exact .inl hu

end Relation

/-- A path finds nodes only, besides its ends. -/
theorem Path.relation_findsNodes : ∀ path : Path, path.relation.FindsNodes
  | .property p false => Relation.edges_findsNodes p
  | .property p true => (Relation.edges_findsNodes p).swap
  | .inverse inner => inner.relation_findsNodes.swap
  | .sequence p q => p.relation_findsNodes.sequence q.relation_findsNodes
  | .alternative p q => p.relation_findsNodes.either q.relation_findsNodes
  | .zeroOrOne inner => inner.relation_findsNodes.reflexive
  | .zeroOrMore inner | .oneOrMore inner => inner.relation_findsNodes.closure _
  | .negatedSet forward backward =>
    (Relation.edgesOutside_findsNodes forward).either
      (Relation.backEdgesOutside_findsNodes backward)
  | .fixedLength inner n => inner.relation_findsNodes.times n

end SparqlAlgebra
