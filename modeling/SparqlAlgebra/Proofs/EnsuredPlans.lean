import SparqlAlgebra.Evaluation.GraphPattern
import SparqlAlgebra.Evaluation.Grouping
import SparqlAlgebra.Proofs.PathEnds
import SparqlAlgebra.Proofs.PatternJoins

/-!
# What operators ensure

Rules for everything that an operator can yield, from what its inputs can yield. They
ask neither that data is read nor that solutions declare what they bind; where a dry run
yields something else, this is a case of its own.

* Many operators only select solutions of their input, `Plan.Selects`: what holds of
  solutions and of all their selections is kept by every one of them;
* the other operators have a rule each, which says what they yield is made of.
-/

namespace SparqlAlgebra

open Eval

/-! ## Selections -/

namespace Solutions

variable {s o : Solutions} {c : Context}

theorem isSingleton_eq_false (h : ∀ vs, s ≠ singleton vs) : s.isSingleton = false := by
  cases s with
  | singleton vs => exact absurd rfl (h vs)
  | identity | null | table => rfl

/-- The solutions themselves, or some of their rows under the same variables. Without
variables a single row becomes the empty one. -/
inductive IsSelection (s : Solutions) : Solutions → Prop
  | refl : IsSelection s s
  | ofRows (hs : s.isSingleton = false) {rows : List Binding} (h : rows ⊆ s.rows) :
    IsSelection s (ofRows s.vars rows)

theorem IsSelection.vars_eq (h : s.IsSelection o) : o.vars = s.vars := by
  cases h with
  | refl => rfl
  | ofRows _ _ => exact vars_ofRows _ _

theorem IsSelection.rows (h : s.IsSelection o) : ∀ row ∈ o.rows, row ∈ s.rows ∨ row = .empty := by
  cases h with
  | refl => exact fun _ hrow => .inl hrow
  | ofRows _ h =>
    unfold Solutions.ofRows
    split
    · intro row hrow
      cases hrow
    · intro row hrow
      exact .inr (List.mem_singleton.mp hrow)
    · intro row hrow
      exact .inl (h hrow)

theorem minus_isSelection (a b : Solutions) : a.IsSelection (a.minus b) := by
  unfold Solutions.minus
  split
  · exact .refl
  · exact .refl
  · exact .refl
  · exact .refl
  · exact .refl
  · rename_i hsingleton _ _ _
    split
    · exact .refl
    · exact .ofRows (isSingleton_eq_false hsingleton) (List.filter_subset_self _)

theorem distinct_isSelection (s : Solutions) : s.IsSelection s.distinct := by
  unfold Solutions.distinct
  split
  · refine .ofRows rfl ?_
    intro row hrow
    exact mem_dedup.mp hrow
  · exact .refl

theorem slice_isSelection (s : Solutions) (offset : Nat) (limit : Option Nat) :
    s.IsSelection (s.slice offset limit) := by
  unfold Solutions.slice
  split
  · exact .refl
  · rename_i hsingleton
    refine .ofRows (isSingleton_eq_false hsingleton) ?_
    cases limit with
    | none => exact List.drop_subset _ _
    | some n => exact List.Subset.trans (List.take_subset _ _) (List.drop_subset _ _)

theorem truncate_isSelection (s : Solutions) (n : Nat) : s.IsSelection (s.truncate n) := by
  unfold Solutions.truncate
  split
  · exact .refl
  · exact s.slice_isSelection 0 (some n)

theorem retainM_isSelection (s : Solutions) (condition : Binding → Eval Bool) :
    (s.retainM condition).Ensures c (s.IsSelection ·) := by
  unfold Solutions.retainM
  split
  · exact .pure .refl
  · rename_i hsingleton
    have hs : s.isSingleton = false := isSingleton_eq_false hsingleton
    exact (keepM_ensures _).bind fun kept hkept => .pure (.ofRows hs hkept.subset)

end Solutions

namespace Plan

variable {c : Context} {vs : List Var} {plan left right : Plan} {demand : Demand}
  {P Q R : Solutions → Prop}

/-- The first plan yields selections of what the second one yields: what is ensured of
the second one, and holds of selections too, is ensured of the first one. -/
def Selects (selection plan : Plan) : Prop :=
  ∀ (c : Context) (P : Solutions → Prop), (∀ s o, s.IsSelection o → P s → P o) → P .null →
    (∀ demand, (plan demand).Ensures c P) → ∀ demand, (selection demand).Ensures c P

/-- The right side of a difference only drops rows. -/
theorem minus_selects (left right : Plan) : (left.minus right).Selects left := by
  intro c P hP hnull h
  exact withRight_ensures h (ensures_any _) hnull
    fun l r hl _ => .pure (hP l _ (l.minus_isSelection r) hl)

theorem filter_selects (plan : Plan) (condition : Binding → Eval Bool) :
    (plan.filter condition).Selects plan := by
  intro c P hP _ h
  exact mapPrefix_ensures h fun s hs =>
    (s.retainM_isSelection condition).mono fun o ho => hP s o ho hs

theorem existsJoin_selects (left right : Plan) (negated : Bool) :
    (left.existsJoin right negated).Selects left := filter_selects left _

theorem distinct_selects (plan : Plan) : plan.distinct.Selects plan := by
  intro c P hP _ h
  exact mapPrefix_ensures h fun s hs => .pure (hP s _ s.distinct_isSelection hs)

theorem slice_selects (plan : Plan) (offset : Nat) (limit : Option Nat) :
    (plan.slice offset limit).Selects plan := by
  intro c P hP _ h demand
  exact (h _).bind fun s hs => .pure (hP s _ (s.slice_isSelection offset limit) hs)

theorem limit_selects (plan : Plan) (count : Nat) : (plan.limit count).Selects plan := by
  intro c P hP _ h demand
  exact (h _).bind fun s hs => .pure (hP s _ (s.truncate_isSelection count) hs)

/-- Sorting selects all rows, in another order. -/
theorem orderBy_selects (plan : Plan) (keys : List SortKey) :
    (plan.orderBy keys).Selects plan := by
  intro c P hP _ h demand
  refine (h none).bind fun s hs => ?_
  split
  · exact .pure hs
  · rename_i hsingleton
    refine (SortKey.keyed_ensures keys s.rows).bind fun rows hrows => .pure ?_
    apply hP s _ (.ofRows (Bool.eq_false_iff.mpr hsingleton) ?_) hs
    rw [← hrows]
    exact ((stableSort_perm _ rows).map _).subset

/-! ## Other operators -/

theorem observed_ensures (h : (plan demand).Ensures { c with depth := c.depth + 1 } P)
    (name : String) : (plan.observed name demand).Ensures c P := by
  refine .after fun _ => .read_bind (.after fun _ => ?_)
  exact h.within.bind fun s hs => .after fun _ => .pure hs

/-- If the left side meets the demand alone, then only the variables of the right side
count. -/
theorem union_ensures (hl : ∀ demand, (left demand).Ensures c P)
    (hr : ∀ demand, (right demand).Ensures c Q) {rightVariables : List Var}
    (hleft : ∀ l, P l → R (l.extendVariables rightVariables))
    (hunion : ∀ l r, P l → Q r → R (l.union r)) (demand : Demand) :
    (left.union right rightVariables demand).Ensures c R := by
  refine (hl demand).bind fun l hl => ?_
  dsimp only
  split
  · exact .pure (hleft l hl)
  · exact (hr _).bind fun r hr => .pure (hunion l r hl hr)

/-- The rows are those of the input, or they bind the variable besides. -/
theorem extend_ensures {v : Var} (f : Assignment)
    (h : (plan demand).Ensures { c with seed := c.seed.map (·.erase v) } P)
    (hdry : ∀ s, P s → s.isSingleton = true → Q (s.extendVariables [v]))
    (hrows : ∀ s rows, P s →
      (∀ row ∈ rows, ∃ b ∈ s.rows, row = b ∨ ∃ t, row = b.insert v t) →
        Q (.ofRows (mergeVariables s.vars [v]) rows)) :
    (plan.extend v f demand).Ensures c Q := by
  refine h.within.bind fun s hs => ?_
  split
  · rename_i hsingleton
    exact .pure (hdry s hs hsingleton)
  · exact (assignRows_ensures v f s.rows).bind fun rows h => .pure (hrows s rows hs h)

/-- Whatever the input yields, groups bind their own variables. -/
theorem group_ensures (keys : List Var) (columns : List (Var × Column))
    (h : (plan none).Ensures { c with seed := none } Q)
    (hdry : ∀ s, Q s → s.isSingleton = true → P (.singleton (keys ++ columns.map (·.1))))
    (hrows : ∀ rows : List Binding, (∀ row ∈ rows, row.vars ⊆ keys ++ columns.map (·.1)) →
      P (.ofRows (keys ++ columns.map (·.1)) rows)) :
    (plan.group keys columns demand).Ensures c P := by
  refine h.within.bind fun s hs => ?_
  split
  · rename_i hsingleton
    exact .pure (hdry s hs hsingleton)
  · exact (Column.rows_ensures keys columns _).bind fun rows h => .pure (hrows rows h)

theorem ask_ensures (hnull : P .null) (hidentity : P .identity) :
    (plan.ask demand).Ensures c P := by
  refine .read_bind ?_
  split
  · exact .pure hidentity
  · refine .after fun s => .pure ?_
    split
    · exact hnull
    · exact hidentity

theorem graph_ensures {i : Iri}
    (h : (plan demand).Ensures { c with view := c.view.enter (.named (.iri i)) } P)
    (hnull : P .null) (us : List Var) : (plan.graph (.iri i) us demand).Ensures c P := by
  have hfound (found : Bool) : (if found then Eval.withGraph (.named (.iri i)) (plan demand)
      else Pure.pure Solutions.null).Ensures c P := by
    split
    · exact h.within
    · exact .pure hnull
  refine .read_bind ?_
  dsimp only
  split
  · exact .after hfound
  · exact .after hfound

theorem overGraphs_ensures {S : Binding → Prop} {v : Var}
    (h : ∀ g demand, (plan demand).Ensures { c with view := c.view.enter (.named g) } fun s =>
      ∀ row ∈ s.rows.filterMap (bindName v g.toTerm), S row)
    (demand : Demand) (graphs : List Resource) (rows : List Binding)
    (hrows : ∀ row ∈ rows, S row) :
    (plan.overGraphs v demand graphs rows).Ensures c (∀ row ∈ ·, S row) := by
  induction graphs generalizing rows with
  | nil => exact .pure hrows
  | cons g rest ih =>
    refine Ensures.bind (h g _).within fun s hs => ?_
    -- the rows of the graphs so far are carried along, and those of this one are added
    have hmore := List.forall_mem_append.mpr ⟨hrows, hs⟩
    cases demand with
    | none => exact ih _ hmore
    | some n =>
      dsimp only
      split
      · exact .pure hmore
      · exact ih _ hmore

/-- The rows of all graphs, and the variable of the graph in each of them. -/
theorem graphs_ensures {v : Var} {us : List Var} {S : Binding → Prop}
    (hdry : c.environment.isDryRun = true → P (.singleton (mergeVariables us [v])))
    (h : ∀ g demand, (plan demand).Ensures { c with view := c.view.enter (.named g) } fun s =>
      ∀ row ∈ s.rows.filterMap (bindName v g.toTerm), S row)
    (hrows : ∀ rows : List Binding, (∀ row ∈ rows, S row) →
      P (.ofRows (mergeVariables us [v]) rows)) :
    (plan.graph (.var v) us demand).Ensures c P := by
  refine .read_bind ?_
  dsimp only
  split
  · rename_i hdryRun
    exact .pure (hdry hdryRun)
  · refine .after fun graphs => ?_
    have hover := overGraphs_ensures h demand graphs [] fun _ hrow =>
      absurd hrow List.not_mem_nil
    exact hover.bind fun rows h => .pure (hrows rows h)

/-! ## Leaves -/

theorem leaf_ensures {x : Eval Solutions}
    (hdry : c.environment.isDryRun = true → P (.singleton vs)) (h : x.Ensures c P)
    (demand : Demand) : (leaf vs x demand).Ensures c P := by
  refine .read_bind ?_
  split
  · rename_i hdryRun
    exact .pure (hdry hdryRun)
  · exact h

theorem values_ensures {rows : List (List (Option Term))}
    (hdry : c.environment.isDryRun = true → P (.singleton vs))
    (h : (∀ row ∈ rows.map (valuesRow vs), row.vars ⊆ vs) →
      (joinSeed (.ofRows vs (rows.map (valuesRow vs)))).Ensures c P) (demand : Demand) :
    (values vs rows demand).Ensures c P := by
  apply leaf_ensures hdry
  apply h
  intro row hrow
  obtain ⟨values, -, rfl⟩ := List.mem_map.mp hrow
  exact vars_valuesRow vs values

/-- What a path pattern finds binds its ends. -/
theorem pathSearch_ensures {s : Position} {search : PathSearch} {o : Position}
    (hdry : c.environment.isDryRun = true → P (.singleton (Position.vars [s, o])))
    (h : ∀ ps : List Position, Position.vars ps ⊆ Position.vars [s, o] →
      ∀ rows : List Binding, (∀ row ∈ rows, row.vars ⊆ Position.vars ps) →
        (joinSeed (.ofRows (Position.vars ps) rows)).Ensures c P) (demand : Demand) :
    (pathSearch s search o demand).Ensures c P := by
  refine leaf_ensures hdry (.read_bind ?_) demand
  exact (search.relation_bindsEnds c _ _).bind fun rows hrows =>
    h _ (@Position.vars_substitute [s, o] _) rows hrows

end Plan

/-! ## Services -/

/-- Whether a service of a name may be called with an IRI; a variable may have any. -/
def NameRef.MayCall : NameRef → Iri → Prop
  | .iri j, i => j = i
  | .var _, _ => True

namespace Plan

/-- What a service yields is an answer to a call, joined with the seed, or nothing. Only
a seed names a service that is called by a variable. -/
theorem service_ensures {c : Context} {vs : List Var} {P : Solutions → Prop} {name : NameRef}
    {silent : Bool} {pattern : Query.Pattern}
    (hdry : c.environment.isDryRun = true → P (.singleton vs)) (hnull : P .null)
    (hanswer : ∀ handler, c.environment.services = some handler → ∀ i s, name.MayCall i →
      name = .iri i ∨ c.seed.isSome = true →
        handler ⟨i, pattern⟩ c.environment.base = .ok s → (joinSeed s).Ensures c P)
    (demand : Demand) :
    (service name vs silent pattern demand).Ensures c P := by
  have hsilent (err : QueryError) : (if silent then Pure.pure Solutions.null
      else Eval.fail err : Eval Solutions).Ensures c P := by
    split
    · exact .pure hnull
    · exact ensures_fail err
  have hname : (serviceName name).Ensures c fun i =>
      name.MayCall i ∧ (name = .iri i ∨ c.seed.isSome = true) := by
    cases name with
    | iri i => exact .pure ⟨rfl, .inl rfl⟩
    | var v =>
      refine .read_bind ?_
      cases hseed : c.seed with
      -- without a seed the variable has no value, and nothing is called
      | none => exact ensures_fail _
      | some b => exact (ensures_any _).mono fun _ _ => ⟨trivial, .inr rfl⟩
  refine leaf_ensures hdry (hname.bind fun i hi => .read_bind ?_) demand
  dsimp only
  split
  · exact hsilent _
  · rename_i handler hhandler
    refine .after fun _ => ?_
    split
    · rename_i s hs
      exact hanswer handler hhandler i s hi.1 hi.2 hs
    · exact hsilent _

end Plan

end SparqlAlgebra
