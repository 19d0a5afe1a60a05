import SparqlAlgebra.Proofs.Rows
import SparqlAlgebra.Proofs.Steadiness

/-!
# What evaluations ensure

Some facts hold of everything that an evaluation can yield: whatever has been
counted before, whether or not reading fails, and whatever an expression does.
They follow the steps of the evaluation, and a step that fails yields nothing.

* `Eval.Ensures` and its rules for sequences and scopes;
* the loops over rows: what they keep, merge, bind or reorder;
* `Plan.fromPrefix_ensures`: asking for more and more solutions yields what is
  made of some solutions of the source.
-/

namespace SparqlAlgebra

namespace Eval

variable {α β : Type} {c : Context} {P P' : α → Prop} {Q : β → Prop}

/-- Whatever the evaluation yields in a context has a property. It may fail. -/
def Ensures (x : Eval α) (c : Context) (P : α → Prop) : Prop :=
  ∀ p a q, x.runFrom c p = (.ok a, q) → P a

theorem Ensures.of_outcome {x : Eval α} {a : α} (h : x.Ensures c P)
    (ha : x.outcome c = .ok a) : P a := by
  unfold outcome at ha
  exact h _ a _ (Prod.ext ha rfl)

theorem Ensures.mono {x : Eval α} (h : x.Ensures c P) (hP : ∀ a, P a → P' a) :
    x.Ensures c P' := fun p a q hrun => hP a (h p a q hrun)

theorem ensures_any (x : Eval α) : x.Ensures c fun _ => True := fun _ _ _ _ => trivial

theorem Ensures.pure {a : α} (h : P a) : (pure a : Eval α).Ensures c P := by
  intro p b q hrun
  cases hrun
  exact h

theorem ensures_fail (e : QueryError) : (fail e : Eval α).Ensures c P := by
  intro p a q hrun
  cases hrun

theorem Ensures.bind {x : Eval α} {f : α → Eval β} (h : x.Ensures c P)
    (hf : ∀ a, P a → (f a).Ensures c Q) : (x >>= f).Ensures c Q := by
  intro p b q hrun
  obtain ⟨a, p', hx, hfa⟩ := runFrom_bind_eq_ok hrun
  exact hf a (h p a p' hx) p' b q hfa

/-- Nothing needs to be known of the first part. -/
theorem Ensures.after {x : Eval α} {f : α → Eval β} (hf : ∀ a, (f a).Ensures c Q) :
    (x >>= f).Ensures c Q := (ensures_any x).bind fun a _ => hf a

theorem Ensures.read_bind {f : Context → Eval α} (h : (f c).Ensures c P) :
    (read >>= f).Ensures c P := by
  intro p a q hrun
  rw [runFrom_bind_ok c p (runFrom_read c p)] at hrun
  exact h p a q hrun

theorem ensures_ofReading {r : Except String α} (h : ∀ a, r = .ok a → P a) :
    (ofReading r).Ensures c P := by
  cases r with
  | ok a => exact .pure (h a rfl)
  | error text => exact ensures_fail _

theorem Ensures.within {x : Eval α} {change : Context → Context}
    (h : x.Ensures (change c) P) : (x.within change).Ensures c P := h

/-! ## Loops over rows -/

variable {condition : Binding → Eval Bool} {vs ws : List Var}

theorem keepM_ensures {test : α → Eval Bool} (xs : List α) :
    (Solutions.keepM test xs).Ensures c (·.Sublist xs) := by
  induction xs with
  | nil => exact .pure (List.Sublist.refl _)
  | cons x rest ih =>
    refine .after fun holds => ih.bind fun kept hkept => .pure ?_
    cases holds with
    | true => exact hkept.cons_cons x
    | false => exact hkept.cons x

theorem retainM_ensures {s : Solutions} (hs : s.Binds vs) :
    (s.retainM condition).Ensures c fun o => o.Binds vs ∧ o.rows.Sublist s.rows := by
  have hkept {kept : List Binding} (hkept : kept.Sublist s.rows) :
      (Solutions.ofRows s.vars kept).Binds vs ∧
        (Solutions.ofRows s.vars kept).rows.Sublist s.rows := by
    have hown : ∀ row ∈ kept, row.vars ⊆ s.vars := fun row hrow =>
      hs.wellFormed row (hkept.subset hrow)
    rw [Solutions.rows_ofRows hown]
    exact ⟨Solutions.ofRows_binds hown fun row hrow => hs.row_vars row (hkept.subset hrow),
      hkept⟩
  have hreal := hs.real
  cases s with
  | singleton _ => cases hreal
  | identity | null | table =>
    exact (keepM_ensures _).bind fun kept h => .pure (hkept h)

theorem mergesM_ensures (left : Binding) (rs : List Binding) :
    (Solutions.mergesM condition left rs).Ensures c (· ⊆ rs.filterMap left.merge?) := by
  induction rs with
  | nil => exact .pure (List.Subset.refl _)
  | cons r rest ih =>
    unfold Solutions.mergesM
    cases hmerge : left.merge? r with
    | none =>
      rw [List.filterMap_cons_none hmerge]
      exact ih
    | some merged =>
      rw [List.filterMap_cons_some hmerge]
      refine .after fun holds => ih.bind fun merges h => .pure ?_
      cases holds with
      | true => exact List.cons_subset_cons _ h
      | false => exact fun row hrow => List.mem_cons_of_mem _ (h hrow)

/-- A row of a left join is a left row or one of its merges. -/
def IsLeftJoined (ls rs : List Binding) (row : Binding) : Prop :=
  ∃ l ∈ ls, row = l ∨ ∃ r ∈ rs, l.merge? r = some row

theorem leftRowsM_ensures {candidates : Binding → List Binding} {rs : List Binding}
    (h : ∀ l, (candidates l).filterMap l.merge? = rs.filterMap l.merge?)
    (ls : List Binding) :
    (Solutions.leftRowsM condition candidates ls).Ensures c
      (∀ row ∈ ·, IsLeftJoined ls rs row) := by
  induction ls with
  | nil => exact .pure fun _ hrow => absurd hrow List.not_mem_nil
  | cons l rest ih =>
    refine (mergesM_ensures l _).bind fun merges hmerges =>
      ih.bind fun rows hrows => .pure fun row hrow => ?_
    rw [h] at hmerges
    rcases List.mem_append.mp hrow with hrow | hrow
    · refine ⟨l, List.mem_cons_self, ?_⟩
      split at hrow
      · exact .inl (List.mem_singleton.mp hrow)
      · obtain ⟨r, hr, hmerge⟩ := List.mem_filterMap.mp (hmerges hrow)
        exact .inr ⟨r, hr, hmerge⟩
    · obtain ⟨l', hl', hjoined⟩ := hrows row hrow
      exact ⟨l', List.mem_cons_of_mem _ hl', hjoined⟩

theorem IsLeftJoined.vars_subset {ls rs : List Binding} {row : Binding}
    (h : IsLeftJoined ls rs row) (hl : ∀ l ∈ ls, l.vars ⊆ vs) (hr : ∀ r ∈ rs, r.vars ⊆ ws) :
    row.vars ⊆ mergeVariables vs ws := by
  intro v hv
  obtain ⟨l, hls, rfl | ⟨r, hrs, hmerge⟩⟩ := h
  · exact Solutions.subset_mergeVariables_left (hl row hls hv)
  · rcases (Binding.mem_vars_of_merge? hmerge).mp hv with hv | hv
    · exact Solutions.subset_mergeVariables_left (hl l hls hv)
    · exact Solutions.subset_mergeVariables_right (hr r hrs hv)

theorem leftJoinM_ensures {a b : Solutions} (ha : a.Binds vs) (hb : b.Binds ws) :
    (a.leftJoinM b condition).Ensures c fun o => o.Binds (mergeVariables vs ws) ∧
      ∀ row ∈ o.rows, IsLeftJoined a.rows b.rows row := by
  have hrows : (Solutions.leftRowsM condition (Solutions.joinIndex a b).candidates
      a.rows >>= fun rows =>
        Pure.pure (Solutions.ofRows (mergeVariables a.vars b.vars) rows)).Ensures c
      fun o => o.Binds (mergeVariables vs ws) ∧
        ∀ row ∈ o.rows, IsLeftJoined a.rows b.rows row := by
    refine (leftRowsM_ensures (JoinIndex.candidates_build _ b.rows) a.rows).bind
      fun rows hrows => .pure ?_
    have hown : ∀ row ∈ rows, row.vars ⊆ mergeVariables a.vars b.vars := fun row hrow =>
      (hrows row hrow).vars_subset ha.wellFormed hb.wellFormed
    rw [Solutions.rows_ofRows hown]
    exact ⟨Solutions.ofRows_binds hown fun row hrow =>
      (hrows row hrow).vars_subset ha.row_vars hb.row_vars, hrows⟩
  have hself : a.Binds (mergeVariables vs ws) ∧
      ∀ row ∈ a.rows, IsLeftJoined a.rows b.rows row :=
    ⟨ha.mono Solutions.subset_mergeVariables_left, fun row hrow => ⟨row, hrow, .inl rfl⟩⟩
  have hreal := ha.real
  have hreal' := hb.real
  -- only solutions without rows are joined without the index
  cases a with
  | singleton _ => cases hreal
  | null => exact .pure ⟨Solutions.null_binds _, fun _ hrow => absurd hrow List.not_mem_nil⟩
  | identity | table =>
    cases b with
    | singleton _ => cases hreal'
    | null => exact .pure hself
    | identity | table => exact hrows

/-- An assignment keeps a row, or binds the variable in it. -/
theorem assignRows_ensures (v : Var) (f : Assignment) (bs : List Binding) :
    (Plan.assignRows v f bs).Ensures c
      (∀ row ∈ ·, ∃ b ∈ bs, row = b ∨ ∃ t, row = b.insert v t) := by
  induction bs with
  | nil => exact .pure fun _ hrow => absurd hrow List.not_mem_nil
  | cons b rest ih =>
    unfold Plan.assignRows
    split
    · exact ensures_fail _
    · refine .after fun value => ih.bind fun rows hrows => .pure ?_
      refine List.forall_mem_cons.mpr ⟨⟨b, List.mem_cons_self, ?_⟩, fun row hrow => ?_⟩
      · cases value with
        | none => exact .inl rfl
        | some t => exact .inr ⟨t, rfl⟩
      · obtain ⟨b', hb', h⟩ := hrows row hrow
        exact ⟨b', List.mem_cons_of_mem _ hb', h⟩

end Eval

open Eval

/-! ## Groups and sorted solutions -/

namespace Binding

theorem vars_foldl_insert {entries : List Entry} {b : Binding} {v : Var}
    (h : v ∈ (entries.foldl (fun b e => b.insert e.1 e.2) b).vars) :
    v ∈ b.vars ∨ v ∈ entries.map (·.1) := by
  induction entries generalizing b with
  | nil => exact .inl h
  | cons e rest ih =>
    rw [List.map_cons, List.mem_cons]
    rcases ih h with h | h
    · exact (mem_vars_insert.mp h).elim (fun hv => .inr (.inl hv)) .inl
    · exact .inr (.inr h)

end Binding

/-- A row of values binds the variables that it is a row for. -/
theorem Plan.vars_valuesRow (vs : List Var) (row : List (Option Term)) :
    (valuesRow vs row).vars ⊆ vs := by
  intro v hv
  rcases Binding.vars_foldl_insert hv with hv | hv
  · exact absurd hv List.not_mem_nil
  · obtain ⟨e, he, rfl⟩ := List.mem_map.mp hv
    obtain ⟨⟨w, t⟩, hw, he⟩ := List.mem_filterMap.mp he
    obtain ⟨t, rfl, rfl⟩ := Option.map_eq_some_iff.mp he
    exact (List.of_mem_zip hw).1

namespace Column

variable {c : Context}

/-- The values of columns are bound to their variables. -/
theorem bindAll_ensures (members : List Binding) (columns : List (Var × Column))
    (b : Binding) :
    (bindAll members columns b).Ensures c
      (·.vars ⊆ b.vars ++ columns.map (·.1)) := by
  induction columns generalizing b with
  | nil => exact .pure (List.subset_append_left _ _)
  | cons x rest ih =>
    obtain ⟨w, column⟩ := x
    refine .after fun t => ?_
    cases t with
    | none =>
      refine (ih b).mono fun found h v hv => ?_
      exact (List.mem_append.mp (h hv)).elim (List.mem_append_left _) fun hv =>
        List.mem_append_right _ (List.mem_cons_of_mem _ hv)
    | some t =>
      refine (ih (b.insert w t)).mono fun found h v hv => ?_
      rcases List.mem_append.mp (h hv) with hv | hv
      · rcases Binding.mem_vars_insert.mp hv with rfl | hv
        · exact List.mem_append_right _ List.mem_cons_self
        · exact List.mem_append_left _ hv
      · exact List.mem_append_right _ (List.mem_cons_of_mem _ hv)

theorem rows_ensures (keys : List Var) (columns : List (Var × Column))
    (groups : List (GroupKey × List Binding)) :
    (rows keys columns groups).Ensures c
      (∀ row ∈ ·, row.vars ⊆ keys ++ columns.map (·.1)) := by
  induction groups with
  | nil => exact .pure fun _ hrow => absurd hrow List.not_mem_nil
  | cons g rest ih =>
    refine (bindAll_ensures g.2 columns _).bind fun b hb => ih.bind fun bs hbs => .pure ?_
    refine List.forall_mem_cons.mpr ⟨fun v hv => ?_, hbs⟩
    rcases List.mem_append.mp (hb hv) with hv | hv
    · exact List.mem_append_left _ (Plan.vars_valuesRow keys g.1 hv)
    · exact List.mem_append_right _ hv

end Column

/-- The keys are computed for every row. -/
theorem SortKey.keyed_ensures {c : Context} (keys : List SortKey) (bs : List Binding) :
    (keyed keys bs).Ensures c fun found => found.map (·.2) = bs := by
  induction bs with
  | nil => exact .pure rfl
  | cons b rest ih =>
    refine .after fun i => .after fun vs => ih.bind fun rows hrows => .pure ?_
    rw [List.map_cons, hrows]

/-! ## Growing demand -/

namespace Plan

variable {σ : Type} {source : Plan} {c : Context} {P Q : Solutions → Prop}
  {known : σ → Prop} {combine : σ → Solutions → Eval (Solutions × σ)}

theorem grow_ensures (hsource : ∀ demand, (source demand).Ensures c P)
    (hcombine : ∀ memory s, known memory → P s →
      (combine memory s).Ensures c fun r => Q r.1 ∧ known r.2)
    (wanted asked : Nat) (memory : σ) (hknown : known memory) :
    (grow source wanted combine asked memory).Ensures c Q := by
  induction asked, memory using grow.induct with
  | case1 asked memory ih =>
    unfold grow
    refine (hsource _).bind fun s hs => (hcombine memory s hknown hs).bind fun r hr => ?_
    obtain ⟨o, memory'⟩ := r
    dsimp only
    -- the answer is what the last round has made, whichever round that is
    split
    · exact .pure hr.1
    · split
      · rename_i hasked
        exact ih memory' hasked hr.2
      · exact .pure hr.1

/-- What is yielded has been made of some solutions of the source, with a memory
that is known. -/
theorem fromPrefix_ensures (known : σ → Prop)
    (hsource : ∀ demand, (source demand).Ensures c P)
    (hcombine : ∀ memory s, known memory → P s →
      (combine memory s).Ensures c fun r => Q r.1 ∧ known r.2)
    (memory : σ) (hknown : known memory) (demand : Demand) :
    (source.fromPrefix memory combine demand).Ensures c Q := by
  cases demand with
  | none =>
    exact (hsource none).bind fun s hs =>
      (hcombine memory s hknown hs).bind fun _ hr => .pure hr.1
  | some wanted => exact grow_ensures hsource hcombine wanted _ memory hknown

theorem mapPrefix_ensures {combine : Solutions → Eval Solutions}
    (hsource : ∀ demand, (source demand).Ensures c P)
    (hcombine : ∀ s, P s → (combine s).Ensures c Q) (demand : Demand) :
    (source.mapPrefix combine demand).Ensures c Q :=
  fromPrefix_ensures (fun _ => True) hsource
    (fun _ s _ hs => (hcombine s hs).bind fun _ ho => .pure ⟨ho, trivial⟩) () trivial demand

/-- The right solutions are kept from round to round, and without left solutions
they are not needed. -/
theorem withRight_ensures {left right : Plan} {P' : Solutions → Prop}
    {combine : Solutions → Solutions → Eval Solutions}
    (hl : ∀ demand, (left demand).Ensures c P) (hr : (right none).Ensures c P')
    (hnull : Q .null)
    (hcombine : ∀ l r, P l → P' r → (combine l r).Ensures c Q) (demand : Demand) :
    (left.withRight right combine demand).Ensures c Q := by
  refine fromPrefix_ensures (fun memory => ∀ s ∈ memory, P' s) hl
    (fun memory l hmemory hl => ?_) none (fun _ h => absurd h (Option.not_mem_none _)) demand
  have hright : (remembered right memory).Ensures c P' := by
    cases memory with
    | none => exact hr
    | some s => exact .pure (hmemory s rfl)
  split
  · exact .pure ⟨hnull, hmemory⟩
  · refine hright.bind fun r hr => (hcombine l r hl hr).bind fun o ho => .pure ⟨ho, ?_⟩
    rintro s hs
    cases hs
    exact hr

end Plan

end SparqlAlgebra
