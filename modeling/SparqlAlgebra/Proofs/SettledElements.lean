import SparqlAlgebra.Proofs.ReorderedElements

/-!
# The new order is kept

Ordering elements once more changes nothing. The first element of an ordered segment comes
before all others, so it is taken first again. What the elements of a segment bind together
does not depend on their order, so the next segment is ordered as before, and every filter
has the same number.

* `precedes_total`, `precedes_trans`: the order of elements is total and transitive;
* `IsGreedy`: each element comes before those behind it, once those before it are bound;
* `orderSegments_orderSegments`: segments that are in order stay as they are;
* `reorder_within`: so do elements with their filters.
-/

namespace SparqlAlgebra.PatternOrder

open Element (conditions unfiltered)

variable {w : PatternWeights} {bound bound' : List Var} {es seg rest : List Element}
  {e f g : Element}

/-! ## The order of elements -/

theorem precedes_iff : precedes w bound e f = true ↔
    (bindsAny f bound = true → bindsAny e bound = true) ∧
      (bindsAny e bound = bindsAny f bound → cost w bound e ≤ cost w bound f) := by
  unfold precedes
  cases bindsAny e bound <;> cases bindsAny f bound <;> simp

theorem precedes_total (h : ¬ precedes w bound e f = true) : precedes w bound f e = true := by
  rw [precedes_iff] at h ⊢
  cases he : bindsAny e bound <;> cases hf : bindsAny f bound <;> simp [he, hf] at h ⊢ <;> omega

theorem precedes_trans (hef : precedes w bound e f = true) (hfg : precedes w bound f g = true) :
    precedes w bound e g = true := by
  rw [precedes_iff] at hef hfg ⊢
  cases he : bindsAny e bound <;> cases hf : bindsAny f bound <;>
    cases hg : bindsAny g bound <;> simp [he, hf, hg] at hef hfg ⊢ <;> omega

/-- The element that is taken comes before all others. -/
theorem precedes_of_takeBest (w : PatternWeights) (bound : List Var) (e : Element)
    (rest : List Element) :
    ∀ f ∈ (takeBest w bound e rest).2, precedes w bound (takeBest w bound e rest).1 f = true := by
  induction rest generalizing e with
  | nil => exact List.forall_mem_nil _
  | cons f rest ih =>
    have hself {e : Element} : precedes w bound e e = true := precedes_iff.mpr ⟨id, fun _ => le_rfl⟩
    have hall : ∀ x ∈ f :: rest, precedes w bound (takeBest w bound f rest).1 x = true :=
      fun x hx => (List.mem_cons.mp ((takeBest_perm w bound f rest).mem_iff.mpr hx)).elim
        (fun heq => heq ▸ hself) (ih f x)
    rw [takeBest]
    dsimp only
    split
    · rename_i hbest
      exact fun x hx => precedes_trans hbest (hall x hx)
    · rename_i hbest
      exact List.forall_mem_cons.mpr ⟨precedes_total hbest, ih f⟩

/-- An element that comes before all others is taken. -/
theorem takeBest_eq_self (h : ∀ f ∈ rest, precedes w bound e f = true) :
    takeBest w bound e rest = (e, rest) := by
  cases rest with
  | nil => rfl
  | cons f rest =>
    have hmem := (takeBest_perm w bound f rest).subset List.mem_cons_self
    rw [takeBest]
    exact if_pos (h _ hmem)

/-! ## Segments -/

/-- Each element comes before those behind it, once those before it are bound. -/
inductive IsGreedy (w : PatternWeights) : List Var → List Element → Prop
  | nil (bound : List Var) : IsGreedy w bound []
  | cons {bound : List Var} {e : Element} {rest : List Element}
    (hfirst : ∀ f ∈ rest, precedes w bound e f = true)
    (hrest : IsGreedy w (bound ++ e.boundVariables) rest) : IsGreedy w bound (e :: rest)

theorem orderSegment_isGreedy (w : PatternWeights) (bound : List Var) (seg : List Element) :
    IsGreedy w bound (orderSegment w bound seg) := by
  induction bound, seg using orderSegment.induct w with
  | case1 bound =>
    rw [orderSegment]
    exact .nil bound
  | case2 bound e rest next ih =>
    rw [orderSegment]
    refine .cons (fun f hf => ?_) ih
    exact precedes_of_takeBest w bound e rest f ((orderSegment_perm w _ _).subset hf)

theorem IsGreedy.orderSegment_eq (h : IsGreedy w bound seg) : orderSegment w bound seg = seg := by
  induction h with
  | nil bound => rw [orderSegment]
  | cons hfirst hrest ih => rw [orderSegment, takeBest_eq_self hfirst, ih]

/-! ## Bound variables

Only which variables are bound matters, and not the order in which they are listed. -/

section Bound

variable (h : ∀ v, v ∈ bound ↔ v ∈ bound')

include h

theorem bindsAny_congr (e : Element) : bindsAny e bound = bindsAny e bound' := by
  have hcontains (v : Var) : bound.contains v = bound'.contains v := by
    rw [Bool.eq_iff_iff, List.contains_iff_mem, List.contains_iff_mem, h v]
  simp only [bindsAny, hcontains]

theorem cost_congr (e : Element) : cost w bound e = cost w bound' e := by
  have hcontains (v : Var) : bound.contains v = bound'.contains v := by
    rw [Bool.eq_iff_iff, List.contains_iff_mem, List.contains_iff_mem, h v]
  have hknown : isKnown bound = isKnown bound' := by
    funext p
    cases p with
    | term _ => rfl
    | var v => exact hcontains v
  cases e <;> simp only [cost, hknown]

theorem takeBest_congr (e : Element) (rest : List Element) :
    takeBest w bound e rest = takeBest w bound' e rest := by
  have hprecedes (e f : Element) : precedes w bound e f = precedes w bound' e f := by
    rw [Bool.eq_iff_iff, precedes_iff, precedes_iff, bindsAny_congr h, bindsAny_congr h,
      cost_congr h, cost_congr h]
  induction rest generalizing e with
  | nil => rfl
  | cons f rest ih =>
    rw [takeBest, takeBest, ih]
    dsimp only
    rw [hprecedes]

theorem mem_append_congr (vs : List Var) :
    ∀ v, v ∈ bound ++ vs ↔ v ∈ bound' ++ vs := fun v => by
  rw [List.mem_append, List.mem_append, h v]

theorem mem_append_congr_right (vs : List Var) :
    ∀ v, v ∈ vs ++ bound ↔ v ∈ vs ++ bound' := fun v => by
  rw [List.mem_append, List.mem_append, h v]

theorem orderSegment_congr (seg : List Element) :
    orderSegment w bound seg = orderSegment w bound' seg := by
  induction bound, seg using orderSegment.induct w generalizing bound' with
  | case1 bound => rw [orderSegment, orderSegment]
  | case2 bound e rest next =>
    rename_i ih
    rw [orderSegment, orderSegment, ← takeBest_congr h]
    exact congrArg _ (ih (mem_append_congr h _))

theorem orderSegments_congr (seg es : List Element) :
    orderSegments w bound seg es = orderSegments w bound' seg es := by
  induction es generalizing bound bound' seg with
  | nil => exact orderSegment_congr h seg
  | cons e rest ih =>
    rw [orderSegments, orderSegments, orderSegment_congr h seg, ih h]
    rw [ih (mem_append_congr (mem_append_congr h _) _)]

end Bound

/-! ## Segments in order -/

theorem mem_boundByAll_of_perm (h : es.Perm seg) (v : Var) :
    v ∈ Element.boundByAll es ↔ v ∈ Element.boundByAll seg := by
  rw [mem_boundByAll_iff, mem_boundByAll_iff]
  exact exists_congr fun x => and_congr_left fun _ => h.mem_iff

theorem isMovable_of_mem_orderSegment (hseg : ∀ e ∈ seg, isMovable e = true) :
    ∀ e ∈ orderSegment w bound seg, isMovable e = true := fun e he =>
  hseg e ((orderSegment_perm w bound seg).subset he)

/-- Movable elements belong to the segment that is read. -/
theorem orderSegments_append (hes : ∀ e ∈ es, isMovable e = true) (he : isMovable e = false) :
    orderSegments w bound seg (es ++ e :: rest) =
      orderSegment w bound (seg ++ es) ++ e ::
        orderSegments w (bound ++ Element.boundByAll (seg ++ es) ++ e.boundVariables) [] rest := by
  induction es generalizing seg with
  | nil => rw [List.nil_append, orderSegments, if_neg (by simp [he]), List.append_nil]
  | cons f es ih =>
    obtain ⟨hf, hes⟩ := List.forall_mem_cons.mp hes
    rw [List.cons_append, orderSegments, if_pos hf, ih hes, List.append_assoc,
      List.singleton_append]

/-- Segments that are in order stay as they are. -/
theorem orderSegments_orderSegments (hseg : ∀ e ∈ seg, isMovable e = true) :
    orderSegments w bound [] (orderSegments w bound seg es) = orderSegments w bound seg es := by
  induction es generalizing bound seg with
  | nil =>
    rw [orderSegments, orderSegments_movable (isMovable_of_mem_orderSegment hseg)]
    exact (orderSegment_isGreedy w bound seg).orderSegment_eq
  | cons e rest ih =>
    rw [orderSegments]
    split
    · rename_i he
      exact ih (List.forall_mem_append.mpr ⟨hseg, List.forall_mem_singleton.mpr he⟩)
    · rename_i he
      have hbound := mem_append_congr (mem_append_congr_right
        (mem_boundByAll_of_perm (orderSegment_perm w bound seg)) bound) e.boundVariables
      rw [orderSegments_append (isMovable_of_mem_orderSegment hseg) (Bool.eq_false_iff.mpr he),
        List.nil_append, (orderSegment_isGreedy w bound seg).orderSegment_eq,
        orderSegments_congr hbound, ih (List.forall_mem_nil _)]

/-! ## Filters in order -/

section InsertFilters

variable {placed placed' : List (Nat × Expr)} {k : Nat}

/-- What is inserted are the conditions at the numbers of the list. -/
theorem insertFilters_congr
    (h : ∀ n, k ≤ n → n ≤ k + es.length → conditionsAt placed n = conditionsAt placed' n) :
    insertFilters placed k es = insertFilters placed' k es := by
  have hhere := h k le_rfl (Nat.le_add_right _ _)
  induction es generalizing k with
  | nil => rw [insertFilters_nil, insertFilters_nil, hhere]
  | cons e rest ih =>
    rw [List.length_cons] at h
    rw [insertFilters_cons, insertFilters_cons, hhere,
      ih (fun n hle hge => h n (by omega) (by omega)) (h (k + 1) (by omega) (by omega))]

theorem conditionsAt_places (number : Expr → Nat) (cs : List Expr) (n : Nat) :
    conditionsAt (cs.map fun e => (number e, e)) n = cs.filter fun e => number e = n := by
  rw [conditionsAt, List.filter_map, List.map_map]
  exact List.map_id _

theorem conditions_filters (cs : List Expr) (es : List Element) :
    conditions (cs.map .filter ++ es) = cs ++ conditions es := by
  rw [conditions, List.filterMap_append, List.filterMap_map]
  exact congrArg (· ++ _) List.filterMap_some

/-- The inserted conditions with a number are in the order in which they were given. -/
theorem filter_conditions_insertFilters (number : Expr → Nat) (cs : List Expr)
    (hes : conditions es = []) {n : Nat} (hle : k ≤ n) (hge : n ≤ k + es.length) :
    (conditions (insertFilters (cs.map fun e => (number e, e)) k es)).filter
      (fun e => number e = n) = cs.filter fun e => number e = n := by
  induction es generalizing k with
  | nil =>
    obtain rfl : n = k := Nat.le_antisymm hge hle
    have hnil : conditions [] = [] := rfl
    rw [insertFilters_nil, conditions_filters, conditionsAt_places, hnil, List.append_nil]
    exact List.filter_eq_self.mpr fun e he => (List.mem_filter.mp he).2
  | cons x rest ih =>
    obtain ⟨hx, hrest⟩ := List.forall_mem_cons.mp (List.filterMap_eq_nil_iff.mp hes)
    have hrest' : conditions rest = [] := List.filterMap_eq_nil_iff.mpr hrest
    have hcons (fs : List Element) : conditions (x :: fs) = conditions fs :=
      List.filterMap_cons_none hx
    rw [insertFilters_cons, conditions_filters, hcons, List.filter_append, conditionsAt_places]
    rcases Nat.eq_or_lt_of_le hle with rfl | hlt
    · -- the conditions behind have other numbers
      have hlater : (conditions (insertFilters (cs.map fun e => (number e, e)) (k + 1) rest)).filter
          (fun e => number e = k) = [] := by
        refine List.filter_eq_nil_iff.mpr fun e he => ?_
        obtain ⟨m, hm, hge, -⟩ := (mem_conditions_insertFilters hrest').mp he
        obtain ⟨f, -, heq⟩ := List.mem_map.mp hm
        obtain ⟨rfl, rfl⟩ := Prod.mk.inj heq
        simp only [decide_eq_true_eq]
        omega
      rw [hlater, List.append_nil]
      exact List.filter_eq_self.mpr fun e he => (List.mem_filter.mp he).2
    · have hhere : (cs.filter fun e => number e = k).filter (fun e => number e = n) = [] := by
        refine List.filter_eq_nil_iff.mpr fun e he => ?_
        have hk := of_decide_eq_true (List.mem_filter.mp he).2
        simp only [decide_eq_true_eq]
        omega
      rw [hhere, List.nil_append]
      exact ih hrest' hlt (by rw [List.length_cons] at hge; omega)

end InsertFilters

/-! ## Basic graph patterns in order -/

theorem ordered_within (w : PatternWeights) (es : List Element) :
    ordered w (within w es) = ordered w es := by
  rw [ordered, unfiltered_within]
  exact orderSegments_orderSegments (List.forall_mem_nil _)

/-- **The new order is kept.** Reordering the elements of a reordered pattern changes nothing,
and no filter is put around it. -/
theorem reorder_within (w : PatternWeights) (es : List Element) :
    reorder w (within w es) = .bgp (within w es) := by
  have hprovided : ∀ e ∈ conditions (within w es),
      isProvided (ordered w es) e = true := fun e he => (mem_conditions_within.mp he).2
  have haround : around w (within w es) = [] := by
    rw [around, ordered_within]
    exact List.filter_eq_nil_iff.mpr fun e he => by simp [hprovided e he]
  have hwithin : within w (within w es) = within w es := by
    have hplaces : placesWithin w (within w es) =
        (conditions (within w es)).map fun e => (lastBinder e.vars (ordered w es), e) := by
      rw [placesWithin, ordered_within, List.filter_eq_self.mpr hprovided]
    rw [within, ordered_within, hplaces]
    refine insertFilters_congr fun n hle hge => ?_
    rw [conditionsAt_places, placesWithin, conditionsAt_places]
    exact filter_conditions_insertFilters _ _ (conditions_ordered w es) hle hge
  rw [reorder_eq_foldl, haround, hwithin]
  rfl

end SparqlAlgebra.PatternOrder
