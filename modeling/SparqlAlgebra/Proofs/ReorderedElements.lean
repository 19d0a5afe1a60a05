import SparqlAlgebra.Proofs.AssignedOrders

/-!
# What a new order keeps

The rule for the order of patterns takes elements out of segments one by one, takes the
filters out of the list and puts them in again at numbers that it counts in the new order.
This loses no element, and each one stays within its bounds.

* `orderSegments_perm`, `orderSegments_split`: triples and paths are put in another order
  between the same assignments and sub-queries;
* `insertFilters_perm`, `insertFilters_split`: each filter is put behind as many elements as
  its number says;
* `bindsAny_of_take_lastBinder`, `bindsAny_of_mem_drop`: the number of a filter ends at an
  element that binds one of its variables, and no element behind it does;
* `reorder_keeps`: what this means for the elements of a basic graph pattern.
-/

namespace SparqlAlgebra.PatternOrder

open Element (conditions unfiltered)

variable {w : PatternWeights} {bound : List Var} {es seg : List Element}

/-! ## Segments -/

/-- Elements are lost from no segment. -/
theorem orderSegments_perm (w : PatternWeights) (bound : List Var) (seg es : List Element) :
    (orderSegments w bound seg es).Perm (seg ++ es) := by
  induction es generalizing bound seg with
  | nil =>
    rw [orderSegments, List.append_nil]
    exact orderSegment_perm w bound seg
  | cons e rest ih =>
    rw [orderSegments]
    split
    · exact (ih bound (seg ++ [e])).trans (by rw [List.append_assoc]; exact .refl _)
    · exact (orderSegment_perm w bound seg).append ((ih _ []).cons e)

/-- What stands before and behind an element that does not move is ordered on its own. -/
theorem orderSegments_split (hseg : ∀ e ∈ seg, isMovable e = true) {pre post : List Element}
    {x : Element} (hx : isMovable x = false) (h : seg ++ es = pre ++ x :: post) :
    ∃ pre' post', orderSegments w bound seg es = pre' ++ x :: post' ∧
      pre'.Perm pre ∧ post'.Perm post := by
  have hmem : x ∉ seg := fun hmem => by simp [hseg x hmem] at hx
  induction es generalizing bound seg pre with
  | nil =>
    rw [List.append_nil] at h
    exact absurd (h ▸ List.mem_append_right pre List.mem_cons_self) hmem
  | cons e rest ih =>
    rw [orderSegments]
    split
    · rename_i he
      have hseg' : ∀ f ∈ seg ++ [e], isMovable f = true :=
        List.forall_mem_append.mpr ⟨hseg, List.forall_mem_singleton.mpr he⟩
      refine ih hseg' (by rw [← h, List.append_assoc]; rfl) fun hmem => ?_
      simp [hseg' x hmem] at hx
    · rename_i he
      rcases List.append_eq_append_iff.mp h with ⟨a, rfl, ha⟩ | ⟨a, rfl, ha⟩
      · cases a with
        | nil =>
          obtain ⟨rfl, rfl⟩ := List.cons.inj ha
          refine ⟨_, _, rfl, ?_, orderSegments_perm w _ [] rest⟩
          rw [List.append_nil]
          exact orderSegment_perm w bound seg
        | cons y a =>
          obtain ⟨rfl, hrest⟩ := List.cons.inj ha
          obtain ⟨pre', post', horder, hpre, hpost⟩ :=
            @ih (bound ++ Element.boundByAll seg ++ e.boundVariables) []
              (List.forall_mem_nil _) a hrest List.not_mem_nil
          refine ⟨orderSegment w bound seg ++ e :: pre', post', ?_, ?_, hpost⟩
          · rw [horder, List.append_assoc, List.cons_append]
          · exact (orderSegment_perm w bound seg).append (hpre.cons e)
      · cases a with
        | nil =>
          obtain ⟨rfl, rfl⟩ := List.cons.inj ha
          refine ⟨_, _, rfl, ?_, orderSegments_perm w _ [] _⟩
          rw [List.append_nil]
          exact orderSegment_perm w bound pre
        | cons y a =>
          obtain ⟨rfl, -⟩ := List.cons.inj ha
          exact absurd (List.mem_append_right pre List.mem_cons_self) hmem

/-- The elements that do not move keep their order. -/
theorem barriers_orderSegments (hseg : ∀ e ∈ seg, isMovable e = true) :
    (orderSegments w bound seg es).filter (fun e => !isMovable e) =
      es.filter fun e => !isMovable e := by
  have hnone {bound : List Var} {seg : List Element} (hseg : ∀ e ∈ seg, isMovable e = true) :
      (orderSegment w bound seg).filter (fun e => !isMovable e) = [] := by
    refine List.filter_eq_nil_iff.mpr fun e he => ?_
    simp [hseg e ((orderSegment_perm w bound seg).subset he)]
  induction es generalizing bound seg with
  | nil =>
    rw [orderSegments]
    exact hnone hseg
  | cons e rest ih =>
    rw [orderSegments]
    split
    · rename_i he
      rw [ih (List.forall_mem_append.mpr ⟨hseg, List.forall_mem_singleton.mpr he⟩),
        List.filter_cons_of_neg (by simp [he])]
    · rename_i he
      rw [List.filter_append, hnone hseg, List.nil_append,
        List.filter_cons_of_pos (by simpa using he), List.filter_cons_of_pos (by simpa using he),
        ih (List.forall_mem_nil _)]

/-! ## Places of filters -/

/-- The number of a filter ends at an element that binds one of its variables. -/
theorem bindsAny_of_take_lastBinder {vs : List Var} {p : List Element} {x : Element}
    (h : es.take (lastBinder vs es) = p ++ [x]) : bindsAny x vs = true := by
  induction es generalizing p with
  | nil => simp at h
  | cons e rest ih =>
    rw [lastBinder] at h
    split at h
    · split at h
      · rename_i he
        rw [List.take_succ_cons, List.take_zero, ← List.nil_append [e]] at h
        obtain ⟨-, heq⟩ := List.append_inj' h rfl
        exact List.singleton_inj.mp heq ▸ he
      · simp at h
    · rename_i n hlast
      rw [List.take_succ_cons] at h
      cases p with
      | nil =>
        -- there are further elements, as the number of the rest is not zero
        obtain ⟨-, htake⟩ := List.cons.inj h
        cases rest with
        | nil => cases hlast
        | cons _ _ => cases htake
      | cons y p =>
        refine @ih p ?_
        rw [hlast]
        exact (List.cons.inj h).2

/-- No element behind the number of a filter binds one of its variables. -/
theorem bindsAny_of_mem_drop {vs : List Var} {x : Element}
    (h : x ∈ es.drop (lastBinder vs es)) : bindsAny x vs = false := by
  induction es with
  | nil => cases h
  | cons e rest ih =>
    rw [lastBinder] at h
    split at h
    · rename_i hlast
      rw [hlast, List.drop_zero] at ih
      split at h
      · exact ih h
      · rename_i he
        rcases List.mem_cons.mp h with rfl | h
        · exact Bool.eq_false_iff.mpr he
        · exact ih h
    · rename_i n hlast
      rw [hlast] at ih
      exact ih h

/-! ## Filters among elements -/

section InsertFilters

variable {placed : List (Nat × Expr)} {k : Nat}

/-- Filters that have a place within the list are inserted, and nothing else. -/
theorem insertFilters_perm (h : ∀ p ∈ placed, p.1 ≤ k + es.length) :
    (insertFilters placed k es).Perm
      (es ++ ((placed.filter (k ≤ ·.1)).map (·.2)).map .filter) := by
  induction es generalizing k with
  | nil =>
    have hhere : placed.filter (k ≤ ·.1) = placed.filter (·.1 = k) :=
      List.filter_congr fun p hp => by
        have hle := h p hp
        rw [List.length_nil] at hle
        exact decide_eq_decide.mpr (by omega)
    rw [insertFilters_nil, hhere, List.append_nil]
    exact .refl _
  | cons e rest ih =>
    have hsplit : (placed.filter (·.1 = k) ++ placed.filter (k + 1 ≤ ·.1)).Perm
        (placed.filter (k ≤ ·.1)) := by
      have hhere : (placed.filter (k ≤ ·.1)).filter (·.1 = k) = placed.filter (·.1 = k) := by
        rw [List.filter_filter]
        exact List.filter_congr fun p _ => by rw [← Bool.decide_and, decide_eq_decide]; omega
      have hlater : ((placed.filter (k ≤ ·.1)).filter fun p => !decide (p.1 = k)) =
          placed.filter (k + 1 ≤ ·.1) := by
        rw [List.filter_filter]
        refine List.filter_congr fun p _ => ?_
        rw [← decide_not, ← Bool.decide_and, decide_eq_decide]
        omega
      rw [← hhere, ← hlater]
      exact List.filter_append_perm _ _
    have hrest := @ih (k + 1) fun p hp => by
      have hle := h p hp
      rw [List.length_cons] at hle
      omega
    rw [insertFilters_cons]
    refine ((hrest.cons e).append_left _).trans ?_
    rw [← List.cons_append]
    refine (List.perm_append_comm_assoc _ (e :: rest) _).trans (.append_left _ ?_)
    rw [conditionsAt, ← List.map_append, ← List.map_append]
    exact (hsplit.map _).map _

theorem unfiltered_filters (cs : List Expr) (fs : List Element) :
    unfiltered (cs.map .filter ++ fs) = unfiltered fs := by
  induction cs with
  | nil => rfl
  | cons e rest ih => exact ih

/-- What stands before and behind one of the filters at a number are filters. -/
theorem conditionsAt_split {pre post : List Element} {e : Expr}
    (h : (conditionsAt placed k).map .filter = pre ++ .filter e :: post) :
    (k, e) ∈ placed ∧ unfiltered pre = [] ∧ ∃ cs : List Expr, post = cs.map .filter := by
  obtain ⟨cs, cs', hcs, rfl, hcs'⟩ := List.map_eq_append_iff.mp h
  obtain ⟨f, ds, rfl, hf, rfl⟩ := List.map_eq_cons_iff.mp hcs'
  obtain rfl := Element.filter.inj hf
  have hmem : f ∈ conditionsAt placed k := hcs ▸ List.mem_append_right cs List.mem_cons_self
  refine ⟨mem_conditionsAt.mp hmem, ?_, ds, rfl⟩
  rw [← List.append_nil (cs.map _), unfiltered_filters]
  rfl

/-- The elements before and behind an inserted filter are those up to its number and those
from it on. -/
theorem insertFilters_split (hes : conditions es = []) {pre post : List Element} {e : Expr}
    (h : insertFilters placed k es = pre ++ .filter e :: post) :
    ∃ n, (k + n, e) ∈ placed ∧ unfiltered pre = es.take n ∧ unfiltered post = es.drop n := by
  induction es generalizing k pre with
  | nil =>
    rw [insertFilters_nil, List.append_nil] at h
    obtain ⟨hmem, hpre, cs, rfl⟩ := conditionsAt_split h
    refine ⟨0, hmem, hpre, ?_⟩
    rw [← List.append_nil (cs.map _), unfiltered_filters]
    rfl
  | cons x rest ih =>
    obtain ⟨hx, hrest⟩ := List.forall_mem_cons.mp (List.filterMap_eq_nil_iff.mp hes)
    have hrest' : conditions rest = [] := List.filterMap_eq_nil_iff.mpr hrest
    have hcons (fs : List Element) : unfiltered (x :: fs) = x :: unfiltered fs :=
      List.filter_cons_of_pos (by rw [hx]; rfl)
    have hne {f : Expr} : x ≠ .filter f := fun heq => by
      rw [heq] at hx
      nomatch hx
    rw [insertFilters_cons] at h
    rcases List.append_eq_append_iff.mp h with ⟨a, rfl, ha⟩ | ⟨a, ha, hpost⟩
    · cases a with
      | nil => exact absurd (List.cons.inj ha).1 hne
      | cons y a =>
        obtain ⟨rfl, hinsert⟩ := List.cons.inj ha
        obtain ⟨n, hn, hpre, hpost⟩ := ih hrest' hinsert
        refine ⟨n + 1, by rwa [Nat.add_right_comm] at hn, ?_, hpost⟩
        rw [unfiltered_filters, hcons, hpre, List.take_succ_cons]
    · cases a with
      | nil => exact absurd (List.cons.inj hpost).1.symm hne
      | cons y a =>
        obtain ⟨rfl, rfl⟩ := List.cons.inj hpost
        obtain ⟨hmem, hpre, cs, rfl⟩ := conditionsAt_split ha
        refine ⟨0, hmem, hpre, ?_⟩
        change unfiltered (cs.map .filter ++ _) = _
        rw [unfiltered_filters, hcons, unfiltered_insertFilters hrest']
        rfl

/-- A list without an element lies on one side of it. -/
theorem infix_of_not_mem {α : Type} {l a b : List α} {x : α} (h : l <:+: a ++ x :: b)
    (hx : x ∉ l) : l <:+: a ∨ l <:+: b := by
  obtain ⟨pre, post, h⟩ := h
  rw [List.append_assoc] at h
  rcases List.append_eq_append_iff.mp h with ⟨c, rfl, hc⟩ | ⟨c, rfl, hc⟩
  · rcases List.append_eq_append_iff.mp hc with ⟨d, rfl, -⟩ | ⟨d, rfl, hd⟩
    · exact .inl ⟨pre, d, List.append_assoc _ _ _⟩
    · cases d with
      | nil => exact .inl ⟨pre, [], by simp⟩
      | cons y d =>
        obtain ⟨rfl, -⟩ := List.cons.inj hd
        exact absurd (List.mem_append_right c List.mem_cons_self) hx
  · cases c with
    | nil =>
      cases l with
      | nil => exact .inl ⟨[], a, rfl⟩
      | cons y l =>
        obtain ⟨rfl, -⟩ := List.cons.inj hc
        exact absurd List.mem_cons_self hx
    | cons y c =>
      obtain ⟨-, rfl⟩ := List.cons.inj hc
      exact .inr ⟨c, post, List.append_assoc _ _ _⟩

/-- Neighbouring filters have been inserted at one number. -/
theorem infix_conditionsAt {cs : List Expr}
    (hes : conditions es = []) (h : cs.map .filter <:+: insertFilters placed k es) :
    ∃ n, cs <:+: conditionsAt placed n := by
  have hinj {ds : List Expr} (h : cs.map Element.filter <:+: ds.map .filter) : cs <:+: ds := by
    have hmap (es : List Expr) : (es.map Element.filter).filterMap filterCondition? = es := by
      rw [List.filterMap_map]
      exact List.filterMap_some
    have h := h.filterMap filterCondition?
    rwa [hmap, hmap] at h
  induction es generalizing k with
  | nil =>
    rw [insertFilters_nil, List.append_nil] at h
    exact ⟨k, hinj h⟩
  | cons x rest ih =>
    obtain ⟨hx, hrest⟩ := List.forall_mem_cons.mp (List.filterMap_eq_nil_iff.mp hes)
    have hmem : x ∉ cs.map Element.filter := fun hmem => by
      obtain ⟨f, -, rfl⟩ := List.mem_map.mp hmem
      nomatch hx
    rw [insertFilters_cons] at h
    rcases infix_of_not_mem h hmem with h | h
    · exact ⟨k, hinj h⟩
    · exact ih (List.filterMap_eq_nil_iff.mpr hrest) h

end InsertFilters

/-! ## Basic graph patterns -/

/-- The conditions whose variables are all bound, with their places in the new order. -/
def placesWithin (w : PatternWeights) (es : List Element) : List (Nat × Expr) :=
  ((conditions es).filter (isProvided (ordered w es))).map fun e =>
    (lastBinder e.vars (ordered w es), e)

/-- The elements in their new order, with the filters that come among them. -/
def within (w : PatternWeights) (es : List Element) : List Element :=
  insertFilters (placesWithin w es) 0 (ordered w es)

/-- The conditions of the filters that come around the pattern. -/
def around (w : PatternWeights) (es : List Element) : List Expr :=
  (conditions es).filter fun e => !isProvided (ordered w es) e

theorem reorder_eq_foldl (w : PatternWeights) (es : List Element) :
    reorder w es = (around w es).foldl Node.filter (.bgp (within w es)) :=
  rfl

theorem ordered_perm (w : PatternWeights) (es : List Element) :
    (ordered w es).Perm (unfiltered es) :=
  orderSegments_perm w [] [] (unfiltered es)

theorem conditions_ordered (w : PatternWeights) (es : List Element) :
    conditions (ordered w es) = [] :=
  List.filterMap_eq_nil_iff.mpr fun _ he =>
    Option.isNone_iff_eq_none.mp (List.mem_filter.mp ((ordered_perm w es).subset he)).2

theorem unfiltered_within (w : PatternWeights) (es : List Element) :
    unfiltered (within w es) = ordered w es :=
  unfiltered_insertFilters (conditions_ordered w es)

theorem mem_placesWithin {n : Nat} {e : Expr} :
    (n, e) ∈ placesWithin w es ↔ e ∈ conditions es ∧ isProvided (ordered w es) e = true ∧
      lastBinder e.vars (ordered w es) = n := by
  simp only [placesWithin, List.mem_map, List.mem_filter, Prod.mk.injEq]
  constructor
  · rintro ⟨f, ⟨hf, hprovided⟩, rfl, rfl⟩
    exact ⟨hf, hprovided, rfl⟩
  · rintro ⟨he, hprovided, hn⟩
    exact ⟨e, ⟨he, hprovided⟩, hn, rfl⟩

/-- Filters may be taken to the end. -/
theorem perm_unfiltered (es : List Element) :
    (unfiltered es ++ (conditions es).map Element.filter).Perm es := by
  induction es with
  | nil => exact .refl _
  | cons e rest ih =>
    cases e with
    | filter f => exact List.perm_middle.trans (ih.cons _)
    | triple _ | path _ _ _ | assign _ _ | subQuery _ => exact ih.cons _

theorem mem_boundByAll_iff {v : Var} :
    v ∈ Element.boundByAll es ↔ ∃ x ∈ es, v ∈ x.boundVariables := by
  induction es with
  | nil => simp [Element.boundByAll]
  | cons e rest ih =>
    rw [List.exists_mem_cons_iff, ← ih]
    exact List.mem_append

theorem boundVariables_of_filter {x : Element} (hx : filterCondition? x ≠ none) :
    x.boundVariables = [] := by
  cases x with
  | filter _ => rfl
  | triple _ | path _ _ _ | assign _ _ | subQuery _ => exact absurd rfl hx

/-- The new order binds the same variables. -/
theorem mem_boundByAll_ordered {v : Var} :
    v ∈ Element.boundByAll (ordered w es) ↔ ∃ x ∈ es, v ∈ x.boundVariables := by
  rw [mem_boundByAll_iff]
  constructor
  · rintro ⟨x, hx, hv⟩
    exact ⟨x, (List.mem_filter.mp ((ordered_perm w es).subset hx)).1, hv⟩
  · rintro ⟨x, hx, hv⟩
    have hnone : filterCondition? x = none := by
      by_contra hsome
      rw [boundVariables_of_filter hsome] at hv
      nomatch hv
    have hmem : x ∈ unfiltered es := List.mem_filter.mpr ⟨hx, by rw [hnone]; rfl⟩
    exact ⟨x, (ordered_perm w es).mem_iff.mpr hmem, hv⟩

theorem isProvided_iff {e : Expr} :
    isProvided (ordered w es) e = true ↔ ∀ v ∈ e.vars, ∃ x ∈ es, v ∈ x.boundVariables := by
  rw [isProvided, List.all_eq_true]
  exact forall₂_congr fun v _ => List.contains_iff_mem.trans mem_boundByAll_ordered

/-- The new elements `out` of a basic graph pattern with the conditions that come around it. -/
structure IsReordering (es out : List Element) (around : List Expr) : Prop where
  /-- Nothing is lost. -/
  perm : (out ++ around.map Element.filter).Perm es
  /-- Assignments and sub-queries keep their order. -/
  barriers : (unfiltered out).filter (fun x => !isMovable x) =
    (unfiltered es).filter fun x => !isMovable x
  /-- Nothing moves across an assignment or a sub-query. -/
  segments : ∀ pre x post, isMovable x = false → unfiltered es = pre ++ x :: post →
    ∃ pre' post', unfiltered out = pre' ++ x :: post' ∧ pre'.Perm pre ∧ post'.Perm post
  /-- A filter comes around the pattern exactly if one of its variables is bound nowhere. -/
  bound : ∀ e, .filter e ∈ out → ∀ v ∈ e.vars, ∃ x ∈ es, v ∈ x.boundVariables
  unbound : ∀ e ∈ around, ∃ v ∈ e.vars, ∀ x ∈ es, v ∉ x.boundVariables
  /-- Every other filter comes right behind the last element that binds one of its variables,
  or first, with nothing but filters between. -/
  placed : ∀ pre e post, out = pre ++ .filter e :: post →
    (∀ x ∈ post, bindsAny x e.vars = false) ∧
    ∃ (front : List Element) (cs : List Expr), pre = front ++ cs.map .filter ∧
      (front = [] ∨ ∃ front' x, front = front' ++ [x] ∧ bindsAny x e.vars = true)
  /-- Neighbouring filters keep their order. -/
  stable : ∀ cs : List Expr, cs.map .filter <:+: out → cs.Sublist (conditions es)
  stableAround : around.Sublist (conditions es)

/-- Elements end with filters, which stand behind another element or first. -/
theorem exists_filters_at_end (es : List Element) :
    ∃ (front : List Element) (cs : List Expr), es = front ++ cs.map .filter ∧
      (front = [] ∨ ∃ front' x, front = front' ++ [x] ∧ filterCondition? x = none) := by
  induction es using List.reverseRecOn with
  | nil => exact ⟨[], [], rfl, .inl rfl⟩
  | append_singleton rest x ih =>
    cases hx : filterCondition? x with
    | none =>
      exact ⟨rest ++ [x], [], (List.append_nil _).symm, .inr ⟨rest, x, rfl, hx⟩⟩
    | some e =>
      obtain ⟨front, cs, rfl, hfront⟩ := ih
      have heq : x = .filter e := by
        cases x with
        | filter _ => exact congrArg _ (Option.some.inj hx)
        | triple _ | path _ _ _ | assign _ _ | subQuery _ => nomatch hx
      refine ⟨front, cs ++ [e], ?_, hfront⟩
      rw [heq, List.map_append, List.append_assoc]
      rfl

/-- A filter in the new order is behind the last element that binds one of its variables. -/
theorem within_split {pre post : List Element} {e : Expr}
    (h : within w es = pre ++ .filter e :: post) :
    (∀ x ∈ post, bindsAny x e.vars = false) ∧
    ∃ (front : List Element) (cs : List Expr), pre = front ++ cs.map .filter ∧
      (front = [] ∨ ∃ front' x, front = front' ++ [x] ∧ bindsAny x e.vars = true) := by
  obtain ⟨n, hn, hpre, hpost⟩ := insertFilters_split (conditions_ordered w es) h
  rw [Nat.zero_add] at hn
  obtain ⟨-, -, rfl⟩ := mem_placesWithin.mp hn
  constructor
  · intro x hx
    cases hcondition : filterCondition? x with
    | none =>
      have hmem : x ∈ unfiltered post := List.mem_filter.mpr ⟨hx, by rw [hcondition]; rfl⟩
      exact bindsAny_of_mem_drop (hpost ▸ hmem)
    | some f =>
      have hnone := boundVariables_of_filter (x := x) (by rw [hcondition]; nofun)
      rw [bindsAny, hnone]
      rfl
  · obtain ⟨front, cs, rfl, rfl | ⟨front', x, rfl, hx⟩⟩ := exists_filters_at_end pre
    · exact ⟨[], cs, rfl, .inl rfl⟩
    · refine ⟨_, cs, rfl, .inr ⟨front', x, rfl, ?_⟩⟩
      have hlast : unfiltered (front' ++ [x] ++ cs.map .filter) = unfiltered front' ++ [x] := by
        have hcs : unfiltered (cs.map Element.filter) = [] := by
          rw [← List.append_nil (cs.map _), unfiltered_filters]
          rfl
        have hsingle : unfiltered [x] = [x] := List.filter_cons_of_pos (by rw [hx]; rfl)
        rw [unfiltered, List.filter_append, List.filter_append]
        change unfiltered front' ++ unfiltered [x] ++ unfiltered _ = _
        rw [hcs, hsingle, List.append_nil]
      exact bindsAny_of_take_lastBinder (hpre.symm.trans hlast)

theorem conditions_placed (f : Expr → Nat) (cs : List Expr) :
    (cs.map fun e => (f e, e)).map (·.2) = cs := by
  rw [List.map_map]
  exact List.map_id cs

/-- Nothing is lost: each filter is among the elements or around them. -/
theorem within_perm (w : PatternWeights) (es : List Element) :
    (within w es ++ (around w es).map Element.filter).Perm es := by
  have hle : ∀ p ∈ placesWithin w es, p.1 ≤ 0 + (ordered w es).length := by
    rintro ⟨n, e⟩ hp
    obtain ⟨-, -, rfl⟩ := mem_placesWithin.mp hp
    exact (lastBinder_le _ _).trans (Nat.le_add_left _ 0)
  have hnumbers : ((placesWithin w es).filter (0 ≤ ·.1)).map (·.2) =
      (conditions es).filter (isProvided (ordered w es)) := by
    rw [List.filter_eq_self.mpr fun _ _ => decide_eq_true (Nat.zero_le _)]
    exact conditions_placed _ _
  have hwithin := insertFilters_perm hle
  rw [hnumbers] at hwithin
  have hgathered : (within w es ++ (around w es).map Element.filter).Perm
      (ordered w es ++ ((conditions es).filter (isProvided (ordered w es)) ++
        around w es).map Element.filter) := by
    rw [List.map_append, ← List.append_assoc]
    exact hwithin.append_right _
  have hall : ((conditions es).filter (isProvided (ordered w es)) ++ around w es).Perm
      (conditions es) := List.filter_append_perm _ _
  exact (hgathered.trans ((ordered_perm w es).append (hall.map _))).trans (perm_unfiltered es)

theorem mem_conditions_within {e : Expr} :
    e ∈ conditions (within w es) ↔
      e ∈ conditions es ∧ isProvided (ordered w es) e = true := by
  rw [within, mem_conditions_insertFilters (conditions_ordered w es)]
  constructor
  · rintro ⟨n, hn, -⟩
    exact ⟨(mem_placesWithin.mp hn).1, (mem_placesWithin.mp hn).2.1⟩
  · rintro ⟨he, hprovided⟩
    exact ⟨_, mem_placesWithin.mpr ⟨he, hprovided, rfl⟩, Nat.zero_le _,
      (lastBinder_le _ _).trans (Nat.le_add_left _ 0)⟩

/-- Reordering loses nothing and respects its bounds. -/
theorem reorder_keeps (w : PatternWeights) (es : List Element) :
    ∃ out around, reorder w es = List.foldl Node.filter (.bgp out) around ∧
      IsReordering es out around := by
  refine ⟨within w es, around w es, rfl, ?_⟩
  constructor
  case perm => exact within_perm w es
  case barriers =>
    rw [unfiltered_within]
    exact barriers_orderSegments (List.forall_mem_nil _)
  case segments =>
    intro pre x post hx h
    rw [unfiltered_within]
    exact orderSegments_split (List.forall_mem_nil _) hx h
  case bound =>
    intro e he
    have hmem : e ∈ conditions (within w es) := List.mem_filterMap.mpr ⟨_, he, rfl⟩
    exact isProvided_iff.mp (mem_conditions_within.mp hmem).2
  case unbound =>
    intro e he
    have hnot : ¬ isProvided (ordered w es) e = true := by
      simpa using (List.mem_filter.mp he).2
    rw [isProvided_iff] at hnot
    push Not at hnot
    exact hnot
  case placed => exact fun pre e post h => within_split h
  case stable =>
    intro cs h
    obtain ⟨n, hcs⟩ := infix_conditionsAt (conditions_ordered w es) h
    refine (hcs.sublist.trans (List.filter_sublist.map _)).trans ?_
    rw [placesWithin, conditions_placed]
    exact List.filter_sublist
  case stableAround => exact List.filter_sublist

end SparqlAlgebra.PatternOrder
