import SparqlAlgebra.Proofs.Rearrangements

/-!
# The order of patterns keeps the solutions

However a rule chooses among the patterns of a segment, it ends up with all of
them, and it puts a filter behind the last pattern that binds one of its
variables. So the new order is a rearrangement, and it does not matter which
weights it comes from.

* `PatternOrder.reorder_rearranges`: one basic graph pattern;
* `Node.mapUp_rearranges`: a change of basic graph patterns that rearranges them
  rearranges trees;
* `PatternOrder.rule_rows`: the bag of solutions stays the same.
-/

namespace SparqlAlgebra

/-! ## Leading filters -/

namespace Element

variable {bound : List Var} {cs : List Expr} {es : List Element}

theorem patterns_filters : patterns (cs.map .filter ++ es) = patterns es := by
  have hnone : (cs.map Element.filter).filterMap pattern? = [] := by
    rw [List.filterMap_map]
    exact List.filterMap_eq_nil_iff.mpr fun _ _ => rfl
  rw [patterns, List.filterMap_append, hnone, List.nil_append]
  rfl

theorem mem_conditions_filters {e : Expr} :
    e ∈ conditions (cs.map .filter ++ es) ↔ e ∈ cs ∨ e ∈ conditions es := by
  have hall : (cs.map Element.filter).filterMap PatternOrder.filterCondition? = cs := by
    rw [List.filterMap_map]
    exact List.filterMap_some
  rw [conditions, List.filterMap_append, hall, List.mem_append]
  rfl

theorem isCovered_filters :
    isCovered bound (cs.map .filter ++ es) = true ↔
      (∀ e ∈ cs, e.isPlain = true ∧ e.vars ⊆ bound) ∧ isCovered bound es = true := by
  induction cs with
  | nil => simp
  | cons e rest ih =>
    rw [List.map_cons, List.cons_append, isCovered_filter, ih, List.forall_mem_cons]
    simp only [and_assoc]

theorem of_mem_conditions (h : isCovered bound es = true) {e : Expr}
    (he : e ∈ conditions es) :
    e.isPlain = true ∧ e.vars ⊆ bound ++ boundByAll es := by
  induction es generalizing bound with
  | nil => cases he
  | cons x rest ih =>
    cases x with
    | triple p =>
      have hrest : isCovered (bound ++ p.vars) rest = true := h
      have ih := ih hrest he
      rwa [List.append_assoc] at ih
    | filter f =>
      obtain ⟨hplain, hvars, hrest⟩ := isCovered_filter.mp h
      rcases List.mem_cons.mp he with rfl | he
      · exact ⟨hplain, List.Subset.trans hvars (List.subset_append_left _ _)⟩
      · exact ih hrest he
    | path _ _ _ | assign _ _ | subQuery _ => cases h

end Element

namespace PatternOrder

variable {w : PatternWeights} {bound : List Var}

/-! ## Segments -/

theorem takeBest_perm (w : PatternWeights) (bound : List Var) (e : Element)
    (rest : List Element) :
    ((takeBest w bound e rest).1 :: (takeBest w bound e rest).2).Perm (e :: rest) := by
  induction rest generalizing e with
  | nil => exact .refl _
  | cons f rest ih =>
    unfold takeBest
    dsimp only
    split
    · exact .refl _
    · exact (List.Perm.swap _ _ _).trans ((ih f).cons e)

/-- Taking the best element again and again leaves none out. -/
theorem orderSegment_perm (w : PatternWeights) (bound : List Var)
    (segment : List Element) : (orderSegment w bound segment).Perm segment := by
  induction bound, segment using orderSegment.induct w with
  | case1 bound => rw [orderSegment]
  | case2 bound e rest next ih =>
    rw [orderSegment]
    exact (ih.cons next.1).trans (takeBest_perm w bound e rest)

/-- Movable elements are one segment. -/
theorem orderSegments_movable {segment es : List Element}
    (h : ∀ e ∈ es, isMovable e = true) :
    orderSegments w bound segment es = orderSegment w bound (segment ++ es) := by
  induction es generalizing segment with
  | nil => rw [orderSegments, List.append_nil]
  | cons e rest ih =>
    obtain ⟨he, hrest⟩ := List.forall_mem_cons.mp h
    rw [orderSegments, if_pos he, ih hrest, List.append_assoc, List.singleton_append]

/-! ## Places of filters -/

theorem lastBinder_le (vs : List Var) (es : List Element) :
    lastBinder vs es ≤ es.length := by
  induction es with
  | nil => exact Nat.le_refl 0
  | cons e rest ih =>
    unfold lastBinder
    rw [List.length_cons]
    split
    · split <;> omega
    · omega

/-- Behind the last element that binds one of some variables, all of them that
are bound at all are bound. -/
theorem mem_boundByAll_take {vs : List Var} {es : List Element} {v : Var} (hv : v ∈ vs)
    (h : v ∈ Element.boundByAll es) :
    v ∈ Element.boundByAll (es.take (lastBinder vs es)) := by
  induction es with
  | nil => exact h
  | cons e rest ih =>
    unfold lastBinder
    rcases List.mem_append.mp h with he | hrest
    · split
      · have hbinds : bindsAny e vs = true :=
          List.any_eq_true.mpr ⟨v, he, List.contains_iff_mem.mpr hv⟩
        rw [if_pos hbinds]
        exact List.mem_append_left _ he
      · exact List.mem_append_left _ he
    · have ih := ih hrest
      split
      · rename_i hlast
        rw [hlast] at ih
        cases ih
      · rename_i n hlast
        rw [hlast] at ih
        exact List.mem_append_right _ ih

/-! ## Filters among patterns -/

section InsertFilters

variable {placed : List (Nat × Expr)} {ps : List TriplePattern} {k : Nat}

/-- The conditions that come behind as many elements as the number says. -/
def conditionsAt (placed : List (Nat × Expr)) (k : Nat) : List Expr :=
  (placed.filter (·.1 = k)).map (·.2)

theorem mem_conditionsAt {e : Expr} : e ∈ conditionsAt placed k ↔ (k, e) ∈ placed := by
  simp [conditionsAt]

theorem here_eq (placed : List (Nat × Expr)) (k : Nat) :
    insertFilters.here placed k = (conditionsAt placed k).map .filter := by
  rw [conditionsAt, List.map_map]
  rfl

theorem insertFilters_nil (placed : List (Nat × Expr)) (k : Nat) :
    insertFilters placed k [] = (conditionsAt placed k).map .filter ++ [] := by
  rw [List.append_nil]
  exact here_eq placed k

theorem insertFilters_cons (placed : List (Nat × Expr)) (k : Nat) (e : Element)
    (es : List Element) :
    insertFilters placed k (e :: es) =
      (conditionsAt placed k).map .filter ++ e :: insertFilters placed (k + 1) es :=
  congrArg (· ++ _) (here_eq placed k)

/-- Inserting filters keeps the patterns in their order. -/
theorem patterns_insertFilters :
    Element.patterns (insertFilters placed k (ps.map .triple)) = ps := by
  induction ps generalizing k with
  | nil =>
    rw [List.map_nil, insertFilters_nil, Element.patterns_filters]
    rfl
  | cons p rest ih =>
    rw [List.map_cons, insertFilters_cons, Element.patterns_filters]
    exact congrArg (p :: ·) ih

/-- The filters that are placed within the list are inserted. -/
theorem mem_conditions_insertFilters {es : List Element} (hes : Element.conditions es = [])
    {e : Expr} :
    e ∈ Element.conditions (insertFilters placed k es) ↔
      ∃ n, (n, e) ∈ placed ∧ k ≤ n ∧ n ≤ k + es.length := by
  induction es generalizing k with
  | nil =>
    rw [insertFilters_nil, Element.mem_conditions_filters, mem_conditionsAt]
    constructor
    · rintro (h | h)
      · exact ⟨k, h, Nat.le_refl k, Nat.le_refl k⟩
      · cases h
    · rintro ⟨n, hn, hle, hge⟩
      rw [Nat.le_antisymm hle hge]
      exact .inl hn
  | cons x rest ih =>
    have hnone := List.filterMap_eq_nil_iff.mp hes
    have hx : Element.conditions (x :: insertFilters placed (k + 1) rest) =
        Element.conditions (insertFilters placed (k + 1) rest) :=
      List.filterMap_cons_none (hnone x List.mem_cons_self)
    have hrest : Element.conditions rest = [] :=
      List.filterMap_eq_nil_iff.mpr fun y hy => hnone y (List.mem_cons_of_mem _ hy)
    rw [insertFilters_cons, Element.mem_conditions_filters, mem_conditionsAt, hx, ih hrest,
      List.length_cons]
    constructor
    · rintro (h | ⟨n, hn, hle, hge⟩)
      · exact ⟨k, h, Nat.le_refl k, Nat.le_add_right k _⟩
      · exact ⟨n, hn, by omega, by omega⟩
    · rintro ⟨n, hn, hle, hge⟩
      rcases Nat.eq_or_lt_of_le hle with rfl | hlt
      · exact .inl hn
      · exact .inr ⟨n, hn, hlt, by omega⟩

theorem conditions_triples (ps : List TriplePattern) :
    Element.conditions (ps.map .triple) = [] := by
  rw [Element.conditions, List.filterMap_map]
  exact List.filterMap_eq_nil_iff.mpr fun _ _ => rfl

/-- Filters are covered if their variables are bound by the patterns before the
place they are inserted at. -/
theorem isCovered_insertFilters
    (h : ∀ n e, (n, e) ∈ placed → k ≤ n → e.isPlain = true ∧
      e.vars ⊆ bound ++ Element.boundByAll ((ps.map .triple).take (n - k))) :
    Element.isCovered bound (insertFilters placed k (ps.map .triple)) = true := by
  have hhere : ∀ e ∈ conditionsAt placed k, e.isPlain = true ∧ e.vars ⊆ bound := by
    intro e he
    have h := h k e (mem_conditionsAt.mp he) (Nat.le_refl k)
    rw [Nat.sub_self, List.take_zero, Element.boundByAll, List.append_nil] at h
    exact h
  induction ps generalizing k bound with
  | nil =>
    rw [List.map_nil, insertFilters_nil]
    exact Element.isCovered_filters.mpr ⟨hhere, rfl⟩
  | cons p rest ih =>
    rw [List.map_cons, insertFilters_cons]
    refine Element.isCovered_filters.mpr ⟨hhere, ?_⟩
    have hlater (n : Nat) (e : Expr) (hn : (n, e) ∈ placed) (hle : k + 1 ≤ n) :
        e.isPlain = true ∧ e.vars ⊆ (bound ++ p.vars) ++
          Element.boundByAll ((rest.map .triple).take (n - (k + 1))) := by
      have h := h n e hn (Nat.le_of_succ_le hle)
      have htake : (n - k) = (n - (k + 1)) + 1 := by omega
      rw [htake, List.map_cons, List.take_succ_cons] at h
      rw [List.append_assoc]
      exact h
    refine ih hlater fun e he => ?_
    have h := hlater (k + 1) e (mem_conditionsAt.mp he) (Nat.le_refl _)
    rw [Nat.sub_self, List.take_zero, Element.boundByAll, List.append_nil] at h
    exact h

end InsertFilters

/-! ## Basic graph patterns -/

/-- The elements that are ordered are the triples. -/
theorem filter_isNone_eq {es : List Element} (h : Element.isCovered bound es = true) :
    es.filter (fun e => (filterCondition? e).isNone) = (Element.patterns es).map .triple := by
  induction es generalizing bound with
  | nil => rfl
  | cons e rest ih =>
    cases e with
    | triple p => exact congrArg (Element.triple p :: ·) (ih h)
    | filter e => exact ih (Element.isCovered_filter.mp h).2.2
    | path _ _ _ | assign _ _ | subQuery _ => cases h

theorem map_patterns {es : List Element} (h : ∀ e ∈ es, ∃ p, e = .triple p) :
    (Element.patterns es).map .triple = es := by
  induction es with
  | nil => rfl
  | cons e rest ih =>
    obtain ⟨⟨p, rfl⟩, hrest⟩ := List.forall_mem_cons.mp h
    exact congrArg (Element.triple p :: ·) (ih hrest)

/-- Triples in another order are triples of the patterns in another order. -/
theorem exists_patterns_of_perm {es : List Element} {ps : List TriplePattern}
    (h : es.Perm (ps.map .triple)) :
    ∃ qs : List TriplePattern, qs.Perm ps ∧ es = qs.map .triple := by
  have hpatterns : (ps.map Element.triple).filterMap Element.pattern? = ps := by
    rw [List.filterMap_map]
    exact List.filterMap_some
  have htriples : ∀ e ∈ es, ∃ p, e = .triple p := by
    intro e he
    obtain ⟨p, -, rfl⟩ := List.mem_map.mp (h.subset he)
    exact ⟨p, rfl⟩
  refine ⟨Element.patterns es, ?_, (map_patterns htriples).symm⟩
  have hperm := h.filterMap Element.pattern?
  rwa [hpatterns] at hperm

theorem mem_boundByAll_map {ps : List TriplePattern} {v : Var} :
    v ∈ Element.boundByAll (ps.map .triple) ↔ ∃ p ∈ ps, v ∈ p.vars := by
  induction ps with
  | nil => simp [Element.boundByAll]
  | cons p rest ih =>
    rw [List.exists_mem_cons_iff, ← ih]
    exact List.mem_append

/-- If all variables are provided, no filter is put around the pattern. -/
theorem placeFilters_eq {es : List Element} {cs : List Expr}
    (h : ∀ e ∈ cs, e.vars ⊆ Element.boundByAll es) :
    placeFilters es cs =
      .bgp (insertFilters (cs.map fun e => (lastBinder e.vars es, e)) 0 es) := by
  have hprovided : ∀ e ∈ cs, isProvided es e = true := by
    intro e he
    refine List.all_eq_true.mpr fun v hv => ?_
    exact List.contains_iff_mem.mpr (h e he hv)
  have hwithin : cs.filter (isProvided es) = cs := List.filter_eq_self.mpr hprovided
  have haround : cs.filter (fun e => !isProvided es e) = [] :=
    List.filter_eq_nil_iff.mpr fun e he => by simp [hprovided e he]
  unfold placeFilters
  rw [hwithin, haround]
  rfl

/-- The new order is a rearrangement. -/
theorem reorder_rearranges (w : PatternWeights) {es : List Element}
    (h : Element.isCovered [] es = true) :
    ∃ es', reorder w es = .bgp es' ∧ Element.Rearrange es' es := by
  obtain ⟨qs, hqs, horder⟩ :=
    exists_patterns_of_perm (orderSegment_perm w [] ((Element.patterns es).map .triple))
  have hmovable : ∀ e ∈ (Element.patterns es).map Element.triple, isMovable e = true := by
    intro e he
    obtain ⟨p, -, rfl⟩ := List.mem_map.mp he
    rfl
  have hbound {v : Var} :
      v ∈ Element.boundByAll es ↔ v ∈ Element.boundByAll (qs.map .triple) := by
    rw [Element.mem_boundByAll h, mem_boundByAll_map]
    exact exists_congr fun p => and_congr_left fun _ => hqs.mem_iff.symm
  have hconditions : ∀ e ∈ Element.conditions es,
      e.isPlain = true ∧ e.vars ⊆ Element.boundByAll (qs.map .triple) := by
    intro e he
    obtain ⟨hplain, hvars⟩ := Element.of_mem_conditions h he
    exact ⟨hplain, fun v hv => hbound.mp (hvars hv)⟩
  let place (e : Expr) : Nat := lastBinder e.vars (qs.map .triple)
  let placed := (Element.conditions es).map fun e => (place e, e)
  have hreorder : reorder w es = .bgp (insertFilters placed 0 (qs.map .triple)) := by
    unfold reorder
    rw [filter_isNone_eq h, orderSegments_movable hmovable, List.nil_append, horder]
    exact placeFilters_eq fun e he => (hconditions e he).2
  refine ⟨_, hreorder, ⟨isCovered_insertFilters fun n e hn _ => ?_, h, ?_, fun e => ?_⟩⟩
  · obtain ⟨f, hf, heq⟩ := List.mem_map.mp hn
    cases heq
    obtain ⟨hplain, hvars⟩ := hconditions e hf
    exact ⟨hplain, fun v hv => mem_boundByAll_take hv (hvars hv)⟩
  · rw [patterns_insertFilters]
    exact hqs
  · rw [mem_conditions_insertFilters (conditions_triples qs)]
    constructor
    · rintro ⟨n, hn, -, -⟩
      obtain ⟨f, hf, heq⟩ := List.mem_map.mp hn
      cases heq
      exact hf
    · intro he
      refine ⟨place e, List.mem_map.mpr ⟨e, he, rfl⟩, Nat.zero_le _, ?_⟩
      exact (lastBinder_le e.vars (qs.map .triple)).trans (Nat.le_add_left _ 0)

end PatternOrder

/-! ## Trees -/

/-- Whether a tree is built from operators on bags of solutions, with plain
expressions and with covered filters in its basic graph patterns. -/
def Node.isPatternTree : Node → Bool
  | .bgp es => Element.isCovered [] es
  | .join l r | .leftJoin l r none | .union l r | .minus l r =>
    l.isPatternTree && r.isPatternTree
  | .leftJoin l r (some e) => l.isPatternTree && r.isPatternTree && e.isPlain
  | .filter inner e | .extend inner _ e => inner.isPatternTree && e.isPlain
  | .orderBy inner keys => inner.isPatternTree && OrderKey.arePlain keys
  | .distinct inner | .reduced inner | .project inner _ | .graph inner _ =>
    inner.isPatternTree
  | .values _ _ => true
  | _ => false

theorem Expr.mapUpM_of_isPlain {f : Node → Id Node} {e : Expr} (h : e.isPlain = true) :
    e.mapUpM f = e :=
  e.mapUpM_eq_self (by simpa using (Bool.and_eq_true_iff.mp h).2)

theorem OrderKey.mapAllUpM_of_arePlain {f : Node → Id Node} {keys : List OrderKey}
    (h : OrderKey.arePlain keys = true) : OrderKey.mapAllUpM f keys = keys := by
  induction keys with
  | nil => rfl
  | cons key rest ih =>
    obtain ⟨e, descending⟩ := key
    obtain ⟨he, hrest⟩ := Bool.and_eq_true_iff.mp h
    exact congrArg₂ (fun e rest => OrderKey.sortBy e descending :: rest)
      (Expr.mapUpM_of_isPlain he) (ih hrest)

theorem Element.mapAllUpM_of_isCovered {f : Node → Id Node} {bound : List Var}
    {es : List Element} (h : isCovered bound es = true) : mapAllUpM f es = es := by
  induction es generalizing bound with
  | nil => rfl
  | cons e rest ih =>
    cases e with
    | triple p => exact congrArg (Element.triple p :: ·) (ih h)
    | filter e =>
      obtain ⟨hplain, -, hrest⟩ := isCovered_filter.mp h
      exact congrArg₂ (fun e rest => Element.filter e :: rest)
        (Expr.mapUpM_of_isPlain hplain) (ih hrest)
    | path _ _ _ | assign _ _ | subQuery _ => cases h

/-- A change of a node that rearranges basic graph patterns and leaves all others
alone. -/
structure RearrangesPatterns (f : Node → Node) : Prop where
  bgp : ∀ es, Element.isCovered [] es = true → (f (.bgp es)).Rearranges (.bgp es)
  other : ∀ n, (∀ es, n ≠ .bgp es) → f n = n

theorem RearrangesPatterns.keeps {f : Node → Node} (hf : RearrangesPatterns f)
    {n' n : Node} (h : n'.Rearranges n) (hn : ∀ es, n' ≠ .bgp es) :
    (f n').Rearranges n := by
  rw [hf.other n' hn]
  exact h

/-- A change that rearranges basic graph patterns rearranges trees. -/
theorem Node.mapUp_rearranges {f : Node → Node} (hf : RearrangesPatterns f) :
    ∀ n : Node, n.isPatternTree = true → (n.mapUp f).Rearranges n
  | .bgp es, h => by
    have hmap : (Node.bgp es).mapUp f = f (.bgp es) :=
      congrArg (fun es => f (.bgp es)) (Element.mapAllUpM_of_isCovered h)
    rw [hmap]
    exact hf.bgp es h
  | .join l r, h => by
    obtain ⟨hl, hr⟩ := Bool.and_eq_true_iff.mp h
    exact hf.keeps (.join (l.mapUp_rearranges hf hl) (r.mapUp_rearranges hf hr)) nofun
  | .leftJoin l r none, h => by
    obtain ⟨hl, hr⟩ := Bool.and_eq_true_iff.mp h
    exact hf.keeps (.leftJoin (l.mapUp_rearranges hf hl) (r.mapUp_rearranges hf hr)) nofun
  | .leftJoin l r (some e), h => by
    obtain ⟨h, he⟩ := Bool.and_eq_true_iff.mp h
    obtain ⟨hl, hr⟩ := Bool.and_eq_true_iff.mp h
    have hmap : (Node.leftJoin l r (some e)).mapUp f =
        f (.leftJoin (l.mapUp f) (r.mapUp f) (some e)) :=
      congrArg (fun e => f (.leftJoin (l.mapUp f) (r.mapUp f) (some e)))
        (Expr.mapUpM_of_isPlain he)
    rw [hmap]
    exact hf.keeps (.leftJoinIf (l.mapUp_rearranges hf hl) (r.mapUp_rearranges hf hr) he)
      nofun
  | .union l r, h => by
    obtain ⟨hl, hr⟩ := Bool.and_eq_true_iff.mp h
    exact hf.keeps (.union (l.mapUp_rearranges hf hl) (r.mapUp_rearranges hf hr)) nofun
  | .minus l r, h => by
    obtain ⟨hl, hr⟩ := Bool.and_eq_true_iff.mp h
    exact hf.keeps (.minus (l.mapUp_rearranges hf hl) (r.mapUp_rearranges hf hr)) nofun
  | .filter inner e, h => by
    obtain ⟨hinner, he⟩ := Bool.and_eq_true_iff.mp h
    have hmap : (Node.filter inner e).mapUp f = f (.filter (inner.mapUp f) e) :=
      congrArg (fun e => f (.filter (inner.mapUp f) e)) (Expr.mapUpM_of_isPlain he)
    rw [hmap]
    exact hf.keeps (.filter (inner.mapUp_rearranges hf hinner) he) nofun
  | .extend inner v e, h => by
    obtain ⟨hinner, he⟩ := Bool.and_eq_true_iff.mp h
    have hmap : (Node.extend inner v e).mapUp f = f (.extend (inner.mapUp f) v e) :=
      congrArg (fun e => f (.extend (inner.mapUp f) v e)) (Expr.mapUpM_of_isPlain he)
    rw [hmap]
    exact hf.keeps (.extend (inner.mapUp_rearranges hf hinner) v he) nofun
  | .orderBy inner keys, h => by
    obtain ⟨hinner, hkeys⟩ := Bool.and_eq_true_iff.mp h
    have hmap : (Node.orderBy inner keys).mapUp f = f (.orderBy (inner.mapUp f) keys) :=
      congrArg (fun keys => f (.orderBy (inner.mapUp f) keys))
        (OrderKey.mapAllUpM_of_arePlain hkeys)
    rw [hmap]
    exact hf.keeps (.orderBy (inner.mapUp_rearranges hf hinner) hkeys) nofun
  | .distinct inner, h => hf.keeps (.distinct (inner.mapUp_rearranges hf h)) nofun
  | .reduced inner, h => hf.keeps (.reduced (inner.mapUp_rearranges hf h)) nofun
  | .project inner vs, h => hf.keeps (.project (inner.mapUp_rearranges hf h) vs) nofun
  | .graph inner name, h => hf.keeps (.graph (inner.mapUp_rearranges hf h) name) nofun
  | .values vs rows, _ => hf.keeps (.values vs rows) nofun

namespace PatternOrder

/-- The rule orders every basic graph pattern on its own. -/
theorem exists_rule_run (w : PatternWeights) {n : Node} (hn : n.isPatternTree = true) :
    ∃ n', (rule w).run n = .ok (n', []) ∧ n'.Rearranges n := by
  refine ⟨_, rfl, Node.mapUp_rearranges ⟨fun es hes => ?_, fun n hn => ?_⟩ n hn⟩
  · obtain ⟨es', hreorder, h⟩ := reorder_rearranges w hes
    dsimp only
    rw [hreorder]
    exact .bgp h
  · cases n with
    | bgp es => exact absurd rfl (hn es)
    | _ => rfl

/-- Reordering patterns and moving filters keeps the bag of solutions: the new tree
has solutions exactly if the tree has some, and they are the same up to order. -/
theorem rule_rows (w : PatternWeights) {n : Node} (hn : n.isPatternTree = true) :
    ∃ n', (rule w).run n = .ok (n', []) ∧
      ∀ {operators : OperatorRegistry} {c : Context}, c.IsOnMemory → ∀ p p' : Progress,
        (∀ m q, (n.plan operators none).runFrom c p = (.ok m, q) →
          ∃ m' q', (n'.plan operators none).runFrom c p' = (.ok m', q') ∧
            m'.rows.Perm m.rows) ∧
        ∀ m' q', (n'.plan operators none).runFrom c p' = (.ok m', q') →
          ∃ m q, (n.plan operators none).runFrom c p = (.ok m, q) ∧
            m'.rows.Perm m.rows := by
  obtain ⟨n', hrun, h⟩ := exists_rule_run w hn
  refine ⟨n', hrun, fun {operators c} hc p p' => ⟨fun m q hm => ?_, fun m' q' hm' => ?_⟩⟩
  · have hshuffles : Plan.Shuffles c.environment n.vars (n'.plan operators)
        (n.plan operators) := h.shuffles
    exact hshuffles.runFrom hc.isPlain hm p'
  · obtain ⟨m, q, hm, hperm⟩ := h.symm.shuffles.runFrom hc.isPlain hm' p
    exact ⟨m, q, hm, hperm.symm⟩

/-- The edges to the start of an edge to a node, which are not loops. -/
def sampleEdges : Node :=
  .bgp [.triple ⟨.var ⟨"x"⟩, .term (.iri ⟨"p"⟩), .var ⟨"y"⟩⟩,
    .filter (.unary .not (.binary .sameTerm (.var ⟨"x"⟩) (.var ⟨"y"⟩))),
    .triple ⟨.var ⟨"y"⟩, .term (.iri ⟨"p"⟩), .term (.iri ⟨"c"⟩)⟩]

theorem rule_rows_sample :
    ∃ n' m q m' q', (rule .none).run sampleEdges = .ok (n', []) ∧
      (sampleEdges.plan .empty none).runFrom sampleContext
        (.initial sampleContext.environment) = (.ok m, q) ∧
      (n'.plan .empty none).runFrom sampleContext
        (.initial sampleContext.environment) = (.ok m', q') ∧ m'.rows.Perm m.rows := by
  have hok : ((sampleEdges.plan .empty none).runFrom sampleContext
      (.initial sampleContext.environment)).1.isOk = true := by decide +kernel
  obtain ⟨n', hrule, hrows⟩ := rule_rows .none (n := sampleEdges) (by decide +kernel)
  obtain ⟨hforth, -⟩ := @hrows .empty _ sampleContext_isOnMemory
    (.initial sampleContext.environment) (.initial sampleContext.environment)
  cases hrun : (sampleEdges.plan .empty none).runFrom sampleContext
      (.initial sampleContext.environment) with
  | mk r q =>
    rw [hrun] at hok
    cases r with
    | error err => cases hok
    | ok m =>
      obtain ⟨m', q', h⟩ := hforth m q hrun
      exact ⟨n', m, q, m', q', hrule, rfl, h⟩

/-- The pattern with a known end comes first, and the filter behind both. -/
example : (rule .none).run sampleEdges =
    .ok (.bgp [.triple ⟨.var ⟨"y"⟩, .term (.iri ⟨"p"⟩), .term (.iri ⟨"c"⟩)⟩,
      .triple ⟨.var ⟨"x"⟩, .term (.iri ⟨"p"⟩), .var ⟨"y"⟩⟩,
      .filter (.unary .not (.binary .sameTerm (.var ⟨"x"⟩) (.var ⟨"y"⟩)))], []) := by
  cbv

end PatternOrder

end SparqlAlgebra
