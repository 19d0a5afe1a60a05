import SparqlAlgebra.Proofs.AssignedPatterns
import SparqlAlgebra.Proofs.FoldedGroups

/-!
# Folded groups with assignments

A group that is folded into the one before it is matched with the values of that group.
Whether two groups are folded is decided by their filters alone. An assignment may clash
with a variable of the other group, and it may use a variable of it, which its own group
does not bind. Without that, folding does not change the rows.

* `Element.keepsScope`: expressions and assignments of a group do not meet the variables of
  the group before it;
* `Element.workInside_of_keepsScope`: the elements of such a group work on their own part
  of a merged row;
* `Query.joinNodes_rows_of_assigned`: folding two groups with assignments keeps the rows,
  and `Query.joinNodes_fails` for two groups that cannot be folded.
-/

namespace SparqlAlgebra

open Eval

/-! ## Values of assignments -/

/-- A plain assignment is about its variables. -/
theorem Expr.assigned_congr {operators : OperatorRegistry} {c : Context} {e : Expr}
    (h : e.isPlain = true) (hc : c.Repeatable) {b b' : Binding} (hb : b.AgreeOn e.vars b')
    {v : Var} (hv : b.get? v = b'.get? v) :
    e.assigned operators c v b = e.assigned operators c v b' := by
  have hrespects : (e.meaning operators).Respects (Binding.AgreeOn e.vars) :=
    e.meaning_respects h fun _ hv => mem_dedup.mpr hv
  have hassignment : (e.assignment (e.meaning operators)).RespectsIn Context.Alongside
      (Binding.AgreeOn e.vars) :=
    e.assignment_respects hrespects fun v hv {_ _} hb => hb v (mem_dedup.mpr hv)
  have hagree : (e.assignment (e.meaning operators) b).Agree
      (e.assignment (e.meaning operators) b') := (hassignment hb).agree
  let start := Progress.initial c.environment
  have hvalue : (e.assignment (e.meaning operators) b).outcome c =
      (e.assignment (e.meaning operators) b').outcome c :=
    (hagree.run hc.settled (.refl c) start start).1
  unfold assigned Solutions.assignedValue Binding.contains
  dsimp only
  rw [hv, hvalue]

namespace Binding

variable {l x b : Binding} {v : Var} {t : Term}

/-- A merge has the values of the right side for variables that it binds or that the left
side does not bind. -/
theorem get?_merge_right (h : l.merge? x = some b) (hv : v ∈ l.vars → v ∈ x.vars) :
    b.get? v = x.get? v := by
  cases hx : x.get? v with
  | some t => exact (isWithin_of_merge? h).2 v t hx
  | none =>
    have hxv : v ∉ x.vars := fun hmem => by
      obtain ⟨t, ht⟩ := mem_vars_iff.mp hmem
      rw [hx] at ht
      cases ht
    have hbv : v ∉ b.vars := fun hmem =>
      hxv (((mem_vars_of_merge? h).mp hmem).elim hv id)
    rwa [mem_vars, contains, Bool.not_eq_true, Option.isSome_eq_false_iff,
      Option.isNone_iff_eq_none] at hbv

/-- A value that the left side does not have may be added before a merge. -/
theorem merge?_insert (h : l.merge? x = some b) (hl : v ∉ l.vars) (hx : x.get? v = none) :
    l.merge? (x.insert v t) = some (b.insert v t) := by
  obtain ⟨hlb, hxb, hvars⟩ := merge?_eq_some_iff.mp h
  have hb : b.get? v = none := by rw [get?_merge_right h fun hv => absurd hv hl, hx]
  refine merge?_eq_some_iff.mpr ⟨hlb.trans (isWithin_insert hb),
    insert_isWithin (hxb.trans (isWithin_insert hb)) (by rw [get?_insert, if_pos rfl]),
    fun w hw => ?_⟩
  rw [List.mem_append]
  rcases mem_vars_insert.mp hw with rfl | hw
  · exact .inr (mem_vars_insert.mpr (.inl rfl))
  · exact (List.mem_append.mp (hvars hw)).imp_right fun hw => mem_vars_insert.mpr (.inr hw)

end Binding

namespace Element

/-! ## The scope of a group -/

/-- Whether expressions use a variable of an outer group only if a triple before them binds
it, and assignments bind no variable of the outer group. -/
def keepsScope (outer bound : List Var) : List Element → Bool
  | [] => true
  | triple p :: rest => keepsScope outer (bound ++ p.vars) rest
  | filter e :: rest =>
    e.vars.all (fun v => bound.contains v || !outer.contains v) && keepsScope outer bound rest
  | assign v e :: rest =>
    !outer.contains v && e.vars.all (fun v => bound.contains v || !outer.contains v) &&
      keepsScope outer bound rest
  | path _ _ _ :: rest | subQuery _ :: rest => keepsScope outer bound rest

section Scope

variable {operators : OperatorRegistry} {c : Context} {outer bound : List Var}
  {es : List Element} {l x b : Binding}

/-- In a merged row the variables of an expression have the values of its own group. -/
theorem agreeOn_of_merge (hmerge : l.merge? x = some b) (hl : l.vars ⊆ outer)
    (hx : bound ⊆ x.vars) {e : Expr}
    (he : e.vars.all (fun v => bound.contains v || !outer.contains v) = true) :
    b.AgreeOn e.vars x := fun v hv => by
  refine Binding.get?_merge_right hmerge fun hlv => ?_
  have hcase := List.all_eq_true.mp he v hv
  simp only [Bool.or_eq_true, Bool.not_eq_true', List.contains_eq_mem, decide_eq_true_eq,
    decide_eq_false_iff_not] at hcase
  exact hcase.elim (hx ·) fun hnot => absurd (hl hlv) hnot

variable (operators c l) in
/-- Elements work on their own part of a merged row: they make of it what they make of the
part, merged, and they succeed for it if they do for the part. -/
structure WorkInside (x b : Binding) (es : List Element) : Prop where
  rows_eq : rowsAfter operators c es b = (rowsAfter operators c es x).filterMap l.merge?
  succeeds : Admit operators c es x → Admit operators c es b

/-- An element does if what it makes of the two rows is merged, and the others do. -/
theorem WorkInside.cons {e : Element} {rest : List Element}
    (hext : extensions operators c b e = (extensions operators c x e).filterMap l.merge?)
    (hfirst : Admits operators c x e → Admits operators c b e)
    (hrest : ∀ y ∈ extensions operators c x e, ∀ b', l.merge? y = some b' →
      WorkInside operators c l y b' rest) : WorkInside operators c l x b (e :: rest) := by
  constructor
  · rw [rowsAfter, rowsAfter, hext, List.filterMap_flatMap,
      List.filterMap_eq_flatMap_toList, List.flatMap_assoc]
    refine List.flatMap_congr fun y hy => ?_
    cases hb' : l.merge? y with
    | some b' => simpa using (hrest y hy b' hb').rows_eq
    | none =>
      -- nothing that contains `y` can be merged either
      refine (List.filterMap_eq_nil_iff.mpr fun row hrow => ?_).symm
      exact Binding.merge?_eq_none_of_isWithin (.refl l) (isWithin_of_mem_rowsAfter hrow) hb'
  · rintro ⟨hx, hlater⟩
    refine ⟨hfirst hx, fun b' hb' => ?_⟩
    rw [hext] at hb'
    obtain ⟨y, hy, hb'⟩ := List.mem_filterMap.mp hb'
    exact (hrest y hy b' hb').succeeds (hlater y hy)

theorem extensions_triple_merge (hmerge : l.merge? x = some b) (p : TriplePattern) :
    extensions operators c b (triple p) =
      (extensions operators c x (triple p)).filterMap l.merge? := by
  show (p.rows c.view.facts).filterMap b.merge? =
    ((p.rows c.view.facts).filterMap x.merge?).filterMap l.merge?
  rw [List.filterMap_filterMap]
  refine List.filterMap_congr fun r _ => ?_
  rw [← Binding.merge?_assoc, hmerge, Option.bind_some]

theorem extensions_filter_merge (hmerge : l.merge? x = some b) {e : Expr}
    (htruth : e.truth operators c b = e.truth operators c x) :
    extensions operators c b (filter e) =
      (extensions operators c x (filter e)).filterMap l.merge? := by
  show (if e.truth operators c b then [b] else []) =
    (if e.truth operators c x then [x] else []).filterMap l.merge?
  rw [htruth]
  cases e.truth operators c x <;> simp [hmerge]

theorem extensions_assign_merge (hmerge : l.merge? x = some b) {v : Var} (hv : v ∉ l.vars)
    {e : Expr} (hassigned : e.assigned operators c v b = e.assigned operators c v x) :
    extensions operators c b (assign v e) =
      (extensions operators c x (assign v e)).filterMap l.merge? := by
  cases ht : e.assigned operators c v x with
  | error err => simp [extensions, hassigned, ht, Except.toOption]
  | ok t =>
    rw [extensions_assign ht, extensions_assign (hassigned.trans ht)]
    cases t with
    | none => simp [Solutions.assignedRow, hmerge]
    | some t =>
      simp [Solutions.assignedRow,
        Binding.merge?_insert hmerge hv (Expr.assigned_eq_ok_iff.mp ht).1]

/-- The elements of a group that keeps its scope work on their own part of a merged row. -/
theorem workInside_of_keepsScope (hc : c.Repeatable) (hes : ∀ e ∈ es, e.isDirect = true)
    (hscope : keepsScope outer bound es = true) (hmerge : l.merge? x = some b)
    (hl : l.vars ⊆ outer) (hx : bound ⊆ x.vars) : WorkInside operators c l x b es := by
  induction es generalizing bound x b with
  | nil =>
    refine ⟨?_, id⟩
    rw [rowsAfter, rowsAfter, List.filterMap_cons_some hmerge, List.filterMap_nil]
  | cons e rest ih =>
    obtain ⟨he, hrest⟩ := List.forall_mem_cons.mp hes
    cases e with
    | triple p =>
      have hscope : keepsScope outer (bound ++ p.vars) rest = true := hscope
      refine .cons (extensions_triple_merge hmerge p) id fun y hy b' hb' =>
        ih hrest hscope hb' fun v hv => ?_
      obtain ⟨r, hr, hy⟩ := List.mem_filterMap.mp hy
      refine (Binding.mem_vars_of_merge? hy).mpr ?_
      exact (List.mem_append.mp hv).imp (hx ·) (TriplePattern.vars_of_mem_rows hr).mpr
    | filter e =>
      obtain ⟨hvars, hscope⟩ := Bool.and_eq_true_iff.mp hscope
      have htruth : e.truth operators c b = e.truth operators c x :=
        Expr.truth_congr he hc (agreeOn_of_merge hmerge hl hx hvars)
      refine .cons (extensions_filter_merge hmerge htruth) id fun y hy b' hb' =>
        ih hrest hscope hb' ?_
      rw [(mem_extensions_filter.mp hy).2]
      exact hx
    | assign v e =>
      obtain ⟨htarget, hscope⟩ := Bool.and_eq_true_iff.mp hscope
      obtain ⟨hv, hvars⟩ := Bool.and_eq_true_iff.mp htarget
      have hlv : v ∉ l.vars := fun hmem => by simp [hl hmem] at hv
      have hassigned : e.assigned operators c v b = e.assigned operators c v x :=
        Expr.assigned_congr he hc (agreeOn_of_merge hmerge hl hx hvars)
          (Binding.get?_merge_right hmerge fun hmem => absurd hmem hlv)
      refine .cons (extensions_assign_merge hmerge hlv hassigned)
        (Exists.imp fun t ht => hassigned.trans ht) fun y hy b' hb' => ih hrest hscope hb' ?_
      exact List.Subset.trans hx (isWithin_of_mem_extensions hy).vars_subset
    | path _ _ _ | subQuery _ => cases he

end Scope

end Element

/-! ## Joins of groups -/

variable {operators : OperatorRegistry} {c : Context} {l r : List Element}

/-- If a join succeeds, so does its left side, and its right side if there is a left row. -/
theorem Plan.sides_of_join {left right : Plan} (hc : c.Repeatable) (hright : right.Steady)
    {o : Solutions} (ho : (left.join right none).outcome c = .ok o) :
    ∃ x, (left none).outcome c = .ok x ∧
      (x.isEmpty = false → ∃ y, (right none).outcome c = .ok y) := by
  have hout : (left.join right none).outcome c = _ :=
    outcome_withRight hright (fun _ _ => .pure _) hc
  replace ho := hout.symm.trans ho
  cases hleft : (left none).outcome c with
  | error err =>
    rw [hleft] at ho
    cases ho
  | ok x =>
    rw [hleft] at ho
    refine ⟨x, rfl, fun hempty => ?_⟩
    replace ho := (if_neg (by simp [hempty])).symm.trans ho
    cases hy : (right none).outcome c with
    | error err =>
      rw [hy] at ho
      cases ho
    | ok y => exact ⟨y, rfl⟩

namespace Element

/-- A group that keeps its scope makes of a row what it makes of the empty row, merged with
the row. -/
theorem workInside_row (hc : c.Repeatable) (hr : ∀ e ∈ r, e.isDirect = true)
    (hscope : keepsScope (boundByAll l) [] r = true) {row : Binding}
    (hrow : row ∈ rowsAfter operators c l .empty) : WorkInside operators c row .empty row r :=
  workInside_of_keepsScope hc hr hscope row.merge?_empty
    (fun _ hv => vars_of_mem_rowsAfter hrow hv) (List.nil_subset _)

/-- Nothing is asked of the second group if the first one has no rows. -/
theorem admit_append_of_rows (hc : c.Repeatable) (hr : ∀ e ∈ r, e.isDirect = true)
    (hscope : keepsScope (boundByAll l) [] r = true) (hl : Admit operators c l .empty)
    (hrows : rowsAfter operators c l .empty ≠ [] → Admit operators c r .empty) :
    Admit operators c (l ++ r) .empty :=
  admit_append.mpr ⟨hl, fun _ hrow =>
    (workInside_row hc hr hscope hrow).succeeds (hrows (List.ne_nil_of_mem hrow))⟩

end Element

/-- One group after the other has the rows of their join, if the join succeeds. -/
theorem Node.outcome_append_of_join (hc : c.IsOnMemory) (hl : ∀ e ∈ l, e.isDirect = true)
    (hr : ∀ e ∈ r, e.isDirect = true)
    (hscope : Element.keepsScope (Element.boundByAll l) [] r = true) {joined : Solutions}
    (hjoined : ((Plan.input 0 ((Node.bgp l).plan operators)).join
      (Plan.input 1 ((Node.bgp r).plan operators)) none).outcome c = .ok joined) :
    ∃ folded, ((Node.bgp (l ++ r)).plan operators none).outcome c = .ok folded ∧
      folded.rows = joined.rows := by
  have hrep := hc.repeatable
  have hlsteady : ((Node.bgp l).plan operators).Steady := Node.bgp_steady_of_areDirect hl
  have hrsteady : ((Node.bgp r).plan operators).Steady := Node.bgp_steady_of_areDirect hr
  have hlr : ∀ e ∈ l ++ r, e.isDirect = true := List.forall_mem_append.mpr ⟨hl, hr⟩
  obtain ⟨x, hx, hy⟩ := Plan.sides_of_join hrep (hrsteady.input 1) hjoined
  rw [Plan.outcome_input hlsteady hrep] at hx
  rw [Plan.outcome_input hrsteady hrep] at hy
  have hall : Element.Admit operators c (l ++ r) .empty := by
    refine Element.admit_append_of_rows hrep hr hscope
      ((Node.outcome_bgp_iff hc hl).mp hx).1 fun hrows => ?_
    have hempty : x.isEmpty = false := by
      rw [← (Node.rows_of_bgp hc hl hx).1] at hrows
      exact Bool.eq_false_iff.mpr fun hnil => hrows (List.isEmpty_iff.mp hnil)
    obtain ⟨y, hy⟩ := hy hempty
    exact ((Node.outcome_bgp_iff hc hr).mp hy).1
  have hfolded := (Node.outcome_bgp_iff hc hlr).mpr ⟨hall, rfl⟩
  refine ⟨_, hfolded, ?_⟩
  rw [(Node.rows_of_bgp hc hlr hfolded).1, Element.rowsAfter_append, List.flatMap_congr
    fun row hrow => (Element.workInside_row hrep hr hscope hrow).rows_eq]
  exact (Plan.rows_of_join hrep (hrsteady.input 1)
    (fun x hx => Node.rows_of_bgp hc hl ((Plan.outcome_input hlsteady hrep 0 none).symm.trans hx))
    (fun y hy => Node.rows_of_bgp hc hr ((Plan.outcome_input hrsteady hrep 1 none).symm.trans hy))
    hjoined).symm

namespace Query

/-- Let the join of two groups with assignments succeed. If the second one keeps its scope,
folding them succeeds with the same rows in the same order. -/
theorem joinNodes_rows_of_assigned (hc : c.IsOnMemory) (hl : ∀ e ∈ l, e.isDirect = true)
    (hr : ∀ e ∈ r, e.isDirect = true)
    (hscope : Element.keepsScope (Element.boundByAll l) [] r = true) {p q : Progress}
    {joined : Solutions}
    (hjoined : ((Node.join (.bgp l) (.bgp r)).plan operators none).runFrom c p =
      (.ok joined, q)) (p' : Progress) :
    ∃ folded q', ((joinNodes (.bgp l) (.bgp r)).plan operators none).runFrom c p' =
      (.ok folded, q') ∧ folded.rows = joined.rows := by
  have hrep := hc.repeatable
  have hlsteady : ((Node.bgp l).plan operators).Steady := Node.bgp_steady_of_areDirect hl
  have hrsteady : ((Node.bgp r).plan operators).Steady := Node.bgp_steady_of_areDirect hr
  have hsides := (hlsteady.input 0).join (hrsteady.input 1)
  have hsteady : ((Node.join (.bgp l) (.bgp r)).plan operators).Steady := hsides.observed _
  have hsame := (hsteady none).outcome_of_runFrom hrep hjoined
  by_cases hclosed : filtersAreClosed l && filtersAreClosed r
  · have hfold : joinNodes (.bgp l) (.bgp r) = .bgp (l ++ r) := if_pos hclosed
    obtain ⟨folded, hfolded, hrows⟩ := Node.outcome_append_of_join hc hl hr hscope
      ((Plan.outcome_observed_eq hsides hrep _ none).symm.trans hsame)
    have hlr : ∀ e ∈ l ++ r, e.isDirect = true := List.forall_mem_append.mpr ⟨hl, hr⟩
    rw [← (Node.bgp_steady_of_areDirect hlr none).fst_runFrom hrep p'] at hfolded
    rw [hfold]
    exact ⟨folded, _, Prod.ext hfolded rfl, hrows⟩
  · have hfold : joinNodes (.bgp l) (.bgp r) = .join (.bgp l) (.bgp r) := if_neg hclosed
    rw [← (hsteady none).fst_runFrom hrep p'] at hsame
    rw [hfold]
    exact ⟨joined, _, Prod.ext hsame rfl, rfl⟩

/-- The edges with their starts under another name. -/
def sampleRenamed : List Element :=
  [.triple ⟨.var ⟨"y"⟩, .term (.iri ⟨"p"⟩), .var ⟨"z"⟩⟩, .assign ⟨"w"⟩ (.var ⟨"y"⟩)]

theorem joinNodes_rows_of_assigned_sample :
    ∃ joined q folded q',
      ((Node.join (.bgp sampleGroup) (.bgp sampleRenamed)).plan .empty none).runFrom
        sampleContext (.initial sampleContext.environment) = (.ok joined, q) ∧
      ((joinNodes (.bgp sampleGroup) (.bgp sampleRenamed)).plan .empty none).runFrom
        sampleContext (.initial sampleContext.environment) = (.ok folded, q') ∧
      folded.rows = joined.rows ∧ joined.size = 1 := by
  have hsize : (((Node.join (.bgp sampleGroup) (.bgp sampleRenamed)).plan .empty none).runFrom
      sampleContext (.initial sampleContext.environment)).1.toOption.map (·.size) =
        some 1 := by decide +kernel
  obtain ⟨joined, q, hjoined, hsize⟩ := exists_ok_of_map hsize
  obtain ⟨folded, q', hfolded, hrows⟩ := joinNodes_rows_of_assigned sampleContext_isOnMemory
    (l := sampleGroup) (r := sampleRenamed) (List.all_eq_true.mp (by decide +kernel))
    (List.all_eq_true.mp (by decide +kernel)) (by decide +kernel) hjoined
    (.initial sampleContext.environment)
  exact ⟨joined, q, folded, q', hjoined, hfolded, hrows, hsize⟩

/-- The edges. -/
def sampleEdgeGroup : List Element :=
  [.triple ⟨.var ⟨"x"⟩, .term (.iri ⟨"p"⟩), .var ⟨"y"⟩⟩]

/-- The assignment of the second group has the variable of the first one as its target. The
join compares the values, the folded group fails. -/
theorem joinNodes_fails :
    filtersAreClosed sampleEdgeGroup = true ∧
      filtersAreClosed [.assign ⟨"y"⟩ (.constant (.iri ⟨"b"⟩))] = true ∧
      ∃ joined q q',
        ((Node.join (.bgp sampleEdgeGroup)
          (.bgp [.assign ⟨"y"⟩ (.constant (.iri ⟨"b"⟩))])).plan .empty none).runFrom
            sampleContext (.initial sampleContext.environment) = (.ok joined, q) ∧
        joined.size = 1 ∧
        ((joinNodes (.bgp sampleEdgeGroup)
          (.bgp [.assign ⟨"y"⟩ (.constant (.iri ⟨"b"⟩))])).plan .empty none).runFrom
            sampleContext (.initial sampleContext.environment) =
              (.error (.variableAlreadyBound ⟨"y"⟩), q') := by
  have hsize : (((Node.join (.bgp sampleEdgeGroup)
      (.bgp [.assign ⟨"y"⟩ (.constant (.iri ⟨"b"⟩))])).plan .empty none).runFrom
        sampleContext (.initial sampleContext.environment)).1.toOption.map (·.size) =
          some 1 := by decide +kernel
  have hfails : (((joinNodes (.bgp sampleEdgeGroup)
      (.bgp [.assign ⟨"y"⟩ (.constant (.iri ⟨"b"⟩))])).plan .empty none).runFrom
        sampleContext (.initial sampleContext.environment)).1 =
          .error (.variableAlreadyBound ⟨"y"⟩) := by decide +kernel
  obtain ⟨joined, q, hjoined, hsize⟩ := exists_ok_of_map hsize
  exact ⟨rfl, rfl, joined, q, _, hjoined, hsize, Prod.ext hfails rfl⟩

end Query

end SparqlAlgebra
