import SparqlAlgebra.Proofs.PatternJoins

/-!
# Laws of joins

Merges can be regrouped, so joins can be regrouped without changing the order of the
rows.

* `Solutions.pairRows_assoc`: three lists of rows can be joined from either end;
* `Solutions.filter_pairRows`: a selection that is decided by the right rows may be
  made before the join.
-/

namespace SparqlAlgebra

namespace Solutions

/-- Joins can be regrouped; the rows come in the same order. -/
theorem pairRows_assoc (ls xs ys : List Binding) :
    pairRows (pairRows ls xs) ys = pairRows ls (pairRows xs ys) := by
  rw [pairRows_pairRows]
  unfold pairRows
  refine List.flatMap_congr fun l _ => ?_
  rw [List.filterMap_flatMap]
  refine List.flatMap_congr fun x _ => ?_
  rw [List.filterMap_filterMap]
  exact List.filterMap_congr fun y _ => Binding.merge?_assoc l x y

/-- A selection of merged rows that only the right rows decide. -/
theorem filter_pairRows {test : Binding → Bool} {ls rs : List Binding}
    (h : ∀ l ∈ ls, ∀ r ∈ rs, ∀ row, l.merge? r = some row → test row = test r) :
    (pairRows ls rs).filter test = pairRows ls (rs.filter test) := by
  unfold pairRows
  rw [List.filter_flatMap]
  refine List.flatMap_congr fun l hl => ?_
  rw [List.filter_filterMap, List.filterMap_filter]
  refine List.filterMap_congr fun r hr => ?_
  cases hmerge : l.merge? r with
  | none => simp
  | some row => simp [Option.filter, h l hl r hr row hmerge]

/-- Both sides of a join may be restricted to what is compatible with a binding. -/
theorem pairRows_filterMap_merge? (b : Binding) (ls rs : List Binding) :
    pairRows (ls.filterMap b.merge?) (rs.filterMap b.merge?) =
      (pairRows ls rs).filterMap b.merge? := by
  unfold pairRows
  rw [List.filterMap_flatMap, List.filterMap_eq_flatMap_toList b.merge? ls, List.flatMap_assoc]
  refine List.flatMap_congr fun l _ => ?_
  rw [List.filterMap_filterMap]
  have hrow : (b.merge? l).toList.flatMap (fun x => (rs.filterMap b.merge?).filterMap x.merge?) =
      rs.filterMap fun r => (b.merge? l).bind fun x => (b.merge? r).bind x.merge? := by
    cases b.merge? l with
    | none => simp
    | some x => simp [List.filterMap_filterMap]
  rw [hrow]
  exact List.filterMap_congr fun r _ => Binding.merge?_both b l r

end Solutions

end SparqlAlgebra
