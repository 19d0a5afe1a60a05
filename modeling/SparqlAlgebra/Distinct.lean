/-!
# First occurrences

The elements of a list without repetitions, each at the place of its first
occurrence.
-/

namespace SparqlAlgebra

/-- Keeps the first of equal elements. -/
def dedup {α : Type} [DecidableEq α] : List α → List α
  | [] => []
  | x :: xs => x :: (dedup xs).filter (· ≠ x)

variable {α : Type} [DecidableEq α]

@[simp] theorem mem_dedup {x : α} {xs : List α} : x ∈ dedup xs ↔ x ∈ xs := by
  induction xs with
  | nil => simp [dedup]
  | cons y ys ih =>
    simp only [dedup, List.mem_cons, List.mem_filter, ih]
    by_cases h : x = y <;> simp [h]

theorem nodup_dedup (xs : List α) : (dedup xs).Nodup := by
  induction xs with
  | nil => exact List.nodup_nil
  | cons y ys ih =>
    refine List.nodup_cons.mpr ⟨?_, ih.sublist List.filter_sublist⟩
    simp

theorem dedup_eq_self {xs : List α} (h : xs.Nodup) : dedup xs = xs := by
  induction xs with
  | nil => rfl
  | cons y ys ih =>
    have hy := List.nodup_cons.mp h
    simp only [dedup, ih hy.2]
    congr 1
    refine List.filter_eq_self.mpr fun x hx => ?_
    simp only [ne_eq, decide_not, Bool.not_eq_true', decide_eq_false_iff_not]
    exact fun e => hy.1 (e ▸ hx)

end SparqlAlgebra
