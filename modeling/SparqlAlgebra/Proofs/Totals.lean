import SparqlAlgebra.Aggregate
import SparqlAlgebra.Proofs.AnyOrder
import SparqlAlgebra.Proofs.ValueOrder
import Mathlib.Algebra.BigOperators.Group.List.Basic
import Mathlib.Algebra.Ring.Int.Defs

/-!
# Totals of integers

The sum of integers is computed from the first value to the last one, each partial sum is an
integer of 64 bits, and a sum that has failed stays so. So it depends on the order of the
values whether it fails, but not what it is if it does not.

* `Aggregate.StaysInRange` is the condition on the partial sums, and
  `Aggregate.sum?_integers` says that it decides;
* `Aggregate.PartsInRange` is a condition that does not depend on the order;
* `AggregateFunction.totals_of_perm`: sums and averages of the same values in two orders.
-/

namespace SparqlAlgebra

open List (Forall₂)

/-- The integer that a term denotes as a literal of this very datatype. -/
def Term.integer? : Term → Option Int
  | .literal l => l.integer?
  | _ => none

theorem Term.number_of_integer? {t : Term} {n : Int} (h : t.integer? = some n) :
    Number.ofTerm? t = some (.integer n) := by
  cases t with
  | literal l => exact Literal.number_of_integer? h
  | iri i => cases h
  | blank b => cases h

namespace Aggregate

/-! ## Partial sums -/

/-- Every partial sum is an integer of 64 bits. -/
def StaysInRange (ns : List Int) : Prop := ∀ ms ∈ ns.inits, fitsSigned 64 ms.sum = true

instance (ns : List Int) : Decidable (StaysInRange ns) :=
  inferInstanceAs (Decidable (∀ ms ∈ ns.inits, _))

/-- The integers of each sign have a sum in the range. -/
structure PartsInRange (ns : List Int) : Prop where
  above : fitsSigned 64 (ns.filter (0 ≤ ·)).sum = true
  below : fitsSigned 64 (ns.filter (· < 0)).sum = true

theorem PartsInRange.of_perm {ns ms : List Int} (h : PartsInRange ns) (hperm : ms.Perm ns) :
    PartsInRange ms where
  above := (hperm.filter _).sum_eq ▸ h.above
  below := (hperm.filter _).sum_eq ▸ h.below

theorem sum_parts_cons (n : Int) (ns : List Int) :
    ((n :: ns).filter (· < 0)).sum = min n 0 + (ns.filter (· < 0)).sum ∧
      ((n :: ns).filter (0 ≤ ·)).sum = max n 0 + (ns.filter (0 ≤ ·)).sum := by
  rw [List.filter_cons, List.filter_cons]
  by_cases hn : n < 0
  · have hn' : ¬ 0 ≤ n := by omega
    simp only [hn, hn', decide_true, decide_false, if_true, Bool.false_eq_true, if_false,
      List.sum_cons]
    omega
  · have hn' : 0 ≤ n := by omega
    simp only [hn, hn', decide_true, decide_false, if_true, Bool.false_eq_true, if_false,
      List.sum_cons]
    omega

/-- A sum of some of the integers is between the sums of those of each sign. -/
theorem sum_between {ms ns : List Int} (h : ms.Sublist ns) :
    (ns.filter (· < 0)).sum ≤ ms.sum ∧ ms.sum ≤ (ns.filter (0 ≤ ·)).sum := by
  induction h with
  | slnil => simp
  | @cons ms ns n _ ih =>
    obtain ⟨hbelow, habove⟩ := sum_parts_cons n ns
    omega
  | @cons_cons ms ns n _ ih =>
    obtain ⟨hbelow, habove⟩ := sum_parts_cons n ns
    rw [List.sum_cons]
    omega

theorem PartsInRange.staysInRange {ns : List Int} (h : PartsInRange ns) : StaysInRange ns := by
  intro ms hms
  obtain ⟨hlow, hhigh⟩ := sum_between (List.mem_inits _ _ |>.mp hms).sublist
  have habove := h.above
  have hbelow := h.below
  simp only [fitsSigned, Bool.and_eq_true, decide_eq_true_eq] at habove hbelow ⊢
  exact ⟨hbelow.1.trans hlow, Int.lt_of_le_of_lt hhigh habove.2⟩

theorem addValue_integer {t : Term} {n : Int} (ht : t.integer? = some n) (m : Int) :
    addValue (some (.integer m)) (some t) =
      if fitsSigned 64 (m + n) then some (.integer (m + n)) else none := by
  have hadd : addValue (some (.integer m)) (some t) =
      (Number.ofTerm? t).bind (Number.add? (.integer m)) := rfl
  rw [hadd, Term.number_of_integer? ht]
  show (checkSigned 64 (m + n)).map Number.integer = _
  unfold checkSigned
  split <;> rfl

/-- A failure stays. -/
theorem foldl_addValue_none (vs : List (Option Term)) : vs.foldl addValue none = none := by
  induction vs with
  | nil => rfl
  | cons v vs ih => exact ih

/-- The sum from `m` on. -/
theorem foldl_addValue {ts : List Term} {ns : List Int}
    (h : Forall₂ (fun t n => t.integer? = some n) ts ns) {m : Int}
    (hm : fitsSigned 64 m = true) :
    (ts.map some).foldl addValue (some (.integer m)) =
      if ∀ ms ∈ ns.inits, fitsSigned 64 (m + ms.sum) = true then some (.integer (m + ns.sum))
      else none := by
  induction h generalizing m with
  | nil => simp [hm]
  | @cons t n ts ns ht _ ih =>
    have hinits : (∀ ms ∈ (n :: ns).inits, fitsSigned 64 (m + ms.sum) = true) ↔
        ∀ ms ∈ ns.inits, fitsSigned 64 (m + n + ms.sum) = true := by
      simp [hm, Int.add_assoc]
    rw [List.map_cons, List.foldl_cons, addValue_integer ht, List.sum_cons, ← Int.add_assoc]
    by_cases hn : fitsSigned 64 (m + n) = true
    · rw [if_pos hn, ih hn]
      exact if_congr hinits.symm rfl rfl
    · rw [if_neg hn, foldl_addValue_none, if_neg fun hall => hn ?_]
      -- The empty rest is a beginning of any rest.
      simpa using hinits.mp hall [] (List.mem_inits _ _ |>.mpr List.nil_prefix)

/-- The sum of integers is exact if it exists. -/
theorem sum?_integers {ts : List Term} {ns : List Int}
    (h : Forall₂ (fun t n => t.integer? = some n) ts ns) :
    sum? (ts.map some) = if StaysInRange ns then some (.integer ns.sum) else none := by
  have hfold := foldl_addValue h (m := 0) (by decide)
  simp only [Int.zero_add] at hfold
  exact hfold

/-! ## Distinct values -/

theorem distinctValues_map_some (ts : List Term) :
    distinctValues (ts.map some) = (dedup ts).map some := by
  induction ts with
  | nil => rfl
  | cons t ts ih =>
    rw [List.map_cons, distinctValues, ih, dedup, List.map_cons, List.filter_map]
    congr 2
    refine List.filter_congr fun u _ => ?_
    simp

/-- The values that are added up. -/
def counted (distinct : Bool) (ts : List Term) : List Term :=
  if distinct then dedup ts else ts

/-- The integers that are added up. -/
def summands (distinct : Bool) (ts : List Term) : List Int :=
  (counted distinct ts).filterMap Term.integer?

variable {ts us : List Term} {distinct : Bool}

theorem counted_perm (h : us.Perm ts) : (counted distinct us).Perm (counted distinct ts) := by
  cases distinct
  · exact h
  · exact dedup_perm h

theorem summands_perm (h : us.Perm ts) : (summands distinct us).Perm (summands distinct ts) :=
  (counted_perm h).filterMap _

/-- Integers are added up one by one. -/
theorem forall₂_summands (hts : ∀ t ∈ ts, t.integer?.isSome = true) :
    Forall₂ (fun t n => t.integer? = some n) (counted distinct ts) (summands distinct ts) := by
  have hcounted : ∀ t ∈ counted distinct ts, t.integer?.isSome = true := by
    intro t ht
    cases distinct
    · exact hts t ht
    · exact hts t (mem_dedup.mp ht)
  unfold summands
  clear hts
  generalize counted distinct ts = ts at hcounted
  induction ts with
  | nil => exact .nil
  | cons t ts ih =>
    obtain ⟨ht, hcounted⟩ := List.forall_mem_cons.mp hcounted
    obtain ⟨n, hn⟩ := Option.isSome_iff_exists.mp ht
    rw [List.filterMap_cons_some hn]
    exact .cons hn (ih hcounted)

/-! ## Sums and averages -/

/-- The average of `count` integers with a given sum. -/
def averageOf? (total : Int) (count : Nat) : Option Number :=
  if count = 0 then some (.integer 0) else (Number.integer total).div? (.integer count)

/-- An average of integers is that of their exact sum, if this exists. -/
theorem average?_integers {ts : List Term} {ns : List Int}
    (h : Forall₂ (fun t n => t.integer? = some n) ts ns) :
    average? (ts.map some) = if StaysInRange ns then averageOf? ns.sum ns.length else none := by
  have hcount : (ts.map some).length = ns.length := by rw [List.length_map, h.length_eq]
  have hempty : (ts.map some).isEmpty = true ↔ ns.length = 0 := by
    rw [List.isEmpty_iff_length_eq_zero, hcount]
  unfold average? averageOf?
  rw [sum?_integers h, hcount]
  by_cases hrange : StaysInRange ns
  · rw [if_pos hrange, if_pos hrange]
    exact if_congr hempty rfl rfl
  · rw [if_neg hrange, if_neg hrange]
    rfl

/-- What a function makes of the sum of integers and their number. -/
def exactTotal? (f : AggregateFunction) (total : Int) (count : Nat) : Option Number :=
  if f = .avg then averageOf? total count else some (.integer total)

end Aggregate

namespace AggregateFunction

open Aggregate

/-- A sum or an average of integers is that of their exact sum, unless a partial sum leaves
the range. -/
theorem onGroup?_integers {f : AggregateFunction} (hf : f = .sum ∨ f = .avg) (distinct : Bool) :
    ∃ g, f.onGroup? distinct = some g ∧
      ∀ ts : List Term, (∀ t ∈ ts, t.integer?.isSome = true) →
        g (ts.map some) =
          if StaysInRange (summands distinct ts) then
            (exactTotal? f (summands distinct ts).sum (summands distinct ts).length).map
              Number.toTerm
          else none := by
  have hvalues (ts : List Term) :
      (if distinct = true then distinctValues (ts.map some) else ts.map some) =
        (counted distinct ts).map some := by
    cases distinct
    · rfl
    · exact distinctValues_map_some ts
  rcases hf with rfl | rfl
  · refine ⟨_, rfl, fun ts hts => ?_⟩
    dsimp only
    rw [hvalues, sum?_integers (forall₂_summands hts), exactTotal?,
      if_neg (show AggregateFunction.sum ≠ .avg by decide)]
    split <;> rfl
  · refine ⟨_, rfl, fun ts hts => ?_⟩
    dsimp only
    rw [hvalues, average?_integers (forall₂_summands hts), exactTotal?, if_pos rfl]
    split <;> rfl

/-- Sums and averages of the same integers in two orders are the same if their partial sums
stay in the range in both orders, or leave it in both, and sums only then. They are exact in
the first case and fail in the second one. That the integers of each sign have a sum in the
range is enough for any order. -/
theorem totals_of_perm {f : AggregateFunction} (hf : f = .sum ∨ f = .avg) (distinct : Bool)
    {ts us : List Term} (hts : ∀ t ∈ ts, t.integer?.isSome = true) (hperm : us.Perm ts) :
    ∃ g, f.onGroup? distinct = some g ∧
      ((StaysInRange (summands distinct us) ↔ StaysInRange (summands distinct ts)) →
        g (us.map some) = g (ts.map some)) ∧
      (f = .sum → g (us.map some) = g (ts.map some) →
        (StaysInRange (summands distinct us) ↔ StaysInRange (summands distinct ts))) ∧
      (StaysInRange (summands distinct ts) → g (ts.map some) =
        (exactTotal? f (summands distinct ts).sum (summands distinct ts).length).map
          Number.toTerm) ∧
      (¬ StaysInRange (summands distinct ts) → g (ts.map some) = none) ∧
      (PartsInRange (summands distinct ts) → g (us.map some) = g (ts.map some)) := by
  obtain ⟨g, hg, htotal⟩ := onGroup?_integers hf distinct
  have hus : ∀ t ∈ us, t.integer?.isSome = true := fun t ht => hts t (hperm.subset ht)
  have hsummands : (summands distinct us).Perm (summands distinct ts) := summands_perm hperm
  have hsame (h : StaysInRange (summands distinct us) ↔ StaysInRange (summands distinct ts)) :
      g (us.map some) = g (ts.map some) := by
    rw [htotal us hus, htotal ts hts, hsummands.sum_eq, hsummands.length_eq]
    exact if_congr h rfl rfl
  refine ⟨g, hg, hsame, ?_, fun h => ?_, fun h => ?_, fun h => hsame ?_⟩
  · -- A sum exists exactly if the partial sums stay in the range.
    have hsome (ts : List Term) (hts : ∀ t ∈ ts, t.integer?.isSome = true) (hsum : f = .sum) :
        (g (ts.map some)).isSome = true ↔ StaysInRange (summands distinct ts) := by
      rw [htotal ts hts, hsum, exactTotal?, if_neg (show AggregateFunction.sum ≠ .avg by decide)]
      split <;> simp [*]
    intro hsum heq
    rw [← hsome us hus hsum, ← hsome ts hts hsum, heq]
  · rw [htotal ts hts, if_pos h]
  · rw [htotal ts hts, if_neg h]
  · exact iff_of_true (h.of_perm hsummands).staysInRange h.staysInRange

/-- Integers of 64 bits, the largest of them among them. -/
def sampleTerms : List Term :=
  [.literal (.typed "9223372036854775807" Datatype.integer),
    .literal (.typed "1" Datatype.integer), .literal (.typed "-1" Datatype.integer)]

theorem totals_of_perm_sample :
    ∃ g, AggregateFunction.avg.onGroup? true = some g ∧
      ((StaysInRange (summands true sampleTerms.reverse) ↔
          StaysInRange (summands true sampleTerms)) →
        g (sampleTerms.reverse.map some) = g (sampleTerms.map some)) ∧
      g (sampleTerms.map some) = none := by
  have hintegers : ∀ t ∈ sampleTerms, t.integer?.isSome = true := by decide
  obtain ⟨g, hg, hsame, -, -, hnone, -⟩ :=
    totals_of_perm (f := .avg) (.inr rfl) true hintegers (List.reverse_perm sampleTerms)
  exact ⟨g, hg, hsame, hnone (by decide)⟩

/-- The sum of the largest integer, one and minus one fails from the left, and from the right
it does not. -/
theorem sum_depends_on_order :
    ¬ ∀ (f : AggregateFunction) (distinct : Bool) (ts us : List Term),
      (f = .sum ∨ f = .avg) → (∀ t ∈ ts, t.integer?.isSome = true) → us.Perm ts →
      ∀ g, f.onGroup? distinct = some g → g (us.map some) = g (ts.map some) := by
  intro h
  obtain ⟨g, hg, htotal⟩ := onGroup?_integers (.inl rfl : AggregateFunction.sum = .sum ∨ _) false
  have hsame := h .sum false sampleTerms sampleTerms.reverse (.inl rfl) (by decide)
    (List.reverse_perm sampleTerms) g hg
  rw [htotal sampleTerms (by decide), htotal sampleTerms.reverse (by decide),
    if_pos (by decide), if_neg (by decide)] at hsame
  cases hsame

end AggregateFunction

end SparqlAlgebra
