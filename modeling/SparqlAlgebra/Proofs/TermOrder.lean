import Mathlib.Data.Set.Basic
import SparqlAlgebra.Proofs.ValueOrder

/-!
# The order of terms

Unbound, blank nodes, IRIs and literals come in this order, and labels, IRIs and the texts
of literals are ordered linearly. Literals are ordered by two orders at once: by value where
both have comparable values, and by their texts elsewhere. A literal whose value is not
comparable to two others can have its text between theirs, so that it comes after the one
with the smaller value and before the one with the larger value, or the other way round.

* `orderByCompare_swap`, `orderByCompare_self`: the order is reversed with its sides, and
  every term equals itself;
* `Literal.Interposes` is the way in which two orders disagree, and
  `orderByCompare_trans_or_interposes` says that there is no other;
* `orderByCompare_laws`: on a set of terms the order is transitive exactly if no literal of
  it interposes.
-/

namespace SparqlAlgebra

/-- Whether a term is a literal of exact values or no literal. -/
def hasExactOrder : Option Term → Bool
  | some (.literal l) => l.isExact
  | _ => true

/-! ## Kinds of terms -/

/-- Unbound, blank nodes, IRIs and literals. -/
def termKind : Option Term → Nat
  | none => 0
  | some (.blank _) => 1
  | some (.iri _) => 2
  | some (.literal _) => 3

theorem orderByCompare_of_kind_ne {a b : Option Term} (h : termKind a ≠ termKind b) :
    orderByCompare a b = compare (termKind a) (termKind b) := by
  rcases a with _ | ⟨i⟩ | ⟨x⟩ | ⟨l⟩ <;> rcases b with _ | ⟨j⟩ | ⟨y⟩ | ⟨m⟩ <;>
    first | rfl | exact absurd rfl h

theorem kind_le_of_isLE {a b : Option Term} (h : (orderByCompare a b).isLE = true) :
    termKind a ≤ termKind b := by
  by_cases hk : termKind a = termKind b
  · exact hk.le
  · rw [orderByCompare_of_kind_ne hk] at h
    exact Nat.isLE_compare.mp h

theorem orderByCompare_literals (l m : Literal) :
    orderByCompare (some (.literal l)) (some (.literal m)) =
      (l.compareValues? m).getD (compareLiteralTexts l m) :=
  rfl

theorem orderByCompare_self {a : Option Term} (ha : hasExactOrder a = true) :
    orderByCompare a a = .eq := by
  rcases a with _ | ⟨i⟩ | ⟨x⟩ | ⟨l⟩
  · rfl
  · exact Std.compare_self
  · exact Std.compare_self
  · rw [orderByCompare_literals]
    cases h : l.compareValues? l with
    | none =>
      have htexts : compareLiteralTexts l l = .eq := Std.ReflCmp.compare_self
      exact htexts
    | some o =>
      rw [Literal.compareValues?_self ha h] at h
      cases h
      rfl

theorem orderByCompare_swap {a b : Option Term} (ha : hasExactOrder a = true)
    (hb : hasExactOrder b = true) : orderByCompare b a = (orderByCompare a b).swap := by
  by_cases hk : termKind a = termKind b
  · rcases a with _ | ⟨i⟩ | ⟨x⟩ | ⟨l⟩ <;> rcases b with _ | ⟨j⟩ | ⟨y⟩ | ⟨m⟩ <;> cases hk
    · rfl
    · exact Std.OrientedOrd.eq_swap
    · exact Std.OrientedOrd.eq_swap
    · rw [orderByCompare_literals, orderByCompare_literals,
        Literal.compareValues?_swap ha hb]
      cases l.compareValues? m with
      | none => exact compareLiteralTexts_swap l m
      | some o => rfl
  · rw [orderByCompare_of_kind_ne hk, orderByCompare_of_kind_ne (Ne.symm hk)]
    exact Std.OrientedCmp.eq_swap

/-! ## Two orders of literals -/

namespace Literal

/-- Two literals have values in this order, and the text of a third one, which is comparable
to neither, shows the opposite order. -/
structure Interposes (n l m : Literal) : Prop where
  values : (l.compareValues? m).any Ordering.isLE = true
  apart_left : n.compareValues? l = none
  apart_right : n.compareValues? m = none
  after_right : compareLiteralTexts m n = .lt
  before_left : compareLiteralTexts n l = .lt

instance (n l m : Literal) : Decidable (n.Interposes l m) :=
  decidable_of_iff
    ((l.compareValues? m).any Ordering.isLE = true ∧ n.compareValues? l = none ∧
      n.compareValues? m = none ∧ compareLiteralTexts m n = .lt ∧
      compareLiteralTexts n l = .lt)
    ⟨fun ⟨hv, hl, hm, ha, hb⟩ => ⟨hv, hl, hm, ha, hb⟩, fun ⟨hv, hl, hm, ha, hb⟩ =>
      ⟨hv, hl, hm, ha, hb⟩⟩

variable {l m n : Literal}

/-- What is comparable to one of two comparable literals is comparable to the other. -/
theorem compareValues?_eq_none_of_some (hl : l.isExact = true) (hm : m.isExact = true)
    (hn : n.isExact = true) {o : Ordering} (hlm : l.compareValues? m = some o)
    (hmn : m.compareValues? n = none) : l.compareValues? n = none := by
  cases h : l.compareValues? n with
  | none => rfl
  | some o' =>
    have hml := compareValues?_some_swap hl hm hlm
    obtain ⟨o'', hsome, -⟩ := compareValues?_trans hm hl hn hml h
    rw [hmn] at hsome
    cases hsome

theorem texts_lt_of_isLE (h : (compareLiteralTexts l m).isLE = true) (hne : l ≠ m) :
    compareLiteralTexts l m = .lt := by
  cases hlm : compareLiteralTexts l m with
  | lt => rfl
  | eq => exact absurd (Std.LawfulEqCmp.eq_of_compare hlm) hne
  | gt =>
    rw [hlm] at h
    cases h

theorem texts_isLE_of_not (h : ¬ (compareLiteralTexts l m).isLE = true) :
    (compareLiteralTexts m l).isLE = true := by
  rw [compareLiteralTexts_swap l m]
  cases hlm : compareLiteralTexts l m with
  | lt | eq =>
    rw [hlm] at h
    exact absurd rfl h
  | gt => rfl

/-- A literal that is apart from two comparable ones is different from both, so that its text
is too. -/
theorem Interposes.of_isLE (hl : l.isExact = true) (hm : m.isExact = true) {o : Ordering}
    (hlm : l.compareValues? m = some o) (ho : o.isLE = true) (hnl : n.compareValues? l = none)
    (hnm : n.compareValues? m = none) (htext : (compareLiteralTexts m n).isLE = true)
    (htext' : (compareLiteralTexts n l).isLE = true) : n.Interposes l m where
  values := by
    rw [hlm]
    exact ho
  apart_left := hnl
  apart_right := hnm
  after_right := by
    refine texts_lt_of_isLE htext ?_
    rintro rfl
    rw [compareValues?_some_swap hl hm hlm] at hnl
    cases hnl
  before_left := by
    refine texts_lt_of_isLE htext' ?_
    rintro rfl
    rw [hlm] at hnm
    cases hnm

/-- An interposed literal is a step back in the order of the other two. -/
theorem Interposes.not_isLE (h : n.Interposes l m) (hl : l.isExact = true)
    (hm : m.isExact = true) (hn : n.isExact = true) :
    (orderByCompare (some (.literal l)) (some (.literal m))).isLE = true ∧
      (orderByCompare (some (.literal m)) (some (.literal n))).isLE = true ∧
      ¬ (orderByCompare (some (.literal l)) (some (.literal n))).isLE = true := by
  simp only [orderByCompare_literals]
  refine ⟨?_, ?_, ?_⟩
  · obtain ⟨o, ho, hle⟩ := (Option.any_eq_true _ _).mp h.values
    rw [ho]
    exact hle
  · rw [compareValues?_none_swap hn hm h.apart_right, Option.getD_none, h.after_right]
    rfl
  · rw [compareValues?_none_swap hn hl h.apart_left, Option.getD_none,
      compareLiteralTexts_swap n l, h.before_left]
    decide

/-- The order of literals is transitive, unless one of three interposes. -/
theorem trans_or_interposes (hl : l.isExact = true) (hm : m.isExact = true)
    (hn : n.isExact = true)
    (hlm : (orderByCompare (some (.literal l)) (some (.literal m))).isLE = true)
    (hmn : (orderByCompare (some (.literal m)) (some (.literal n))).isLE = true) :
    (orderByCompare (some (.literal l)) (some (.literal n))).isLE = true ∨
      n.Interposes l m ∨ l.Interposes m n ∨ m.Interposes n l := by
  simp only [orderByCompare_literals] at hlm hmn ⊢
  -- Which pairs are compared by value: all, one of three, or none. Two of them make three.
  cases hvlm : l.compareValues? m with
  | some o =>
    rw [hvlm] at hlm
    cases hvmn : m.compareValues? n with
    | some o' =>
      obtain ⟨o'', hvln, htrans⟩ := compareValues?_trans hl hm hn hvlm hvmn
      rw [hvmn] at hmn
      rw [hvln]
      exact .inl (htrans hlm hmn)
    | none =>
      have hvln := compareValues?_eq_none_of_some hl hm hn hvlm hvmn
      have hvnl := compareValues?_none_swap hl hn hvln
      have hvnm := compareValues?_none_swap hm hn hvmn
      rw [hvmn] at hmn
      rw [hvln, Option.getD_none]
      exact (em _).imp_right fun hback =>
        .inl (.of_isLE hl hm hvlm hlm hvnl hvnm hmn (texts_isLE_of_not hback))
  | none =>
    have hvml := compareValues?_none_swap hl hm hvlm
    rw [hvlm] at hlm
    cases hvmn : m.compareValues? n with
    | some o =>
      have hvnm := compareValues?_some_swap hm hn hvmn
      have hvnl := compareValues?_eq_none_of_some hn hm hl hvnm hvml
      have hvln := compareValues?_none_swap hn hl hvnl
      rw [hvmn] at hmn
      rw [hvln, Option.getD_none]
      exact (em _).imp_right fun hback =>
        .inr (.inl (.of_isLE hm hn hvmn hmn hvlm hvln (texts_isLE_of_not hback) hlm))
    | none =>
      rw [hvmn] at hmn
      cases hvln : l.compareValues? n with
      | none =>
        have htexts : (compareLiteralTexts l n).isLE = true := Std.TransCmp.isLE_trans hlm hmn
        exact .inl htexts
      | some o =>
        have hvnl := compareValues?_some_swap hl hn hvln
        refine (em _).imp_right fun hback =>
          .inr (.inr (.of_isLE hn hl hvnl ?_ hvmn hvml hlm hmn))
        cases o with
        | lt | eq => exact absurd rfl hback
        | gt => rfl

end Literal

/-! ## All terms -/

/-- Terms are ordered transitively, unless they are literals of which one interposes. -/
theorem orderByCompare_trans_or_interposes {a b c : Option Term} (ha : hasExactOrder a = true)
    (hb : hasExactOrder b = true) (hc : hasExactOrder c = true)
    (hab : (orderByCompare a b).isLE = true) (hbc : (orderByCompare b c).isLE = true) :
    (orderByCompare a c).isLE = true ∨ ∃ l m n, a = some (.literal l) ∧
      b = some (.literal m) ∧ c = some (.literal n) ∧
      (n.Interposes l m ∨ l.Interposes m n ∨ m.Interposes n l) := by
  have hkab := kind_le_of_isLE hab
  have hkbc := kind_le_of_isLE hbc
  by_cases hk : termKind a = termKind c
  · have hkb : termKind b = termKind c := by omega
    rcases c with _ | ⟨i⟩ | ⟨x⟩ | ⟨n⟩ <;> rcases a with _ | ⟨j⟩ | ⟨y⟩ | ⟨l⟩ <;> cases hk <;>
      rcases b with _ | ⟨k⟩ | ⟨z⟩ | ⟨m⟩ <;> cases hkb
    · exact .inl rfl
    · exact .inl (Std.TransOrd.isLE_trans hab hbc)
    · exact .inl (Std.TransOrd.isLE_trans hab hbc)
    · exact (Literal.trans_or_interposes ha hb hc hab hbc).imp_right
        fun h => ⟨l, m, n, rfl, rfl, rfl, h⟩
  · rw [orderByCompare_of_kind_ne hk]
    exact .inl (Nat.isLE_compare.mpr (hkab.trans hkbc))

/-- The order of solutions on a set of terms, whatever their kinds and datatypes, as far as
their values are exact: every term equals itself, the order is reversed with its sides, and
it is transitive exactly if no literal of the set interposes between the values of two
others. -/
theorem orderByCompare_laws {S : Set (Option Term)} (hS : ∀ t ∈ S, hasExactOrder t = true) :
    (∀ a ∈ S, orderByCompare a a = .eq) ∧
      (∀ a ∈ S, ∀ b ∈ S, orderByCompare b a = (orderByCompare a b).swap) ∧
      ((∀ a ∈ S, ∀ b ∈ S, ∀ c ∈ S, orderByCompare a b ≠ .gt → orderByCompare b c ≠ .gt →
          orderByCompare a c ≠ .gt) ↔
        ∀ l m n, some (.literal l) ∈ S → some (.literal m) ∈ S → some (.literal n) ∈ S →
          ¬ n.Interposes l m) := by
  refine ⟨fun a ha => orderByCompare_self (hS a ha),
    fun a ha b hb => orderByCompare_swap (hS a ha) (hS b hb), ?_, ?_⟩
  · intro htrans l m n hl hm hn hnlm
    obtain ⟨hle, hle', hback⟩ := hnlm.not_isLE (hS _ hl) (hS _ hm) (hS _ hn)
    exact hback (Ordering.isLE_iff_ne_gt.mpr (htrans _ hl _ hm _ hn
      (Ordering.isLE_iff_ne_gt.mp hle) (Ordering.isLE_iff_ne_gt.mp hle')))
  · intro hnone a ha b hb c hc hab hbc
    refine Ordering.isLE_iff_ne_gt.mp ((orderByCompare_trans_or_interposes (hS a ha) (hS b hb)
      (hS c hc) (Ordering.isLE_iff_ne_gt.mpr hab)
      (Ordering.isLE_iff_ne_gt.mpr hbc)).resolve_right ?_)
    rintro ⟨l, m, n, rfl, rfl, rfl, h | h | h⟩
    · exact hnone l m n ha hb hc h
    · exact hnone m n l hb hc ha h
    · exact hnone n l m hc ha hb h

namespace Literal

/-- Literals of six datatypes, one of them ill-formed, none of which interposes. -/
def orderSamples : List Literal :=
  [.typed "9" Datatype.integer, .typed "010" Datatype.integer, .typed "9.5" Datatype.decimal,
    .typed "ten" Datatype.integer, .typed "true" Datatype.boolean, .simple "x",
    .tagged "x" "en", .typed "x" ⟨"http://example.com/unit"⟩]

end Literal

theorem orderByCompare_laws_sample :
    let S : List (Option Term) :=
      [none, some (.blank (.labelled "b")), some (.iri ⟨"http://example.com/a"⟩)] ++
        Literal.orderSamples.map fun l => some (.literal l)
    (∀ t ∈ S, hasExactOrder t = true) ∧
      ∀ a ∈ S, ∀ b ∈ S, ∀ c ∈ S, orderByCompare a b ≠ .gt → orderByCompare b c ≠ .gt →
        orderByCompare a c ≠ .gt := by
  intro S
  have hS : ∀ t ∈ S, hasExactOrder t = true := by decide
  have hnone : ∀ l ∈ Literal.orderSamples, ∀ m ∈ Literal.orderSamples,
      ∀ n ∈ Literal.orderSamples, ¬ n.Interposes l m := by decide +kernel
  have hmem {l : Literal} (hl : some (.literal l) ∈ S) : l ∈ Literal.orderSamples := by
    simpa [S] using hl
  refine ⟨hS, (orderByCompare_laws (S := {t | t ∈ S}) hS).2.2.mpr ?_⟩
  intro l m n hl hm hn
  exact hnone l (hmem hl) m (hmem hm) n (hmem hn)

/-- The string 5 is no number, and its text lies behind that of the number 10 and before
that of the number 9. -/
theorem orderByCompare_not_transitive :
    ¬ ∀ a b c : Option Term, hasExactOrder a = true → hasExactOrder b = true →
      hasExactOrder c = true → orderByCompare a b ≠ .gt → orderByCompare b c ≠ .gt →
      orderByCompare a c ≠ .gt := by
  intro h
  exact h (some (.literal (.ofInt 10))) (some (.literal (.simple "5")))
    (some (.literal (.ofInt 9))) (by decide) (by decide) (by decide) (by decide) (by decide)
    (by decide)

end SparqlAlgebra
