import SparqlAlgebra.Value

/-!
# The order of values

Strings, booleans, integers and decimals are held exactly, so their order has the laws of
one: it is reversed when its sides are, and it is transitive as far as values can be
compared at all. Strings of different languages and values of different kinds cannot.

* `Number.compare?_of_units`: exact numbers are ordered by their units;
* `TypedValue.compare?_swap`, `TypedValue.compare?_trans` are the laws for values, and
  `Literal.compareValues?_swap`, `Literal.compareValues?_trans` those for literals;
* `compareLiteralTexts` orders literals by their texts alone, and is a linear order.

The laws are about literals of `Literal.isExact`: floating-point numbers are compared after
rounding, and a dateTime without a zone is comparable to some instants only.
-/

namespace SparqlAlgebra

/-! ## Numbers -/

namespace Number

/-- The units of a number that is held exactly. -/
def units? : Number → Option Int
  | integer n => some (n * Decimal.one)
  | decimal d => some d.units
  | float _ | double _ => none

theorem compare_mul_one (m n : Int) :
    compare (m * Decimal.one) (n * Decimal.one) = compare m n := by
  have hone : (0 : Int) < Decimal.one := by decide
  rcases Int.lt_trichotomy m n with h | rfl | h
  · rw [Int.compare_eq_lt.mpr h]
    exact Int.compare_eq_lt.mpr (Int.mul_lt_mul_of_pos_right h hone)
  · simp
  · rw [Int.compare_eq_gt.mpr h]
    exact Int.compare_eq_gt.mpr (Int.mul_lt_mul_of_pos_right h hone)

/-- Exact numbers are ordered by their units, whichever of their types is the wider one. -/
theorem compare?_of_units {x y : Number} {m n : Int} (hx : x.units? = some m)
    (hy : y.units? = some n) : x.compare? y = some (compare m n) := by
  cases x <;> cases y <;> cases hx <;> cases hy
  case integer.integer a b =>
    show some (compare a b) = _
    rw [compare_mul_one]
  all_goals rfl

end Number

/-! ## Values -/

namespace TypedValue

/-- Values of which nothing is rounded and that have a place on a line of their own. -/
def isExact : TypedValue → Bool
  | text _ | boolean _ => true
  | number x => x.units?.isSome
  | dateTime _ => false

variable {x y z : TypedValue}

theorem compare?_self (hx : x.isExact = true) : x.compare? x = some .eq := by
  cases x with
  | text s => simp [compare?]
  | boolean b => simp [compare?]
  | number x =>
    obtain ⟨m, hm⟩ := Option.isSome_iff_exists.mp hx
    show x.compare? x = some .eq
    rw [Number.compare?_of_units hm hm]
    simp
  | dateTime t => cases hx

theorem compare?_swap (hx : x.isExact = true) (hy : y.isExact = true) :
    y.compare? x = (x.compare? y).map Ordering.swap := by
  cases x <;> cases y
  case text.text s t =>
    by_cases h : s.language = t.language
    · have hswap : compare t.text s.text = (compare s.text t.text).swap :=
        Std.OrientedCmp.eq_swap
      simp [compare?, h, hswap]
    · simp [compare?, h, Ne.symm h]
  case boolean.boolean a b => cases a <;> cases b <;> rfl
  case number.number a b =>
    obtain ⟨m, hm⟩ := Option.isSome_iff_exists.mp hx
    obtain ⟨n, hn⟩ := Option.isSome_iff_exists.mp hy
    have hswap : compare n m = (compare m n).swap := Std.OrientedCmp.eq_swap
    show b.compare? a = (a.compare? b).map Ordering.swap
    rw [Number.compare?_of_units hm hn, Number.compare?_of_units hn hm, hswap]
    rfl
  case dateTime.dateTime => cases hx
  all_goals rfl

/-- What is comparable to the same value is comparable, and in the order that this value
shows. -/
theorem compare?_trans (hx : x.isExact = true) (hy : y.isExact = true) (hz : z.isExact = true)
    {o o' : Ordering} (hxy : x.compare? y = some o) (hyz : y.compare? z = some o') :
    ∃ o'', x.compare? z = some o'' ∧ (o.isLE = true → o'.isLE = true → o''.isLE = true) := by
  cases x <;> cases y <;> try cases hxy
  case text.text s t =>
    cases z <;> try cases hyz
    case text u =>
      simp only [compare?, Option.ite_none_right_eq_some, Option.some.injEq] at hxy hyz
      obtain ⟨hst, rfl⟩ := hxy
      obtain ⟨htu, rfl⟩ := hyz
      refine ⟨compare s.text u.text, ?_, Std.TransCmp.isLE_trans⟩
      simp [compare?, hst, htu]
  case boolean.boolean a b =>
    cases z <;> cases hyz
    case boolean d => exact ⟨compare a d, rfl, Std.TransCmp.isLE_trans⟩
  case number.number a b =>
    cases z <;> try cases hyz
    case number d =>
      obtain ⟨m, hm⟩ := Option.isSome_iff_exists.mp hx
      obtain ⟨n, hn⟩ := Option.isSome_iff_exists.mp hy
      obtain ⟨k, hk⟩ := Option.isSome_iff_exists.mp hz
      have hab := Number.compare?_of_units hm hn
      have hbd := Number.compare?_of_units hn hk
      cases hab.symm.trans hxy
      cases hbd.symm.trans hyz
      exact ⟨compare m k, Number.compare?_of_units hm hk, Std.TransCmp.isLE_trans⟩
  case dateTime.dateTime => cases hx

end TypedValue

/-! ## Literals -/

namespace Literal

/-- Whether the datatype is none of those whose values are rounded or only partly ordered.
The lexical form may be ill-formed. -/
def isExact (l : Literal) : Bool :=
  l.datatype ≠ Datatype.float && l.datatype ≠ Datatype.double &&
    l.datatype ≠ Datatype.dateTime

/-- The order of the values of two literals, if they have comparable ones. -/
abbrev compareValues? (l m : Literal) : Option Ordering :=
  sparqlCompare? (.literal l) (.literal m)

variable {l m n : Literal}

theorem isExact_value (hl : l.isExact = true) {x : TypedValue}
    (hx : TypedValue.ofLiteral? l = some x) : x.isExact = true := by
  simp only [isExact, Bool.and_eq_true, decide_eq_true_eq] at hl
  obtain ⟨⟨hfloat, hdouble⟩, hdateTime⟩ := hl
  simp only [TypedValue.ofLiteral?, Number.ofLiteral?, hfloat, hdouble, hdateTime,
    if_false] at hx
  split at hx
  · cases hx
    rfl
  split at hx
  · cases hx
    rfl
  split at hx
  · obtain ⟨b, -, rfl⟩ := Option.map_eq_some_iff.mp hx
    rfl
  obtain ⟨number, hnumber, rfl⟩ := Option.map_eq_some_iff.mp hx
  split at hnumber
  · obtain ⟨d, -, rfl⟩ := Option.map_eq_some_iff.mp hnumber
    rfl
  · split at hnumber
    · obtain ⟨n, -, rfl⟩ := Option.map_eq_some_iff.mp hnumber
      rfl
    · cases hnumber

theorem compareValues?_eq_some {o : Ordering} :
    l.compareValues? m = some o ↔ ∃ x y, TypedValue.ofLiteral? l = some x ∧
      TypedValue.ofLiteral? m = some y ∧ x.compare? y = some o := by
  simp only [compareValues?, sparqlCompare?, TypedValue.ofTerm?, bind, Option.bind_eq_some_iff]
  constructor
  · rintro ⟨x, hx, y, hy, ho⟩
    exact ⟨x, y, hx, hy, ho⟩
  · rintro ⟨x, y, hx, hy, ho⟩
    exact ⟨x, hx, y, hy, ho⟩

/-- A literal that can be compared at all equals itself. -/
theorem compareValues?_self (hl : l.isExact = true) {o : Ordering}
    (h : l.compareValues? m = some o) : l.compareValues? l = some .eq := by
  obtain ⟨x, -, hx, -, -⟩ := compareValues?_eq_some.mp h
  exact compareValues?_eq_some.mpr
    ⟨x, x, hx, hx, TypedValue.compare?_self (isExact_value hl hx)⟩

theorem compareValues?_some_swap (hl : l.isExact = true) (hm : m.isExact = true)
    {o : Ordering} (h : l.compareValues? m = some o) : m.compareValues? l = some o.swap := by
  obtain ⟨x, y, hx, hy, hxy⟩ := compareValues?_eq_some.mp h
  refine compareValues?_eq_some.mpr ⟨y, x, hy, hx, ?_⟩
  rw [TypedValue.compare?_swap (isExact_value hl hx) (isExact_value hm hy), hxy,
    Option.map_some]

theorem compareValues?_none_swap (hl : l.isExact = true) (hm : m.isExact = true)
    (h : l.compareValues? m = none) : m.compareValues? l = none := by
  cases h' : m.compareValues? l with
  | none => rfl
  | some o =>
    rw [compareValues?_some_swap hm hl h'] at h
    cases h

theorem compareValues?_swap (hl : l.isExact = true) (hm : m.isExact = true) :
    m.compareValues? l = (l.compareValues? m).map Ordering.swap := by
  cases h : l.compareValues? m with
  | some o => exact compareValues?_some_swap hl hm h
  | none => exact compareValues?_none_swap hl hm h

theorem compareValues?_trans (hl : l.isExact = true) (hm : m.isExact = true)
    (hn : n.isExact = true) {o o' : Ordering} (hlm : l.compareValues? m = some o)
    (hmn : m.compareValues? n = some o') :
    ∃ o'', l.compareValues? n = some o'' ∧
      (o.isLE = true → o'.isLE = true → o''.isLE = true) := by
  obtain ⟨x, y, hx, hy, hxy⟩ := compareValues?_eq_some.mp hlm
  obtain ⟨y', z, hy', hz, hyz⟩ := compareValues?_eq_some.mp hmn
  cases hy.symm.trans hy'
  obtain ⟨o'', hxz, htrans⟩ := TypedValue.compare?_trans (isExact_value hl hx)
    (isExact_value hm hy) (isExact_value hn hz) hxy hyz
  exact ⟨o'', compareValues?_eq_some.mpr ⟨x, z, hx, hz, hxz⟩, htrans⟩

end Literal

/-! ## Integers -/

namespace Literal

/-- The integer that a literal of this very datatype denotes. -/
def integer? (l : Literal) : Option Int :=
  if l.datatype = Datatype.integer then parseInteger? l.lexical else none

theorem integer?_typed (text : String) :
    (typed text Datatype.integer).integer? = parseInteger? text := if_pos rfl

theorem number_of_integer? {l : Literal} {n : Int} (h : l.integer? = some n) :
    Number.ofLiteral? l = some (.integer n) := by
  obtain ⟨hdatatype, hn⟩ := Option.ite_none_right_eq_some.mp h
  have hinteger : Number.integerTypes.contains Datatype.integer = true := by decide
  rw [Number.ofLiteral?, hdatatype, if_neg (by decide), if_neg (by decide), if_neg (by decide),
    if_pos hinteger, hn]
  rfl

theorem value_of_integer? {l : Literal} {n : Int} (h : l.integer? = some n) :
    TypedValue.ofLiteral? l = some (.number (.integer n)) := by
  have hdatatype := (Option.ite_none_right_eq_some.mp h).1
  rw [TypedValue.ofLiteral?, number_of_integer? h, hdatatype, if_neg (by decide),
    if_neg (by decide), if_neg (by decide), if_neg (by decide)]
  rfl

end Literal

/-! ## Texts of literals -/

/-- The text of a literal is its lexical form, its datatype and its tag, in this order. -/
theorem compareLiteralTexts_eq : compareLiteralTexts =
    compareLex (compareOn (·.lexical))
      (compareLex (compareOn (·.datatype.value)) (compareOn (·.language))) := by
  funext l m
  have htags : ∀ s t : Option String,
      compareLiteralTexts ⟨l.lexical, l.datatype, s⟩ ⟨m.lexical, m.datatype, t⟩ =
        (compare l.lexical m.lexical).then
          ((compare l.datatype.value m.datatype.value).then (compare s t)) := by
    intro s t
    cases s <;> cases t <;> rfl
  exact htags l.language m.language

instance : Std.TransCmp compareLiteralTexts := by
  rw [compareLiteralTexts_eq]
  infer_instance

theorem compareLiteralTexts_swap (l m : Literal) :
    compareLiteralTexts m l = (compareLiteralTexts l m).swap :=
  Std.OrientedCmp.eq_swap

instance : Std.LawfulEqCmp compareLiteralTexts where
  eq_of_compare {l m} h := by
    rw [compareLiteralTexts_eq] at h
    simp only [compareLex, compareOn, Ordering.then_eq_eq, Std.LawfulEqCmp.compare_eq_iff_eq]
      at h
    obtain ⟨hlexical, hdatatype, hlanguage⟩ := h
    obtain ⟨lexical, ⟨datatype⟩, language⟩ := l
    obtain ⟨lexical', ⟨datatype'⟩, language'⟩ := m
    cases hlexical
    cases hdatatype
    cases hlanguage
    rfl

end SparqlAlgebra
