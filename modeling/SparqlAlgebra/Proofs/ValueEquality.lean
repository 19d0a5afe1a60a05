import SparqlAlgebra.Proofs.ValueOrder

/-!
# Equality and order of values

Conditions compare two terms for equality or by order, and either operator reads the values of
the terms for itself. Equality also answers for IRIs and blank nodes, and for literals without
a known value if they are the same; the order answers for comparable values only.

* `sparqlEquals?_eq_true_iff`: terms are equal if they are the same or if the order finds no
  difference, so that what is known of the order carries over to equality;
* `sparqlCompare?_then`: two comparisons in the same direction make a third one;
* `sparqlCompare_laws`: equality is an equivalence, the order is one of its classes, and
  neither operator contradicts the other.

As for the order alone, this is about terms whose values are held exactly.
-/

namespace SparqlAlgebra

/-! ## Values -/

/-- Values are equal if the order finds no difference between them. -/
theorem TypedValue.equals_iff {x y : TypedValue} (hx : x.isExact = true) :
    x.equals y = true ↔ x.compare? y = some .eq := by
  cases x <;> cases y
  case text.text s t =>
    -- strings of two languages are not equal, and they are not comparable either
    obtain ⟨text, language⟩ := s
    obtain ⟨text', language'⟩ := t
    by_cases h : language = language' <;> simp [equals, compare?, h]
  case boolean.boolean a b => cases a <;> cases b <;> decide
  case number.number m n => simp [equals, compare?]
  case dateTime.dateTime => cases hx
  all_goals simp [equals, compare?]

theorem TypedValue.equals_comm {x y : TypedValue} (hx : x.isExact = true)
    (hy : y.isExact = true) : y.equals x = x.equals y := by
  rw [Bool.eq_iff_iff, equals_iff hx, equals_iff hy, compare?_swap hx hy]
  cases x.compare? y with
  | none => simp
  | some o => cases o <;> simp

/-! ## Comparing terms -/

/-- Whether the values of a literal are neither rounded nor ordered in part only. Other terms
have no value besides themselves. -/
def Term.isExact : Term → Bool
  | .literal l => l.isExact
  | .iri _ | .blank _ => true

variable {a b d : Term}

theorem sparqlCompare?_swap (ha : a.isExact = true) (hb : b.isExact = true) :
    sparqlCompare? b a = (sparqlCompare? a b).map Ordering.swap := by
  cases a with
  | iri i => cases b <;> simp [sparqlCompare?, TypedValue.ofTerm?]
  | blank x => cases b <;> simp [sparqlCompare?, TypedValue.ofTerm?]
  | literal l =>
    cases b with
    | iri i => simp [sparqlCompare?, TypedValue.ofTerm?]
    | blank x => simp [sparqlCompare?, TypedValue.ofTerm?]
    | literal m => exact Literal.compareValues?_swap ha hb

/-- Only literals are comparable. -/
theorem exists_literal_of_compare {o : Ordering} (h : sparqlCompare? a b = some o) :
    ∃ l m, a = .literal l ∧ b = .literal m := by
  cases a <;> cases b <;> simp_all [sparqlCompare?, TypedValue.ofTerm?]

theorem sparqlCompare?_isLE (ha : a.isExact = true) (hb : b.isExact = true)
    (hd : d.isExact = true) {o o' : Ordering} (hab : sparqlCompare? a b = some o)
    (hbd : sparqlCompare? b d = some o') : ∃ o'', sparqlCompare? a d = some o'' ∧
      (o.isLE = true → o'.isLE = true → o''.isLE = true) := by
  obtain ⟨l, m, rfl, rfl⟩ := exists_literal_of_compare hab
  obtain ⟨_, n, -, rfl⟩ := exists_literal_of_compare hbd
  exact Literal.compareValues?_trans ha hb hd hab hbd

/-- Two steps up, or to an equal value, make one step up, and it leads to an equal value only
if both of them do. -/
theorem sparqlCompare?_then_of_isLE (ha : a.isExact = true) (hb : b.isExact = true)
    (hd : d.isExact = true) {o o' : Ordering} (hab : sparqlCompare? a b = some o)
    (hbd : sparqlCompare? b d = some o') (ho : o.isLE = true) (ho' : o'.isLE = true) :
    sparqlCompare? a d = some (o.then o') := by
  obtain ⟨o'', had, hle⟩ := sparqlCompare?_isLE ha hb hd hab hbd
  have hba : sparqlCompare? b a = some o.swap := by rw [sparqlCompare?_swap ha hb, hab]; rfl
  have hdb : sparqlCompare? d b = some o'.swap := by rw [sparqlCompare?_swap hb hd, hbd]; rfl
  have hda : sparqlCompare? d a = some o''.swap := by rw [sparqlCompare?_swap ha hd, had]; rfl
  -- going back from the last value to the first one closes a circle with each of the steps
  obtain ⟨back, hback, hback_le⟩ := sparqlCompare?_isLE hb hd ha hbd hda
  obtain ⟨back', hback', hback_le'⟩ := sparqlCompare?_isLE hd ha hb hda hab
  obtain ⟨down, hdown, hdown_le⟩ := sparqlCompare?_isLE hd hb ha hdb hba
  cases hback.symm.trans hba
  cases hback'.symm.trans hdb
  cases hdown.symm.trans hda
  have hup : o''.isLE = true := hle ho ho'
  rw [had]
  cases o <;> cases o' <;> cases o'' <;> simp_all

/-- Two steps in the same direction make one. -/
theorem sparqlCompare?_then (ha : a.isExact = true) (hb : b.isExact = true)
    (hd : d.isExact = true) {o o' : Ordering} (hab : sparqlCompare? a b = some o)
    (hbd : sparqlCompare? b d = some o')
    (h : o.isLE = true ∧ o'.isLE = true ∨ o.isGE = true ∧ o'.isGE = true) :
    sparqlCompare? a d = some (o.then o') := by
  rcases h with ⟨ho, ho'⟩ | ⟨ho, ho'⟩
  · exact sparqlCompare?_then_of_isLE ha hb hd hab hbd ho ho'
  · -- steps down are steps up, seen from the other end
    have hba : sparqlCompare? b a = some o.swap := by rw [sparqlCompare?_swap ha hb, hab]; rfl
    have hdb : sparqlCompare? d b = some o'.swap := by rw [sparqlCompare?_swap hb hd, hbd]; rfl
    have hda : sparqlCompare? d a = some (o'.swap.then o.swap) :=
      sparqlCompare?_then_of_isLE hd hb ha hdb hba (by cases o' <;> simp_all)
        (by cases o <;> simp_all)
    rw [sparqlCompare?_swap hd ha, hda]
    cases o <;> cases o' <;> simp_all

/-! ## Equality of terms -/

theorem sparqlEquals?_literals {l m : Literal} :
    sparqlEquals? (.literal l) (.literal m) =
      match TypedValue.ofLiteral? l, TypedValue.ofLiteral? m with
      | some x, some y => some (x.equals y)
      | _, _ => if l = m then some true else none := rfl

/-- Terms are equal if they are the same, or if the order finds no difference. -/
theorem sparqlEquals?_eq_true_iff (ha : a.isExact = true) :
    sparqlEquals? a b = some true ↔ a = b ∨ sparqlCompare? a b = some .eq := by
  cases a with
  | iri i => cases b <;> simp [sparqlEquals?, sparqlCompare?, TypedValue.ofTerm?]
  | blank x => cases b <;> simp [sparqlEquals?, sparqlCompare?, TypedValue.ofTerm?]
  | literal l =>
    cases b with
    | iri i => simp [sparqlEquals?, sparqlCompare?, TypedValue.ofTerm?]
    | blank x => simp [sparqlEquals?, sparqlCompare?, TypedValue.ofTerm?]
    | literal m =>
      rw [sparqlEquals?_literals, Literal.compareValues?_eq_some, Term.literal.injEq]
      cases hl : TypedValue.ofLiteral? l with
      | none => simp
      | some x =>
        have hx : x.isExact = true := Literal.isExact_value ha hl
        cases hm : TypedValue.ofLiteral? m with
        | none => simp
        | some y =>
          have hself : l = m → x.compare? y = some .eq := by
            rintro rfl
            cases hl.symm.trans hm
            exact TypedValue.compare?_self hx
          simp [TypedValue.equals_iff hx]
          exact hself

/-- Literals without a value are equal if they are the same, from either side. -/
theorem sparqlEquals?_comm (ha : a.isExact = true) (hb : b.isExact = true) :
    sparqlEquals? b a = sparqlEquals? a b := by
  cases a with
  | iri i => cases b <;> simp [sparqlEquals?, eq_comm]
  | blank x => cases b <;> simp [sparqlEquals?, eq_comm]
  | literal l =>
    cases b with
    | iri i => simp [sparqlEquals?]
    | blank x => simp [sparqlEquals?]
    | literal m =>
      rw [sparqlEquals?_literals, sparqlEquals?_literals]
      cases hl : TypedValue.ofLiteral? l with
      | none => cases TypedValue.ofLiteral? m <;> simp [eq_comm]
      | some x =>
        cases hm : TypedValue.ofLiteral? m with
        | none => simp [eq_comm]
        | some y =>
          have hx : x.isExact = true := Literal.isExact_value ha hl
          have hy : y.isExact = true := Literal.isExact_value hb hm
          exact congrArg some (TypedValue.equals_comm hx hy)

/-- Equality carries over from a term to the next, through literals without a value as well. -/
theorem sparqlEquals?_trans (ha : a.isExact = true) (hb : b.isExact = true)
    (hd : d.isExact = true) (hab : sparqlEquals? a b = some true)
    (hbd : sparqlEquals? b d = some true) : sparqlEquals? a d = some true := by
  rcases (sparqlEquals?_eq_true_iff ha).mp hab with rfl | hab
  · exact hbd
  rcases (sparqlEquals?_eq_true_iff hb).mp hbd with rfl | hbd
  · exact (sparqlEquals?_eq_true_iff ha).mpr (.inr hab)
  · have had : sparqlCompare? a d = some (Ordering.eq.then .eq) :=
      sparqlCompare?_then_of_isLE ha hb hd hab hbd rfl rfl
    exact (sparqlEquals?_eq_true_iff ha).mpr (.inr had)

/-- A literal that is comparable to itself is equal to itself there too. -/
theorem sparqlCompare?_self (ha : a.isExact = true) {o : Ordering}
    (h : sparqlCompare? a a = some o) : o = .eq := by
  obtain ⟨l, _, rfl, -⟩ := exists_literal_of_compare h
  have hself : sparqlCompare? (.literal l) (.literal l) = some .eq :=
    Literal.compareValues?_self ha h
  exact Option.some.inj (h.symm.trans hself)

theorem sparqlCompare?_eq_iff (ha : a.isExact = true) :
    sparqlCompare? a b = some .eq ↔
      (sparqlCompare? a b).isSome = true ∧ sparqlEquals? a b = some true := by
  constructor
  · intro h
    exact ⟨by simp [h], (sparqlEquals?_eq_true_iff ha).mpr (.inr h)⟩
  · rintro ⟨hsome, hequal⟩
    obtain ⟨o, ho⟩ := Option.isSome_iff_exists.mp hsome
    rcases (sparqlEquals?_eq_true_iff ha).mp hequal with rfl | h
    · rw [ho, sparqlCompare?_self ha ho]
    · exact h

/-- Equality and order of values agree, on IRIs, blank nodes, literals of any kind and literals
that are ill-formed: equality is reflexive, symmetric also where it has no answer, and
transitive; the order is reversed with its sides, finds no difference exactly between the
comparable terms that are equal, and two of its steps in one direction make a third. -/
theorem sparqlCompare_laws (ha : a.isExact = true) (hb : b.isExact = true)
    (hd : d.isExact = true) :
    sparqlEquals? a a = some true ∧
      sparqlEquals? b a = sparqlEquals? a b ∧
      (sparqlEquals? a b = some true → sparqlEquals? b d = some true →
        sparqlEquals? a d = some true) ∧
      sparqlCompare? b a = (sparqlCompare? a b).map Ordering.swap ∧
      (sparqlCompare? a b = some .eq ↔
        (sparqlCompare? a b).isSome = true ∧ sparqlEquals? a b = some true) ∧
      ∀ o o', sparqlCompare? a b = some o → sparqlCompare? b d = some o' →
        o.isLE = true ∧ o'.isLE = true ∨ o.isGE = true ∧ o'.isGE = true →
        sparqlCompare? a d = some (o.then o') := by
  refine ⟨(sparqlEquals?_eq_true_iff ha).mpr (.inl rfl), sparqlEquals?_comm ha hb,
    sparqlEquals?_trans ha hb hd, sparqlCompare?_swap ha hb, sparqlCompare?_eq_iff ha, ?_⟩
  intro o o' hab hbd h
  exact sparqlCompare?_then ha hb hd hab hbd h

/-- An integer, a decimal of the same value and a greater number of a derived type. -/
theorem sparqlCompare_laws_sample :
    let ten : Term := .literal (.typed "010" Datatype.integer)
    let same : Term := .literal (.typed "10.0" Datatype.decimal)
    let more : Term := .literal (.typed "+11" ⟨"http://www.w3.org/2001/XMLSchema#byte"⟩)
    sparqlEquals? ten same = some true ∧ sparqlEquals? same ten = some true ∧
      sparqlCompare? same more = some .lt ∧ sparqlCompare? ten more = some .lt ∧
      sparqlEquals? ten more ≠ some true := by
  intro ten same more
  obtain ⟨-, hcomm, -, -, heq, hthen⟩ :=
    sparqlCompare_laws (a := ten) (b := same) (d := more) (by decide) (by decide) (by decide)
  have hequal : sparqlEquals? ten same = some true := by decide
  have hless : sparqlCompare? same more = some .lt := by decide
  have hsame : sparqlCompare? ten same = some .eq := heq.mpr ⟨by decide, hequal⟩
  refine ⟨hequal, hcomm.trans hequal, hless, hthen .eq .lt hsame hless (by decide), ?_⟩
  decide

end SparqlAlgebra
