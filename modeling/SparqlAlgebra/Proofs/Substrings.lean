import SparqlAlgebra.Function.Registry

/-!
# Where a text occurs in another

`CONTAINS`, `STRSTARTS`, `STRBEFORE` and `STRAFTER` share their rule for arguments and one
search, which goes through the first text character by character.

* `splitAtFirst?_eq_some`, `splitAtFirst?_eq_none`: the search finds an occurrence if there
  is one, and none is before it;
* `exists_append_of_bytes`: the bytes of a text occur in those of another only where its
  characters do, so that a search through the bytes finds the same place;
* `Compatible.ofTerms?_eq_some`, `Compatible.ofTerms?_eq_none`: the rule for arguments;
* `substrings_agree`: the four functions fail for the same terms and agree on where the
  first occurrence is.
-/

namespace SparqlAlgebra.StringFunction

/-! ## The search -/

/-- What the search returns cuts the text around an occurrence, before which there is none. -/
theorem splitAtFirst?_eq_some {part cs before after : List Char}
    (h : splitAtFirst? part cs = some (before, after)) :
    cs = before ++ part ++ after ∧
      ∀ u v, cs = u ++ part ++ v → before.length ≤ u.length := by
  induction cs generalizing before with
  | nil =>
    rw [splitAtFirst?] at h
    split at h
    · rename_i hpart
      obtain ⟨rfl, rfl⟩ := Prod.mk.inj (Option.some.inj h)
      rw [List.isEmpty_iff.mp hpart]
      exact ⟨rfl, fun u v _ => Nat.zero_le _⟩
    · nomatch h
  | cons c rest ih =>
    rw [splitAtFirst?] at h
    split at h
    · rename_i hpart
      obtain ⟨rfl, rfl⟩ := Prod.mk.inj (Option.some.inj h)
      refine ⟨?_, fun u v _ => Nat.zero_le _⟩
      obtain ⟨v, hv⟩ := List.isPrefixOf_iff_prefix.mp hpart
      rw [← hv, List.drop_left, List.nil_append]
    · rename_i hpart
      obtain ⟨⟨before', after'⟩, hrest, heq⟩ := Option.map_eq_some_iff.mp h
      obtain ⟨rfl, rfl⟩ := Prod.mk.inj heq
      obtain ⟨hcut, hfirst⟩ := ih hrest
      refine ⟨by rw [hcut]; rfl, fun u v huv => ?_⟩
      cases u with
      | nil => exact absurd (List.isPrefixOf_iff_prefix.mpr ⟨v, huv.symm⟩) hpart
      | cons d u =>
        have htail : rest = u ++ part ++ v := (List.cons.inj huv).2
        exact Nat.succ_le_succ (hfirst u v htail)

/-- A search without a result means that there is no occurrence. -/
theorem splitAtFirst?_eq_none {part cs : List Char} (h : splitAtFirst? part cs = none)
    (u v : List Char) : cs ≠ u ++ part ++ v := by
  induction cs generalizing u with
  | nil =>
    rw [splitAtFirst?] at h
    split at h
    · nomatch h
    · rename_i hpart
      intro huv
      have hnil : part = [] := (List.append_eq_nil_iff.mp (List.append_eq_nil_iff.mp huv.symm).1).2
      exact hpart (List.isEmpty_iff.mpr hnil)
  | cons c rest ih =>
    rw [splitAtFirst?] at h
    split at h
    · nomatch h
    · rename_i hpart
      cases u with
      | nil => exact fun huv => hpart (List.isPrefixOf_iff_prefix.mpr ⟨v, huv.symm⟩)
      | cons d u => exact fun huv => ih (Option.map_eq_none_iff.mp h) u (List.cons.inj huv).2

/-- A text that is a prefix is found in front. -/
theorem splitAtFirst?_of_start {part cs : List Char} (h : part <+: cs) :
    splitAtFirst? part cs = some ([], cs.drop part.length) := by
  cases cs with
  | nil => rw [List.prefix_nil.mp h]; rfl
  | cons c rest => rw [splitAtFirst?, if_pos (List.isPrefixOf_iff_prefix.mpr h)]

/-! ## Bytes -/

/-- A valid position cuts a text into the texts of the bytes on its two sides. -/
theorem exists_append_of_isValid {s : String} {u v : ByteArray} (h : s.toByteArray = u ++ v)
    (hvalid : String.Pos.Raw.IsValid s ⟨u.size⟩) :
    ∃ a b : String, s = a ++ b ∧ a.toByteArray = u ∧ b.toByteArray = v := by
  obtain ⟨a, b, rfl, hpos⟩ := String.Pos.Raw.isValid_iff_exists_append.mp hvalid
  have hsize : a.toByteArray.size = u.size := by
    rw [String.size_toByteArray]
    exact (congrArg String.Pos.Raw.byteIdx hpos).symm
  rw [String.toByteArray_append, ByteArray.ext_iff, ByteArray.data_append,
    ByteArray.data_append] at h
  obtain ⟨hu, hv⟩ := Array.append_inj h hsize
  exact ⟨a, b, rfl, ByteArray.ext hu, ByteArray.ext hv⟩

/-- A place where the bytes of a text occur in those of another is a place between two
characters, and the characters of the text stand there. -/
theorem exists_append_of_bytes {s t : String} {u v : ByteArray}
    (h : s.toByteArray = u ++ t.toByteArray ++ v) (ht : t ≠ "") :
    ∃ a b : String, s = a ++ t ++ b ∧ a.utf8ByteSize = u.size := by
  have hsize : s.utf8ByteSize = u.size + t.utf8ByteSize + v.size := by
    rw [← String.size_toByteArray, h, ByteArray.size_append, ByteArray.size_append,
      String.size_toByteArray]
  have hpos : 0 < t.utf8ByteSize :=
    Nat.pos_of_ne_zero fun hzero => ht (String.utf8ByteSize_eq_zero_iff.mp hzero)
  have hextract :
      s.toByteArray.extract u.size (u.size + t.utf8ByteSize) = t.toByteArray := by
    rw [h, ByteArray.append_assoc, ← Nat.add_zero u.size, Nat.add_assoc,
      ByteArray.extract_append_size_add, Nat.zero_add]
    exact ByteArray.extract_append_eq_left String.size_toByteArray.symm
  -- the bytes from one end of the occurrence to the other are a text: both ends are valid
  have hvalid := (String.Pos.Raw.isValidUTF8_extract_iff (s := s) ⟨u.size⟩
    ⟨u.size + t.utf8ByteSize⟩ (by simp [String.Pos.Raw.le_iff])
    (by simp [String.Pos.Raw.le_iff, hsize])).mp (hextract ▸ t.isValidUTF8)
  obtain heq | ⟨hfirst, hlast⟩ := hvalid
  · exact absurd (congrArg String.Pos.Raw.byteIdx heq) (by simp; omega)
  · rw [← String.size_toByteArray, ← ByteArray.size_append] at hlast
    obtain ⟨c, b, rfl, hc, -⟩ := exists_append_of_isValid h hlast
    have hcsize : c.utf8ByteSize = u.size + t.utf8ByteSize := by
      rw [← String.size_toByteArray, hc, ByteArray.size_append, String.size_toByteArray]
    obtain hfirst | ⟨hle, -⟩ := String.Pos.Raw.isValid_append.mp hfirst
    · obtain ⟨a, t', rfl, ha, ht'⟩ := exists_append_of_isValid hc hfirst
      refine ⟨a, b, by rw [String.toByteArray_inj.mp ht'], ?_⟩
      rw [← ha, String.size_toByteArray]
    · rw [String.Pos.Raw.le_iff, String.byteIdx_rawEndPos, hcsize] at hle
      exact absurd hle (by simp; omega)

/-! ## Arguments -/

/-- Two terms are strings of which the second has no language tag or that of the first. -/
def AreCompatible (s t : Term) (a b : TextValue) : Prop :=
  TextValue.ofTerm? s = some a ∧ TextValue.ofTerm? t = some b ∧
    (b.language = none ∨ b.language = a.language)

theorem Compatible.ofTerms?_eq_some {s t : Term} {a b : TextValue} (h : AreCompatible s t a b) :
    Compatible.ofTerms? s t = some ⟨a.text.toList, b.text.toList, a.language⟩ := by
  obtain ⟨hs, ht, htags⟩ := h
  rw [Compatible.ofTerms?, hs, ht]
  refine if_pos ?_
  rw [Bool.or_eq_true, Option.isNone_iff_eq_none, decide_eq_true_iff]
  exact htags.imp_right Eq.symm

theorem Compatible.ofTerms?_eq_none {s t : Term} (h : ¬ ∃ a b, AreCompatible s t a b) :
    Compatible.ofTerms? s t = none := by
  rw [Compatible.ofTerms?]
  cases hs : TextValue.ofTerm? s with
  | none => rfl
  | some a =>
    cases ht : TextValue.ofTerm? t with
    | none => rfl
    | some b =>
      refine if_neg fun htags => h ⟨a, b, hs, ht, ?_⟩
      rw [Bool.or_eq_true, Option.isNone_iff_eq_none, decide_eq_true_iff] at htags
      exact htags.imp_right Eq.symm

/-! ## The four functions -/

/-- What the functions answer for the strings `a` and `b`: whether `a` contains `b` and starts
with it, and what stands before and behind it. -/
structure IsCutAt (a b : TextValue) (contains starts : Bool) (before after : Literal) :
    Prop where
  /-- The answer is positive exactly if the three parts make up the text. -/
  parts : contains = true ↔ a.text = before.lexical ++ b.text ++ after.lexical
  occurs : contains = true ↔ ∃ u v, a.text = u ++ b.text ++ v
  /-- No occurrence begins earlier, whether characters or bytes are compared. -/
  first : ∀ u v, a.text = u ++ b.text ++ v → before.lexical.length ≤ u.length
  firstByte : ∀ u v, a.text.toByteArray = u ++ b.text.toByteArray ++ v →
    before.lexical.utf8ByteSize ≤ u.size
  inFront : starts = true ↔ ∃ v, a.text = b.text ++ v
  cutInFront : starts = true → before.lexical = "" ∧ contains = true
  /-- The parts of a text have its language tag. -/
  tags : contains = true →
    .literal before = a.withText before.lexical ∧ .literal after = a.withText after.lexical
  missing : contains = false → before = .simple "" ∧ after = .simple ""

/-- A text is made up of three others exactly if its characters are. -/
theorem eq_append_iff (text before part after : String) :
    text = before ++ part ++ after ↔
      text.toList = before.toList ++ part.toList ++ after.toList := by
  rw [String.ext_iff, String.toList_append, String.toList_append]

/-- An occurrence of the bytes of a text begins behind the first one of its characters. -/
theorem byteSize_le_of_bytes {a b before : String}
    (hfirst : ∀ u v, a = u ++ b ++ v → before.toList <+: u.toList)
    (hempty : b = "" → before = "") {u v : ByteArray}
    (h : a.toByteArray = u ++ b.toByteArray ++ v) : before.utf8ByteSize ≤ u.size := by
  by_cases hb : b = ""
  · rw [hempty hb]
    exact Nat.zero_le _
  · obtain ⟨c, d, hcut, hsize⟩ := exists_append_of_bytes h hb
    obtain ⟨rest, hrest⟩ := hfirst c d hcut
    have hc : c = before ++ String.ofList rest := by
      rw [String.ext_iff, String.toList_append, String.toList_ofList, hrest]
    rw [← hsize, hc, String.utf8ByteSize_append]
    exact Nat.le_add_right _ _

/-- The literal that `withText` makes has this text. -/
theorem exists_literal_of_text (a : TextValue) (text : String) :
    ∃ l : Literal, a.withText text = .literal l ∧ l.lexical = text := by
  obtain ⟨_, _ | tag⟩ := a
  · exact ⟨.simple text, rfl, rfl⟩
  · exact ⟨.tagged text (TextValue.lowerTag tag), rfl, rfl⟩

/-- The answers where the search finds an occurrence. -/
theorem isCutAt_of_found {a b : TextValue} {front back : List Char} {before after : Literal}
    (h : splitAtFirst? b.text.toList a.text.toList = some (front, back))
    (hbefore : a.withText (String.ofList front) = .literal before)
    (hfront : before.lexical = String.ofList front)
    (hafter : a.withText (String.ofList back) = .literal after)
    (hback : after.lexical = String.ofList back) :
    IsCutAt a b true (b.text.toList.isPrefixOf a.text.toList) before after := by
  obtain ⟨hcut, hmin⟩ := splitAtFirst?_eq_some h
  have hparts : a.text = before.lexical ++ b.text ++ after.lexical := by
    rw [eq_append_iff, hfront, hback, String.toList_ofList, String.toList_ofList, hcut]
  have hfirst (u v : String) (huv : a.text = u ++ b.text ++ v) :
      before.lexical.toList <+: u.toList := by
    have huv' := (eq_append_iff ..).mp huv
    have hfront' : front <+: a.text.toList :=
      ⟨b.text.toList ++ back, by rw [hcut, List.append_assoc]⟩
    have hu : u.toList <+: a.text.toList :=
      ⟨b.text.toList ++ v.toList, by rw [huv', List.append_assoc]⟩
    rw [hfront, String.toList_ofList]
    exact List.prefix_of_prefix_length_le hfront' hu (hmin _ _ huv')
  have hinFront : b.text.toList.isPrefixOf a.text.toList = true ↔ ∃ v, a.text = b.text ++ v := by
    rw [List.isPrefixOf_iff_prefix]
    constructor
    · rintro ⟨v, hv⟩
      exact ⟨String.ofList v, by
        rw [String.ext_iff, String.toList_append, String.toList_ofList, hv]⟩
    · rintro ⟨v, hv⟩
      exact ⟨v.toList, by rw [hv, String.toList_append]⟩
  constructor
  case parts => exact iff_of_true rfl hparts
  case occurs => exact iff_of_true rfl ⟨_, _, hparts⟩
  case first =>
    intro u v huv
    rw [← String.length_toList, ← String.length_toList]
    exact (hfirst u v huv).length_le
  case firstByte =>
    refine fun u v => byteSize_le_of_bytes hfirst fun hb => ?_
    have hnil : before.lexical.toList <+: "".toList :=
      hfirst "" a.text (by rw [hb, String.empty_append, String.empty_append])
    rw [← String.toList_eq_nil_iff]
    exact List.prefix_nil.mp hnil
  case inFront => exact hinFront
  case cutInFront =>
    intro hstarts
    have hnone := splitAtFirst?_of_start (List.isPrefixOf_iff_prefix.mp hstarts)
    rw [h] at hnone
    rw [hfront, (Prod.mk.inj (Option.some.inj hnone)).1]
    exact ⟨rfl, rfl⟩
  case tags =>
    intro _
    rw [hfront, hback]
    exact ⟨hbefore.symm, hafter.symm⟩
  case missing => exact fun hcontra => nomatch hcontra

/-- The answers where the search finds nothing. -/
theorem isCutAt_of_missing {a b : TextValue}
    (h : splitAtFirst? b.text.toList a.text.toList = none) :
    IsCutAt a b false (b.text.toList.isPrefixOf a.text.toList) (.simple "") (.simple "") := by
  have hnone (u v : String) : a.text ≠ u ++ b.text ++ v := fun huv =>
    splitAtFirst?_eq_none h _ _ ((eq_append_iff ..).mp huv)
  have hstarts : b.text.toList.isPrefixOf a.text.toList ≠ true := by
    intro hpart
    rw [splitAtFirst?_of_start (List.isPrefixOf_iff_prefix.mp hpart)] at h
    nomatch h
  constructor
  case parts => exact iff_of_false Bool.false_ne_true (hnone _ _)
  case occurs => exact iff_of_false Bool.false_ne_true fun ⟨u, v, huv⟩ => hnone u v huv
  case first => exact fun u v huv => absurd huv (hnone u v)
  case firstByte => exact fun u v _ => Nat.zero_le _
  case inFront =>
    refine iff_of_false hstarts fun ⟨v, hv⟩ => hnone "" v ?_
    rw [String.empty_append, hv]
  case cutInFront => exact fun hcontra => absurd hcontra hstarts
  case tags => exact fun hcontra => nomatch hcontra
  case missing => exact fun _ => ⟨rfl, rfl⟩

/-- The substring functions agree on where a match is: they have answers for the same terms,
and these answers describe one cut, around the first occurrence. -/
theorem substrings_agree (context : CallContext) (s t : Term) :
    (∀ a b, AreCompatible s t a b →
      ∃ (contains starts : Bool) (before after : Literal),
        Builtin.contains.apply context [s, t] = some (boolTerm contains) ∧
        Builtin.strStarts.apply context [s, t] = some (boolTerm starts) ∧
        Builtin.strBefore.apply context [s, t] = some (.literal before) ∧
        Builtin.strAfter.apply context [s, t] = some (.literal after) ∧
        IsCutAt a b contains starts before after) ∧
    ((¬ ∃ a b, AreCompatible s t a b) →
      Builtin.contains.apply context [s, t] = none ∧
      Builtin.strStarts.apply context [s, t] = none ∧
      Builtin.strBefore.apply context [s, t] = none ∧
      Builtin.strAfter.apply context [s, t] = none) := by
  change
    (∀ a b, AreCompatible s t a b → ∃ (contains starts : Bool) (before after : Literal),
      contains? s t = some (boolTerm contains) ∧ strStarts? s t = some (boolTerm starts) ∧
      strBefore? s t = some (.literal before) ∧ strAfter? s t = some (.literal after) ∧
      IsCutAt a b contains starts before after) ∧
    ((¬ ∃ a b, AreCompatible s t a b) →
      contains? s t = none ∧ strStarts? s t = none ∧ strBefore? s t = none ∧ strAfter? s t = none)
  rw [contains?, strStarts?, strBefore?, strAfter?]
  constructor
  · intro a b hab
    rw [Compatible.ofTerms?_eq_some hab]
    cases hsplit : splitAtFirst? b.text.toList a.text.toList with
    | none =>
      refine ⟨false, _, .simple "", .simple "", ?_, rfl, ?_, ?_, isCutAt_of_missing hsplit⟩
      all_goals simp only [Option.bind_eq_bind, Option.bind_some, hsplit]; rfl
    | some parts =>
      obtain ⟨front, back⟩ := parts
      obtain ⟨before, hbefore, hfront⟩ := exists_literal_of_text a (String.ofList front)
      obtain ⟨after, hafter, hback⟩ := exists_literal_of_text a (String.ofList back)
      refine ⟨true, _, before, after, ?_, rfl, ?_, ?_,
        isCutAt_of_found hsplit hbefore hfront hafter hback⟩
      all_goals simp only [Option.bind_eq_bind, Option.bind_some, hsplit]
      · rfl
      · exact congrArg some hbefore
      · exact congrArg some hafter
  · intro hnone
    rw [Compatible.ofTerms?_eq_none hnone]
    exact ⟨rfl, rfl, rfl, rfl⟩

/-- A tagged text of characters of two bytes contains an untagged one twice. An untagged text
has no answer for a tagged one. -/
theorem substrings_agree_sample :
    (∃ (contains starts : Bool) (before after : Literal),
      Builtin.contains.apply default
        [.literal (.tagged "äöäö" "en"), simpleTerm "ö"] = some (boolTerm contains) ∧
      Builtin.strBefore.apply default
        [.literal (.tagged "äöäö" "en"), simpleTerm "ö"] = some (.literal before) ∧
      IsCutAt ⟨"äöäö", some "en"⟩ ⟨"ö", none⟩ contains starts before after) ∧
    Builtin.contains.apply default
      [simpleTerm "äöäö", .literal (.tagged "ö" "en")] = none := by
  constructor
  · have h : AreCompatible (.literal (.tagged "äöäö" "en")) (simpleTerm "ö")
        ⟨"äöäö", some "en"⟩ ⟨"ö", none⟩ :=
      ⟨by decide +kernel, by decide +kernel, .inl rfl⟩
    obtain ⟨contains, starts, before, after, hcontains, -, hbefore, -, hcut⟩ :=
      (substrings_agree default _ _).1 _ _ h
    exact ⟨contains, starts, before, after, hcontains, hbefore, hcut⟩
  · refine ((substrings_agree default _ _).2 ?_).1
    rintro ⟨a, b, ha, hb, htags⟩
    have ha' : TextValue.ofTerm? (simpleTerm "äöäö") = some ⟨"äöäö", none⟩ := by decide +kernel
    have hb' : TextValue.ofTerm? (.literal (.tagged "ö" "en")) = some ⟨"ö", some "en"⟩ := by
      decide +kernel
    obtain rfl : _ = a := Option.some.inj (ha'.symm.trans ha)
    obtain rfl : _ = b := Option.some.inj (hb'.symm.trans hb)
    obtain htags | htags := htags <;> nomatch htags

end SparqlAlgebra.StringFunction
