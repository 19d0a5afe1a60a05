import SparqlAlgebra.Regex.Matching
import SparqlAlgebra.Text.CaseMapping
import SparqlAlgebra.Text.Digest
import SparqlAlgebra.Value

/-!
# Functions on strings

Every function takes terms and fails with `none` on terms it is not defined
for. Positions count characters from one.
-/

namespace SparqlAlgebra

/-- The literal of a truth value. -/
def boolTerm (b : Bool) : Term := .literal (.ofBool b)

/-- The literal of an integer. -/
def intTerm (n : Int) : Term := .literal (.ofInt n)

/-- A string literal without a language tag. -/
def simpleTerm (text : String) : Term := .literal (.simple text)

namespace StringFunction

/-! ## Two strings -/

/-- Two strings with the language tag that results keep. -/
structure Compatible where
  first : List Char
  second : List Char
  language : Option String

/-- Two strings are compatible if the second has no language tag or the same
one as the first. -/
def Compatible.ofTerms? (s t : Term) : Option Compatible := do
  let a ← TextValue.ofTerm? s
  let b ← TextValue.ofTerm? t
  if b.language.isNone || a.language = b.language then
    some ⟨a.text.toList, b.text.toList, a.language⟩
  else none

/-- What stands before and behind the first occurrence of `part`. -/
def splitAtFirst? (part : List Char) :
    List Char → Option (List Char × List Char)
  | [] => if part.isEmpty then some ([], []) else none
  | c :: rest =>
    if part.isPrefixOf (c :: rest) then
      some ([], (c :: rest).drop part.length)
    else (splitAtFirst? part rest).map fun (before, after) => (c :: before, after)

/-- The string term of a part of the first string. -/
def Compatible.partTerm (c : Compatible) (text : List Char) : Term :=
  TextValue.toTerm ⟨String.ofList text, c.language⟩

def strStarts? (s t : Term) : Option Term := do
  let c ← Compatible.ofTerms? s t
  return boolTerm (c.second.isPrefixOf c.first)

def strEnds? (s t : Term) : Option Term := do
  let c ← Compatible.ofTerms? s t
  return boolTerm (c.second.isSuffixOf c.first)

def contains? (s t : Term) : Option Term := do
  let c ← Compatible.ofTerms? s t
  return boolTerm (splitAtFirst? c.second c.first).isSome

def strBefore? (s t : Term) : Option Term := do
  let c ← Compatible.ofTerms? s t
  return match splitAtFirst? c.second c.first with
    | some (before, _) => c.partTerm before
    | none => simpleTerm ""

def strAfter? (s t : Term) : Option Term := do
  let c ← Compatible.ofTerms? s t
  return match splitAtFirst? c.second c.first with
    | some (_, after) => c.partTerm after
    | none => simpleTerm ""

/-! ## One string -/

def strLen? (s : Term) : Option Term := do
  return intTerm (← TextValue.ofTerm? s).text.toList.length

/-- A position: a number rounded to a 64-bit integer. -/
def position? (t : Term) : Option Int := do
  (← (← Number.ofTerm? t).round?).toInteger?

/-- The sum of two positions, at most the greatest and at least the least
64-bit integer. -/
def addPositions (a b : Int) : Int :=
  max (-signedBound 64) (min (a + b) (signedBound 64 - 1))

/-- The characters at positions from `start` on and before `stop`. -/
def between (start : Int) (stop : Option Int) (cs : List Char) : List Char :=
  let kept := cs.zipIdx.filter fun (_, i) =>
    let position : Int := i + 1
    start ≤ position && (stop.map fun n => decide (position < n)).getD true
  kept.map (·.1)

def subStr? (s start : Term) (length : Option Term) : Option Term := do
  let text ← TextValue.ofTerm? s
  let first ← position? start
  let stop ← match length with
    | none => some none
    | some length =>
      (position? length).map fun n => some (addPositions first n)
  return text.withText (String.ofList (between first stop text.text.toList))

def upperCase? (s : Term) : Option Term := do
  let text ← TextValue.ofTerm? s
  return text.withText (Text.upperCase text.text)

def lowerCase? (s : Term) : Option Term := do
  let text ← TextValue.ofTerm? s
  return text.withText (Text.lowerCase text.text)

/-- A byte as it stands in an IRI: letters, digits and `-._~` unchanged, all
others as a percent sign with two hexadecimal digits. -/
def encodeByte (n : Nat) : List Char :=
  let c := Char.ofNat n
  if n < 128 && (c.isAlphanum || ['-', '.', '_', '~'].contains c) then [c]
  else ['%', upperHexDigit (n / 16), upperHexDigit (n % 16)]

def encodeForUri? (s : Term) : Option Term := do
  let text ← TextValue.ofTerm? s
  return simpleTerm <|
    String.ofList ((Text.utf8Bytes text.text).flatMap encodeByte)

def concat? (args : List Term) : Option Term := do
  let texts ← args.mapM TextValue.ofTerm?
  return TextValue.join "" texts

/-! ## Patterns -/

private def compilePattern? (pattern : Term) (flags : Option Term) :
    Option CompiledRegex := do
  let pattern ← TextValue.simple? pattern
  let flags ← match flags with
    | none => some ""
    | some flags => TextValue.simple? flags
  CompiledRegex.ofPattern? pattern flags

def regex? (s pattern : Term) (flags : Option Term) : Option Term := do
  let text ← TextValue.ofTerm? s
  let compiled ← compilePattern? pattern flags
  return boolTerm (compiled.isMatch text.text)

/-- Replaces all matches. A pattern that matches the empty text is refused. -/
def replace? (s pattern replacement : Term) (flags : Option Term) :
    Option Term := do
  let text ← TextValue.ofTerm? s
  let compiled ← compilePattern? pattern flags
  let template ← TextValue.simple? replacement
  if compiled.isMatch "" then none
  else return text.withText (compiled.replaceAll text.text template)

/-! ## Digests -/

/-- The hexadecimal digest of a string without a language tag. -/
def digest? (f : String → String) (s : Term) : Option Term := do
  return simpleTerm (f (← TextValue.simple? s))

end StringFunction

end SparqlAlgebra
