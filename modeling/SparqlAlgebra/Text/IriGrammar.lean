/-!
# The grammar of absolute IRIs

`scheme ":" ("//" authority)? path ("?" query)? ("#" fragment)?` over Unicode
characters. Whether a text is an absolute IRI depends on the characters of its
parts only; nothing is resolved or normalised.
-/

namespace SparqlAlgebra.Text

namespace IriGrammar

/-! ## Characters -/

/-- The ranges of characters outside ASCII that may stand unescaped. -/
def plainRanges : List (Nat × Nat) :=
  [(0xA0, 0xD7FF), (0xF900, 0xFDCF), (0xFDF0, 0xFFEF)] ++
    (List.range 13).map (fun i => ((i + 1) * 0x10000, (i + 1) * 0x10000 + 0xFFFD))
    ++ [(0xE1000, 0xEFFFD)]

/-- The ranges for private use, which only queries may hold. -/
def privateRanges : List (Nat × Nat) :=
  [(0xE000, 0xF8FF), (0xF0000, 0xFFFFD), (0x100000, 0x10FFFD)]

def inRanges (ranges : List (Nat × Nat)) (c : Char) : Bool :=
  ranges.any fun r => r.1 ≤ c.toNat && c.toNat ≤ r.2

/-- Unreserved characters and delimiters of ASCII. -/
def isPlainAscii (c : Char) : Bool :=
  c.isAlphanum || "-._~!$&'()*+,;=".toList.contains c

/-- Unreserved characters and delimiters within a part. -/
def isPlain (c : Char) : Bool := isPlainAscii c || inRanges plainRanges c

def isHexDigit (c : Char) : Bool :=
  c.isDigit || ('a' ≤ c && c ≤ 'f') || ('A' ≤ c && c ≤ 'F')

/-- Whether a text consists of allowed characters and of percent signs with two
hexadecimal digits behind each. -/
def isPart (allowed : Char → Bool) : List Char → Bool
  | [] => true
  | '%' :: a :: b :: rest => isHexDigit a && isHexDigit b && isPart allowed rest
  | c :: rest => c ≠ '%' && allowed c && isPart allowed rest

/-- The text before the first character that satisfies a test, and the text
from there on. -/
def splitBefore (stop : Char → Bool) (cs : List Char) : List Char × List Char :=
  (cs.takeWhile fun c => !stop c, cs.dropWhile fun c => !stop c)

/-- The texts between separators. -/
def splitAll (separator : Char) : List Char → List (List Char)
  | [] => [[]]
  | c :: rest =>
    match splitAll separator rest with
    | part :: parts =>
      if c = separator then [] :: part :: parts else (c :: part) :: parts
    | [] => [[c]]

/-- The texts before and behind the first double colon. -/
def splitDoubleColon : List Char → Option (List Char × List Char)
  | ':' :: ':' :: rest => some ([], rest)
  | c :: rest => (splitDoubleColon rest).map fun (a, b) => (c :: a, b)
  | [] => none

/-! ## Addresses in brackets -/

/-- One to four hexadecimal digits. -/
def isAddressGroup (cs : List Char) : Bool :=
  !cs.isEmpty && cs.length ≤ 4 && cs.all isHexDigit

/-- A decimal number up to 255 without superfluous zeros. -/
def isOctet (cs : List Char) : Bool :=
  !cs.isEmpty && cs.length ≤ 3 && cs.all Char.isDigit &&
    (cs.length = 1 || cs.head? ≠ some '0') &&
    cs.foldl (fun n c => n * 10 + (c.toNat - 48)) 0 ≤ 255

/-- Four octets with points between them. -/
def isDottedAddress (cs : List Char) : Bool :=
  let octets := splitAll '.' cs
  octets.length = 4 && octets.all isOctet

/-- The number of groups, if all are well formed. The last one may be a dotted
address where `dotted` allows it, and then counts twice. -/
def groupCount? (dotted : Bool) : List (List Char) → Option Nat
  | [] => some 0
  | [g] =>
    if isAddressGroup g then some 1
    else if dotted && isDottedAddress g then some 2
    else none
  | g :: rest =>
    if isAddressGroup g then (groupCount? dotted rest).map (· + 1) else none

private def sideCount? (dotted : Bool) (cs : List Char) : Option Nat :=
  if cs.isEmpty then some 0 else groupCount? dotted (splitAll ':' cs)

/-- Eight groups, or fewer with a double colon in the place of the others. -/
def isNumericAddress (cs : List Char) : Bool :=
  match splitDoubleColon cs with
  | none => sideCount? true cs = some 8
  | some (front, back) =>
    match sideCount? false front, sideCount? true back with
    | some m, some n => m + n ≤ 7
    | _, _ => false

/-- A version, a point, and an address of that version in ASCII. -/
def isFutureAddress (cs : List Char) : Bool :=
  let (version, rest) := splitBefore (· = '.') cs
  match rest with
  | _ :: address =>
    !version.isEmpty && version.all isHexDigit && !address.isEmpty &&
      address.all fun c => isPlainAscii c || c = ':'
  | [] => false

/-- The text between the brackets of a host. -/
def isBracketedAddress : List Char → Bool
  | 'v' :: rest | 'V' :: rest => isFutureAddress rest
  | cs => isNumericAddress cs

/-! ## Parts -/

/-- Nothing, or a colon with digits behind it. -/
def isPortSuffix : List Char → Bool
  | [] => true
  | ':' :: digits => digits.all Char.isDigit
  | _ => false

/-- A host, and a colon with digits if there is one. -/
def isHostWithPort : List Char → Bool
  | '[' :: cs =>
    let (address, rest) := splitBefore (· = ']') cs
    match rest with
    | _ :: rest => isBracketedAddress address && isPortSuffix rest
    | [] => false
  | cs =>
    let (host, rest) := splitBefore (· = ':') cs
    isPart isPlain host && isPortSuffix rest

/-- A user with an at sign if there is one, and what names the host. -/
def isAuthority (cs : List Char) : Bool :=
  let (user, rest) := splitBefore (fun c => c = '@' || c = '[') cs
  match rest with
  | '@' :: host =>
    isPart (fun c => isPlain c || c = ':') user && isHostWithPort host
  | _ => isHostWithPort cs

def isPathChar (c : Char) : Bool := isPlain c || c = ':' || c = '@' || c = '/'

def isFragmentChar (c : Char) : Bool := isPathChar c || c = '?'

def isQueryChar (c : Char) : Bool := isFragmentChar c || inRanges privateRanges c

/-- A path with an optional query and an optional fragment. -/
def isPathAndRest (cs : List Char) : Bool :=
  let (beforeFragment, fragment) := splitBefore (· = '#') cs
  let (path, query) := splitBefore (· = '?') beforeFragment
  isPart isPathChar path && isPart isQueryChar (query.drop 1) &&
    isPart isFragmentChar (fragment.drop 1)

/-- What follows the colon of the scheme. -/
def isBody : List Char → Bool
  | '/' :: '/' :: rest =>
    let (authority, path) :=
      splitBefore (fun c => c = '/' || c = '?' || c = '#') rest
    isAuthority authority && isPathAndRest path
  | cs => isPathAndRest cs

def isScheme : List Char → Bool
  | [] => false
  | c :: rest =>
    c.isAlpha && rest.all fun c => c.isAlphanum || "+-.".toList.contains c

end IriGrammar

/-- Whether a text is an absolute IRI. -/
def isAbsoluteIri (text : String) : Bool :=
  let (scheme, rest) := IriGrammar.splitBefore (· = ':') text.toList
  match rest with
  | _ :: body => IriGrammar.isScheme scheme && IriGrammar.isBody body
  | [] => false

end SparqlAlgebra.Text
