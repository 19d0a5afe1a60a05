import SparqlAlgebra.Regex

/-!
# Escapes in patterns

What a backslash and the characters behind it stand for, and the blanks that
extended patterns may hold between their parts.
-/

namespace SparqlAlgebra

namespace RegexReader

/-! ## Blanks -/

def isBlank (c : Char) : Bool := Text.spaceRanges.contains c.toNat

/-- Skips white space and comments, which run from a number sign to the end of
the line. -/
def skipBlanks : List Char → Bool → List Char
  | [], _ => []
  | c :: rest, comment =>
    if comment then skipBlanks rest (c ≠ '\n')
    else if isBlank c then skipBlanks rest false
    else if c = '#' then skipBlanks rest true
    else c :: rest

/-- Skips what may stand between the parts of an extended pattern. Other
patterns have no blanks. -/
def skip (extended : Bool) (rest : List Char) : List Char :=
  if extended then skipBlanks rest false else rest

/-- At most `limit` characters that satisfy a test, with the blanks behind each
of them skipped, and what follows. -/
def collect (extended : Bool) (test : Char → Bool) :
    Nat → List Char → List Char × List Char
  | 0, rest => ([], rest)
  | _, [] => ([], [])
  | limit + 1, c :: rest =>
    if test c then
      let (cs, rest) := collect extended test limit (skip extended rest)
      (c :: cs, rest)
    else ([], c :: rest)

/-! ## Escapes -/

/-- What an escape or a single character of a pattern stands for. -/
inductive Atom where
  | literal (c : Char)
  | set (s : CharSet)
  | assertion (a : Assertion)

/-- The characters that stand for themselves only behind a backslash. -/
def metaCharacters : List Char :=
  ['\\', '.', '+', '*', '?', '(', ')', '|', '[', ']', '\x7b', '\x7d', '^',
    '$', '#', '&', '-', '~']

def wordSet : CharSet := .ranges Text.wordRanges
def digitSet : CharSet := .ranges Text.digitRanges
def spaceSet : CharSet := .ranges Text.spaceRanges

def hexValue? (c : Char) : Option Nat :=
  if c.isDigit then some (c.toNat - 48)
  else if 'a' ≤ c && c ≤ 'f' then some (c.toNat - 87)
  else if 'A' ≤ c && c ≤ 'F' then some (c.toNat - 55)
  else none

/-- The character with the code point written in hexadecimal digits. -/
def hexChar? (digits : List Char) : Option Char :=
  if digits.isEmpty then none
  else do
    let n := (← digits.mapM hexValue?).foldl (fun acc d => acc * 16 + d) 0
    if n.isValidChar then some (Char.ofNat n) else none

/-- A code point in braces or in exactly `width` digits. -/
def readHex (extended : Bool) (width : Nat) (rest : List Char) :
    Option (Char × List Char) :=
  let digitsOf := collect extended fun c => (hexValue? c).isSome
  match skip extended rest with
  | '\x7b' :: more =>
    match digitsOf more.length (skip extended more) with
    | (digits, '\x7d' :: after) => (hexChar? digits).map (·, after)
    | _ => none
  | rest =>
    let (digits, after) := digitsOf width rest
    if digits.length = width then (hexChar? digits).map (·, after) else none

/-- The word boundaries that are named in braces behind `\b`. Braces without a
name are left to be read as a repetition. -/
def readBoundary (extended : Bool) (rest : List Char) :
    Option (Assertion × List Char) :=
  match rest with
  | '\x7b' :: more =>
    match collect extended (fun c => c.isAlpha || c = '-') more.length
        (skip extended more) with
    | ([], _) => some (.wordBoundary, rest)
    | (name, '\x7d' :: after) =>
      match String.ofList name with
      | "start" => some (.wordStart, after)
      | "end" => some (.wordEnd, after)
      | "start-half" => some (.wordStartHalf, after)
      | "end-half" => some (.wordEndHalf, after)
      | _ => none
    | _ => none
  | _ => some (.wordBoundary, rest)

/-- Reads what follows a backslash. -/
def readEscape (extended : Bool) : List Char → Option (Atom × List Char)
  | [] => none
  | c :: rest =>
    let code (width : Nat) :=
      (readHex extended width rest).map fun (d, r) => (Atom.literal d, r)
    match c with
    | 'x' => code 2
    | 'u' => code 4
    | 'U' => code 8
    | 'd' => some (.set digitSet, rest)
    | 'D' => some (.set digitSet.complement, rest)
    | 's' => some (.set spaceSet, rest)
    | 'S' => some (.set spaceSet.complement, rest)
    | 'w' => some (.set wordSet, rest)
    | 'W' => some (.set wordSet.complement, rest)
    | 'a' => some (.literal '\x07', rest)
    | 'f' => some (.literal '\x0c', rest)
    | 't' => some (.literal '\t', rest)
    | 'n' => some (.literal '\n', rest)
    | 'r' => some (.literal '\r', rest)
    | 'v' => some (.literal '\x0b', rest)
    | 'A' => some (.assertion .textStart, rest)
    | 'z' => some (.assertion .textEnd, rest)
    | 'b' =>
      (readBoundary extended rest).map fun (a, r) => (.assertion a, r)
    | 'B' => some (.assertion .notWordBoundary, rest)
    | '<' => some (.assertion .wordStart, rest)
    | '>' => some (.assertion .wordEnd, rest)
    | c =>
      if c.toNat < 128 && !c.isAlphanum then some (.literal c, rest) else none

/-! ## Nesting -/

/-- How deeply a row of parts is nested: a part alone as deeply as itself,
several one level deeper than the deepest. -/
def rowDepth : List Nat → Nat
  | [] => 0
  | [depth] => depth
  | depths => depths.foldl max 0 + 1

end RegexReader

end SparqlAlgebra
