import SparqlAlgebra.Regex.Machine
import SparqlAlgebra.Regex.Reader

/-!
# Searching and replacing

Compiled patterns as the string functions use them: whether a text contains a
match, and the text with all matches replaced.
-/

namespace SparqlAlgebra

/-- A pattern that is ready for searching. -/
structure CompiledRegex where
  program : RegexProgram
  groups : Nat
  names : List (String × Nat)

namespace CompiledRegex

/-- The greatest size of a program in bytes. Larger ones are refused. -/
def maxProgramSize : Nat := 1000000

/-- The size of what surrounds the program of an expression: the search for the
start of a match, the slots of the whole match and its end. -/
def frameSize : Nat := 208

/-- Compiles a pattern with flags. Each flag `q` escapes the special characters
of the pattern; unknown flags are refused. -/
def ofPattern? (pattern flags : String) : Option CompiledRegex := do
  let letters := flags.toList
  if !letters.all ['s', 'm', 'i', 'x', 'q'].contains then none
  else
    let pattern := (letters.filter (· = 'q')).foldl
      (fun text _ => escapeRegex text) pattern
    let read ← ReadRegex.ofText?
      ⟨letters.contains 'i', letters.contains 'm', letters.contains 's', false,
        letters.contains 'x', false⟩ pattern
    if maxProgramSize < frameSize + read.regex.programSize then none
    else return ⟨.ofRegex read.regex, read.groups, read.names⟩

/-- Whether some part of the text matches. -/
def isMatch (r : CompiledRegex) (text : String) : Bool :=
  (r.program.search r.groups text.toList.toArray 0).isSome

/-- The start and the end of a group in a match. -/
private def groupBounds (slots : Slots) (index : Nat) : Option (Nat × Nat) :=
  match (slots[2 * index]?).join, (slots[2 * index + 1]?).join with
  | some a, some b => some (a, b)
  | _, _ => none

/-- The matches of a text from the `i`-th character on, which do not overlap.
An empty match right behind the match before it is passed over. -/
private def matchesFrom (r : CompiledRegex) (text : Array Char) :
    Nat → Nat → Option Nat → List Slots
  | 0, _, _ => []
  | fuel + 1, i, last =>
    match r.program.search r.groups text i with
    | none => []
    | some slots =>
      match groupBounds slots 0 with
      | none => []
      | some (start, stop) =>
        if start = stop && last = some stop then
          if i < text.size then matchesFrom r text fuel (i + 1) none else []
        else slots :: matchesFrom r text fuel stop (some stop)

/-- Whether a character can be part of the name of a group in a template. -/
private def isReferenceChar (c : Char) : Bool := c.isAlphanum || c = '_'

/-- The number that a reference is: digits, possibly behind a plus sign. -/
private def groupNumber? (reference : List Char) : Option Nat :=
  let digits := if reference.head? = some '+' then reference.drop 1
    else reference
  if digits.isEmpty || !digits.all Char.isDigit then none
  else some (digits.foldl (fun n c => n * 10 + (c.toNat - 48)) 0)

/-- The text of a group, given by its number or its name; empty if there is no
such group or it took no part in the match. -/
private def groupText (r : CompiledRegex) (text : Array Char) (slots : Slots)
    (reference : List Char) : List Char :=
  let index := match groupNumber? reference with
    | some n => some n
    | none => r.names.lookup (String.ofList reference)
  match index.bind (groupBounds slots) with
  | some (a, b) => (text.toList.drop a).take (b - a)
  | none => []

/-- A template with its references replaced by the texts of groups. A dollar
that starts no reference stands for itself. -/
private def expand (r : CompiledRegex) (text : Array Char) (slots : Slots) :
    Nat → List Char → List Char
  | 0, _ => []
  | _, [] => []
  | fuel + 1, '$' :: rest =>
    match rest with
    | '$' :: more => '$' :: expand r text slots fuel more
    | '\x7b' :: more =>
      let name := more.takeWhile (· ≠ '\x7d')
      match more.drop name.length with
      | _ :: after =>
        groupText r text slots name ++ expand r text slots fuel after
      | [] => '$' :: expand r text slots fuel rest
    | _ =>
      let name := rest.takeWhile isReferenceChar
      if name.isEmpty then '$' :: expand r text slots fuel rest
      else groupText r text slots name ++
        expand r text slots fuel (rest.drop name.length)
  | fuel + 1, c :: rest => c :: expand r text slots fuel rest

/-- Copies the text between the matches and puts the expanded template in the
place of each match. -/
private def rebuild (r : CompiledRegex) (text : Array Char)
    (template : List Char) : Nat → List Slots → List Char
  | i, [] => text.toList.drop i
  | i, slots :: rest =>
    match groupBounds slots 0 with
    | none => rebuild r text template i rest
    | some (a, b) =>
      (text.toList.drop i).take (a - i) ++
        expand r text slots (template.length + 1) template ++
        rebuild r text template b rest

/-- The text with every match replaced. -/
def replaceAll (r : CompiledRegex) (text template : String) : String :=
  let chars := text.toList.toArray
  String.ofList (rebuild r chars template.toList 0
    (matchesFrom r chars (2 * chars.size + 2) 0 none))

end CompiledRegex

end SparqlAlgebra
