import SparqlAlgebra.Regex.Bracket
import SparqlAlgebra.Text.Alphabet

/-!
# Reading regular expressions

The textual form of patterns: literals, `.`, bracketed classes, escapes,
anchors, groups with or without names, inline flags, alternatives and
repetitions. Look-around and back-references are refused, and so is a pattern
whose parts are nested too deeply.
-/

namespace SparqlAlgebra

/-- The flags that a pattern can switch. -/
structure RegexFlags where
  caseless : Bool
  /-- `^` and `$` match at line ends. -/
  multiLine : Bool
  /-- `.` matches a line feed. -/
  dotAll : Bool
  /-- The meaning of `?` behind a repetition is reversed. -/
  swapGreed : Bool
  /-- White space and comments in the pattern are skipped. -/
  extended : Bool
  /-- A carriage return ends a line, too. -/
  returns : Bool
deriving DecidableEq, Inhabited

/-- What is left of a pattern, with the flags in force, the number of groups
met so far and their names. -/
structure RegexReader where
  rest : List Char
  flags : RegexFlags
  groups : Nat
  names : List (String × Nat)

namespace RegexReader

/-- A reading step: `none` if the pattern is malformed. -/
abbrev Step (α : Type) := RegexReader → Option (α × RegexReader)

/-- Skips blanks where the flags allow them. -/
private def skipped (r : RegexReader) : RegexReader :=
  { r with rest := skip r.flags.extended r.rest }

/-- An expression and how deeply its parts are nested. Characters, single sets
and assertions are not nested; groups, repetitions, bracketed classes,
sequences and alternatives add a level each. -/
structure Part where
  regex : Regex
  depth : Nat

/-- What has been read of a sequence: expressions and places where flags were
set, the last one first. -/
private abbrev Items := List (Option Part)

/-! ## Repetitions -/

/-- A number below 2³², with blanks around it and, in an extended pattern,
between its digits. -/
private def readCount (extended : Bool) (rest : List Char) :
    Option (Nat × List Char) :=
  let (digits, rest) :=
    collect extended Char.isDigit rest.length (rest.dropWhile isBlank)
  let n := digits.foldl (fun acc c => acc * 10 + (c.toNat - 48)) 0
  if digits.isEmpty || Nat.pow 2 32 ≤ n then none
  else some (n, rest.dropWhile isBlank)

/-- The bounds of a repetition behind the opening brace. -/
private def readBounds (extended : Bool) (rest : List Char) :
    Option (Nat × Option Nat × List Char) := do
  let (least, rest) ← readCount extended (skip extended rest)
  match rest with
  | '\x7d' :: more => some (least, some least, more)
  | ',' :: more =>
    match skip extended more with
    | '\x7d' :: more => some (least, none, more)
    | more => do
      let (most, rest) ← readCount extended more
      match rest with
      | '\x7d' :: more =>
        if least ≤ most then some (least, some most, more) else none
      | _ => none
  | _ => none

/-- Repeats the last item. A question mark behind the operator reverses its
greed. -/
private def repeatLast (r : RegexReader) (items : Items) (min : Nat)
    (max : Option Nat) (rest : List Char) : Option (Items × RegexReader) :=
  match items with
  | some last :: before =>
    let (greedy, rest) := match rest with
      | '?' :: more => (r.flags.swapGreed, more)
      | rest => (!r.flags.swapGreed, rest)
    let repeated := Regex.repeated last.regex min max greedy
    some (some ⟨repeated, last.depth + 1⟩ :: before, { r with rest })
  | _ => none

/-! ## Flags and groups -/

private def setFlag (flags : RegexFlags) (value : Bool) : Char →
    Option RegexFlags
  | 'i' => some { flags with caseless := value }
  | 'm' => some { flags with multiLine := value }
  | 's' => some { flags with dotAll := value }
  | 'U' => some { flags with swapGreed := value }
  | 'x' => some { flags with extended := value }
  | 'R' => some { flags with returns := value }
  | 'u' => if value then some flags else none
  | _ => none

/-- Reads flags up to a colon or a closing parenthesis. No flag may be given
twice, and something must follow the minus sign. -/
private def readFlags (flags : RegexFlags) (negated : Bool)
    (seen : List Char) : List Char → Option (RegexFlags × List Char × List Char)
  | [] => none
  | c :: rest =>
    if c = ':' || c = ')' then
      if seen.head? = some '-' then none else some (flags, seen, c :: rest)
    else if seen.contains c then none
    else if c = '-' then readFlags flags true (c :: seen) rest
    else
      match setFlag flags (!negated) c with
      | some flags => readFlags flags negated (c :: seen) rest
      | none => none

/-- Whether a name of a group may start with a character. -/
private def startsName (c : Char) : Bool := c = '_' || Text.isLetter c

/-- Whether a character may stand in a name behind the first one. -/
private def continuesName (c : Char) : Bool :=
  ['_', '.', '[', ']'].contains c || Text.isLetter c || Text.isNumber c

/-- Reads the name of a group up to its closing bracket. -/
private def readName (rest : List Char) : Option (String × List Char) :=
  let name := rest.takeWhile (· ≠ '>')
  match name, rest.drop name.length with
  | c :: cs, _ :: after =>
    if startsName c && cs.all continuesName then
      some (String.ofList name, after)
    else none
  | _, _ => none

/-! ## Sequences and alternatives -/

/-- The sequence of the items read so far. -/
private def sequence (items : Items) : Part :=
  let regex := match items.filterMap (·.map (·.regex)) with
    | [] => .empty
    | last :: before => before.foldl (fun acc item => .concat item acc) last
  ⟨regex, rowDepth (items.map fun item => (item.map (·.depth)).getD 0)⟩

/-- The alternatives of some branches. -/
private def alternatives (branches : List Part) : Part :=
  let regex := match branches.reverse.map (·.regex) with
    | [] => .empty
    | last :: before =>
      before.foldl (fun acc branch => .alternative branch acc) last
  ⟨regex, rowDepth (branches.map (·.depth))⟩

private def literal (flags : RegexFlags) (c : Char) : Regex :=
  if flags.caseless then .char (.caseless (.ofChar c)) else .char (.ofChar c)

private def ofAtom (flags : RegexFlags) : Atom → Regex
  | .literal c => literal flags c
  | .set s => .char s
  | .assertion a => .assertion a

private def dot (flags : RegexFlags) : Regex :=
  .char <|
    if flags.dotAll then .any
    else if flags.returns then .complement (.ranges [(10, 10), (13, 13)])
    else .complement (.ofChar '\n')

private def lineStart (flags : RegexFlags) : Regex :=
  .assertion <|
    if !flags.multiLine then .textStart
    else if flags.returns then .returnStart
    else .lineStart

private def lineEnd (flags : RegexFlags) : Regex :=
  .assertion <|
    if !flags.multiLine then .textEnd
    else if flags.returns then .returnEnd
    else .lineEnd

mutual

/-- Reads alternatives up to the end of their group. -/
private def readBranches : Nat → Step (List Part)
  | 0, _ => none
  | fuel + 1, r => do
    let (first, r) ← readItems fuel [] r
    match r.rest with
    | '|' :: rest => do
      let (others, r) ← readBranches fuel { r with rest }
      return (first :: others, r)
    | _ => return ([first], r)

/-- Reads items up to a bar or the end of their group. -/
private def readItems : Nat → Items → Step Part
  | 0, _, _ => none
  | fuel + 1, items, r =>
    let r := r.skipped
    let extended := r.flags.extended
    let push (item : Part) (rest : List Char) :=
      readItems fuel (some item :: items) { r with rest }
    let again (min : Nat) (max : Option Nat) (rest : List Char) := do
      let (items, r) ← repeatLast r items min max rest
      readItems fuel items r
    match r.rest with
    | [] => some (sequence items, r)
    | ')' :: _ | '|' :: _ => some (sequence items, r)
    | '*' :: rest => again 0 none rest
    | '+' :: rest => again 1 none rest
    | '?' :: rest => again 0 (some 1) rest
    | '\x7b' :: rest => do
      let (least, most, rest) ← readBounds extended rest
      again least most (skip extended rest)
    | '(' :: rest => do
      let (item, r) ← readGroup fuel { r with rest }
      readItems fuel (item :: items) r
    | '[' :: rest => do
      let (part, rest) ←
        readClass r.flags.caseless extended (rest.length + 1) rest
      push ⟨.char part.set, part.depth⟩ rest
    | '\\' :: rest => do
      let (atom, rest) ← readEscape extended rest
      push ⟨ofAtom r.flags atom, 0⟩ rest
    | '.' :: rest => push ⟨dot r.flags, 0⟩ rest
    | '^' :: rest => push ⟨lineStart r.flags, 0⟩ rest
    | '$' :: rest => push ⟨lineEnd r.flags, 0⟩ rest
    | c :: rest => push ⟨literal r.flags c, 0⟩ rest

/-- Reads a group or a setting of flags behind the opening parenthesis. -/
private def readGroup : Nat → Step (Option Part)
  | 0, _ => none
  | fuel + 1, r =>
    let r := r.skipped
    let inner (flags : RegexFlags) (wrap : Regex → Regex) (r' : RegexReader) :
        Option (Option Part × RegexReader) := do
      let (branches, after) ← readBranches fuel { r' with flags }
      match after.rest with
      | ')' :: rest =>
        let body := alternatives branches
        return (some ⟨wrap body.regex, body.depth + 1⟩,
          { after with rest, flags := r.flags })
      | _ => none
    let capture (name : Option String) (rest : List Char) :
        Option (Option Part × RegexReader) :=
      let index := r.groups + 1
      match name with
      | none =>
        inner r.flags (.group index) { r with rest, groups := index }
      | some n =>
        if (r.names.lookup n).isSome then none
        else inner r.flags (.group index)
          { r with rest, groups := index, names := (n, index) :: r.names }
    match r.rest with
    | '?' :: '=' :: _ | '?' :: '!' :: _ => none
    | '?' :: '<' :: '=' :: _ | '?' :: '<' :: '!' :: _ => none
    | '?' :: 'P' :: '<' :: rest | '?' :: '<' :: rest => do
      let (name, rest) ← readName rest
      capture (some name) rest
    | '?' :: rest => do
      let (flags, seen, rest) ← readFlags r.flags false [] rest
      match rest with
      | ')' :: rest =>
        if seen.isEmpty then none else some (none, { r with rest, flags })
      | _ :: rest => inner flags id { r with rest }
      | [] => none
    | rest => capture none rest

end

end RegexReader

/-- A pattern that has been read: the expression, the number of its groups and
their names. -/
structure ReadRegex where
  regex : Regex
  groups : Nat
  names : List (String × Nat)

/-- How deeply the parts of a pattern may be nested. -/
def maxRegexDepth : Nat := 250

/-- Reads a whole pattern. Each step of the reader takes a character or ends a
part, so that four steps for each character are enough. -/
def ReadRegex.ofText? (flags : RegexFlags) (pattern : String) :
    Option ReadRegex := do
  let cs := pattern.toList
  let (branches, r) ← RegexReader.readBranches (4 * cs.length + 4)
    ⟨cs, flags, 0, []⟩
  let part := RegexReader.alternatives branches
  if r.rest.isEmpty && part.depth ≤ maxRegexDepth then
    some ⟨part.regex, r.groups, r.names⟩
  else none

/-- The pattern that matches exactly a text. -/
def escapeRegex (text : String) : String :=
  String.ofList (text.toList.flatMap fun c =>
    if RegexReader.metaCharacters.contains c then ['\\', c] else [c])

end SparqlAlgebra
