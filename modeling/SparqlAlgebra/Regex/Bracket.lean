import SparqlAlgebra.Regex.Escape

/-!
# Bracketed classes

Sets of characters in brackets: characters, ranges, escapes, named classes and
nested brackets, with intersection, difference and symmetric difference.

Where case is ignored, a set is closed under it before its complement is taken
and before sets are combined, so that a complement never holds a variant of a
character that it leaves out. What is built from closed sets is closed again.
-/

namespace SparqlAlgebra

namespace RegexReader

/-- The classes that can be named inside brackets. -/
def namedClass? : String → Option Text.CodeRanges
  | "alnum" => some [(48, 57), (65, 90), (97, 122)]
  | "alpha" => some [(65, 90), (97, 122)]
  | "ascii" => some [(0, 127)]
  | "blank" => some [(9, 9), (32, 32)]
  | "cntrl" => some [(0, 31), (127, 127)]
  | "digit" => some [(48, 57)]
  | "graph" => some [(33, 126)]
  | "lower" => some [(97, 122)]
  | "print" => some [(32, 126)]
  | "punct" => some [(33, 47), (58, 64), (91, 96), (123, 126)]
  | "space" => some [(9, 13), (32, 32)]
  | "upper" => some [(65, 90)]
  | "word" => some [(48, 57), (65, 90), (95, 95), (97, 122)]
  | "xdigit" => some [(48, 57), (65, 70), (97, 102)]
  | _ => none

/-- Closes a set under case where case is ignored. -/
def closeSet (caseless : Bool) (s : CharSet) : CharSet :=
  if caseless then .caseless s else s

/-- The complement of a set that is negated. -/
def negateSet (negated : Bool) (s : CharSet) : CharSet :=
  if negated then .complement s else s

/-- Reads a named class behind its opening bracket. -/
def readNamedClass (caseless : Bool) : List Char → Option (CharSet × List Char)
  | ':' :: rest =>
    let (negated, body) := match rest with
      | '^' :: more => (true, more)
      | more => (false, more)
    let name := body.takeWhile (· ≠ ':')
    match body.drop name.length with
    | ':' :: ']' :: after =>
      (namedClass? (String.ofList name)).map fun rs =>
        (negateSet negated (closeSet caseless (.ranges rs)), after)
    | _ => none
  | _ => none

/-- The operators between the parts of a class. -/
inductive ClassOp where
  | and | minus | xor

def ClassOp.combine : ClassOp → CharSet → CharSet → CharSet
  | and, a, b => .intersection a b
  | minus, a, b => .difference a b
  | xor, a, b => .symmetricDifference a b

/-- A part of a class, how deeply brackets are nested in it, and whether it is
closed under case already where case is ignored. -/
structure ClassPart where
  set : CharSet
  depth : Nat
  closed : Bool

/-- A character, a range or the set of an escape. -/
def ClassPart.leaf (set : CharSet) : ClassPart := ⟨set, 0, false⟩

/-- The union of the sets of some parts. -/
def unionOf : List ClassPart → CharSet
  | [] => .none
  | [part] => part.set
  | part :: parts => .union part.set (unionOf parts)

/-- The part of a class in front of its last operator, with that operator. -/
abbrev PendingClass := Option (ClassPart × ClassOp)

/-- The part that ends behind some items, joined to the part in front of it. -/
def endPart (caseless : Bool) (pending : PendingClass)
    (items : List ClassPart) : ClassPart :=
  let set := match items.partition (·.closed) with
    | (closed, []) => unionOf closed
    | ([], leaves) => closeSet caseless (unionOf leaves)
    | (closed, leaves) =>
      .union (closeSet caseless (unionOf leaves)) (unionOf closed)
  let depth := rowDepth (items.map (·.depth))
  match pending with
  | none => ⟨set, depth, true⟩
  | some (left, op) => ⟨op.combine left.set set, max left.depth depth + 1, true⟩

/-- One item of a class: a character or a set, but no assertion. -/
def readClassItem (extended : Bool) (rest : List Char) :
    Option (Atom × List Char) :=
  match rest with
  | [] => none
  | '\\' :: more => do
    match ← readEscape extended more with
    | (.assertion _, _) => none
    | item => some item
  | c :: more => some (.literal c, more)

def Atom.toSet : Atom → CharSet
  | .literal c => .ofChar c
  | .set s => s
  | .assertion _ => .none

/-- The character by which a hyphen is judged to be a range or not: the next one
that is no blank, where also a number sign is passed over once. -/
def peekBehindHyphen (extended : Bool) (rest : List Char) : Option Char :=
  if extended then
    match rest.dropWhile isBlank with
    | '#' :: more => (more.dropWhile isBlank).head?
    | rest => rest.head?
  else rest.head?

/-- An item or a range of items. -/
def readClassRange (extended : Bool) (rest : List Char) :
    Option (CharSet × List Char) := do
  let (first, rest) ← readClassItem extended rest
  let rest := skip extended rest
  match rest with
  | '-' :: more =>
    match peekBehindHyphen extended more with
    | some ']' | some '-' => some (first.toSet, rest)
    | _ => do
      let (last, rest) ← readClassItem extended (skip extended more)
      match first, last with
      | .literal a, .literal b =>
        if a ≤ b then some (.ranges [(a.toNat, b.toNat)], rest) else none
      | _, _ => none
  | _ => some (first.toSet, rest)

/-- Hyphens at the start of a class stand for themselves. -/
def leadingHyphens (extended : Bool) : Nat → List Char → List ClassPart →
    List ClassPart × List Char
  | fuel + 1, '-' :: rest, items =>
    leadingHyphens extended fuel (skip extended rest)
      (.leaf (.ofChar '-') :: items)
  | _, rest, items => (items, rest)

/-- The start of a class behind its opening bracket: whether it is negated, and
the hyphens or the closing bracket that stand for themselves. -/
def openClass (extended : Bool) (rest : List Char) :
    Bool × List ClassPart × List Char :=
  let rest := skip extended rest
  let (negated, rest) := match rest with
    | '^' :: more => (true, skip extended more)
    | more => (false, more)
  match leadingHyphens extended rest.length rest [] with
  | ([], ']' :: more) => (negated, [.leaf (.ofChar ']')], skip extended more)
  | (items, rest) => (negated, items, rest)

mutual

/-- Reads the items of a class up to its closing bracket. -/
def readClassItems (caseless extended : Bool) : Nat → PendingClass →
    List ClassPart → List Char → Option (ClassPart × List Char)
  | 0, _, _, _ => none
  | fuel + 1, pending, items, rest =>
    let add (item : ClassPart) (rest : List Char) :=
      readClassItems caseless extended fuel pending (item :: items) rest
    let operator (op : ClassOp) (rest : List Char) :=
      readClassItems caseless extended fuel
        (some (endPart caseless pending items, op)) [] rest
    match skip extended rest with
    | [] => none
    | ']' :: more => some (endPart caseless pending items, more)
    | '&' :: '&' :: more => operator .and more
    | '-' :: '-' :: more => operator .minus more
    | '~' :: '~' :: more => operator .xor more
    | '[' :: more =>
      match readNamedClass caseless more with
      | some (s, more) => add ⟨s, 0, true⟩ more
      | none => do
        let (part, more) ← readClass caseless extended fuel more
        add part more
    | rest => do
      let (s, more) ← readClassRange extended rest
      add (.leaf s) more

/-- Reads a class behind its opening bracket. -/
def readClass (caseless extended : Bool) : Nat → List Char →
    Option (ClassPart × List Char)
  | 0, _ => none
  | fuel + 1, rest => do
    let (negated, items, rest) := openClass extended rest
    let (part, rest) ← readClassItems caseless extended fuel none items rest
    return (⟨negateSet negated part.set, part.depth + 1, true⟩, rest)

end

end RegexReader

end SparqlAlgebra
