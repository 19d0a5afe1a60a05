import SparqlAlgebra.Regex

/-!
# Matching

Expressions are compiled to a program of small instructions. A search runs all
threads of the program side by side over the text. Threads are ordered by
preference, so that of all matches at the leftmost place the one is found that
a search trying alternatives from left to right finds first.
-/

namespace SparqlAlgebra

/-- An instruction of a matching program. -/
inductive RegexInstr where
  /-- Reads a character of the set. -/
  | char (set : CharSet) (next : Nat)
  /-- Goes on at both places, preferring the first. -/
  | split (first second : Nat)
  | assertion (a : Assertion) (next : Nat)
  /-- Notes the place in the text in a slot. -/
  | save (slot next : Nat)
  | accept
deriving Inhabited

/-- A matching program. -/
abbrev RegexProgram := Array RegexInstr

namespace RegexProgram

/-- Adds an instruction and returns its place. -/
def push (program : RegexProgram) (i : RegexInstr) : Nat × RegexProgram :=
  (program.size, Array.push program i)

/-- Code that goes on at `next`: its entry and the program that holds it. -/
abbrev Fragment := Nat → RegexProgram → Nat × RegexProgram

/-- The branch of an optional part. -/
def branch (greedy : Bool) (body next : Nat) : RegexInstr :=
  if greedy then .split body next else .split next body

/-- The code of `n` copies, one after the other. -/
def copies (body : Fragment) : Nat → Fragment
  | 0, next, p => (next, p)
  | n + 1, next, p =>
    let (entry, p) := copies body n next p
    body entry p

/-- A loop around `body`. It is entered through the body and runs it at least
once; also the place of the branch at its end is returned. -/
def loop (body : Fragment) (greedy : Bool) (next : Nat) (p : RegexProgram) :
    Nat × Nat × RegexProgram :=
  let (place, p) := push p .accept
  let (entry, p) := body place p
  (entry, place, Array.setIfInBounds p place (branch greedy entry next))

/-- Any number of copies. A body that reads at least one character is entered
through the branch of its loop; any other body is made optional. -/
def star (body : Fragment) (nullable greedy : Bool) : Fragment
  | next, p =>
    let (entry, place, p) := loop body greedy next p
    if nullable then push p (branch greedy entry next) else (place, p)

/-- At most `n` copies, each but the first behind the one before. -/
def atMost (body : Fragment) (greedy : Bool) : Nat → Fragment
  | 0, next, p => (next, p)
  | n + 1, next, p =>
    let (rest, p) := atMost body greedy n next p
    let (entry, p) := body rest p
    push p (branch greedy entry next)

/-- At least one copy. -/
def plus (body : Fragment) (greedy : Bool) : Fragment
  | next, p =>
    let (entry, _, p) := loop body greedy next p
    (entry, p)

/-- The code of an expression. -/
def compile : Regex → Fragment
  | .empty => fun next p => (next, p)
  | .char s => fun next p => push p (.char s next)
  | .assertion a => fun next p => push p (.assertion a next)
  | .concat a b => fun next p =>
    let (entry, p) := compile b next p
    compile a entry p
  | .alternative a b => fun next p =>
    let (second, p) := compile b next p
    let (first, p) := compile a next p
    push p (.split first second)
  | .group index r => fun next p =>
    let (close, p) := push p (.save (2 * index + 1) next)
    let (entry, p) := compile r close p
    push p (.save (2 * index) entry)
  | .repeated r min max greedy => fun next p =>
    let body := compile r
    match max with
    | some most =>
      let (entry, p) := atMost body greedy (most - min) next p
      copies body min entry p
    | none =>
      match min with
      | 0 => star body r.isNullable greedy next p
      | least + 1 =>
        let (entry, p) := plus body greedy next p
        copies body least entry p

/-- The program of an expression; its last instruction is the entry. -/
def ofRegex (r : Regex) : RegexProgram :=
  let (close, p) := push (#[.accept] : RegexProgram) (.save 1 0)
  let (entry, p) := compile r close p
  (push p (.save 0 entry)).2

end RegexProgram

/-! ## Places in a text -/

private def isWordAt (text : Array Char) (i : Nat) : Bool :=
  match text[i]? with
  | some c => Text.wordRanges.contains c.toNat
  | none => false

private def isWordBefore (text : Array Char) (i : Nat) : Bool :=
  match i with
  | 0 => false
  | j + 1 => isWordAt text j

/-- Whether an assertion holds before the `i`-th character. -/
def Assertion.holdsAt (text : Array Char) (i : Nat) : Assertion → Bool
  | textStart => i = 0
  | textEnd => i = text.size
  | lineStart => i = 0 || text[i - 1]? = some '\n'
  | lineEnd => i = text.size || text[i]? = some '\n'
  | returnStart =>
    i = 0 || text[i - 1]? = some '\n' ||
      (text[i - 1]? = some '\r' && text[i]? ≠ some '\n')
  | returnEnd =>
    i = text.size || text[i]? = some '\r' ||
      (text[i]? = some '\n' && (i = 0 || text[i - 1]? ≠ some '\r'))
  | wordBoundary => isWordBefore text i != isWordAt text i
  | notWordBoundary => isWordBefore text i == isWordAt text i
  | wordStart => !isWordBefore text i && isWordAt text i
  | wordEnd => isWordBefore text i && !isWordAt text i
  | wordStartHalf => !isWordBefore text i
  | wordEndHalf => !isWordAt text i

/-! ## Threads -/

/-- The places noted by a thread: for each group its start and its end. -/
abbrev Slots := List (Option Nat)

/-- A thread that waits to read a character, or has accepted. -/
structure RegexThread where
  place : Nat
  slots : Slots

/-- The threads at a place of the text, the most preferred one last, and for
each instruction whether it was visited already. -/
structure ThreadList where
  visited : Array Bool
  threads : List RegexThread

namespace ThreadList

/-- No threads for a program. -/
def empty (program : RegexProgram) : ThreadList :=
  ⟨Array.replicate program.size false, []⟩

/-- Follows a thread through instructions that read nothing. An instruction
that a more preferred thread has visited is not visited again; the steps are
bounded by the number of instructions. -/
def follow (program : RegexProgram) (text : Array Char) (i : Nat) :
    Nat → Nat → Slots → ThreadList → ThreadList
  | 0, _, _, list => list
  | fuel + 1, place, slots, list =>
    if list.visited[place]?.getD true then list
    else
      let list :=
        { list with visited := list.visited.setIfInBounds place true }
      match program[place]? with
      | none => list
      | some (.split first second) =>
        let list := follow program text i fuel first slots list
        follow program text i fuel second slots list
      | some (.assertion a next) =>
        if a.holdsAt text i then follow program text i fuel next slots list
        else list
      | some (.save slot next) =>
        follow program text i fuel next (slots.set slot (some i)) list
      | some (.char ..) | some .accept =>
        { list with threads := ⟨place, slots⟩ :: list.threads }

end ThreadList

/-- Lets the threads read the `i`-th character, in their order. The first
thread that has accepted ends the turn. -/
private def advance (program : RegexProgram) (text : Array Char) (i : Nat) :
    List RegexThread → ThreadList → Option Slots → ThreadList × Option Slots
  | [], next, found => (next, found)
  | t :: rest, next, found =>
    match program[t.place]? with
    | some .accept => (next, some t.slots)
    | some (.char s place) =>
      let reads := match text[i]? with
        | some c => s.contains c.toNat
        | none => false
      let next :=
        if reads then next.follow program text (i + 1) (program.size + 1) place
          t.slots
        else next
      advance program text i rest next found
    | _ => advance program text i rest next found

/-- Runs the threads over the rest of the text. As long as nothing was found, a
thread of least preference starts at every place. -/
private def run (program : RegexProgram) (text : Array Char) (slots : Slots) :
    Nat → Nat → ThreadList → Option Slots → Option Slots
  | 0, _, _, found => found
  | fuel + 1, i, list, found =>
    let list :=
      if found.isNone then
        list.follow program text i (program.size + 1) (program.size - 1) slots
      else list
    let (next, found) :=
      advance program text i list.threads.reverse (.empty program) found
    if next.threads.isEmpty && found.isSome then found
    else run program text slots fuel (i + 1) next found

/-- The first match that starts at the `start`-th character or later: for each
group its start and its end, the whole match first. -/
def RegexProgram.search (program : RegexProgram) (groups : Nat)
    (text : Array Char) (start : Nat) : Option Slots :=
  run program text (List.replicate (2 * groups + 2) none)
    (text.size + 1 - start) start (.empty program) none

end SparqlAlgebra
