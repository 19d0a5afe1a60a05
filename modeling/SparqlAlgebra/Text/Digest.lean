/-!
# Message digests

MD5, SHA-1 and the SHA-2 family. All of them pad the message to whole blocks,
fold a compression function over the blocks and write the final state in
hexadecimal digits.
-/

namespace SparqlAlgebra.Text

/-- The bytes of a text in UTF-8. -/
def utf8Bytes (text : String) : List Nat :=
  text.toUTF8.toList.map (·.toNat)

/-- The two lower-case hexadecimal digits of a byte. -/
def hexByte (n : Nat) : List Char :=
  [Nat.digitChar (n / 16 % 16), Nat.digitChar (n % 16)]

namespace Digest

/-! ## Bytes and words -/

/-- The order of the bytes of a word. -/
inductive ByteOrder where
  | lowFirst
  | highFirst

/-- The first `count` groups of `size` elements. -/
def groups {α : Type} (size : Nat) : Nat → List α → List (List α)
  | 0, _ => []
  | count + 1, xs => xs.take size :: groups size count (xs.drop size)

/-- The number written by bytes. -/
def ofBytes (order : ByteOrder) (bytes : List Nat) : Nat :=
  let highFirst := match order with
    | .highFirst => bytes
    | .lowFirst => bytes.reverse
  highFirst.foldl (fun n byte => n * 256 + byte) 0

/-- The last `count` bytes of a number. -/
def toBytes (order : ByteOrder) (count n : Nat) : List Nat :=
  let lowFirst := (List.range count).map fun i => n / Nat.pow 256 i % 256
  match order with
  | .lowFirst => lowFirst
  | .highFirst => lowFirst.reverse

/-- The message followed by a one bit, zeros, and its length in bits in the
last `lengthSize` bytes of a block. -/
def pad (order : ByteOrder) (blockSize lengthSize : Nat) (bytes : List Nat) :
    List Nat :=
  let used := (bytes.length + 1 + lengthSize) % blockSize
  bytes ++ 0x80 :: List.replicate ((blockSize - used) % blockSize) 0 ++
    toBytes order lengthSize (8 * bytes.length)

/-- The words of a block. -/
def blockWords (w : Nat) (order : ByteOrder) (block : List Nat) :
    Array (BitVec w) :=
  ((groups (w / 8) 16 block).map fun bytes =>
    BitVec.ofNat w (ofBytes order bytes)).toArray

/-- The digest of a text: `compress` is folded over the blocks of sixteen words
and the words of the state are written in order. -/
def digest {w : Nat} (order : ByteOrder) (initial : List (BitVec w))
    (compress : List (BitVec w) → Array (BitVec w) → List (BitVec w))
    (text : String) : List Nat :=
  let blockSize := 2 * w
  let padded := pad order blockSize (w / 4) (utf8Bytes text)
  let blocks := groups blockSize (padded.length / blockSize) padded
  let final := blocks.foldl
    (fun state block => compress state (blockWords w order block)) initial
  final.flatMap fun word => toBytes order (w / 8) word.toNat

/-- Bytes as hexadecimal digits. -/
def hex (bytes : List Nat) : String := String.ofList (bytes.flatMap hexByte)

/-- The word-wise sum of two states. -/
def addStates {w : Nat} (a b : List (BitVec w)) : List (BitVec w) :=
  List.zipWith (· + ·) a b

/-! ## MD5 -/

/-- The constants of the rounds: the first 32 bits after the point of the sines
of 1 to 64. -/
def md5Constants : Array (BitVec 32) :=
  #[
    0xd76aa478, 0xe8c7b756, 0x242070db, 0xc1bdceee, 0xf57c0faf,
    0x4787c62a, 0xa8304613, 0xfd469501, 0x698098d8, 0x8b44f7af,
    0xffff5bb1, 0x895cd7be, 0x6b901122, 0xfd987193, 0xa679438e,
    0x49b40821, 0xf61e2562, 0xc040b340, 0x265e5a51, 0xe9b6c7aa,
    0xd62f105d, 0x02441453, 0xd8a1e681, 0xe7d3fbc8, 0x21e1cde6,
    0xc33707d6, 0xf4d50d87, 0x455a14ed, 0xa9e3e905, 0xfcefa3f8,
    0x676f02d9, 0x8d2a4c8a, 0xfffa3942, 0x8771f681, 0x6d9d6122,
    0xfde5380c, 0xa4beea44, 0x4bdecfa9, 0xf6bb4b60, 0xbebfbc70,
    0x289b7ec6, 0xeaa127fa, 0xd4ef3085, 0x04881d05, 0xd9d4d039,
    0xe6db99e5, 0x1fa27cf8, 0xc4ac5665, 0xf4292244, 0x432aff97,
    0xab9423a7, 0xfc93a039, 0x655b59c3, 0x8f0ccc92, 0xffeff47d,
    0x85845dd1, 0x6fa87e4f, 0xfe2ce6e0, 0xa3014314, 0x4e0811a1,
    0xf7537e82, 0xbd3af235, 0x2ad7d2bb, 0xeb86d391]

/-- The distances by which the rounds rotate. -/
def md5Rotation (i : Nat) : Nat :=
  let distances := match i / 16 with
    | 0 => [7, 12, 17, 22]
    | 1 => [5, 9, 14, 20]
    | 2 => [4, 11, 16, 23]
    | _ => [6, 10, 15, 21]
  distances.getD (i % 4) 0

/-- One round on the state `a, b, c, d`. -/
def md5Round (block : Array (BitVec 32)) (state : List (BitVec 32)) (i : Nat) :
    List (BitVec 32) :=
  match state with
  | [a, b, c, d] =>
    let (f, g) := match i / 16 with
      | 0 => ((b &&& c) ||| (~~~b &&& d), i)
      | 1 => ((d &&& b) ||| (~~~d &&& c), 5 * i + 1)
      | 2 => (b ^^^ c ^^^ d, 3 * i + 5)
      | _ => (c ^^^ (b ||| ~~~d), 7 * i)
    let sum := f + a + md5Constants.getD i 0 + block.getD (g % 16) 0
    [d, b + sum.rotateLeft (md5Rotation i), b, c]
  | state => state

def md5 (text : String) : String :=
  hex <| digest .lowFirst [0x67452301, 0xefcdab89, 0x98badcfe, 0x10325476]
    (fun state block =>
      addStates state ((List.range 64).foldl (md5Round block) state)) text

/-! ## SHA-1 -/

/-- The sixteen words of a block, continued by `next` up to `count` words. -/
def schedule {w : Nat} (next : Array (BitVec w) → Nat → BitVec w)
    (block : Array (BitVec w)) (count : Nat) : Array (BitVec w) :=
  (List.range (count - 16)).foldl
    (fun words i => words.push (next words (i + 16))) block

/-- One round on the state `a, b, c, d, e`. -/
def sha1Round (words : Array (BitVec 32)) (state : List (BitVec 32)) (i : Nat) :
    List (BitVec 32) :=
  match state with
  | [a, b, c, d, e] =>
    let (f, k) : BitVec 32 × BitVec 32 := match i / 20 with
      | 0 => ((b &&& c) ||| (~~~b &&& d), 0x5a827999)
      | 1 => (b ^^^ c ^^^ d, 0x6ed9eba1)
      | 2 => ((b &&& c) ||| (b &&& d) ||| (c &&& d), 0x8f1bbcdc)
      | _ => (b ^^^ c ^^^ d, 0xca62c1d6)
    [a.rotateLeft 5 + f + e + k + words.getD i 0, a, b.rotateLeft 30, c, d]
  | state => state

def sha1 (text : String) : String :=
  let extend (words : Array (BitVec 32)) (i : Nat) : BitVec 32 :=
    (words.getD (i - 3) 0 ^^^ words.getD (i - 8) 0 ^^^ words.getD (i - 14) 0 ^^^
      words.getD (i - 16) 0).rotateLeft 1
  hex <| digest .highFirst
    [0x67452301, 0xefcdab89, 0x98badcfe, 0x10325476, 0xc3d2e1f0]
    (fun state block =>
      addStates state
        ((List.range 80).foldl (sha1Round (schedule extend block 80)) state))
    text

/-! ## SHA-2 -/

/-- The prime numbers below 410. -/
def primes : List Nat :=
  (List.range 410).filter fun n =>
    1 < n && (List.range n).all fun d => d < 2 || n % d ≠ 0

/-- The greatest number of at most `bits` bits whose `k`-th power is at most
`n`. -/
def rootBelow (k n : Nat) : Nat → Nat → Nat
  | 0, found => found
  | bits + 1, found =>
    let candidate := found + Nat.pow 2 bits
    rootBelow k n bits (if Nat.pow candidate k ≤ n then candidate else found)

/-- The first `w` bits behind the point of the `k`-th root of `n`. -/
def rootFraction (w k n : Nat) : BitVec w :=
  BitVec.ofNat w (rootBelow k (n * Nat.pow 2 (k * w)) (w + 8) 0)

/-- A member of the family on words of `w` bits: the number of rounds, and for
each mixing function the distances of two rotations and of a third rotation or
shift. -/
structure Sha2 (w : Nat) where
  rounds : Nat
  large0 : Nat × Nat × Nat
  large1 : Nat × Nat × Nat
  small0 : Nat × Nat × Nat
  small1 : Nat × Nat × Nat
  /-- The cube roots of the first primes. -/
  constants : Array (BitVec w)

def sha2Constants (w rounds : Nat) : Array (BitVec w) :=
  ((primes.take rounds).map (rootFraction w 3)).toArray

def sha2Short : Sha2 32 :=
  ⟨64, (2, 13, 22), (6, 11, 25), (7, 18, 3), (17, 19, 10),
    sha2Constants 32 64⟩

def sha2Long : Sha2 64 :=
  ⟨80, (28, 34, 39), (14, 18, 41), (1, 8, 7), (19, 61, 6),
    sha2Constants 64 80⟩

namespace Sha2

variable {w : Nat}

/-- Mixes a word with rotations of itself. -/
def rotations (d : Nat × Nat × Nat) (x : BitVec w) : BitVec w :=
  x.rotateRight d.1 ^^^ x.rotateRight d.2.1 ^^^ x.rotateRight d.2.2

/-- Mixes a word with two rotations and a shift of itself. -/
def rotationsAndShift (d : Nat × Nat × Nat) (x : BitVec w) : BitVec w :=
  x.rotateRight d.1 ^^^ x.rotateRight d.2.1 ^^^ (x >>> d.2.2)

/-- The `i`-th word of the schedule. -/
def extend (h : Sha2 w) (words : Array (BitVec w)) (i : Nat) : BitVec w :=
  rotationsAndShift h.small1 (words.getD (i - 2) 0) + words.getD (i - 7) 0 +
    rotationsAndShift h.small0 (words.getD (i - 15) 0) + words.getD (i - 16) 0

/-- One round on the state `a` to `h`. -/
def round (m : Sha2 w) (words : Array (BitVec w)) (state : List (BitVec w))
    (i : Nat) : List (BitVec w) :=
  match state with
  | [a, b, c, d, e, f, g, h] =>
    let first := h + rotations m.large1 e + ((e &&& f) ^^^ (~~~e &&& g)) +
      m.constants.getD i 0 + words.getD i 0
    let second := rotations m.large0 a +
      ((a &&& b) ^^^ (a &&& c) ^^^ (b &&& c))
    [first + second, a, b, c, d + first, e, f, g]
  | state => state

/-- The digest from an initial state. -/
def digest (m : Sha2 w) (initial : List (BitVec w)) (text : String) :
    List Nat :=
  Digest.digest .highFirst initial
    (fun state block =>
      let words := schedule m.extend block m.rounds
      addStates state ((List.range m.rounds).foldl (m.round words) state))
    text

end Sha2

/-- The square roots of eight primes behind the first `skip` primes. -/
def rootState (w skip : Nat) : List (BitVec w) :=
  ((primes.drop skip).take 8).map (rootFraction w 2)

def sha256 (text : String) : String :=
  hex (sha2Short.digest (rootState 32 0) text)

def sha512 (text : String) : String :=
  hex (sha2Long.digest (rootState 64 0) text)

/-- The first 48 bytes of a digest on long words from a state of its own. -/
def sha384 (text : String) : String :=
  hex ((sha2Long.digest (rootState 64 8) text).take 48)

end Digest

end SparqlAlgebra.Text
