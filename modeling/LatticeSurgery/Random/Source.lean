import LatticeSurgery.Fault

/-!
# Sources of random words

A source hands out words of 32 and of 64 bits, one after the other. Two sources are provided:
`CyclicWords` repeats a list of 64-bit words, which makes a run reproducible by hand, and
`KeyStream` is the ChaCha stream cipher with twelve rounds.

A draw may reject words. `patience` bounds the number of words that a draw looks at, so that a draw
from a source that never hands out an acceptable word comes to an end.
-/

namespace LatticeSurgery

/-- A source of random words. -/
class WordSource (σ : Type) where
  /-- The next word of 32 bits. -/
  next32 : σ → Except Fault (Nat × σ)
  /-- The next word of 64 bits. -/
  next64 : σ → Except Fault (Nat × σ)
  /-- The number of words after which a draw gives up. -/
  patience : σ → Nat

/-- A list of 64-bit words, handed out in a cycle. -/
structure CyclicWords where
  /-- The words. -/
  words : List Nat
  /-- The number of words handed out so far. -/
  position : Nat := 0
deriving DecidableEq

namespace CyclicWords

/-- The next word of 64 bits. -/
def next64 (s : CyclicWords) : Except Fault (Nat × CyclicWords) :=
  match s.words[s.position % s.words.length]? with
  | some w => .ok (w, { s with position := s.position + 1 })
  | none => .error .noRandomWords

/-- The next word of 32 bits, the lower half of a word of 64 bits. -/
def next32 (s : CyclicWords) : Except Fault (Nat × CyclicWords) := do
  let (w, s) ← s.next64
  return (w % 4294967296, s)

/-- After a whole cycle of rejected words, every word will be rejected. -/
instance : WordSource CyclicWords where
  next32 := next32
  next64 := next64
  patience s := s.words.length + 1

end CyclicWords

namespace ChaCha

/-- Four words, a row of the state of the cipher. -/
structure Row where
  /-- The first word. -/
  w0 : UInt32
  /-- The second word. -/
  w1 : UInt32
  /-- The third word. -/
  w2 : UInt32
  /-- The last word. -/
  w3 : UInt32
deriving DecidableEq

namespace Row

/-- Applies an operation to each pair of words at the same place. -/
@[inline] def zipWith (f : UInt32 → UInt32 → UInt32) (a b : Row) : Row :=
  ⟨f a.w0 b.w0, f a.w1 b.w1, f a.w2 b.w2, f a.w3 b.w3⟩

/-- Applies an operation to each word. -/
@[inline] def map (f : UInt32 → UInt32) (a : Row) : Row := ⟨f a.w0, f a.w1, f a.w2, f a.w3⟩

/-- The row with its first word moved to the end. -/
def turn (a : Row) : Row := ⟨a.w1, a.w2, a.w3, a.w0⟩

/-- The words in order. -/
def toList (a : Row) : List UInt32 := [a.w0, a.w1, a.w2, a.w3]

end Row

/-- A word rotated to the left. -/
def rotateLeft (n : UInt32) (w : UInt32) : UInt32 := (w <<< n) ||| (w >>> (32 - n))

/-- A word rotated to the right. -/
def rotateRight (n : UInt32) (w : UInt32) : UInt32 :=
  if n = 0 then w else (w >>> n) ||| (w <<< (32 - n))

/-- The state of the cipher, row by row. -/
structure State where
  /-- The constants, at the start. -/
  a : Row
  /-- The first half of the key, at the start. -/
  b : Row
  /-- The second half of the key, at the start. -/
  c : Row
  /-- The block counter and two zero words, at the start. -/
  d : Row
deriving DecidableEq

/-- The quarter round, on the four columns at once. -/
def quarterRounds (s : State) : State :=
  let a := s.a.zipWith (· + ·) s.b
  let d := (s.d.zipWith (· ^^^ ·) a).map (rotateLeft 16)
  let c := s.c.zipWith (· + ·) d
  let b := (s.b.zipWith (· ^^^ ·) c).map (rotateLeft 12)
  let a := a.zipWith (· + ·) b
  let d := (d.zipWith (· ^^^ ·) a).map (rotateLeft 8)
  let c := c.zipWith (· + ·) d
  let b := (b.zipWith (· ^^^ ·) c).map (rotateLeft 7)
  ⟨a, b, c, d⟩

/-- A round on the columns followed by a round on the diagonals. -/
def doubleRound (s : State) : State :=
  let s := quarterRounds s
  let s := quarterRounds ⟨s.a, s.b.turn, s.c.turn.turn, s.d.turn.turn.turn⟩
  ⟨s.a, s.b.turn.turn.turn, s.c.turn.turn, s.d.turn⟩

/-- The state in which a block of the key stream starts: the constants, the key, and the number of
the block. -/
def initial (key : Row × Row) (block : Nat) : State where
  a := ⟨0x61707865, 0x3320646e, 0x79622d32, 0x6b206574⟩
  b := key.1
  c := key.2
  d := ⟨UInt32.ofNat block, UInt32.ofNat (block / 4294967296), 0, 0⟩

/-- A block of the key stream, after the given number of double rounds. -/
def block (doubleRounds : Nat) (key : Row × Row) (number : Nat) : List UInt32 :=
  let s := initial key number
  let t := doubleRounds.repeat doubleRound s
  (t.a.zipWith (· + ·) s.a).toList ++ (t.b.zipWith (· + ·) s.b).toList ++
    (t.c.zipWith (· + ·) s.c).toList ++ (t.d.zipWith (· + ·) s.d).toList

end ChaCha

/-- The key stream of ChaCha with twelve rounds. -/
structure KeyStream where
  /-- The key. -/
  key : ChaCha.Row × ChaCha.Row
  /-- The number of words handed out so far. -/
  position : Nat := 0
  /-- The words of the present block that are not handed out yet. -/
  rest : List UInt32 := []
deriving DecidableEq

namespace KeyStream

/-- A step of the generator that expands a seed to a key. -/
def seedStep (s : UInt64) : UInt64 := s * 6364136223846793005 + 11634580027462260723

/-- The word of the key that belongs to a state of that generator. -/
def seedWord (s : UInt64) : UInt32 :=
  ChaCha.rotateRight (s >>> 59).toUInt32 (((s >>> 18) ^^^ s) >>> 27).toUInt32

/-- The next four words of the key, with the state after them. -/
def seedRow (s : UInt64) : ChaCha.Row × UInt64 :=
  let s0 := seedStep s
  let s1 := seedStep s0
  let s2 := seedStep s1
  let s3 := seedStep s2
  (⟨seedWord s0, seedWord s1, seedWord s2, seedWord s3⟩, s3)

/-- The key stream that belongs to a seed. -/
def ofSeed (seed : UInt64) : KeyStream :=
  let (first, s) := seedRow seed
  let (second, _) := seedRow s
  { key := (first, second) }

/-- The next word of 32 bits. -/
def word (s : KeyStream) : Nat × KeyStream :=
  let words := match s.rest with
    | [] => ChaCha.block 6 s.key (s.position / 16)
    | rest => rest
  match words with
  | [] => (0, s)
  | w :: rest => (w.toNat, { s with position := s.position + 1, rest := rest })

/-- The next word of 64 bits: two words of 32 bits, the lower half first. -/
def doubleWord (s : KeyStream) : Nat × KeyStream :=
  let (low, s) := s.word
  let (high, s) := s.word
  (low + high * 4294967296, s)

/-- A draw rejects a word of the key stream with a probability below one half. -/
instance : WordSource KeyStream where
  next32 s := .ok s.word
  next64 s := .ok s.doubleWord
  patience _ := 100000

end KeyStream

end LatticeSurgery
