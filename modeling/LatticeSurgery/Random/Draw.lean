import LatticeSurgery.Random.Source

/-!
# Fair draws

A number below `n` is drawn from a word of `w` bits by multiplying the word with `n`: the upper half
of the product is the number, and the lower half decides whether the word is accepted. Words are
rejected so that every number has the same number of accepted words. There are two ways to choose
the bound: `shiftedBound` doubles `n` as long as it stays in range, and `exactBound` takes the
largest multiple of `n` that is in range.
-/

namespace LatticeSurgery

namespace Draw

variable {σ : Type}

/-- The number drawn from a word, if the word is accepted. -/
def accept? (width bound n word : Nat) : Option Nat :=
  let product := word * n
  if product % Nat.pow 2 width ≤ bound then some (product / Nat.pow 2 width) else none

/-- Draws words until one is accepted, at most the given number of words. -/
def draw (next : σ → Except Fault (Nat × σ)) (width bound n : Nat) :
    Nat → σ → Except Fault (Nat × σ)
  | 0, _ => .error .drawAbandoned
  | tries + 1, s => do
    let (word, s) ← next s
    match accept? width bound n word with
    | some v => return (v, s)
    | none => draw next width bound n tries s

/-- The largest accepted lower half when `n` is doubled as long as it is a word. -/
def shiftedBound (width n : Nat) : Nat := n * Nat.pow 2 (width - (Nat.log2 n + 1)) - 1

/-- The largest accepted lower half when exactly the remainder modulo `n` is rejected. -/
def exactBound (width n : Nat) : Nat := Nat.pow 2 width - 1 - (Nat.pow 2 width - n) % n

variable [WordSource σ]

/-- A number below `n`, drawn from words of 32 bits. -/
def below32 (n : Nat) (s : σ) : Except Fault (Nat × σ) :=
  draw WordSource.next32 32 (shiftedBound 32 n) n (WordSource.patience s) s

/-- A number below `n`, drawn from words of 64 bits. -/
def below64 (n : Nat) (s : σ) : Except Fault (Nat × σ) :=
  draw WordSource.next64 64 (shiftedBound 64 n) n (WordSource.patience s) s

/-- An element of a list, if it has any. -/
def element {α : Type} (l : List α) (s : σ) : Except Fault (Option α × σ) :=
  match l with
  | [] => .ok (none, s)
  | _ => do
    let (i, s) ← below32 l.length s
    return (l[i]?, s)

/-- The list with the elements at two places exchanged. -/
def exchange {α : Type} (l : List α) (i j : Nat) : List α :=
  match l[i]?, l[j]? with
  | some a, some b => (l.set i b).set j a
  | _, _ => l

/-- Exchanges each of the elements at the places below `n`, from the last to the second, with one
drawn from those up to it. -/
def shuffleBelow {α : Type} : Nat → List α → σ → Except Fault (List α × σ)
  | 0, l, s => .ok (l, s)
  | 1, l, s => .ok (l, s)
  | n + 2, l, s => do
    let (j, s) ← below32 (n + 2) s
    shuffleBelow (n + 1) (exchange l (n + 1) j) s

/-- The list in random order. -/
def shuffle {α : Type} (l : List α) (s : σ) : Except Fault (List α × σ) :=
  shuffleBelow l.length l s

/-- The first place at which the sum of the weights up to it exceeds `c`. -/
def placeOfShare : Nat → List Nat → Nat
  | _, [] => 0
  | c, w :: ws => if c < w then 0 else placeOfShare (c - w) ws + 1

/-- A place of a list of weights, drawn in proportion to the weights. There is none if all weights
are zero. -/
def weighted (weights : List Nat) (s : σ) : Except Fault (Option Nat × σ) :=
  let total := weights.foldr (· + ·) 0
  if total = 0 then .ok (none, s)
  else do
    let (c, s) ← draw WordSource.next32 32 (exactBound 32 total) total (WordSource.patience s) s
    return (some (placeOfShare c weights), s)

end Draw

end LatticeSurgery
