/-!
# Heaps of scored entries

A `ScoreHeap` is a binary heap in an array: the entry at place `i` is no better than the one at
place `(i - 1) / 2`, and an entry is better when its score is smaller. A new entry rises from the
end. When the best entry is taken, the last entry takes its place, sinks all the way to the bottom
along the better children, the right one if both are equally good, and then rises again. Which of
several best entries comes out first depends on this walk and on nothing else.
-/

namespace LatticeSurgery

/-- A heap of entries with a score, the smallest score on top. -/
structure ScoreHeap (β : Type) where
  /-- The entries, each below the one at half its place. -/
  entries : Array (Nat × β)

namespace ScoreHeap

variable {β : Type}

/-- The heap without entries. -/
def empty : ScoreHeap β := ⟨#[]⟩

instance : EmptyCollection (ScoreHeap β) := ⟨empty⟩

/-- The number of entries. -/
def size (h : ScoreHeap β) : Nat := h.entries.size

/-- The score at a place. -/
def scoreAt (entries : Array (Nat × β)) (i : Nat) : Nat :=
  match entries[i]? with
  | some e => e.1
  | none => 0

/-- Lets the entry at a place rise until the one above it is at least as good, in at most `steps`
steps. -/
def rise (entries : Array (Nat × β)) : Nat → Nat → Array (Nat × β)
  | 0, _ => entries
  | steps + 1, i =>
    if i = 0 then entries
    else
      let above := (i - 1) / 2
      if scoreAt entries above ≤ scoreAt entries i then entries
      else rise (entries.swapIfInBounds i above) steps above

/-- Lets the entry at a place sink to the bottom, in at most `steps` steps, and tells where it
arrives. -/
def sink (entries : Array (Nat × β)) : Nat → Nat → Array (Nat × β) × Nat
  | 0, i => (entries, i)
  | steps + 1, i =>
    let left := 2 * i + 1
    if left + 1 < entries.size then
      let child := if scoreAt entries (left + 1) ≤ scoreAt entries left then left + 1 else left
      sink (entries.swapIfInBounds i child) steps child
    else if left + 1 = entries.size then (entries.swapIfInBounds i left, left)
    else (entries, i)

/-- The heap with one more entry. -/
def push (h : ScoreHeap β) (score : Nat) (b : β) : ScoreHeap β :=
  ⟨rise (h.entries.push (score, b)) h.size h.size⟩

/-- The best entry, with the heap of the others. -/
def pop? (h : ScoreHeap β) : Option ((Nat × β) × ScoreHeap β) :=
  match h.entries[0]? with
  | none => none
  | some top =>
    let rest := (h.entries.swapIfInBounds 0 (h.size - 1)).pop
    let (rest, i) := sink rest rest.size 0
    some (top, ⟨rise rest i i⟩)

/-- The heap into which the entries of a list were pushed one after the other. -/
def ofList (l : List (Nat × β)) : ScoreHeap β := l.foldl (fun h e => h.push e.1 e.2) ∅

end ScoreHeap

end LatticeSurgery
