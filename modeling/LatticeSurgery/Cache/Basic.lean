import LatticeSurgery.Order.Bisection
import LatticeSurgery.SortedMap

/-!
# Caches of candidates

A `Cache` keeps several candidates for each key, since an earlier result may or may not fit the
present state: a look-up returns the first candidate that passes a test. `insert` puts a candidate
last. `insertSorted` looks for its place by bisection, so the candidates of a key stay in increasing
order if all of them are inserted in this way.
-/

namespace LatticeSurgery

/-- Candidates for each key. -/
structure Cache (κ : Type) (ν : Type) [Ordered κ] where
  /-- The candidates for each key, the preferred one first. -/
  entries : SortedMap κ (List ν)

namespace Cache

variable {κ ν : Type} [Ordered κ]

/-- The cache without candidates. -/
def empty : Cache κ ν := ⟨∅⟩

instance : EmptyCollection (Cache κ ν) := ⟨empty⟩
instance : Inhabited (Cache κ ν) := ⟨empty⟩

/-- The candidates for a key. -/
def candidates (c : Cache κ ν) (k : κ) : List ν := c.entries.getD k []

/-- The first candidate for a key that passes the test. -/
def find? (c : Cache κ ν) (k : κ) (valid : ν → Bool) : Option ν := (c.candidates k).find? valid

/-- The cache with a last candidate for a key. -/
def insert (c : Cache κ ν) (k : κ) (v : ν) : Cache κ ν :=
  ⟨c.entries.insert k (c.candidates k ++ [v])⟩

/-- The cache with a candidate for a key, at the place that bisection finds for it. -/
def insertSorted [Ordered ν] (c : Cache κ ν) (k : κ) (v : ν) : Cache κ ν :=
  ⟨c.entries.insert k (Ordered.insertBisecting v (c.candidates k))⟩

/-- The number of keys. -/
def size (c : Cache κ ν) : Nat := c.entries.size

/-- Whether there is no key. -/
def isEmpty (c : Cache κ ν) : Bool := c.entries.isEmpty

theorem candidates_insert (c : Cache κ ν) (j k : κ) (v : ν) :
    (c.insert k v).candidates j =
      if Ordered.same j k then c.candidates k ++ [v] else c.candidates j := by
  simp only [candidates, insert, SortedMap.getD, SortedMap.get?_insert]
  split <;> rfl

theorem candidates_insertSorted [Ordered ν] (c : Cache κ ν) (j k : κ) (v : ν) :
    (c.insertSorted k v).candidates j =
      if Ordered.same j k then Ordered.insertBisecting v (c.candidates k) else c.candidates j := by
  simp only [candidates, insertSorted, SortedMap.getD, SortedMap.get?_insert]
  split <;> rfl

end Cache

end LatticeSurgery
