import LatticeSurgery.Layout.Linear
import LatticeSurgery.Proofs.Layout.Acceptance

/-!
# The shape of compact linear layouts

Around a straight bus of the chosen length there are enough places for the data patches
(`Layout.le_size_linearPlaces`), so that a compact linear layout exists unless there are two zero states
and the bus is too short for them. The layout is then a straight one (`Layout.Straight`): its data
patches lie along the bus or at its right end, its magic states at its ends and its zero states below
its ends.
-/

namespace LatticeSurgery

open Tile

/-- Tiles side by side, by their coordinates. -/
theorem Tile.adj_iff {t u : Tile} : grid.Adj t u ↔
    u.y = t.y ∧ (u.x = t.x + 1 ∨ u.x = t.x - 1) ∨ u.x = t.x ∧ (u.y = t.y + 1 ∨ u.y = t.y - 1) := by
  obtain ⟨x, y⟩ := t
  obtain ⟨x', y'⟩ := u
  simp only [adj_grid, mem_neighbors, right, up, left, down, Tile.mk.injEq]
  omega

theorem Tile.ext_iff {t u : Tile} : t = u ↔ t.x = u.x ∧ t.y = u.y := by
  obtain ⟨x, y⟩ := t
  obtain ⟨x', y'⟩ := u
  exact Tile.mk.injEq .. ▸ Iff.rfl

theorem Tile.before_of_lt {t u : Tile} (h : t.x < u.x) : Ordered.before t u = true :=
  Bool.or_eq_true _ _ ▸ Or.inl (decide_eq_true h)

namespace Layout

/-- The tiles of the magic states at the ends of the bus. -/
def linearMagic (length magicStates : Nat) : List Tile :=
  ⟨-1, 0⟩ :: (if magicStates = 2 then [⟨(length : Int), 0⟩] else [])

/-- The tiles of the zero states below the ends of the bus. -/
def linearZero (length zeroStates : Nat) : List Tile :=
  ⟨0, -1⟩ :: ⟨1, -1⟩ ::
    (if zeroStates = 2 then [⟨(length : Int) - 2, -1⟩, ⟨(length : Int) - 1, -1⟩] else [])

/-- The places that are left beside the bus. -/
def linearPlaces (length magicStates zeroStates : Nat) : SortedSet Tile :=
  SortedSet.ofList <| ((row length).flatMap Tile.neighbors).filter fun t =>
    !((row length).contains t || (linearMagic length magicStates).contains t ||
      (linearZero length zeroStates).contains t)

/-- The roles of the tiles of a compact linear layout. -/
def linearRoles (length qubits magicStates zeroStates : Nat) : TileRoles where
  bus := row length
  data := (linearPlaces length magicStates zeroStates).toList.take qubits
  magic := linearMagic length magicStates
  zero := linearZero length zeroStates

variable {length qubits magicStates zeroStates n : Nat} {t u : Tile} {l : Layout}

theorem linear_eq (hmagic : magicStates = 1 ∨ magicStates = 2)
    (hzero : zeroStates = 1 ∨ zeroStates = 2)
    (hlength : linearBusLength qubits magicStates zeroStates = length) :
    linear qubits magicStates zeroStates =
      if zeroStates = 2 ∧ length < 4 then .error (.invalidLinearLayout (.tooFewQubits qubits))
      else if (linearPlaces length magicStates zeroStates).size < qubits then
        .error (.invalidLinearLayout
          (.tooManyQubits (linearPlaces length magicStates zeroStates).size qubits))
      else ofRoles (linearRoles length qubits magicStates zeroStates) := by
  subst hlength
  rw [linear, if_neg (by omega), if_neg (by omega)]
  rfl

/-! ## Where the tiles are -/

theorem mem_row : t ∈ row n ↔ t.y = 0 ∧ 0 ≤ t.x ∧ t.x < n := by
  obtain ⟨x, y⟩ := t
  simp only [row, List.mem_map, List.mem_range, Tile.mk.injEq]
  constructor
  · rintro ⟨i, hi, rfl, rfl⟩
    omega
  · rintro ⟨rfl, hx, hlt⟩
    exact ⟨x.toNat, by omega, by omega, rfl⟩

theorem nodup_row (n : Nat) : (row n).Nodup := by
  refine List.nodup_range.map fun i j h => ?_
  exact Int.ofNat_inj.1 (Tile.mk.inj h).1

theorem length_row (n : Nat) : (row n).length = n := by
  rw [row, List.length_map, List.length_range]

theorem mem_linearMagic : t ∈ linearMagic length magicStates ↔
    t.y = 0 ∧ (t.x = -1 ∨ magicStates = 2 ∧ t.x = length) := by
  obtain ⟨x, y⟩ := t
  unfold linearMagic
  split <;> simp [*] <;> omega

theorem mem_linearZero : t ∈ linearZero length zeroStates ↔
    t.y = -1 ∧ (t.x = 0 ∨ t.x = 1 ∨ zeroStates = 2 ∧ (t.x = length - 2 ∨ t.x = length - 1)) := by
  obtain ⟨x, y⟩ := t
  unfold linearZero
  split <;> simp [*] <;> omega

theorem nodup_linearMagic (length magicStates : Nat) : (linearMagic length magicStates).Nodup := by
  unfold linearMagic
  split <;> simp

theorem nodup_linearZero (hzero : zeroStates = 1 ∨ zeroStates = 2 ∧ 4 ≤ length) :
    (linearZero length zeroStates).Nodup := by
  unfold linearZero
  split
  · simp
    omega
  · simp

theorem mem_linearPlaces (hlength : 2 ≤ length) : t ∈ linearPlaces length magicStates zeroStates ↔
    t ∉ linearZero length zeroStates ∧ ((t.y = 1 ∨ t.y = -1) ∧ 0 ≤ t.x ∧ t.x < length ∨
      magicStates ≠ 2 ∧ t.y = 0 ∧ t.x = length) := by
  have hbeside : (∃ u ∈ row length, t ∈ u.neighbors) ↔ t.y = 0 ∧ -1 ≤ t.x ∧ t.x ≤ length ∨
      (t.y = 1 ∨ t.y = -1) ∧ 0 ≤ t.x ∧ t.x < length := by
    simp only [← adj_grid, mem_row, adj_iff]
    constructor
    · rintro ⟨u, hu, hadj⟩
      omega
    · rintro (⟨hy, hx, hlt⟩ | ⟨hy, hx, hlt⟩)
      · by_cases hleft : t.x ≤ 0
        · exact ⟨⟨t.x + 1, 0⟩, by dsimp only; omega, by dsimp only; omega⟩
        · exact ⟨⟨t.x - 1, 0⟩, by dsimp only; omega, by dsimp only; omega⟩
      · exact ⟨⟨t.x, 0⟩, by dsimp only; omega, by dsimp only; omega⟩
  rw [linearPlaces, SortedSet.mem_ofList, List.mem_filter, List.mem_flatMap, hbeside]
  simp only [Bool.not_eq_true', ← Bool.not_eq_true, Bool.or_eq_true, List.contains_iff_mem, not_or,
    mem_row, mem_linearMagic]
  constructor
  · rintro ⟨hplace, ⟨hrow, hmagic⟩, hout⟩
    refine ⟨hout, ?_⟩
    clear hout
    omega
  · rintro ⟨hout, hplace⟩
    refine ⟨?_, ⟨?_, ?_⟩, hout⟩ <;> clear hout hbeside <;> omega

/-! ## Enough places -/

/-- Places above the bus, places below it to the right of the first zero state, and the place at its
right end. -/
def sparePlaces (length magicStates zeroStates : Nat) : List Tile :=
  ((List.range length).map fun i : Nat => ⟨(i : Int), 1⟩) ++
    ((List.range' 2 (length - 2 * zeroStates)).map fun i : Nat => ⟨(i : Int), -1⟩) ++
    if magicStates = 2 then [] else [⟨(length : Int), 0⟩]

theorem mem_sparePlaces : t ∈ sparePlaces length magicStates zeroStates ↔
    (t.y = 1 ∧ 0 ≤ t.x ∧ t.x < length ∨
      t.y = -1 ∧ 2 ≤ t.x ∧ t.x < 2 + (length - 2 * zeroStates : Nat)) ∨
    magicStates ≠ 2 ∧ t.y = 0 ∧ t.x = length := by
  simp only [sparePlaces, List.mem_append, List.mem_map, List.mem_range, List.mem_range'_1]
  refine or_congr (or_congr ⟨?_, fun h => ?_⟩ ⟨?_, fun h => ?_⟩) ?_
  · rintro ⟨i, hi, rfl⟩
    dsimp only
    omega
  · exact ⟨t.x.toNat, by omega, Tile.ext_iff.2 ⟨Int.toNat_of_nonneg h.2.1, h.1.symm⟩⟩
  · rintro ⟨i, hi, rfl⟩
    dsimp only
    omega
  · exact ⟨t.x.toNat, by omega, Tile.ext_iff.2 ⟨Int.toNat_of_nonneg (by omega), h.1.symm⟩⟩
  · split <;> simp [*, Tile.ext_iff, and_comm]

theorem nodup_sparePlaces : (sparePlaces length magicStates zeroStates).Nodup := by
  have hcolumn : ∀ y : Int, Function.Injective fun i : Nat => (⟨(i : Int), y⟩ : Tile) := fun y i j h =>
    Int.ofNat_inj.1 (Tile.mk.inj h).1
  -- the three parts lie in three rows
  refine List.nodup_append'.2 ⟨List.nodup_append'.2 ⟨List.nodup_range.map (hcolumn 1),
    (List.nodup_range').map (hcolumn (-1)), ?_⟩, by split <;> simp, ?_⟩
  · simp [List.disjoint_left]
  · split <;> simp [List.disjoint_left]

/-- There are enough places for the data patches. -/
theorem le_size_linearPlaces (hmagic : magicStates = 1 ∨ magicStates = 2)
    (hzero : zeroStates = 1 ∨ zeroStates = 2 ∧ 4 ≤ length) (hlength : 2 ≤ length)
    (hqubits : (qubits + zeroStates * 2 + magicStates - 1) / 2 ≤ length) :
    qubits ≤ (linearPlaces length magicStates zeroStates).size := by
  have hspare : sparePlaces length magicStates zeroStates ⊆
      (linearPlaces length magicStates zeroStates).toList := fun t ht => by
    rw [mem_sparePlaces] at ht
    rw [SortedSet.mem_toList, mem_linearPlaces hlength, mem_linearZero]
    omega
  have hle : (sparePlaces length magicStates zeroStates).length ≤
      (linearPlaces length magicStates zeroStates).size :=
    (List.subperm_of_subset nodup_sparePlaces hspare).length_le
  refine le_trans ?_ hle
  rw [sparePlaces, List.length_append, List.length_append, List.length_map, List.length_map,
    List.length_range, List.length_range']
  rcases hmagic with rfl | rfl
  · rw [if_neg (by decide), List.length_singleton]
    omega
  · rw [if_pos rfl, List.length_nil]
    omega

/-! ## Straight layouts -/

/-- A layout along a straight bus. -/
structure Straight (l : Layout) (length qubits magicStates zeroStates : Nat) : Prop where
  /-- There are two bus tiles at least, -/
  two_le : 2 ≤ length
  /-- in one row. -/
  bus : ∀ t, t ∈ l.bus ↔ t.y = 0 ∧ 0 ≤ t.x ∧ t.x < length
  /-- Data patches lie above the bus, below it or at its right end. -/
  data : ∀ t ∈ l.data, (t.y = 1 ∨ t.y = -1) ∧ 0 ≤ t.x ∧ t.x < length ∨ t.y = 0 ∧ t.x = length
  size_data : l.data.size = qubits
  /-- Magic states lie at the ends of the bus. -/
  magic : ∀ t ∈ l.magic, t.y = 0 ∧ (t.x = -1 ∨ t.x = length)
  size_magic : l.magic.size = magicStates
  /-- Zero states lie below the ends of the bus. -/
  zero : ∀ t, t ∈ l.zero ↔
    t.y = -1 ∧ (t.x = 0 ∨ t.x = 1 ∨ zeroStates = 2 ∧ (t.x = length - 2 ∨ t.x = length - 1))
  /-- They are apart. -/
  zeroStates : zeroStates = 1 ∨ zeroStates = 2 ∧ 4 ≤ length
  storage : ∀ t, t ∉ l.storage

/-- The size of a set with the members of a list. -/
theorem size_eq_length {s : SortedSet Tile} {ts : List Tile} (h : ∀ t, t ∈ s ↔ t ∈ ts)
    (hts : ts.Nodup) : s.size = ts.length :=
  ((List.perm_ext_iff_of_nodup s.nodup hts).2 h).length_eq

/-- If the zero states are apart, the layout exists and is straight. -/
theorem exists_linear (hmagic : magicStates = 1 ∨ magicStates = 2)
    (hzero : zeroStates = 1 ∨ zeroStates = 2 ∧ 4 ≤ length)
    (hlength : linearBusLength qubits magicStates zeroStates = length) :
    ∃ l, linear qubits magicStates zeroStates = .ok l ∧
      l.Straight length qubits magicStates zeroStates := by
  have htwo : 2 ≤ length := hlength ▸ Nat.le_max_left ..
  have henough : qubits ≤ (linearPlaces length magicStates zeroStates).size :=
    le_size_linearPlaces hmagic hzero htwo (hlength ▸ Nat.le_max_right ..)
  set data := (linearPlaces length magicStates zeroStates).toList.take qubits
  have hdata : ∀ t ∈ data, t ∉ linearZero length zeroStates ∧
      ((t.y = 1 ∨ t.y = -1) ∧ 0 ≤ t.x ∧ t.x < length ∨ magicStates ≠ 2 ∧ t.y = 0 ∧ t.x = length) :=
    fun t ht => (mem_linearPlaces htwo).1 (List.mem_of_mem_take ht)
  have hdataNodup : data.Nodup := (SortedSet.nodup _).sublist (List.take_sublist ..)
  -- whatever is not a bus tile lies at an end of the bus, above it or below it
  have haround : ∀ t, t ∈ data ∨ t ∈ linearMagic length magicStates ∨ t ∈ linearZero length zeroStates →
      t.y = 0 ∧ (t.x = -1 ∨ t.x = length) ∨ (t.y = 1 ∨ t.y = -1) ∧ 0 ≤ t.x ∧ t.x < length := by
    rintro t (ht | ht | ht)
    · have := (hdata t ht).2
      omega
    · rw [mem_linearMagic] at ht
      omega
    · rw [mem_linearZero] at ht
      omega
  have hok := exists_ofRoles (r := linearRoles length qubits magicStates zeroStates) ?_ ?_ ?_
  · obtain ⟨l, hl, hroles⟩ := hok
    refine ⟨l, ?_, ⟨htwo, fun t => (hroles.bus t).trans mem_row, fun t ht => ?_, ?_, fun t ht => ?_, ?_,
      fun t => (hroles.zero t).trans mem_linearZero, hzero, fun t ht => ?_⟩⟩
    · rw [linear_eq hmagic (by omega) hlength, if_neg (by omega), if_neg (by omega), hl]
    · have := (hdata t ((hroles.data t).1 ht)).2
      omega
    · rw [size_eq_length hroles.data hdataNodup]
      exact List.length_take_of_le henough
    · have := mem_linearMagic.1 ((hroles.magic t).1 ht)
      omega
    · rw [size_eq_length hroles.magic (nodup_linearMagic length magicStates)]
      rcases hmagic with rfl | rfl <;> rfl
    · exact absurd ((hroles.storage t).1 ht) (List.not_mem_nil)
  · intro hnil
    have := length_row length
    rw [show row length = [] from hnil] at this
    simp at this
    omega
  · simp only [linearRoles, List.append_nil]
    refine List.nodup_append'.2 ⟨nodup_row length, List.nodup_append'.2 ⟨hdataNodup,
      List.nodup_append'.2 ⟨nodup_linearMagic length magicStates, nodup_linearZero hzero,
        fun t ht ht' => ?_⟩, fun t ht ht' => ?_⟩, fun t ht ht' => ?_⟩
    · rw [mem_linearMagic] at ht
      rw [mem_linearZero] at ht'
      omega
    · obtain ⟨hout, hplace⟩ := hdata t ht
      have := mem_linearMagic.1 ((List.mem_append.1 ht').resolve_right hout)
      omega
    · rw [mem_row] at ht
      have := haround t (by simpa only [List.mem_append] using ht')
      omega
  · intro t ht
    simp only [linearRoles, List.append_nil, List.mem_append, or_assoc] at ht
    simp only [linearRoles, mem_row, adj_iff]
    rcases haround t ht with ⟨hy, hx | hx⟩ | ⟨hy, hx, hlt⟩
    · exact ⟨⟨0, 0⟩, by dsimp only; omega, by dsimp only; omega⟩
    · exact ⟨⟨length - 1, 0⟩, by dsimp only; omega, by dsimp only; omega⟩
    · exact ⟨⟨t.x, 0⟩, by dsimp only; omega, by dsimp only; omega⟩

/-- The layout is straight, or the bus is too short for two zero states. -/
theorem linear_cases (qubits : Nat) (hmagic : magicStates = 1 ∨ magicStates = 2)
    (hzero : zeroStates = 1 ∨ zeroStates = 2) :
    (zeroStates = 2 ∧ linearBusLength qubits magicStates zeroStates < 4 ∧
      linear qubits magicStates zeroStates = .error (.invalidLinearLayout (.tooFewQubits qubits))) ∨
    ∃ l, linear qubits magicStates zeroStates = .ok l ∧
      l.Straight (linearBusLength qubits magicStates zeroStates) qubits magicStates zeroStates := by
  by_cases hfew : zeroStates = 2 ∧ linearBusLength qubits magicStates zeroStates < 4
  · refine Or.inl ⟨hfew.1, hfew.2, ?_⟩
    rw [linear_eq hmagic hzero rfl, if_pos hfew]
  · exact Or.inr (exists_linear hmagic (by omega) rfl)

namespace Straight

variable (h : l.Straight length qubits magicStates zeroStates)

include h

theorem size_bus : l.bus.size = length := by
  rw [size_eq_length (fun t => (h.bus t).trans mem_row.symm) (nodup_row length), length_row]

theorem size_zero : l.zero.size = 2 * zeroStates := by
  rw [size_eq_length (fun t => (h.zero t).trans mem_linearZero.symm) (nodup_linearZero h.zeroStates)]
  rcases h.zeroStates with hone | ⟨htwo, -⟩
  · rw [hone]
    rfl
  · rw [htwo]
    rfl

/-- A magic state has one bus tile beside it. -/
theorem exists_busNeighbors (ht : t ∈ l.magic) : ∃ u, l.busNeighbors t = [u] := by
  have htwo := h.two_le
  obtain ⟨hy, hx⟩ := h.magic t ht
  rcases hx with hx | hx
  · refine ⟨t.right, filter_neighbors_eq fun v => ?_⟩
    rw [SortedSet.contains_iff, h.bus, adj_iff, Tile.ext_iff]
    dsimp only [right]
    omega
  · refine ⟨t.left, filter_neighbors_eq fun v => ?_⟩
    rw [SortedSet.contains_iff, h.bus, adj_iff, Tile.ext_iff]
    dsimp only [left]
    omega

/-- The zero states are paired up from left to right. -/
theorem exists_pairUp : ∃ pairs, pairUp l.zero = .ok pairs := by
  have hnil : pairUp ∅ = .ok [] := rfl
  rcases h.zeroStates with hone | ⟨htwo, hlength⟩
  · refine ⟨[(⟨0, -1⟩, ⟨1, -1⟩)], ?_⟩
    rw [pairUp_lying ⟨0, -1⟩ ∅ (fun v => ?_) (by simp) (by simp), hnil]
    · rfl
    · simp only [h.zero, Tile.ext_iff, right, SortedSet.not_mem_empty, or_false]
      omega
  · set rest := SortedSet.ofList [(⟨length - 2, -1⟩ : Tile), ⟨length - 1, -1⟩]
    have hrest : ∀ v, v ∈ rest ↔ v.y = -1 ∧ (v.x = length - 2 ∨ v.x = length - 1) := fun v => by
      simp only [rest, SortedSet.mem_ofList, List.mem_cons, List.not_mem_nil, or_false, Tile.ext_iff]
      omega
    have hlast : pairUp rest = .ok [(⟨length - 2, -1⟩, ⟨length - 2 + 1, -1⟩)] := by
      rw [pairUp_lying ⟨length - 2, -1⟩ ∅ (fun v => ?_) (by simp) (by simp), hnil]
      · rfl
      · simp only [hrest, Tile.ext_iff, right, SortedSet.not_mem_empty, or_false]
        omega
    refine ⟨[(⟨0, -1⟩, ⟨1, -1⟩), (⟨length - 2, -1⟩, ⟨length - 2 + 1, -1⟩)], ?_⟩
    rw [pairUp_lying ⟨0, -1⟩ rest (fun v => ?_) (fun v hv => ?_) (fun v hv => ?_), hlast]
    · rfl
    · simp only [h.zero, hrest, Tile.ext_iff, right]
      omega
    · refine before_of_lt ?_
      have := (hrest v).1 hv
      dsimp only
      omega
    · have := (hrest v).1 hv
      rw [adj_iff]
      dsimp only
      omega

/-- The patches of a straight layout are found. -/
theorem exists_patches : ∃ ps, l.patches = .ok ps := by
  obtain ⟨pairs, hpairs⟩ := h.exists_pairUp
  exact Layout.exists_patches (fun t ht => h.exists_busNeighbors ht)
    (fun t ht => absurd ht (h.storage t)) hpairs

end Straight

end Layout

end LatticeSurgery
