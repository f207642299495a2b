import LatticeSurgery.Proofs.Layout.Matchings
import LatticeSurgery.Patch

/-!
# Sides of patches

The operators on the outer sides of a patch, as a drawing of the patch shows them (`Carries`). A patch on
one tile has equal operators on opposite sides. A patch on two tiles is drawn either lying or standing
(`Patch.exists_twoTile_eq`).
-/

namespace LatticeSurgery

open Tile

/-- `Carries kind tiles t u basis` says that the side between the tile `t` of a patch and the tile `u`
beside it carries an operator. -/
inductive Carries : PatchKind → List Tile → Tile → Tile → Basis → Prop
  /-- A data patch has X above and below, -/
  | dataX {t u : Tile} (h : u = t.up ∨ u = t.down) : Carries .qubit [t] t u .X
  /-- and Z to the left and to the right. -/
  | dataZ {t u : Tile} (h : u = t.left ∨ u = t.right) : Carries .qubit [t] t u .Z
  /-- A magic state delivers through a Z side, whatever tile beside it is the bus, -/
  | magic {t u : Tile} (h : grid.Adj t u) : Carries .magic [t] t u .Z
  /-- and so does a storage. -/
  | storage {t u : Tile} (h : grid.Adj t u) : Carries .storage [t] t u .Z
  /-- A lying zero state has X below its left tile, -/
  | leftX {t : Tile} : Carries .zero [t, t.right] t t.down .X
  /-- Z at the left end and above the left tile, -/
  | leftZ {t u : Tile} (h : u = t.left ∨ u = t.up) : Carries .zero [t, t.right] t u .Z
  /-- X at the right end and above its right tile, -/
  | rightX {t u : Tile} (h : u = t.right.right ∨ u = t.right.up) :
    Carries .zero [t, t.right] t.right u .X
  /-- and Z below the right tile. -/
  | rightZ {t : Tile} : Carries .zero [t, t.right] t.right t.right.down .Z
  /-- A standing zero state has X to the right of its lower tile, -/
  | lowerX {t : Tile} : Carries .zero [t, t.up] t t.right .X
  /-- Z at the lower end and to the left of the lower tile, -/
  | lowerZ {t u : Tile} (h : u = t.down ∨ u = t.left) : Carries .zero [t, t.up] t u .Z
  /-- X at the upper end and to the left of its upper tile, -/
  | upperX {t u : Tile} (h : u = t.up.up ∨ u = t.up.left) : Carries .zero [t, t.up] t.up u .X
  /-- and Z to the right of the upper tile. -/
  | upperZ {t : Tile} : Carries .zero [t, t.up] t.up t.up.right .Z

namespace Tile

@[simp] theorem right_left (t : Tile) : t.left.right = t := by simp [left, right]

@[simp] theorem left_right (t : Tile) : t.right.left = t := by simp [left, right]

@[simp] theorem down_up (t : Tile) : t.up.down = t := by simp [down, up]

@[simp] theorem up_down (t : Tile) : t.down.up = t := by simp [down, up]

theorem before_right (t : Tile) : Ordered.before t t.right = true := by
  simp only [Ordered.before, right, Bool.or_eq_true]
  exact Or.inl (decide_eq_true (Int.lt_succ t.x))

theorem before_up (t : Tile) : Ordered.before t t.up = true := by
  simp only [Ordered.before, up, Bool.or_eq_true, Ordered.same_self, Bool.true_and]
  exact Or.inr (decide_eq_true (Int.lt_succ t.y))

/-- The directions of the four neighbours. -/
theorem directionTo_neighbors (t : Tile) : t.directionTo t.up = some 0 ∧
    t.directionTo t.right = some 1 ∧ t.directionTo t.down = some 2 ∧ t.directionTo t.left = some 3 := by
  have h := t.nodup_neighbors
  simp only [neighbors, List.nodup_cons, List.mem_cons, List.not_mem_nil, or_false, not_or] at h
  obtain ⟨⟨hru, hrl, hrd⟩, ⟨hul, hud⟩, hld, -⟩ := h
  refine ⟨?_, ?_, ?_, ?_⟩ <;>
    simp [directionTo, inDirection, hrl, hrd, hul, hud, Ne.symm hru, Ne.symm hld]

/-- Two tiles side by side lie next to each other, one of them above or to the right of the other. -/
theorem cases_of_adj {t u : Tile} (h : grid.Adj t u) :
    u = t.right ∨ u = t.up ∨ t = u.right ∨ t = u.up := by
  rcases mem_neighbors.1 h with rfl | rfl | rfl | rfl <;> simp

end Tile

namespace Patch

variable {kind : PatchKind} {id : Nat} {t u : Tile} {s : Side}

theorem twoTile_right (kind : PatchKind) (id : Nat) (t : Tile) : twoTile kind id t t.right =
    { kind := kind
      id := id
      tiles := [t, t.right]
      sides := [⟨t.right, t.right.up, .X⟩, ⟨t, t.up, .Z⟩, ⟨t.right, t.right.down, .Z⟩, ⟨t, t.down, .X⟩,
        ⟨t.right, t.right.right, .X⟩, ⟨t, t.left, .Z⟩] } := by
  simp [twoTile, before_right, (directionTo_neighbors t).2.1, inDirection]

theorem twoTile_up (kind : PatchKind) (id : Nat) (t : Tile) : twoTile kind id t t.up =
    { kind := kind
      id := id
      tiles := [t, t.up]
      sides := [⟨t.up, t.up.left, .X⟩, ⟨t, t.left, .Z⟩, ⟨t.up, t.up.right, .Z⟩, ⟨t, t.right, .X⟩,
        ⟨t.up, t.up.up, .X⟩, ⟨t, t.down, .Z⟩] } := by
  simp [twoTile, before_up, (directionTo_neighbors t).1, inDirection]

theorem twoTile_comm (kind : PatchKind) (id : Nat) (h : Ordered.before t u = true) :
    twoTile kind id u t = twoTile kind id t u := by
  simp [twoTile, h, Ordered.before_asymm h]

/-- A patch on two tiles side by side lies, or it stands. -/
theorem exists_twoTile_eq (kind : PatchKind) (id : Nat) (h : grid.Adj t u) :
    ∃ v, twoTile kind id t u = twoTile kind id v v.right ∨
      twoTile kind id t u = twoTile kind id v v.up := by
  rcases cases_of_adj h with rfl | rfl | rfl | rfl
  · exact ⟨t, Or.inl rfl⟩
  · exact ⟨t, Or.inr rfl⟩
  · exact ⟨u, Or.inl (twoTile_comm kind id (before_right u))⟩
  · exact ⟨u, Or.inr (twoTile_comm kind id (before_up u))⟩

theorem kind_of_facing (kind : PatchKind) (id : Nat) (t bus : Tile) :
    (facing kind id t bus).kind = kind ∧ (facing kind id t bus).id = id := by
  unfold facing
  split <;> exact ⟨rfl, rfl⟩

theorem outer_of_facing {bus : Tile} (h : s ∈ (facing kind id t bus).sides) :
    s.outer ∈ t.neighbors := by
  have hone : ∀ vertical, s ∈ (oneTile kind id t vertical).sides → s.outer ∈ t.neighbors := by
    intro vertical hs
    simp only [oneTile, List.mem_cons, List.not_mem_nil, or_false] at hs
    rcases hs with rfl | rfl | rfl | rfl <;> simp [Tile.neighbors]
  unfold facing at h
  split at h
  · exact hone _ h
  · exact hone _ h

/-- The side towards the tile that a patch faces carries Z. -/
theorem mem_sides_facing (kind : PatchKind) (id : Nat) (h : grid.Adj t u) :
    (∃ s ∈ (facing kind id t u).sides, s.outer = u) ∧
      ∀ s ∈ (facing kind id t u).sides, s.outer = u → s.basis = .Z := by
  obtain ⟨hup, hright, hdown, hleft⟩ := directionTo_neighbors t
  have hnodup := t.nodup_neighbors
  simp only [neighbors, List.nodup_cons, List.mem_cons, List.not_mem_nil, or_false, not_or] at hnodup
  obtain ⟨⟨hru, hrl, hrd⟩, ⟨hul, hud⟩, hld, -⟩ := hnodup
  rcases mem_neighbors.1 h with rfl | rfl | rfl | rfl <;>
    simp [facing, oneTile, Basis.flipped, *, Ne.symm hru, Ne.symm hrl, Ne.symm hrd, Ne.symm hul,
      Ne.symm hud, Ne.symm hld]

end Patch

namespace Carries

variable {kind : PatchKind} {tiles : List Tile} {t u : Tile} {basis : Basis}

theorem mem (h : Carries kind tiles t u basis) : t ∈ tiles := by
  cases h <;> simp

theorem adj (h : Carries kind tiles t u basis) : grid.Adj t u := by
  cases h <;> simp_all [adj_grid] <;> tauto

theorem exposed (h : Carries kind tiles t u basis) : basis ∈ kind.exposed := by
  cases h <;> simp [PatchKind.exposed]

/-- The sides of a magic state or a storage. -/
theorem delivering_iff {v : Tile} (hkind : kind = .magic ∨ kind = .storage) :
    Carries kind [t] v u basis ↔ v = t ∧ grid.Adj t u ∧ basis = .Z := by
  constructor
  · intro h
    rcases hkind with rfl | rfl
    · cases h with
      | magic h => exact ⟨rfl, h, rfl⟩
    · cases h with
      | storage h => exact ⟨rfl, h, rfl⟩
  · rintro ⟨rfl, hadj, rfl⟩
    rcases hkind with rfl | rfl
    · exact .magic hadj
    · exact .storage hadj

/-- The sides of a data patch. -/
theorem data_iff {v : Tile} : Carries .qubit [t] v u basis ↔
    v = t ∧ ((u = t.up ∨ u = t.down) ∧ basis = .X ∨ (u = t.left ∨ u = t.right) ∧ basis = .Z) := by
  constructor
  · intro h
    cases h with
    | dataX h => exact ⟨rfl, Or.inl ⟨h, rfl⟩⟩
    | dataZ h => exact ⟨rfl, Or.inr ⟨h, rfl⟩⟩
  · rintro ⟨rfl, ⟨h, rfl⟩ | ⟨h, rfl⟩⟩
    · exact .dataX h
    · exact .dataZ h

theorem right_ne_up (t : Tile) : t.right ≠ t.up := by simp [right, up]

/-- The sides of a lying zero state. -/
theorem lying_iff {v : Tile} : Carries .zero [t, t.right] v u basis ↔
    (v = t ∧ (u = t.down ∧ basis = .X ∨ (u = t.left ∨ u = t.up) ∧ basis = .Z)) ∨
      (v = t.right ∧ ((u = t.right.right ∨ u = t.right.up) ∧ basis = .X ∨
        u = t.right.down ∧ basis = .Z)) := by
  constructor
  · intro h
    generalize htiles : [t, t.right] = tiles at h
    cases h <;> simp only [List.cons.injEq, and_true] at htiles <;> obtain ⟨rfl, hsecond⟩ := htiles
    all_goals first | exact absurd hsecond (right_ne_up t) | simp_all
  · rintro (⟨rfl, ⟨rfl, rfl⟩ | ⟨h, rfl⟩⟩ | ⟨rfl, ⟨h, rfl⟩ | ⟨rfl, rfl⟩⟩)
    · exact .leftX
    · exact .leftZ h
    · exact .rightX h
    · exact .rightZ

/-- The sides of a standing zero state. -/
theorem standing_iff {v : Tile} : Carries .zero [t, t.up] v u basis ↔
    (v = t ∧ (u = t.right ∧ basis = .X ∨ (u = t.down ∨ u = t.left) ∧ basis = .Z)) ∨
      (v = t.up ∧ ((u = t.up.up ∨ u = t.up.left) ∧ basis = .X ∨ u = t.up.right ∧ basis = .Z)) := by
  constructor
  · intro h
    generalize htiles : [t, t.up] = tiles at h
    cases h <;> simp only [List.cons.injEq, and_true] at htiles <;> obtain ⟨rfl, hsecond⟩ := htiles
    all_goals first | exact absurd hsecond.symm (right_ne_up t) | simp_all
  · rintro (⟨rfl, ⟨rfl, rfl⟩ | ⟨h, rfl⟩⟩ | ⟨rfl, ⟨h, rfl⟩ | ⟨rfl, rfl⟩⟩)
    · exact .lowerX
    · exact .lowerZ h
    · exact .upperX h
    · exact .upperZ

/-- A side carries one operator only. -/
theorem basis_unique {basis' : Basis} (h : Carries kind tiles t u basis)
    (h' : Carries kind tiles t u basis') : basis = basis' := by
  -- the tiles around a patch are told apart by their coordinates
  cases h with
  | dataX | dataZ =>
    rw [data_iff] at h'
    grind [up, down, left, right]
  | magic => exact ((delivering_iff (Or.inl rfl)).1 h').2.2.symm
  | storage => exact ((delivering_iff (Or.inr rfl)).1 h').2.2.symm
  | leftX | leftZ | rightX | rightZ =>
    rw [lying_iff] at h'
    grind [up, down, left, right]
  | lowerX | lowerZ | upperX | upperZ =>
    rw [standing_iff] at h'
    grind [up, down, left, right]

end Carries

end LatticeSurgery
