import LatticeSurgery.Tile

/-!
# Surface-code patches

A `Patch` covers one tile or two. Each outer side of it exposes one of the two boundary operators,
its `Basis`, and lattice surgery can reach that operator only through a tile touching the side. A
patch on one tile has equal operators on opposite sides. A patch on two tiles has six outer sides;
walking around it, three of them carry X and three carry Z.
-/

namespace LatticeSurgery

/-- The Pauli operator that a boundary exposes. -/
inductive Basis
  | X
  | Z
deriving DecidableEq, Inhabited

namespace Basis

/-- The other operator. -/
def flipped : Basis → Basis
  | X => Z
  | Z => X

@[simp] theorem flipped_flipped (b : Basis) : b.flipped.flipped = b := by cases b <;> rfl

/-- The letter of the operator. -/
def text : Basis → String
  | X => "X"
  | Z => "Z"

/-- X comes before Z. -/
def rank : Basis → Nat
  | X => 0
  | Z => 1

instance : Ordered Basis :=
  Ordered.ofKey rank fun {a b} h => by cases a <;> cases b <;> simp_all [rank]

end Basis

/-- What a patch is used for. -/
inductive PatchKind
  /-- A data patch, holding a qubit of the circuit. -/
  | qubit
  /-- A source of magic states. -/
  | magic
  /-- A pair of tiles prepared in the zero state. -/
  | zero
  /-- A place where a magic state can be kept. -/
  | storage
deriving DecidableEq, Inhabited

namespace PatchKind

/-- Data patches come first, then magic, zero and storage patches. -/
def rank : PatchKind → Nat
  | qubit => 0
  | magic => 1
  | zero => 2
  | storage => 3

theorem rank_injective {a b : PatchKind} (h : a.rank = b.rank) : a = b := by
  cases a <;> cases b <;> simp_all [rank]

instance : Ordered PatchKind := Ordered.ofKey rank rank_injective

/-- The boundaries through which a patch is used: both, or Z alone for the patches that only
deliver a magic state. -/
def exposed : PatchKind → List Basis
  | qubit | zero => [.X, .Z]
  | magic | storage => [.Z]

end PatchKind

/-- An outer side of a patch. -/
structure Side where
  /-- The tile of the patch that the side belongs to. -/
  inner : Tile
  /-- The tile on the other side. -/
  outer : Tile
  /-- The operator that the side exposes. -/
  basis : Basis
deriving DecidableEq

/-- A surface-code patch on one or two tiles. -/
structure Patch where
  /-- What the patch is used for. -/
  kind : PatchKind
  /-- Its number among the patches of its kind. -/
  id : Nat
  /-- The tiles it covers. -/
  tiles : List Tile
  /-- Its outer sides. -/
  sides : List Side
deriving DecidableEq

namespace Patch

/-- A patch on one tile, with the operator `vertical` above and below and the other one to the left
and to the right. -/
def oneTile (kind : PatchKind) (id : Nat) (t : Tile) (vertical : Basis) : Patch where
  kind := kind
  id := id
  tiles := [t]
  sides :=
    [⟨t, t.up, vertical⟩, ⟨t, t.down, vertical⟩,
      ⟨t, t.left, vertical.flipped⟩, ⟨t, t.right, vertical.flipped⟩]

/-- A patch on one tile, turned so that a Z side touches the neighbour `bus`. -/
def facing (kind : PatchKind) (id : Nat) (t bus : Tile) : Patch :=
  match t.directionTo bus with
  | some d => oneTile kind id t (if d % 2 = 0 then .Z else .X)
  | none => oneTile kind id t .X

/-- A patch on the neighbouring tiles `a` and `b`. With `t₁` the smaller tile and `t₂` the larger
one in direction `d`, the sides are listed as: left of `t₂` and of `t₁`, right of `t₂` and of `t₁`,
seen along `d`, then the two ends. -/
def twoTile (kind : PatchKind) (id : Nat) (a b : Tile) : Patch :=
  let t₁ := if Ordered.before a b then a else b
  let t₂ := if Ordered.before a b then b else a
  let d := (t₁.directionTo t₂).getD 0
  let side (t : Tile) (direction : Int) (basis : Basis) : Side :=
    ⟨t, t.inDirection direction, basis⟩
  { kind := kind
    id := id
    tiles := [t₁, t₂]
    sides :=
      [side t₂ (d - 1) .X, side t₁ (d - 1) .Z, side t₂ (d + 1) .Z, side t₁ (d + 1) .X,
        side t₂ d .X, side t₁ (d + 2) .Z] }

end Patch

end LatticeSurgery
