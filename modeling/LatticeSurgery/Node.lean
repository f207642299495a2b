import LatticeSurgery.Patch

/-!
# Nodes of the resource graph

Operations are routed over a graph whose nodes are the bus tiles and the boundaries of the patches.
A patch contributes a node for each boundary through which it is used, so turning a patch exchanges
two nodes and renaming a qubit keeps the boundary.

Nodes are ordered by kind (bus, qubit, magic, zero, storage), then by number, then X before Z.
-/

namespace LatticeSurgery

/-- The kind of a node: a bus tile, or a boundary of a kind of patch. -/
inductive NodeKind
  /-- A bus tile. -/
  | bus
  /-- A boundary of a patch. -/
  | patch (kind : PatchKind)
deriving DecidableEq, Inhabited

namespace NodeKind

/-- Bus tiles come first, then the patches by their kind. -/
def rank : NodeKind → Nat
  | bus => 0
  | patch k => k.rank + 1

theorem rank_injective {a b : NodeKind} (h : a.rank = b.rank) : a = b := by
  cases a <;> cases b <;> simp_all [rank]
  exact PatchKind.rank_injective h

instance : Ordered NodeKind := Ordered.ofKey rank rank_injective

/-- All kinds, in order. -/
def all : List NodeKind := [bus, patch .qubit, patch .magic, patch .zero, patch .storage]

/-- The name of the kind. -/
def name : NodeKind → String
  | bus => "Bus"
  | patch .qubit => "Qubit"
  | patch .magic => "Magic"
  | patch .zero => "Zero"
  | patch .storage => "Storage"

/-- The letter that starts the text of a node of this kind. -/
def letter : NodeKind → String
  | bus => "b"
  | patch .qubit => "q"
  | patch .magic => "m"
  | patch .zero => "r"
  | patch .storage => "s"

end NodeKind

/-- A node of the resource graph. -/
inductive Node
  /-- The bus tile with this number. -/
  | bus (id : Nat)
  /-- The boundary `basis` of the patch number `id` of its kind. -/
  | boundary (kind : PatchKind) (id : Nat) (basis : Basis)
deriving DecidableEq, Inhabited

namespace Node

/-- The boundary of a data patch. -/
@[match_pattern] abbrev qubit (id : Nat) (basis : Basis) : Node := boundary .qubit id basis

/-- The boundary of a zero-state patch. -/
@[match_pattern] abbrev zero (id : Nat) (basis : Basis) : Node := boundary .zero id basis

/-- The kind of a node. -/
def kind : Node → NodeKind
  | bus _ => .bus
  | boundary k _ _ => .patch k

/-- The number of a node among those of its kind. -/
def id : Node → Nat
  | bus i => i
  | boundary _ i _ => i

/-- The operator of a boundary. -/
def basis : Node → Option Basis
  | bus _ => none
  | boundary _ _ b => some b

/-- Whether the node is a bus tile. -/
def isBus : Node → Bool
  | bus _ => true
  | boundary _ _ _ => false

theorem isBus_iff {n : Node} : n.isBus = true ↔ n.kind = .bus := by
  cases n <;> simp [isBus, kind]

/-- The other boundary of the same patch. A bus tile stands for itself. -/
def opposite : Node → Node
  | bus i => bus i
  | boundary k i b => boundary k i b.flipped

@[simp] theorem opposite_opposite (n : Node) : n.opposite.opposite = n := by
  cases n <;> simp [opposite]

/-- Where the node stands among the boundaries of its patch. -/
def basisRank : Node → Nat
  | bus _ => 0
  | boundary _ _ b => b.rank

theorem key_injective {a b : Node} (hk : a.kind.rank = b.kind.rank) (hi : a.id = b.id)
    (hb : a.basisRank = b.basisRank) : a = b := by
  have hk := NodeKind.rank_injective hk
  cases a with
  | bus i => cases b with
    | bus j => simp_all [id]
    | boundary k j c => simp [kind] at hk
  | boundary k i c => cases b with
    | bus j => simp [kind] at hk
    | boundary l j d =>
      simp only [kind, NodeKind.patch.injEq] at hk
      simp only [id] at hi
      have : c = d := by cases c <;> cases d <;> simp_all [basisRank, Basis.rank]
      simp [hk, hi, this]

/-- The order of nodes: by kind, then by number, then by boundary. -/
def before (a b : Node) : Bool :=
  decide (a.kind.rank < b.kind.rank) ||
    (decide (a.kind.rank = b.kind.rank) &&
      (decide (a.id < b.id) || (decide (a.id = b.id) && decide (a.basisRank < b.basisRank))))

theorem not_before_self (a : Node) : before a a = false := by simp [before]

theorem before_of_before {a b c : Node} (h : before a b = true) (h' : before b c = true) :
    before a c = true := by
  simp only [before, Bool.or_eq_true, Bool.and_eq_true, decide_eq_true_eq] at *
  omega

theorem eq_of_not_before {a b : Node} (h : before a b = false) (h' : before b a = false) :
    a = b := by
  simp only [before, Bool.or_eq_false_iff, Bool.and_eq_false_iff, decide_eq_false_iff_not] at h h'
  exact key_injective (by omega) (by omega) (by omega)

instance : Ordered Node where
  before := before
  before_irrefl := not_before_self
  before_trans := before_of_before
  before_total := eq_of_not_before

/-- The letter of the kind, the number, and the boundary if there is one. -/
def text (n : Node) : String :=
  match n with
  | bus i => s!"b{i}"
  | boundary k i b => s!"{(NodeKind.patch k).letter}{i}{b.text}"

end Node

end LatticeSurgery
