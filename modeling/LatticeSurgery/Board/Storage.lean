import LatticeSurgery.Board.Routing

/-!
# Storages

A storage keeps a magic state until it is needed. It is filled from the magic state with the same
number, which takes two ticks, and after its magic state was spent it is reset through the zero
state with the same number, to which it is joined for a tick. Numbers alone decide which states
belong together, however far apart they lie.
-/

namespace LatticeSurgery

namespace Board

/-- The node of a storage. -/
def storageNode (id : Nat) : Node := .boundary .storage id .Z

/-- The ticks that it takes to fill a storage. -/
def fillTicks : Int := 2

/-- Moves a ready magic state into the storage with its number, if that is empty. -/
def storeOne (b : Board) (magic : Node) : Board :=
  let storage := storageNode magic.id
  if b.statusOf storage = some ⟨.patch .storage, .empty⟩ then
    (b.retime magic Phase.depletedTicks).retime storage fillTicks
  else b

/-- Moves every ready magic state into the storage with its number, where that is empty. -/
def storeMagicStates (b : Board) : Board :=
  (b.withStatus .magic .ready).toList.foldl storeOne b

/-- Marks the nodes of a tree through which a storage is reset. -/
def markReset : List Node → Board → Except Fault Board
  | [], b => .ok b
  | n :: ns, b =>
    match n.kind with
    | .bus | .patch .zero => do markReset ns (← b.setTick 1 n)
    | .patch .storage => do markReset ns (← b.setTick Phase.connectingTicks n)
    | _ => markReset ns b

/-- Resets a consumed storage through the zero state with its number, if both nodes of that are
ready and free nodes connect them. -/
def resetOne (b : Board) (storage : Node) : Except Fault Board :=
  let zeroX := Node.zero storage.id .X
  let zeroZ := Node.zero storage.id .Z
  let ready : Option Status := some ⟨.patch .zero, .ready⟩
  if b.statusOf zeroX = ready ∧ b.statusOf zeroZ = ready then do
    let free := b.openPart
    let free := free.removeNodes (free.nodesOfKind (.patch .qubit)).toList
    let c ← free.connect [storage, zeroX, zeroZ] none
    match c.tree with
    | none => return b
    | some t => markReset t.nodes b
  else return b

/-- Resets storages one after the other. -/
def resetEach : List Node → Board → Except Fault Board
  | [], b => .ok b
  | s :: ss, b => do resetEach ss (← b.resetOne s)

/-- Resets every consumed storage that can be reset. -/
def resetStorages (b : Board) : Except Fault Board :=
  resetEach (b.withStatus .storage .consumed).toList b

end Board

end LatticeSurgery
