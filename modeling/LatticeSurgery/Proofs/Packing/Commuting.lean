import LatticeSurgery.Proofs.Board.Reached
import LatticeSurgery.Proofs.Packing.Course

/-!
# Commitments commute

Which countdown a commitment gives to a node is decided by the kind of the node (`markTicks`). So what
committing rotations leaves behind depends on which rotations they are and not on their order
(`Marks.eq_of_mem_iff`), and rotations that can be committed in one order can be committed in every
order, to the same effect (`commitAll_of_perm`).
-/

namespace LatticeSurgery

open Ordered

/-! ## Boards with the same records -/

namespace Board

variable {b b' b₁ b₂ : Board} {ns : List Node} {t : Int} {s : Status}

theorem Sound.eq_of_ticksOf (h₁ : b₁.Sound) (h₂ : b₂.Sound) (hgraph : b₁.graph = b₂.graph)
    (htiles : b₁.tiles = b₂.tiles) (hanchor : b₁.anchor = b₂.anchor)
    (hticks : ∀ n, b₁.ticksOf n = b₂.ticksOf n)
    (hlists : ∀ s, b₁.countdowns.Lists s ↔ b₂.countdowns.Lists s) : b₁ = b₂ := by
  have hcountdowns := h₁.countdowns.eq_of_get? h₂.countdowns hticks hlists
  cases b₁
  cases b₂
  exact Board.mk.injEq .. ▸ ⟨hgraph, hcountdowns, htiles, hanchor⟩

theorem lists_of_setTicks (h : b.setTicks ns t = .ok b') : b'.countdowns.Lists s ↔
    b.countdowns.Lists s ∨ ∃ n ∈ ns, Status.ofTicks n t = some s := by
  rw [foldl_retime_of_setTicks h]
  exact lists_foldl_retime (fun n => n) (fun _ => t) ns b s

theorem tiles_of_setTicks (h : b.setTicks ns t = .ok b') : b'.tiles = b.tiles := by
  rw [foldl_retime_of_setTicks h]
  exact tiles_foldl_retime (fun n => n) (fun _ => t) ns b

end Board

open Board

variable {b b' b₁ b₂ : Board} {f f' : Factories} {p q : Packed} {ps qs : List Packed}
  {turnTicks : Int} {n : Node}

/-! ## One commitment -/

/-- The factories after the rotation was carried out. -/
def Packed.spend (p : Packed) (f : Factories) : Factories :=
  match p.resource with
  | some (.magicState n) => f.consume n
  | _ => f

/-- A step of the board beside which the factories are given. -/
theorem bind_pair_eq_ok {x : Except Fault Board} :
    ((do let b ← x; return (b, f)) : Except Fault (Board × Factories)) = .ok (b', f') ↔
      x = .ok b' ∧ f' = f := by
  cases x with
  | error e =>
    constructor
    · intro h
      cases h
    · rintro ⟨h, -⟩
      cases h
  | ok a =>
    constructor
    · intro h
      cases h
      exact ⟨rfl, rfl⟩
    · rintro ⟨h, rfl⟩
      cases h
      rfl

/-- A commitment sets countdowns and marks the magic state that it consumes. A storage must be ready
for it. -/
theorem commit_eq_ok : commit b f p turnTicks = .ok (b', f') ↔
    (∀ n, p.resource = some (.storage n) → b.ticksOf n = some 0) ∧
      b.setTicks (p.marks turnTicks).1 (p.marks turnTicks).2 = .ok b' ∧ f' = p.spend f := by
  unfold commit Packed.marks Packed.spend
  split <;> rename_i hresource <;> simp only [hresource]
  · simp only [reduceCtorEq, Option.some.injEq, false_imp_iff, implies_true, true_and, setTicks_singleton]
    exact bind_pair_eq_ok
  · simp only [Option.some.injEq, Resource.storage.injEq, forall_eq', setTicks_singleton]
    split
    · next hready => simp only [hready, true_and, bind_pair_eq_ok]
    · next hready => simp [hready]
  · simp only [reduceCtorEq, Option.some.injEq, false_imp_iff, implies_true, true_and]
    exact bind_pair_eq_ok
  · simp only [reduceCtorEq, Option.some.injEq, false_imp_iff, implies_true, true_and]
    exact bind_pair_eq_ok
  · simp [setTicks, eq_comm]

/-- The countdown that commitments give to nodes of a kind. -/
def markTicks (turnTicks : Int) : NodeKind → Int
  | .patch .magic => Phase.depletedTicks
  | .patch .storage => Phase.consumedTicks
  | .patch .zero => 1
  | _ => turnTicks

theorem Packed.Serves.markTicks_eq (h : p.Serves) (hn : n ∈ (p.marks turnTicks).1) :
    (p.marks turnTicks).2 = markTicks turnTicks n.kind := by
  unfold Packed.marks at hn ⊢
  split at hn
  · next m hm =>
    rw [List.mem_singleton.1 hn, h.kind_of_magicState hm, markTicks]
  · next m hm =>
    rw [List.mem_singleton.1 hn, h.kind_of_storage hm, markTicks]
  · rcases List.mem_pair.1 hn with rfl | rfl <;> rfl
  · next m hm =>
    rcases h.node_of_turn hm (Tree.mem_nodes.1 hn) with ⟨q, -, basis, rfl⟩ | rfl
    · rfl
    · rw [h.kind_of_bus hm, markTicks]
      all_goals exact fun hk => nomatch hk
  · cases hn

/-! ## Several commitments -/

/-- What committing rotations does to a board, whatever their order. -/
structure Marks (turnTicks : Int) (ps : List Packed) (b b' : Board) : Prop where
  sound : b'.Sound
  graph : b'.graph = b.graph
  tiles : b'.tiles = b.tiles
  anchor : b'.anchor = b.anchor
  ticks : ∀ n, b'.ticksOf n = if ∃ p ∈ ps, n ∈ (p.marks turnTicks).1 then
    some (markTicks turnTicks n.kind) else b.ticksOf n
  lists : ∀ s, b'.countdowns.Lists s ↔ b.countdowns.Lists s ∨ ∃ p ∈ ps,
    ∃ n ∈ (p.marks turnTicks).1, Status.ofTicks n (markTicks turnTicks n.kind) = some s

theorem marks_of_commit (hb : b.Sound) (hserves : p.Serves)
    (h : commit b f p turnTicks = .ok (b', f')) : Marks turnTicks [p] b b' := by
  obtain ⟨-, hset, -⟩ := commit_eq_ok.1 h
  have hto := hb.setTo_of_setTicks hset
  refine ⟨hto.sound, hto.graph, tiles_of_setTicks hset, (alike_of_setTicks hset).anchor,
    fun n => ?_, fun s => ?_⟩
  · rw [hto.ticks]
    simp only [List.mem_singleton, exists_eq_left]
    split
    · next hn => rw [hserves.markTicks_eq hn]
    · rfl
  · rw [lists_of_setTicks hset]
    simp only [List.mem_singleton, exists_eq_left]
    refine or_congr_right (exists_congr fun n => and_congr_right fun hn => ?_)
    rw [hserves.markTicks_eq hn]

theorem Marks.append (h : Marks turnTicks ps b b₁) (h' : Marks turnTicks qs b₁ b') :
    Marks turnTicks (ps ++ qs) b b' := by
  refine ⟨h'.sound, h'.graph.trans h.graph, h'.tiles.trans h.tiles, h'.anchor.trans h.anchor,
    fun n => ?_, fun s => ?_⟩
  · rw [h'.ticks, h.ticks]
    simp only [List.mem_append, or_and_right, exists_or]
    by_cases hq : ∃ q ∈ qs, n ∈ (q.marks turnTicks).1
    · rw [if_pos hq, if_pos (Or.inr hq)]
    · simp only [hq, if_false, or_false]
  · rw [h'.lists, h.lists, or_assoc]
    simp only [List.mem_append, or_and_right, exists_or]

/-- The marks of rotations that were committed one after the other. -/
theorem marks_of_commitAll (hb : b.Sound) (hserves : ∀ p ∈ ps, p.Serves)
    (h : commitAll turnTicks ps b f = .ok (b', f')) : Marks turnTicks ps b b' := by
  induction ps generalizing b f with
  | nil =>
    cases h
    exact ⟨hb, rfl, rfl, rfl, by simp, by simp⟩
  | cons p ps ih =>
    obtain ⟨b₁, f₁, hone, hrest⟩ := commitAll_cons_eq_ok.1 h
    have hfirst := marks_of_commit hb (hserves p List.mem_cons_self) hone
    exact hfirst.append (ih hfirst.sound (fun q hq => hserves q (List.mem_cons_of_mem _ hq)) hrest)

/-- The same rotations leave the same marks. -/
theorem Marks.eq_of_mem_iff (h₁ : Marks turnTicks ps b b₁) (h₂ : Marks turnTicks qs b b₂)
    (hmem : ∀ p, p ∈ ps ↔ p ∈ qs) : b₁ = b₂ := by
  refine h₁.sound.eq_of_ticksOf h₂.sound (h₁.graph.trans h₂.graph.symm)
    (h₁.tiles.trans h₂.tiles.symm) (h₁.anchor.trans h₂.anchor.symm) (fun n => ?_) fun s => ?_
  · rw [h₁.ticks, h₂.ticks]
    simp only [hmem]
  · rw [h₁.lists, h₂.lists]
    simp only [hmem]

/-- Marking magic states as spent commutes. -/
theorem Factories.consume_comm (f : Factories) (n m : Node) :
    (f.consume n).consume m = (f.consume m).consume n := by
  unfold consume mark
  refine congrArg (fun states => { f with states := states }) (SortedMap.ext_get? fun k => ?_)
  simp only [SortedMap.get?_modify]
  split <;> split <;> rfl

theorem Packed.spend_comm (p q : Packed) (f : Factories) :
    q.spend (p.spend f) = p.spend (q.spend f) := by
  unfold Packed.spend
  split <;> split <;> try rfl
  exact Factories.consume_comm f _ _

/-- Two commitments that are made one after the other can be made the other way round. -/
theorem exists_commit_swap (hb : b.Sound) (hp : p.Serves) (hq : q.Serves) {f₁ f₂ : Factories}
    (hone : commit b f p turnTicks = .ok (b₁, f₁)) (htwo : commit b₁ f₁ q turnTicks = .ok (b₂, f₂)) :
    ∃ c g, commit b f q turnTicks = .ok (c, g) ∧ commit c g p turnTicks = .ok (b₂, f₂) := by
  have hmarks := (marks_of_commit hb hp hone).append
    (marks_of_commit (marks_of_commit hb hp hone).sound hq htwo)
  obtain ⟨hready, hset, rfl⟩ := commit_eq_ok.1 hone
  obtain ⟨hready', hset', rfl⟩ := commit_eq_ok.1 htwo
  have hto := hb.setTo_of_setTicks hset
  have hto' := hto.sound.setTo_of_setTicks hset'
  -- what could be set on one of the boards can be set on the others as well
  have hmeans : ∀ n ∈ (p.marks turnTicks).1, b.graph.hasNode n = true ∧
      n.Means (p.marks turnTicks).2 := fun n hn => by
    have ht : b₁.ticksOf n = _ := (hto.ticks n).trans (if_pos hn)
    exact ⟨hto.graph ▸ hto.sound.hasNode_of_ticksOf ht, hto.sound.means ht⟩
  have hmeans' : ∀ n ∈ (q.marks turnTicks).1, b.graph.hasNode n = true ∧
      n.Means (q.marks turnTicks).2 := fun n hn => by
    have ht : b₂.ticksOf n = _ := (hto'.ticks n).trans (if_pos hn)
    exact ⟨hto.graph ▸ hto'.graph ▸ hto'.sound.hasNode_of_ticksOf ht, hto'.sound.means ht⟩
  -- the two rotations do not draw on the same storage
  have hapart : ∀ n, p.resource = some (.storage n) → q.resource ≠ some (.storage n) := by
    intro n hn hn'
    have hconsumed : b₁.ticksOf n = some Phase.consumedTicks := by
      rw [hto.ticks, Packed.marks, hn, if_pos (List.mem_singleton_self n)]
    cases hconsumed.symm.trans (hready' n hn')
  obtain ⟨c, hset₁, hto₁⟩ := exists_setTicks hb hmeans'
  obtain ⟨c', hset₂, -⟩ := exists_setTicks hto₁.sound
    fun n hn => ⟨hto₁.graph ▸ (hmeans n hn).1, (hmeans n hn).2⟩
  have hfirst : commit b f q turnTicks = .ok (c, q.spend f) := by
    refine commit_eq_ok.2 ⟨fun n hn => ?_, hset₁, rfl⟩
    rw [← hready' n hn, hto.ticks, if_neg]
    exact fun hmem => hapart n ((hp.marksOwn _ n hmem).2 (hq.kind_of_storage hn)) hn
  have hsecond : commit c (q.spend f) p turnTicks = .ok (c', p.spend (q.spend f)) := by
    refine commit_eq_ok.2 ⟨fun n hn => ?_, hset₂, rfl⟩
    rw [← hready n hn, hto₁.ticks, if_neg]
    exact fun hmem => hapart n hn ((hq.marksOwn _ n hmem).2 (hp.kind_of_storage hn))
  have hmarks' := (marks_of_commit hb hq hfirst).append (marks_of_commit hto₁.sound hp hsecond)
  obtain rfl : c' = b₂ := hmarks'.eq_of_mem_iff hmarks fun p => by simp [or_comm]
  exact ⟨c, q.spend f, hfirst, by rw [Packed.spend_comm]; exact hsecond⟩

/-- Rotations that can be committed in some order can be committed in every order, to the same
effect. -/
theorem commitAll_of_perm (hperm : ps.Perm qs) (hb : b.Sound) (hserves : ∀ p ∈ ps, p.Serves)
    (h : commitAll turnTicks ps b f = .ok (b', f')) :
    commitAll turnTicks qs b f = .ok (b', f') := by
  induction hperm generalizing b f with
  | nil => exact h
  | cons p _ ih =>
    obtain ⟨b₁, f₁, hone, hrest⟩ := commitAll_cons_eq_ok.1 h
    have hsound := (marks_of_commit hb (hserves p List.mem_cons_self) hone).sound
    exact commitAll_cons_eq_ok.2 ⟨b₁, f₁, hone,
      ih hsound (fun q hq => hserves q (List.mem_cons_of_mem _ hq)) hrest⟩
  | swap p q l =>
    obtain ⟨b₁, f₁, hone, h⟩ := commitAll_cons_eq_ok.1 h
    obtain ⟨b₂, f₂, htwo, hrest⟩ := commitAll_cons_eq_ok.1 h
    obtain ⟨c, g, hfirst, hsecond⟩ :=
      exists_commit_swap hb (hserves q (by simp)) (hserves p (by simp)) hone htwo
    exact commitAll_cons_eq_ok.2 ⟨c, g, hfirst, commitAll_cons_eq_ok.2 ⟨b₂, f₂, hsecond, hrest⟩⟩
  | trans hperm _ ih ih' =>
    exact ih' hb (fun p hp => hserves p (hperm.mem_iff.2 hp)) (ih hb hserves h)

end LatticeSurgery
