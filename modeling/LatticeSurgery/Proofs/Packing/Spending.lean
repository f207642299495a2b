import LatticeSurgery.Proofs.Packing.StorageCycle

/-!
# Spending magic states

Before time passes, a tick does three things to a board: storages are seen to, rotations are committed,
and storages are seen to again (`Packer.Works`). A magic state that is consumed by a rotation or moved
into a storage meanwhile was ready before, and is spent afterwards (`Packer.Works.spent`).
-/

namespace LatticeSurgery

open Ordered Board

variable {b b' : Board} {f f' : Factories} {p : Packed} {ps : List Packed} {turnTicks : Int}
  {n : Node}

/-! ## Commitments -/

/-- Committing a rotation leaves a spent magic state spent. -/
theorem commit_depleted (hb : b.Sound) (hown : p.MarksOwn) (hn : n.kind = .patch .magic)
    (h : commit b f p turnTicks = .ok (b', f'))
    (hspent : b.ticksOf n = some Phase.depletedTicks ∨ p.resource = some (.magicState n)) :
    b'.ticksOf n = some Phase.depletedTicks := by
  obtain ⟨hset, -, -⟩ := commit_setTo hb h
  have hmarks : p.resource = some (.magicState n) → p.marks turnTicks = ([n], Phase.depletedTicks) := by
    intro hresource
    unfold Packed.marks
    rw [hresource]
  rw [hset.ticks]
  split
  · next hmem => rw [hmarks ((hown _ _ hmem).1 hn)]
  · next hmem =>
    refine hspent.resolve_right fun hresource => hmem ?_
    rw [hmarks hresource]
    exact List.mem_singleton_self n

/-- After rotations were committed, a magic state is spent if it was before, and if one of them
consumed it. -/
theorem commitAll_depleted (hb : b.Sound) (hown : ∀ p ∈ ps, p.MarksOwn)
    (hn : n.kind = .patch .magic) (h : commitAll turnTicks ps b f = .ok (b', f'))
    (hspent : b.ticksOf n = some Phase.depletedTicks ∨ ∃ p ∈ ps, p.resource = some (.magicState n)) :
    b'.ticksOf n = some Phase.depletedTicks := by
  induction ps generalizing b f with
  | nil =>
    cases h
    exact hspent.resolve_right fun ⟨p, hp, _⟩ => absurd hp List.not_mem_nil
  | cons p ps ih =>
    obtain ⟨b₁, f₁, hone, hrest⟩ := commitAll_cons_eq_ok.1 h
    have hkeep := commit_depleted hb (hown p List.mem_cons_self) hn hone
    refine ih (commit_setTo hb hone).1.sound (fun q hq => hown q (List.mem_cons_of_mem _ hq)) hrest ?_
    rcases hspent with hspent | ⟨q, hq, hresource⟩
    · exact Or.inl (hkeep (Or.inl hspent))
    · rcases List.mem_cons.1 hq with rfl | hq
      · exact Or.inl (hkeep (Or.inr hresource))
      · exact Or.inr ⟨q, hq, hresource⟩

/-! ## A tick -/

/-- Nodes are occupied: a magic state that is spent stays spent. -/
theorem Board.Occupies.depleted (h : b.Occupies b') (hn : n.kind = .patch .magic)
    (hspent : b.ticksOf n = some Phase.depletedTicks) :
    b'.ticksOf n = some Phase.depletedTicks := by
  rcases h.magic n hn with hsame | ⟨-, hspent'⟩
  · exact hsame.trans hspent
  · exact hspent'

namespace Packer

/-- What a tick in which `ps` are carried out does to a board before time passes. -/
structure Works (ps : List Packed) (b b' : Board) : Prop where
  /-- Storages are seen to before and after the rotations are committed. -/
  course : ∃ b₀ b₁ turnTicks f f', b.Tends b₀ ∧ commitAll turnTicks ps b₀ f = .ok (b₁, f') ∧
    b₁.Tends b' ∧ ∀ p ∈ ps, p.ReadyOn b₀ turnTicks
  /-- The rotations set no magic states and storages but their resources. -/
  own : ∀ p ∈ ps, p.MarksOwn
  /-- All in all, nodes are occupied. -/
  occupies : b.Occupies b'

/-- The storage with the number of a magic state was empty and is being filled. -/
def Moved (b b' : Board) (n : Node) : Prop :=
  b.statusOf (storageNode n.id) = some ⟨.patch .storage, .empty⟩ ∧
    b'.statusOf (storageNode n.id) = some ⟨.patch .storage, .preparing⟩

instance : Decidable (Moved b b' n) := inferInstanceAs (Decidable (_ ∧ _))

theorem not_preparing {id : Nat} {t : Int} (h : b.ticksOf (storageNode id) = some t) (ht : t ≤ 0) :
    b.statusOf (storageNode id) ≠ some ⟨.patch .storage, .preparing⟩ := by
  intro hs
  obtain ⟨t', ht', hphase⟩ := exists_ticksOf_of_statusOf hs
  have hcases := Phase.ticks_of_storage hphase
  cases h.symm.trans ht'
  simp only [reduceCtorEq, false_and, false_or, true_and, or_false] at hcases
  omega

/-- A magic state that a tick consumes or moves into a storage was ready and is spent. -/
theorem Works.spent (h : Works ps b b') (hn : n.kind = .patch .magic)
    (hname : n = magicNode n.id)
    (huse : (∃ p ∈ ps, p.resource = some (.magicState n)) ∨ Moved b b' n) :
    b.ticksOf n = some 0 ∧ b'.ticksOf n = some Phase.depletedTicks := by
  obtain ⟨b₀, b₁, turnTicks, f, f', hbefore, hcommits, hafter, hready⟩ := h.course
  have hb₀ := hbefore.occupies.sound
  have hkeep : b₀.ticksOf n = some Phase.depletedTicks → b'.ticksOf n = some Phase.depletedTicks :=
    fun hspent => hafter.occupies.depleted hn
      (commitAll_depleted hb₀ h.own hn hcommits (Or.inl hspent))
  rcases huse with ⟨p, hp, hresource⟩ | ⟨hempty, hpreparing⟩
  · -- the rotation found the magic state ready, and it was not spent before
    have hzero : b₀.ticksOf n = some 0 := by
      have hp := hready p hp
      unfold Packed.ReadyOn at hp
      rw [hresource] at hp
      exact hp.2
    refine ⟨?_, hafter.occupies.depleted hn
      (commitAll_depleted hb₀ h.own hn hcommits (Or.inr ⟨p, hp, hresource⟩))⟩
    rcases hbefore.occupies.magic n hn with hsame | ⟨hzero', -⟩
    · exact hsame ▸ hzero
    · exact hzero'
  · have hticks := statusOf_empty_iff.1 hempty
    obtain ⟨-, -, -, hdrains⟩ := commitAll_storages hb₀ h.own hcommits
    rcases hbefore.storage n.id with hsame | hstored | hjoined
    · -- the storage was still empty when the rotations were committed, and is filled afterwards
      have hempty₀ : b₀.ticksOf (storageNode n.id) = some Phase.emptyTicks := hsame.trans hticks
      have hempty₁ : b₁.ticksOf (storageNode n.id) = some Phase.emptyTicks := by
        rcases hdrains n.id with ⟨hsame₁, -⟩ | ⟨hzero, -, -⟩
        · exact hsame₁.trans hempty₀
        · cases hempty₀.symm.trans hzero
      rcases hafter.storage n.id with hsame' | hstored | hjoined
      · exact absurd hpreparing (not_preparing (hsame'.trans hempty₁) (by decide))
      · have hspent : b'.ticksOf n = some Phase.depletedTicks := hname ▸ hstored.spent
        refine ⟨?_, hspent⟩
        rcases h.occupies.magic n hn with hsame' | ⟨hzero, -⟩
        · have hspent₁ := commitAll_depleted hb₀ h.own hn hcommits
            (Or.inl (hbefore.occupies.depleted hn (hsame'.symm.trans hspent)))
          have hready₁ : b₁.ticksOf n = some 0 := hname ▸ hstored.ready
          cases hspent₁.symm.trans hready₁
        · exact hzero
      · cases hempty₁.symm.trans hjoined.1
    · exact ⟨hname ▸ hstored.ready, hkeep (hname ▸ hstored.spent)⟩
    · cases hticks.symm.trans hjoined.1

end Packer

end LatticeSurgery
