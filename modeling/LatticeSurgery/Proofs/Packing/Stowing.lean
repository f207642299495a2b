import LatticeSurgery.Proofs.Packing.Commuting
import LatticeSurgery.Proofs.Packing.Spending

/-!
# What becomes of a magic state within a tick

Before time passes, a tick sees to the storages, commits rotations, and sees to the storages once more
(`Packer.Proceeds`). A magic state either stays what it is meanwhile, or it is consumed by one of the
rotations, or it is moved into the storage with its number; only one of these happens to it
(`Packer.Proceeds.fate`).
-/

namespace LatticeSurgery

open Ordered

variable {b b₀ b₁ b' b'' : Board} {f f' : Factories} {p : Packed} {ps : List Packed} {turnTicks : Int}
  {n m : Node} {id k : Nat} {q : Packer}

namespace Board

/-! ## Seeing to the storages -/

/-- Filling and resetting storages changes no magic state but those that are moved into a storage. -/
structure Stows (b b' : Board) : Prop where
  tends : b.Tends b'
  magic : ∀ id, b'.ticksOf (magicNode id) = b.ticksOf (magicNode id) ∨ b.Stored b' id

theorem Stows.refl (hb : b.Sound) : b.Stows b := ⟨.refl hb, fun _ => Or.inl rfl⟩

theorem Stows.trans (hb : b.Sound) (h : b.Stows b') (h' : b'.Stows b'') : b.Stows b'' := by
  refine ⟨h.tends.trans hb h'.tends, fun id => ?_⟩
  rcases h.magic id with hsame | hstored
  · rcases h'.magic id with hsame' | hstored'
    · exact Or.inl (hsame'.trans hsame)
    · refine Or.inr ⟨?_, hstored'.filled, hsame ▸ hstored'.ready, hstored'.spent⟩
      rcases h.tends.storage id with hempty | hstored | hjoined
      · exact hempty ▸ hstored'.empty
      · cases hstored.filled.symm.trans hstored'.empty
      · cases hjoined.2.symm.trans hstored'.empty
  · refine Or.inr ⟨hstored.empty, ?_, hstored.ready, h'.tends.occupies.depleted rfl hstored.spent⟩
    rcases h'.tends.storage id with hfilled | hstored' | hjoined
    · exact hfilled.trans hstored.filled
    · cases hstored.filled.symm.trans hstored'.empty
    · cases hstored.filled.symm.trans hjoined.1

theorem storeOne_stows (hb : b.Sound) (hp : b.graph.Ported) (hkind : n.kind = .patch .magic)
    (hready : b.ticksOf n = some 0) : b.Stows (b.storeOne n) := by
  have htends := storeOne_tends hb hp hkind hready
  refine ⟨htends, fun id => ?_⟩
  by_cases hn : magicNode id = n
  · subst hn
    by_cases hempty : b.statusOf (storageNode id) = some ⟨.patch .storage, .empty⟩
    · have hfilled : (b.storeOne (magicNode id)).ticksOf (storageNode id) = some fillTicks := by
        unfold storeOne
        dsimp only
        rw [show (magicNode id).id = id from rfl, if_pos hempty, ticksOf_retime, if_pos (same_self _)]
      rcases htends.storage id with hsame | hstored | hjoined
      · rw [hfilled, statusOf_empty_iff.1 hempty] at hsame
        cases hsame
      · exact Or.inr hstored
      · cases hfilled.symm.trans hjoined.2
    · refine Or.inl ?_
      unfold storeOne
      dsimp only
      rw [show (magicNode id).id = id from rfl, if_neg hempty]
  · exact Or.inl ((storeOne_spec hb hkind hready).2.2 _ rfl hn)

theorem foldl_storeOne_stows {l : List Node} (hb : b.Sound) (hp : b.graph.Ported) (hl : l.Nodup)
    (hready : ∀ n ∈ l, n.kind = .patch .magic ∧ b.ticksOf n = some 0) :
    b.Stows (l.foldl storeOne b) := by
  induction l generalizing b with
  | nil => exact .refl hb
  | cons n l ih =>
    obtain ⟨hn, hl⟩ := List.nodup_cons.1 hl
    obtain ⟨hkind, hzero⟩ := hready n List.mem_cons_self
    have hone := storeOne_stows hb hp hkind hzero
    refine hone.trans hb (ih hone.tends.occupies.sound (hone.tends.occupies.graph ▸ hp) hl
      fun m hm => ?_)
    obtain ⟨hkind', hzero'⟩ := hready m (List.mem_cons_of_mem _ hm)
    exact ⟨hkind', ((storeOne_spec hb hkind hzero).2.2 m hkind' fun h => hn (h ▸ hm)).trans hzero'⟩

theorem storeMagicStates_stows (hb : b.Sound) (hp : b.graph.Ported) : b.Stows b.storeMagicStates :=
  foldl_storeOne_stows hb hp (b.withStatus .magic .ready).nodup fun _ hn => hb.mem_ready.1 hn

section Reset

variable (hm : m.kind = .patch .magic)

include hm

/-- Resets mark bus tiles, storages and zero states only. -/
theorem ticksOf_magic_of_resetEach {ns : List Node} (h : resetEach ns b = .ok b') :
    b'.ticksOf m = b.ticksOf m := by
  refine resetEach_induct (motive := fun c : Board => c.ticksOf m = b.ticksOf m) ?_ h rfl
  intro c c' n t hmark hset hc
  rw [retime_of_setTick hset, ticksOf_retime, if_neg, hc]
  rw [same_iff]
  rintro rfl
  rw [resetMark_of_kind (Or.inl hm)] at hmark
  cases hmark

end Reset

theorem resetStorages_stows (hb : b.Sound) (hp : b.graph.Ported) (h : b.resetStorages = .ok b') :
    b.Stows b' :=
  ⟨resetStorages_tends hb hp h, fun _ => Or.inl (ticksOf_magic_of_resetEach rfl h)⟩

end Board

open Board

theorem Packer.runStorages_stows {moment : StoragePhase} (hb : b.Sound)
    (hp : b.graph.Ported) (h : q.runStorages moment b = .ok b') : b.Stows b' := by
  unfold runStorages at h
  split at h
  · cases h
    exact .refl hb
  · have hstore : b.Stows (if q.store = moment then b.storeMagicStates else b) := by
      split
      · exact storeMagicStates_stows hb hp
      · exact .refl hb
    dsimp only at h
    split at h
    · exact hstore.trans hb (resetStorages_stows hstore.tends.occupies.sound
        (hstore.tends.occupies.graph ▸ hp) h)
    · cases h
      exact hstore

/-! ## Commitments -/

/-- One of the rotations consumes the magic state. -/
def Consumes (ps : List Packed) (n : Node) : Prop := ∃ p ∈ ps, p.resource = some (.magicState n)

/-- Committing rotations leaves the magic states alone that none of them consumes. -/
theorem ticksOf_magic_of_commitAll (hb : b.Sound) (hown : ∀ p ∈ ps, p.MarksOwn)
    (hn : n.kind = .patch .magic) (hnot : ¬ Consumes ps n)
    (h : commitAll turnTicks ps b f = .ok (b', f')) : b'.ticksOf n = b.ticksOf n := by
  induction ps generalizing b f with
  | nil =>
    cases h
    rfl
  | cons p ps ih =>
    obtain ⟨b₁, f₁, hone, hrest⟩ := commitAll_cons_eq_ok.1 h
    obtain ⟨hset, -, -⟩ := commit_setTo hb hone
    rw [ih hset.sound (fun q hq => hown q (List.mem_cons_of_mem _ hq))
      (fun ⟨q, hq, hresource⟩ => hnot ⟨q, List.mem_cons_of_mem _ hq, hresource⟩) hrest, hset.ticks,
      if_neg fun hmem => hnot ⟨p, List.mem_cons_self, (hown p List.mem_cons_self _ n hmem).1 hn⟩]

/-! ## A tick -/

namespace Packer

/-- A storage that was empty is being filled if it was filled before rotations were committed, or
afterwards. -/
theorem moved_iff (hbefore : b.Tends b₀) (hdrains : Draining b₀ b₁ id k) (hafter : b₁.Tends b') :
    Moved b b' (magicNode id) ↔ b.Stored b₀ id ∨ b₁.Stored b' id := by
  constructor
  · rintro ⟨hempty, hpreparing⟩
    have hticks := statusOf_empty_iff.1 hempty
    rcases hbefore.storage id with hsame | hstored | hjoined
    · have hempty₀ : b₀.ticksOf (storageNode id) = some Phase.emptyTicks := hsame.trans hticks
      have hempty₁ : b₁.ticksOf (storageNode id) = some Phase.emptyTicks := by
        rcases hdrains with ⟨hsame₁, -⟩ | ⟨hzero, -, -⟩
        · exact hsame₁.trans hempty₀
        · cases hempty₀.symm.trans hzero
      rcases hafter.storage id with hsame' | hstored | hjoined
      · exact absurd hpreparing (not_preparing (hsame'.trans hempty₁) (by decide))
      · exact Or.inr hstored
      · cases hempty₁.symm.trans hjoined.1
    · exact Or.inl hstored
    · cases hticks.symm.trans hjoined.1
  · rintro (hstored | hstored)
    · have hfilled₁ : b₁.ticksOf (storageNode id) = some fillTicks := by
        rcases hdrains with ⟨hsame, -⟩ | ⟨hzero, -, -⟩
        · exact hsame.trans hstored.filled
        · cases hstored.filled.symm.trans hzero
      have hfilled : b'.ticksOf (storageNode id) = some fillTicks := by
        rcases hafter.storage id with hsame | hstored' | hjoined
        · exact hsame.trans hfilled₁
        · cases hfilled₁.symm.trans hstored'.empty
        · cases hfilled₁.symm.trans hjoined.1
      exact ⟨statusOf_empty_iff.2 hstored.empty, statusOf_preparing hfilled (by decide)⟩
    · refine ⟨statusOf_empty_iff.2 ?_, statusOf_preparing hstored.filled (by decide)⟩
      have hempty₀ : b₀.ticksOf (storageNode id) = some Phase.emptyTicks := by
        rcases hdrains with ⟨hsame, -⟩ | ⟨-, hconsumed, -⟩
        · exact hsame ▸ hstored.empty
        · cases hconsumed.symm.trans hstored.empty
      rcases hbefore.storage id with hsame | hstored' | hjoined
      · exact hsame ▸ hempty₀
      · cases hstored'.filled.symm.trans hempty₀
      · cases hjoined.2.symm.trans hempty₀

/-- The packer leaves the storages alone, or sees to them before or after rotations are packed. -/
inductive Tended (q : Packer) (b b' : Board) : Prop
  | left (h : b' = b)
  | seen {moment : StoragePhase} (hmoment : moment ≠ .never) (h : q.runStorages moment b = .ok b')

theorem Tended.stows (h : Tended q b b') (hb : b.Sound) (hp : b.graph.Ported) : b.Stows b' := by
  cases h with
  | left h =>
    subst h
    exact .refl hb
  | seen _ h => exact runStorages_stows hb hp h

/-- A packer that does not fill storages leaves the magic states alone. -/
theorem Tended.ticksOf_magic (h : Tended q b b') (hnever : q.store = .never)
    (hn : n.kind = .patch .magic) : b'.ticksOf n = b.ticksOf n := by
  cases h with
  | left h => rw [h]
  | @seen moment hmoment h =>
    unfold runStorages at h
    dsimp only at h
    rw [hnever, if_neg hmoment.symm] at h
    split at h
    · cases h
      rfl
    · split at h
      · exact ticksOf_magic_of_resetEach hn h
      · cases h
        rfl

/-- What the packer has done in a tick so far, when `ps` were carried out: it has seen to the storages,
committed the rotations, and perhaps seen to the storages once more. -/
structure Proceeds (q : Packer) (ps : List Packed) (b : Board) (f : Factories) (b' : Board)
    (f' : Factories) : Prop where
  /-- Storages are seen to before and after the rotations are committed. -/
  course : ∃ b₀ b₁ turnTicks, Tended q b b₀ ∧ commitAll turnTicks ps b₀ f = .ok (b₁, f') ∧
    Tended q b₁ b' ∧ ∀ p ∈ ps, p.ReadyOn b₀ turnTicks
  /-- The rotations set no magic states and storages but their resources. -/
  own : ∀ p ∈ ps, p.MarksOwn

/-- What became of a magic state. -/
inductive Fate (ps : List Packed) (b b' : Board) (n : Node) : Prop
  /-- Nothing was done to it. -/
  | kept (hsame : b'.ticksOf n = b.ticksOf n) (hconsumed : ¬ Consumes ps n) (hmoved : ¬ Moved b b' n)
  /-- A rotation consumed it. -/
  | consumed (hready : b.ticksOf n = some 0) (hspent : b'.ticksOf n = some Phase.depletedTicks)
    (hconsumed : Consumes ps n) (hmoved : ¬ Moved b b' n)
  /-- It was moved into a storage. -/
  | moved (hready : b.ticksOf n = some 0) (hspent : b'.ticksOf n = some Phase.depletedTicks)
    (hconsumed : ¬ Consumes ps n) (hmoved : Moved b b' n)

section Proceeds

variable (h : Proceeds q ps b f b' f') (hb : b.Sound) (hp : b.graph.Ported)

include h hb hp

/-- The course of a tick, with what is known of its steps. -/
theorem Proceeds.exists_course : ∃ b₀ b₁ turnTicks, Tended q b b₀ ∧ b.Stows b₀ ∧
    commitAll turnTicks ps b₀ f = .ok (b₁, f') ∧ (∀ id, Draining b₀ b₁ id (drawn id ps)) ∧
      Tended q b₁ b' ∧ b₁.Stows b' ∧ ∀ p ∈ ps, p.ReadyOn b₀ turnTicks := by
  obtain ⟨b₀, b₁, turnTicks, hbefore, hcommits, hafter, hready⟩ := h.course
  have hstows := hbefore.stows hb hp
  obtain ⟨hsound₁, hgraph₁, -, hdrains⟩ := commitAll_storages hstows.tends.occupies.sound h.own hcommits
  exact ⟨b₀, b₁, turnTicks, hbefore, hstows, hcommits, hdrains, hafter,
    hafter.stows hsound₁ (hgraph₁ ▸ hstows.tends.occupies.graph ▸ hp), hready⟩

/-- A tick keeps, consumes or moves a magic state. -/
theorem Proceeds.fate (id : Nat) : Fate ps b b' (magicNode id) := by
  obtain ⟨b₀, b₁, turnTicks, -, hbefore, hcommits, hdrains, -, hafter, hready⟩ := h.exists_course hb hp
  have hb₀ := hbefore.tends.occupies.sound
  have hmoved := moved_iff hbefore.tends (hdrains id) hafter.tends
  by_cases hconsumes : Consumes ps (magicNode id)
  · obtain ⟨p, hp, hresource⟩ := hconsumes
    have hzero : b₀.ticksOf (magicNode id) = some 0 := by
      have hp := hready p hp
      unfold Packed.ReadyOn at hp
      rw [hresource] at hp
      exact hp.2
    have hspent : b₁.ticksOf (magicNode id) = some Phase.depletedTicks :=
      commitAll_depleted hb₀ h.own rfl hcommits (Or.inr ⟨p, hp, hresource⟩)
    refine .consumed ?_ (hafter.tends.occupies.depleted rfl hspent) ⟨p, hp, hresource⟩ ?_
    · rcases hbefore.tends.occupies.magic (magicNode id) rfl with hsame | ⟨hzero', -⟩
      · exact hsame ▸ hzero
      · exact hzero'
    · rw [hmoved]
      rintro (hstored | hstored)
      · cases hzero.symm.trans hstored.spent
      · cases hspent.symm.trans hstored.ready
  · have hleft := ticksOf_magic_of_commitAll hb₀ h.own rfl hconsumes hcommits
    rcases hbefore.magic id with hsame | hstored
    · rcases hafter.magic id with hsame' | hstored
      · refine .kept (hsame'.trans (hleft.trans hsame)) hconsumes ?_
        rw [hmoved]
        rintro (hstored | hstored)
        · cases hstored.spent.symm.trans (hsame.trans hstored.ready)
        · cases hstored.spent.symm.trans (hsame'.trans hstored.ready)
      · exact .moved (hsame ▸ hleft ▸ hstored.ready) hstored.spent hconsumes
          (hmoved.2 (Or.inr hstored))
    · exact .moved hstored.ready (hafter.tends.occupies.depleted rfl (hleft.trans hstored.spent))
        hconsumes (hmoved.2 (Or.inl hstored))

theorem Proceeds.works (hoccupies : b.Occupies b') : Works ps b b' := by
  obtain ⟨b₀, b₁, turnTicks, -, hbefore, hcommits, -, -, hafter, hready⟩ := h.exists_course hb hp
  exact ⟨⟨b₀, b₁, turnTicks, f, f', hbefore.tends, hcommits, hafter.tends, hready⟩, h.own, hoccupies⟩

/-- A packer that does not fill storages moves no magic state. -/
theorem Proceeds.not_moved (hnever : q.store = .never) (id : Nat) : ¬ Moved b b' (magicNode id) := by
  obtain ⟨b₀, b₁, turnTicks, hleft, hbefore, -, hdrains, hright, hafter, -⟩ := h.exists_course hb hp
  rw [moved_iff hbefore.tends (hdrains id) hafter.tends]
  rintro (hstored | hstored)
  · cases hstored.spent.symm.trans ((hleft.ticksOf_magic hnever rfl).trans hstored.ready)
  · cases hstored.spent.symm.trans ((hright.ticksOf_magic hnever rfl).trans hstored.ready)

end Proceeds

end Packer

end LatticeSurgery
