import LatticeSurgery.Proofs.Packing.Stowing
import LatticeSurgery.Proofs.Schedule.Waiting

/-!
# Spending and making magic states

Between two ticks, the countdown of a magic state says from which tick on it can be ready
(`Factories.dueTick`). That tick never comes closer when time passes, it is at hand when the magic state is
spent, and afterwards it is a whole refill away. So a magic state is not spent faster than it is
made (`magic_states_spaced`).
-/

namespace LatticeSurgery

open Ordered WordSource Board

/-! ## When a magic state is due -/

namespace Factories

variable {f : Factories} {b b₁ b' : Board} {n : Node} {t t' : Int} {duration : Nat}

/-- The tick from which on a magic state with the countdown `t` can be ready. A magic state that is
spent is not refilled before the end of the tick. -/
def dueTick (duration tick : Nat) (t : Int) : Int :=
  if 0 ≤ t then tick + t else tick + 1 + refillTicks duration

theorem refillTicks_of_lt (h : duration < 2 ^ 31) :
    refillTicks duration = if duration = 0 then 0 else (duration : Int) + 1 := by
  unfold refillTicks
  rw [asCountdown_of_lt h]

/-- When a tick passes, a magic state counts down, or it was spent and is refilled. -/
theorem Passes.ticksOf_magic (h : Passes f b b') (hn : n.kind = .patch .magic)
    (ht : b.ticksOf n = some t) :
    b'.ticksOf n = some (countdownAfter 1 n t) ∨
      (t = Phase.depletedTicks ∧ b'.ticksOf n = some (refillTicks f.replenishTicks)) := by
  by_cases hmem : n ∈ f.groups.flatten
  · obtain ⟨g, hg, hmem⟩ := List.mem_flatten.1 hmem
    rw [h.group g hg n hmem]
    split
    · next hspent => exact Or.inr ⟨Option.some_inj.1 (ht.symm.trans (hspent n hmem)), rfl⟩
    · exact Or.inl (by rw [ht, Option.map_some])
  · refine Or.inl ?_
    rw [h.other n (by simp [hn]) hmem, ht, Option.map_some]

/-- A magic state that was spent in a tick is not ready before it was refilled. -/
theorem Passes.dueTick_of_spent (h : Passes f b b') (hn : n.kind = .patch .magic)
    (hlt : f.replenishTicks < 2 ^ 31) (hspent : b.ticksOf n = some Phase.depletedTicks)
    (ht' : b'.ticksOf n = some t') (tick : Nat) :
    tick + 1 + refillTicks f.replenishTicks ≤ dueTick f.replenishTicks (tick + 1) t' := by
  have hrefill := refillTicks_of_lt hlt
  unfold dueTick
  rcases h.ticksOf_magic hn hspent with hcount | ⟨-, hrefilled⟩
  · obtain rfl := Option.some_inj.1 (hcount.symm.trans ht')
    rw [countdownAfter_one (by simp [hn]), Phase.depletedTicks]
    split <;> omega
  · obtain rfl := Option.some_inj.1 (hrefilled.symm.trans ht')
    split <;> split at hrefill <;> omega

/-- A magic state does not become due earlier. -/
theorem Passes.dueTick_le (h : Passes f b₁ b') (hoccupies : b.Occupies b₁)
    (hn : n.kind = .patch .magic) (hlt : f.replenishTicks < 2 ^ 31) (ht : b.ticksOf n = some t)
    (ht' : b'.ticksOf n = some t') (tick : Nat) :
    dueTick f.replenishTicks tick t ≤ dueTick f.replenishTicks (tick + 1) t' := by
  have hrefill : 0 ≤ refillTicks f.replenishTicks := by
    rw [refillTicks_of_lt hlt]
    split <;> omega
  have hspent : b₁.ticksOf n = some Phase.depletedTicks → _ := fun hspent =>
    h.dueTick_of_spent hn hlt hspent ht' tick
  rcases hoccupies.magic n hn with hsame | ⟨hzero, hspent₁⟩
  · rcases h.ticksOf_magic hn (hsame.trans ht) with hcount | ⟨rfl, -⟩
    · obtain rfl := Option.some_inj.1 (hcount.symm.trans ht')
      rw [countdownAfter_one (by simp [hn])]
      by_cases hrunning : 0 < t
      · rw [if_pos hrunning, dueTick, dueTick, if_pos (by omega), if_pos (by omega)]
        omega
      · rw [if_neg hrunning]
        unfold dueTick
        split <;> omega
    · exact hspent (hsame.trans ht)
  · obtain rfl := Option.some_inj.1 (hzero.symm.trans ht)
    have hdue := hspent hspent₁
    unfold dueTick at hdue ⊢
    rw [if_pos le_rfl]
    omega

/-- At the start, a magic state is as far from being ready as a refill takes, less one tick. A board
with a magic state is not set up for refills that take too long. -/
theorem setUp_magic {perFactory : Nat} (hb : b.Sound) (hlt : duration < 2 ^ 32)
    (h : setUp b duration perFactory = .ok (f, b')) (hn : n.kind = .patch .magic)
    (hnode : b.graph.hasNode n = true) :
    duration < 2 ^ 31 ∧ b'.ticksOf n = some ((duration - 1 : Nat) : Int) := by
  unfold setUp at h
  split at h
  · cases h
  · obtain ⟨t, hfirst, h⟩ := exists_of_bind_eq_ok h
    obtain ⟨b₁, hset, h⟩ := exists_of_bind_eq_ok h
    cases h
    have hset := hb.setTo_of_setTicks hset
    have ht : b'.ticksOf n = some t :=
      (hset.ticks n).trans (if_pos (SortedSet.mem_def.1 (mem_nodesOfKind.2 ⟨hnode, hn⟩)))
    have hmeans := hset.sound.means ht
    unfold firstCountdown at hfirst
    split at hfirst
    · next hzero =>
      cases hfirst
      exact ⟨by omega, by rw [ht, hzero]; rfl⟩
    · next hpos =>
      have hcountdown := eq_of_countdownPlus hfirst
      by_cases hsmall : duration < 2 ^ 31
      · refine ⟨hsmall, ?_⟩
        rw [asCountdown_of_lt hsmall] at hcountdown
        rw [ht, Option.some_inj]
        omega
      · -- the countdown is negative, and not the one of a spent magic state
        exfalso
        rw [asCountdown_of_ge (by omega) hlt] at hcountdown
        rcases hmeans.of_magic hn with hnonneg | hspent
        · omega
        · rw [Phase.depletedTicks] at hspent
          omega

end Factories

/-! ## What a tick does to the magic states -/

/-- Using a packing again sets no magic states and storages but its resource. -/
theorem PackingCache.marksOwn_of_refits {b : Board} {q p : Packed}
    (hq : Kept p.rotation.key q) (hrefits : Packed.Refits b q p.rotation p) : p.MarksOwn := by
  have hresource := hrefits.resource
  refine Packed.marksOwn_of_kinds (fun n hn => hq.serves.kind_of_magicState (hresource ▸ hn))
    (fun n hn => hq.serves.kind_of_storage (hresource ▸ hn)) fun bus n hbus hn => ?_
  obtain ⟨-, id, -, basis, bus', hbus', -, hnodes, -⟩ := turn_of_refits hq hrefits ⟨bus, hbus⟩
  rcases (hnodes n).1 hn with rfl | rfl
  · exact Or.inr rfl
  · cases n with
    | bus i => exact Or.inl rfl
    | boundary k i basis => cases hbus'

namespace Run

variable {σ : Type} [WordSource σ] {conf : Configuration} {c : Circuit} {b : Board} {rng : σ}
  {done : Finset Nat} {s s' s₁ s₂ : Run σ} {n : Node}

/-- Either nothing is done in a tick, or rotations are packed or used again. -/
theorem cases_of_fill {f : Filled σ} (h : s.fill conf c = .ok f) :
    (f.assigned = [] ∧ f.run = { s with factories := (s.factories.takeStock s.board).2 } ∧
      onlyPi8 (offered conf c s) = true) ∨
      ∃ r, ({ s with factories := (s.factories.takeStock s.board).2 } : Run σ).packOrReuse
        (s.board.withStatus .magic .ready ∪ s.board.withStatus .storage .ready)
        (offered conf c s) = .ok r ∧ f = ⟨r.1, false, r.2⟩ := by
  unfold fill at h
  obtain ⟨rotations, hrotations, h⟩ := exists_of_bind_eq_ok h
  obtain rfl := eq_of_rotationsAt hrotations
  dsimp only at h
  split at h
  · next hwait =>
    cases h
    rw [Bool.and_eq_true] at hwait
    exact Or.inl ⟨rfl, rfl, hwait.2⟩
  · obtain ⟨r, hpack, h⟩ := exists_of_bind_eq_ok h
    cases h
    exact Or.inr ⟨r, hpack, rfl⟩

/-- A tick that is filled takes stock, sees to the storages and commits what is done in it. -/
theorem proceeds_of_fill {f : Filled σ} (hs : s.Sound conf c rng done) (h : s.fill conf c = .ok f) :
    Packer.Proceeds s.packer f.assigned s.board (s.factories.takeStock s.board).2 f.run.board
      f.run.factories := by
  rcases cases_of_fill h with ⟨hnil, hrun, -⟩ | ⟨r, hpack, rfl⟩
  · rw [hnil, hrun]
    exact ⟨⟨s.board, s.board, 0, .left rfl, rfl, .left rfl, by simp⟩, by simp⟩
  · unfold packOrReuse at hpack
    dsimp only at hpack
    split at hpack
    · obtain ⟨packed, hpacked, hpack⟩ := exists_of_bind_eq_ok hpack
      cases hpack
      have hresult := (Packer.pack_ends hs.packer hs.board _ s.rng _).of_ok hpacked
      obtain ⟨b₀, b₁, hcourse⟩ := Packer.exists_course hpacked
      obtain ⟨b₀', hbefore, -, hfound⟩ := hresult.found
      obtain rfl := Except.ok.inj (hbefore.symm.trans hcourse.before)
      exact ⟨⟨b₀', b₁, _, .seen (by simp) hbefore, hcourse.commits, .seen (by simp) hcourse.after,
        fun p hp => (hfound p hp).ready⟩, fun p hp => (hresult.fresh p hp).serves.marksOwn⟩
    · obtain ⟨hits, -, hpack⟩ := exists_of_bind_eq_ok hpack
      obtain ⟨⟨b', f'⟩, hcommits, hpack⟩ := exists_of_bind_eq_ok hpack
      cases hpack
      obtain ⟨hfound, -, -⟩ := PackingCache.find_spec hs.cache (PackingCache.key
        (s.board.withStatus .magic .ready ∪ s.board.withStatus .storage .ready) (offered conf c s))
        (offered conf c s) s.board
      refine ⟨⟨s.board, b', _, .left rfl, hcommits, .left rfl, fun p hp => ?_⟩, fun p hp => ?_⟩
      · obtain ⟨-, -, q, -, hq, hrefits⟩ := hfound p hp
        exact PackingCache.readyOn_of_refits hs.board hq hrefits
      · obtain ⟨-, -, q, -, hq, hrefits⟩ := hfound p hp
        exact PackingCache.marksOwn_of_refits hq hrefits

/-- A tick that is filled sees to the storages and commits what is done in it. -/
theorem works_of_fill {f : Filled σ} (hs : s.Sound conf c rng done)
    (hported : s.board.graph.Ported) (h : s.fill conf c = .ok f) :
    Packer.Works f.assigned s.board f.run.board :=
  (proceeds_of_fill hs h).works hs.board hported ((fill_ends hs).of_ok h).packs.occupies

/-- The two parts of a tick: it is filled, and then time passes. -/
theorem exists_fill_of_step (hc : c.Numbered) (hs : s.Sound conf c rng done)
    (h : s.step conf c = .ok s') :
    ∃ f, s.fill conf c = .ok f ∧ Ticks conf c s f.assigned f.run.board s' := by
  obtain ⟨f, s₁, hfill, hcount, hadvance⟩ := exists_of_step_ok h
  obtain ⟨idleTicks, rfl, hidle⟩ := (countIdle_ends conf f).of_ok hcount
  exact ⟨f, hfill, ((advance_ends hc hs ((fill_ends hs).of_ok hfill) hidle).of_ok hadvance).1⟩

/-- A tick spends a magic state if a rotation that is done consumes it, or if it is moved into the
storage with its number. -/
def Spends (conf : Configuration) (c : Circuit) (s : Run σ) (n : Node) : Prop :=
  ∃ f, s.fill conf c = .ok f ∧ ((∃ p ∈ f.assigned, p.resource = some (.magicState n)) ∨
    Packer.Moved s.board f.run.board n)

instance : Decidable (s.Spends conf c n) :=
  match h : s.fill conf c with
  | .error e => .isFalse fun ⟨f, hf, _⟩ => by
      rw [h] at hf
      cases hf
  | .ok f => decidable_of_iff ((∃ p ∈ f.assigned, p.resource = some (.magicState n)) ∨
      Packer.Moved s.board f.run.board n)
        ⟨fun huse => ⟨f, h, huse⟩, fun ⟨f', hf', huse⟩ => by
          rw [h] at hf'
          cases hf'
          exact huse⟩

/-! ## The magic states of a run -/

/-- The nodes of the board stay the same in a run, and so do the ways to its ports. -/
theorem Reachable.ported (hc : c.Numbered) (hb : b.Sound) (hported : b.graph.Ported)
    (h : Reachable conf c b rng s) : ∃ done, s.Sound conf c rng done ∧ s.board.graph.Ported ∧
      ∀ n, s.board.graph.hasNode n = b.graph.hasNode n := by
  refine h.induct (fun _ s => s.board.graph.Ported ∧
    ∀ n, s.board.graph.hasNode n = b.graph.hasNode n) hc hb (fun s hstarts => ?_) ?_
  · rw [hstarts.setsUp.graph]
    exact ⟨hported, fun _ => rfl⟩
  · intro done s ps b' s' hs ⟨hported, hnode⟩ _ hticks _
    have hoccupies := hticks.packs.occupies
    refine ⟨?_, fun n => ?_⟩
    · rw [hticks.passes.graph]
      exact ported_elapse hoccupies.sound (hoccupies.graph ▸ hported) 1
    · rw [hticks.passes.node, hoccupies.graph, hnode]

/-- A run has one state at every tick. -/
theorem Reachable.eq_of_tick (hc : c.Numbered) (hb : b.Sound) (h₁ : Reachable conf c b rng s₁)
    (h₂ : Reachable conf c b rng s₂) (htick : s₁.factories.tick = s₂.factories.tick) : s₁ = s₂ := by
  induction h₁ generalizing s₂ with
  | start hstart₁ =>
    have hzero := ((start_ends hc hb conf rng).of_ok hstart₁).1.setsUp.tick
    cases h₂ with
    | start hstart₂ => exact Except.ok.inj (hstart₁.symm.trans hstart₂)
    | step h _ hstep =>
      obtain ⟨done, hs⟩ := h.sound hc hb
      obtain ⟨f, -, hticks⟩ := exists_fill_of_step hc hs hstep
      have := hticks.tick
      omega
  | step h₁ _ hstep₁ ih =>
    obtain ⟨done₁, hs₁⟩ := h₁.sound hc hb
    obtain ⟨f₁, -, hticks₁⟩ := exists_fill_of_step hc hs₁ hstep₁
    have htick₁ := hticks₁.tick
    cases h₂ with
    | start hstart₂ =>
      have hzero := ((start_ends hc hb conf rng).of_ok hstart₂).1.setsUp.tick
      omega
    | step h₂ _ hstep₂ =>
      obtain ⟨done₂, hs₂⟩ := h₂.sound hc hb
      obtain ⟨f₂, -, hticks₂⟩ := exists_fill_of_step hc hs₂ hstep₂
      have htick₂ := hticks₂.tick
      obtain rfl := ih h₂ (by omega)
      exact Except.ok.inj (hstep₁.symm.trans hstep₂)

/-- A magic state is not due before a tick. -/
def DueFrom (conf : Configuration) (s : Run σ) (n : Node) (tick : Nat) : Prop :=
  ∀ t, s.board.ticksOf n = some t → tick ≤ Factories.dueTick conf.tickReplenish s.factories.tick t

section Spacing

variable (hn : n.kind = .patch .magic)

include hn

/-- Refills do not take too long if there is a magic state. -/
theorem Reachable.tickReplenish_lt (hb : b.Sound) (hlt : conf.tickReplenish < 2 ^ 32)
    (hnode : b.graph.hasNode n = true) (h : Reachable conf c b rng s) :
    conf.tickReplenish < 2 ^ 31 := by
  induction h with
  | start hstart =>
    obtain ⟨⟨f, b'⟩, hsetup, -⟩ := exists_of_bind_eq_ok hstart
    exact (Factories.setUp_magic hb hlt hsetup hn hnode).1
  | step _ _ _ ih => exact ih

/-- A tick does not bring the next use of a magic state closer. -/
theorem DueFrom.step {tick : Nat} (h : s.DueFrom conf n tick) (hs : s.Sound conf c rng done)
    (hlt : conf.tickReplenish < 2 ^ 31) (hnode : s.board.graph.hasNode n = true)
    {ps : List Packed} {b' : Board} (hticks : Ticks conf c s ps b' s') : s'.DueFrom conf n tick := by
  intro t' ht'
  obtain ⟨t, ht⟩ := (hs.board.timed n).1 hnode
  refine (h t ht).trans ?_
  rw [hticks.tick, ← hs.replenishTicks]
  exact hticks.passes.dueTick_le hticks.packs.occupies hn (hs.replenishTicks ▸ hlt) ht ht' _

/-- A magic state that is spent was ready. -/
theorem Spends.ticksOf (h : s.Spends conf c n) (hs : s.Sound conf c rng done)
    (hported : s.board.graph.Ported) (hnode : s.board.graph.hasNode n = true) :
    s.board.ticksOf n = some 0 ∧ ∃ f, s.fill conf c = .ok f ∧
      f.run.board.ticksOf n = some Phase.depletedTicks := by
  obtain ⟨f, hfill, huse⟩ := h
  obtain ⟨hready, hspent⟩ :=
    (works_of_fill hs hported hfill).spent hn (eq_magicNode hported hnode hn) huse
  exact ⟨hready, f, hfill, hspent⟩

variable (hc : c.Numbered) (hb : b.Sound) (hported : b.graph.Ported)
  (hnode : b.graph.hasNode n = true)

include hc hb hported hnode

/-- A magic state is spent only when it is due. -/
theorem Reachable.le_tick_of_spends {tick : Nat} (h : Reachable conf c b rng s)
    (hspends : s.Spends conf c n) (hdue : s.DueFrom conf n tick) : tick ≤ s.factories.tick := by
  obtain ⟨done, hs, hported', hnodes⟩ := h.ported hc hb hported
  have hready := (hspends.ticksOf hn hs hported' ((hnodes n).trans hnode)).1
  have hle := hdue 0 hready
  unfold Factories.dueTick at hle
  rw [if_pos le_rfl] at hle
  omega

variable (hlt : conf.tickReplenish < 2 ^ 32)

include hlt

/-- No magic state is due before the first refill is over. -/
theorem Reachable.dueFrom_first (h : Reachable conf c b rng s) :
    s.DueFrom conf n (conf.tickReplenish - 1) := by
  induction h with
  | start hstart =>
    have hzero := ((start_ends hc hb conf rng).of_ok hstart).1.setsUp.tick
    obtain ⟨⟨f, b'⟩, hsetup, hrest⟩ := exists_of_bind_eq_ok hstart
    cases hrest
    intro t ht
    obtain rfl := Option.some_inj.1
      ((Factories.setUp_magic hb hlt hsetup hn hnode).2.symm.trans ht)
    unfold Factories.dueTick
    rw [if_pos (Int.natCast_nonneg _), hzero]
    omega
  | step h _ hstep ih =>
    obtain ⟨done, hs, -, hnodes⟩ := h.ported hc hb hported
    obtain ⟨f, -, hticks⟩ := exists_fill_of_step hc hs hstep
    exact ih.step hn hs (h.tickReplenish_lt hn hb hlt hnode) ((hnodes n).trans hnode) hticks

/-- After a tick that spends it, a magic state is due when its refill is over. -/
theorem Reachable.dueFrom_of_spends (h₁ : Reachable conf c b rng s₁)
    (hspends : s₁.Spends conf c n) (h₂ : Reachable conf c b rng s₂)
    (hlater : s₁.factories.tick < s₂.factories.tick) : s₂.DueFrom conf n
      (s₁.factories.tick + if conf.tickReplenish = 0 then 1 else conf.tickReplenish + 2) := by
  have hrange := h₁.tickReplenish_lt hn hb hlt hnode
  induction h₂ with
  | start hstart =>
    have hzero := ((start_ends hc hb conf rng).of_ok hstart).1.setsUp.tick
    omega
  | @step s s' h _ hstep ih =>
    obtain ⟨done, hs, hported', hnodes⟩ := h.ported hc hb hported
    obtain ⟨f, hfill, hticks⟩ := exists_fill_of_step hc hs hstep
    have htick := hticks.tick
    have hnode' := (hnodes n).trans hnode
    rcases (show s₁.factories.tick ≤ s.factories.tick by omega).lt_or_eq with hbefore | hnow
    · exact (ih hbefore).step hn hs hrange hnode' hticks
    · -- this is the tick that spends the magic state
      obtain rfl := h₁.eq_of_tick hc hb h hnow
      obtain ⟨-, f', hfill', hspent⟩ := hspends.ticksOf hn hs hported' hnode'
      obtain rfl := Except.ok.inj (hfill.symm.trans hfill')
      intro t' ht'
      have hdue := hticks.passes.dueTick_of_spent hn
        (hs.replenishTicks ▸ hrange) hspent ht' s₁.factories.tick
      rw [hs.replenishTicks, Factories.refillTicks_of_lt hrange] at hdue
      rw [htick]
      refine le_trans ?_ hdue
      split <;> push_cast <;> omega

end Spacing

end Run

/-- On a board of a layout, parts of which may be left unused, magic states are not spent faster than
they are made. None is spent before the first refill is over, up to a tick, and between two ticks that
spend it, there is a whole refill. The ticks are 32-bit numbers. -/
theorem magic_states_spaced {σ : Type} [WordSource σ] (rng : σ) {l : Layout} {b : Board}
    (hb : Board.ofLayout l = .ok b) (unused : List Node) {c : Circuit} (hc : c.Numbered)
    {conf : Configuration} (hlt : conf.tickReplenish < 2 ^ 32) {n : Node}
    (hn : n.kind = .patch .magic) (hnode : (b.removeNodes unused).graph.hasNode n = true) :
    (∀ s : Run σ, Run.Reachable conf c (b.removeNodes unused) rng s → s.Spends conf c n →
      conf.tickReplenish - 1 ≤ s.factories.tick ∧ s.factories.tick < countLimit) ∧
    ∀ s₁ s₂ : Run σ, Run.Reachable conf c (b.removeNodes unused) rng s₁ →
      Run.Reachable conf c (b.removeNodes unused) rng s₂ →
      s₁.Spends conf c n → s₂.Spends conf c n → s₁.factories.tick < s₂.factories.tick →
        s₁.factories.tick + (if conf.tickReplenish = 0 then 1 else conf.tickReplenish + 2) ≤
          s₂.factories.tick := by
  have hsound := (Board.ofLayout_spec hb).1
  have hunused := hsound.removeNodes unused
  have hported := ported_removeNodes hsound.graph (ported_ofLayout hb) unused
  refine ⟨fun s hs hspends => ⟨?_, ?_⟩, fun s₁ s₂ hs₁ hs₂ hspends₁ hspends₂ hlater => ?_⟩
  · exact hs.le_tick_of_spends hn hc hunused hported hnode hspends
      (hs.dueFrom_first hn hc hunused hported hnode hlt)
  · obtain ⟨done, hstate⟩ := hs.sound hc hunused
    exact hstate.counts.tick
  · exact hs₂.le_tick_of_spends hn hc hunused hported hnode hspends₂
      (hs₁.dueFrom_of_spends hn hc hunused hported hnode hlt hspends₁ hs₂ hlater)

/-- The states in which the ticks begin when rotations are done in a row with a storage. -/
def storingTicks : List (Run CyclicWords) :=
  match Board.ofLayout storingRow with
  | .error _ => []
  | .ok b =>
    match Run.start storingOnly (repeated .pi8 3) (b.removeNodes []) ⟨[0], 0⟩ with
    | .error _ => []
    | .ok s => Run.tickStarts storingOnly (repeated .pi8 3) 6 s

theorem reachable_of_mem_storingTicks {b : Board} (hb : Board.ofLayout storingRow = .ok b)
    {s : Run CyclicWords} (hs : s ∈ storingTicks) :
    Run.Reachable storingOnly (repeated .pi8 3) (b.removeNodes []) (⟨[0], 0⟩ : CyclicWords) s := by
  unfold storingTicks at hs
  rw [hb] at hs
  dsimp only at hs
  split at hs
  · cases hs
  · next s₀ hs₀ => exact (Run.Reachable.start hs₀).of_mem_tickStarts hs

/-- The magic state of the row is stored at the start and consumed as soon as it is made again, a
refill and two ticks later. -/
theorem storingRow_magic_spaced : ∃ b s₁ s₂, Board.ofLayout storingRow = .ok b ∧
    Run.Reachable storingOnly (repeated .pi8 3) (b.removeNodes []) (⟨[0], 0⟩ : CyclicWords) s₁ ∧
      Run.Reachable storingOnly (repeated .pi8 3) (b.removeNodes []) (⟨[0], 0⟩ : CyclicWords) s₂ ∧
        s₁.Spends storingOnly (repeated .pi8 3) (magicNode 0) ∧
          s₂.Spends storingOnly (repeated .pi8 3) (magicNode 0) ∧
            s₁.factories.tick + 3 = s₂.factories.tick ∧
              storingOnly.tickReplenish - 1 ≤ s₁.factories.tick := by
  have hrun : storingTicks.any (fun s₁ => storingTicks.any fun s₂ =>
      decide (s₁.Spends storingOnly (repeated .pi8 3) (magicNode 0)) &&
        decide (s₂.Spends storingOnly (repeated .pi8 3) (magicNode 0)) &&
          decide (s₁.factories.tick < s₂.factories.tick ∧
            s₂.factories.tick ≤ s₁.factories.tick + 3)) = true := by
    decide +kernel
  have hnode : (Board.ofLayout storingRow).toOption.any (fun b =>
      (b.removeNodes []).graph.hasNode (magicNode 0)) = true := by
    decide +kernel
  obtain ⟨b, hb, hnode⟩ := exists_of_any_toOption hnode
  have hnumbered : (repeated .pi8 3).Numbered := by
    intro i r hr
    match i, hr with
    | 0, hr | 1, hr | 2, hr => cases hr; rfl
  obtain ⟨s₁, hs₁, hrun⟩ := List.any_eq_true.1 hrun
  obtain ⟨s₂, hs₂, hrun⟩ := List.any_eq_true.1 hrun
  simp only [Bool.and_eq_true, decide_eq_true_eq] at hrun
  obtain ⟨⟨hspends₁, hspends₂⟩, hlater, hsoon⟩ := hrun
  have hreach₁ := reachable_of_mem_storingTicks hb hs₁
  have hreach₂ := reachable_of_mem_storingTicks hb hs₂
  obtain ⟨hfirst, hspaced⟩ := magic_states_spaced (⟨[0], 0⟩ : CyclicWords) hb [] hnumbered
    (by decide : storingOnly.tickReplenish < 2 ^ 32) (n := magicNode 0) rfl hnode
  have hle := hspaced s₁ s₂ hreach₁ hreach₂ hspends₁ hspends₂ hlater
  refine ⟨b, s₁, s₂, hb, hreach₁, hreach₂, hspends₁, hspends₂, ?_, (hfirst s₁ hreach₁ hspends₁).1⟩
  exact le_antisymm hle hsoon

end LatticeSurgery
