import LatticeSurgery.Proofs.Board.Clock
import LatticeSurgery.Proofs.Packing.Committing

/-!
# Refilling factories

A factory is filling up while all of its magic states count down together, and it is in use while
each of them is ready or spent. When time passes, the states of a factory in use are refilled as
soon as all of them are spent, so between two ticks a factory in use has a ready state
(`Factories.Cycling`).
-/

namespace LatticeSurgery

open Ordered Board

namespace Factories

variable {f f' : Factories} {b b' : Board} {n : Node} {g : List Node} {groups : List (List Node)}
  {ticks t : Int}

/-! ## Countdowns -/

/-- The countdown with which a refill starts. -/
def refillTicks (replenishTicks : Nat) : Int :=
  if replenishTicks = 0 then 0 else asCountdown replenishTicks + 1

theorem refillTicks_range {k : Nat} (hk : k + 1 < 2 ^ 31) :
    0 ≤ refillTicks k ∧ refillTicks k ≤ k + 1 := by
  unfold refillTicks
  rw [asCountdown_of_lt (by omega)]
  split <;> omega

/-- A countdown with an offset added, of a number of ticks that is in range. -/
theorem countdownPlus_eq {k : Nat} {offset : Int} (hk : k < 2 ^ 31)
    (hlow : -2147483648 ≤ (k : Int) + offset)
    (hhigh : (k : Int) + offset < 2147483648) :
    countdownPlus k offset = .ok (k + offset) := by
  unfold countdownPlus
  rw [asCountdown_of_lt hk]
  exact if_pos ⟨hlow, hhigh⟩

theorem eq_of_countdownPlus {k : Nat} {offset t : Int} (h : countdownPlus k offset = .ok t) :
    t = asCountdown k + offset := by
  unfold countdownPlus at h
  dsimp only at h
  split at h
  · exact (Except.ok.inj h).symm
  · cases h

/-- A refill has a countdown unless its length is out of range. -/
theorem refillCountdown_ends (k : Nat) :
    Ends (refillCountdown k) (fun _ => ¬ k + 1 < 2 ^ 31) (· = refillTicks k) := by
  unfold refillCountdown refillTicks
  split
  · rfl
  · cases h : countdownPlus k 1 with
    | ok t => exact eq_of_countdownPlus h
    | error e =>
      intro hk
      rw [countdownPlus_eq (by omega) (by omega) (by omega)] at h
      cases h

/-- The magic states have a countdown at the start unless the length of a refill is out of range. -/
theorem firstCountdown_ends (k : Nat) : Ends (firstCountdown k) (fun _ => ¬ k + 1 < 2 ^ 31)
    fun t => k + 1 < 2 ^ 31 → 0 ≤ t ∧ t ≤ k + 1 := by
  unfold firstCountdown
  split
  · exact fun _ => ⟨by omega, by omega⟩
  · cases h : countdownPlus k (-1) with
    | ok t =>
      intro hk
      rw [eq_of_countdownPlus h, asCountdown_of_lt (by omega)]
      omega
    | error e =>
      intro hk
      rw [countdownPlus_eq (by omega) (by omega) (by omega)] at h
      cases h

/-! ## Stock -/

theorem foldl_mark_setup (f : Factories) (inStock : Bool) (l : List Node) :
    f.SameSetup (l.foldl (mark · inStock) f) := by
  induction l generalizing f with
  | nil => exact SameSetup.refl f
  | cons n l ih => exact (SameSetup.mark f inStock n).trans (ih _)

theorem takeStock_setup (f : Factories) (b : Board) : f.SameSetup (f.takeStock b).2 :=
  foldl_mark_setup f true _

/-! ## Refills -/

theorem isExhausted_iff (hg : ∀ n ∈ g, n.kind = .patch .magic) :
    isExhausted b g = true ↔ ∀ n ∈ g, b.ticksOf n = some Phase.depletedTicks := by
  unfold isExhausted
  rw [List.all_eq_true]
  refine forall_congr' fun n => forall_congr' fun hn => ?_
  rw [decide_eq_true_eq, statusOf_depleted_iff (hg n hn)]

/-- The states of the spent factories are given a countdown. -/
structure Refills (groups : List (List Node)) (ticks : Int) (b b' : Board) : Prop where
  sound : b'.Sound
  graph : b'.graph = b.graph
  other : ∀ n, n ∉ groups.flatten → b'.ticksOf n = b.ticksOf n
  group : ∀ g ∈ groups, ∀ n ∈ g, b'.ticksOf n =
    if ∀ m ∈ g, b.ticksOf m = some Phase.depletedTicks then some ticks else b.ticksOf n

/-- The magic states of the factories are different nodes of the board. -/
structure Placed (b : Board) (groups : List (List Node)) : Prop where
  nodup : groups.flatten.Nodup
  kind : ∀ n ∈ groups.flatten, n.kind = .patch .magic
  node : ∀ n ∈ groups.flatten, b.graph.hasNode n = true

theorem Placed.of_hasNode (h : Placed b groups)
    (hnode : ∀ n, b'.graph.hasNode n = b.graph.hasNode n) : Placed b' groups :=
  ⟨h.nodup, h.kind, fun n hn => (hnode n).trans (h.node n hn)⟩

/-- Refilling fails only with a negative countdown. -/
theorem refill_ends (hb : b.Sound) (h : Placed b groups) (f : Factories) :
    Ends (refill ticks groups f b) (fun _ => ticks < 0) fun r =>
      f.SameSetup r.1 ∧ Refills groups ticks b r.2 := by
  induction groups generalizing b f with
  | nil => exact ⟨SameSetup.refl f, hb, rfl, fun _ _ => rfl, by simp⟩
  | cons g gs ih =>
    have hnodup := h.nodup
    rw [List.flatten_cons, List.nodup_append'] at hnodup
    obtain ⟨-, hnodup, hdisjoint⟩ := hnodup
    have hrest : Placed b gs := ⟨hnodup, fun n hn => h.kind n (by simp [hn]),
      fun n hn => h.node n (by simp [hn])⟩
    have hkind : ∀ n ∈ g, n.kind = .patch .magic := fun n hn => h.kind n (by simp [hn])
    have hnotin : ∀ n ∈ g, n ∉ gs.flatten := fun n hn hn' => hdisjoint hn hn'
    unfold refill
    split
    · next hexhausted =>
      refine Ends.bind (setTicks_ends_of_hasNode hb fun n hn => h.node n (by simp [hn])) ?_
      intro b₁ hset
      refine (ih hset.sound (hrest.of_hasNode fun n => by rw [hset.graph]) _).mono
        (fun _ h => h) ?_
      rintro ⟨f', b'⟩ ⟨hsetup, hsound, hgraph, hother, hgroup⟩
      refine ⟨(foldl_mark_setup f true g).trans hsetup, hsound, hgraph.trans hset.graph,
        fun n hn => ?_, fun g' hg' n hn => ?_⟩
      · rw [List.flatten_cons, List.mem_append, not_or] at hn
        rw [hother n hn.2, hset.ticks, if_neg hn.1]
      · rcases List.mem_cons.1 hg' with rfl | hg'
        · rw [hother n (hnotin n hn), hset.ticks, if_pos hn,
            if_pos ((isExhausted_iff hkind).1 hexhausted)]
        · have hkeep : ∀ m ∈ g', b₁.ticksOf m = b.ticksOf m := fun m hm => by
            rw [hset.ticks, if_neg fun hmg => hnotin m hmg (List.mem_flatten_of_mem hg' hm)]
          rw [hgroup g' hg' n hn, hkeep n hn]
          refine if_congr ?_ rfl rfl
          exact forall_congr' fun m => forall_congr' fun hm => by rw [hkeep m hm]
    · next hexhausted =>
      refine (ih hb hrest f).mono (fun _ h => h) ?_
      rintro ⟨f', b'⟩ ⟨hsetup, hsound, hgraph, hother, hgroup⟩
      refine ⟨hsetup, hsound, hgraph, fun n hn => ?_, fun g' hg' n hn => ?_⟩
      · rw [List.flatten_cons, List.mem_append, not_or] at hn
        exact hother n hn.2
      · rcases List.mem_cons.1 hg' with rfl | hg'
        · rw [hother n (hnotin n hn), if_neg]
          exact fun hall => hexhausted ((isExhausted_iff hkind).2 hall)
        · exact hgroup g' hg' n hn

/-! ## Passing time -/

/-- What the passing of a tick does to a board with factories. -/
structure Passes (f : Factories) (b b' : Board) : Prop where
  /-- The board is sound. -/
  sound : b'.Sound
  /-- Refills leave the graph as it is after the countdowns went down. -/
  graph : b'.graph = (b.elapse 1).graph
  /-- The nodes are the same. -/
  node : ∀ n, b'.graph.hasNode n = b.graph.hasNode n
  /-- The boundaries of a data patch count down, and change places only when one of them runs out. -/
  qubit : ∀ id,
    (∀ basis, b'.ticksOf (.qubit id basis) =
      (b.ticksOf (.qubit id basis)).map (countdownAfter 1 (.qubit id basis))) ∨
    (b.Finishes 1 id ∧ ∀ basis, b'.ticksOf (.qubit id basis) =
      (b.ticksOf (.qubit id basis.flipped)).map (countdownAfter 1 (.qubit id basis)))
  /-- The other nodes count down. -/
  other : ∀ n, n.kind ≠ .patch .qubit → n ∉ f.groups.flatten →
    b'.ticksOf n = (b.ticksOf n).map (countdownAfter 1 n)
  /-- The magic states of a factory count down, or are refilled if all of them were spent. -/
  group : ∀ g ∈ f.groups, ∀ n ∈ g, b'.ticksOf n =
    if ∀ m ∈ g, b.ticksOf m = some Phase.depletedTicks then some (refillTicks f.replenishTicks)
    else (b.ticksOf n).map (countdownAfter 1 n)

/-- In a tick, a running countdown goes down by one. Only storages have another one that moves. -/
theorem countdownAfter_one (hn : n.kind ≠ .patch .storage) (t : Int) :
    countdownAfter 1 n t = if 0 < t then t - 1 else t := by
  unfold countdownAfter ticksAfter
  rw [if_neg fun h => hn h.1]
  split <;> omega

/-- A magic state is spent after a tick when it was spent before. -/
theorem map_countdownAfter_eq_depleted (hn : n.kind = .patch .magic) {ticks : Option Int} :
    ticks.map (countdownAfter 1 n) = some Phase.depletedTicks ↔ ticks = some Phase.depletedTicks := by
  cases ticks with
  | none => simp
  | some t =>
    rw [Option.map_some, countdownAfter_one (by simp [hn]), Option.some_inj, Option.some_inj,
      Phase.depletedTicks]
    split <;> omega

/-- Letting a tick pass fails only if refills take too long, or if the clock is at its end. What was
done is entered under the tick that passed. -/
theorem advance_ends {τ : Type} (hb : b.Sound) (hf : Placed b f.groups)
    (done : List τ) (log : Log τ) :
    Ends (f.advance done b log 1)
      (fun e => ¬ f.replenishTicks + 1 < 2 ^ 31 ∨
        e = .countOutOfRange ∧ countLimit ≤ f.tick + 1) fun r =>
      r.1.replenishTicks = f.replenishTicks ∧ r.1.groups = f.groups ∧
        (r.1.tick = f.tick + 1 ∧ r.1.tick < countLimit) ∧ Passes f b r.2.1 ∧
          r.2.2 = if done.isEmpty then log else log.insert f.tick done := by
  have helapses := elapse_spec hb 1
  rw [show asCountdown 1 = 1 from asCountdown_of_lt (by omega)] at helapses
  unfold advance
  dsimp only
  refine Ends.bind ((refillCountdown_ends f.replenishTicks).mono (fun _ h => Or.inl h) fun _ h => h) ?_
  rintro ticks rfl
  refine Ends.bind ((refill_ends helapses.sound (hf.of_hasNode helapses.node) f).mono
    (fun e hneg => Or.inl fun hrange => ?_) fun _ h => h) ?_
  · have := (refillTicks_range hrange).1
    omega
  rintro ⟨f', b'⟩ ⟨hsetup, hrefills⟩
  have hpasses : Passes f b b' := by
    have hmagic : ∀ n : Node, n.kind = .patch .magic → n.kind ≠ .patch .qubit :=
      fun n hn => by simp [hn]
    refine ⟨hrefills.sound, hrefills.graph, fun n => ?_, fun id => ?_, fun n hn hnot => ?_,
      fun g hg n hn => ?_⟩
    · rw [hrefills.graph, helapses.node]
    · have hother : ∀ basis, b'.ticksOf (.qubit id basis) =
          (b.elapse 1).ticksOf (.qubit id basis) := fun basis => hrefills.other _ fun hmem => by
        cases hf.kind _ hmem
      simp only [hother]
      exact helapses.qubit id
    · rw [hrefills.other n hnot, helapses.other n hn]
    · have hkind : ∀ m ∈ g, m.kind = .patch .magic := fun m hm =>
        hf.kind m (List.mem_flatten_of_mem hg hm)
      rw [hrefills.group g hg n hn, helapses.other n (hmagic n (hkind n hn))]
      refine if_congr ?_ rfl rfl
      refine forall_congr' fun m => forall_congr' fun hm => ?_
      rw [helapses.other m (hmagic m (hkind m hm)), map_countdownAfter_eq_depleted (hkind m hm)]
  have hclock : Ends (countPlus f'.tick 1)
      (fun e => ¬ f.replenishTicks + 1 < 2 ^ 31 ∨ e = .countOutOfRange ∧ countLimit ≤ f.tick + 1)
      fun tick => tick = f.tick + 1 ∧ tick < countLimit := by
    rw [show f'.tick = f.tick from hsetup.tick]
    exact (countPlus_ends f.tick 1).mono (fun _ h => Or.inr h) fun _ h => h
  refine Ends.bind hclock ?_
  rintro tick ⟨rfl, htick⟩
  dsimp only
  split
  · exact ⟨hsetup.replenishTicks, hsetup.groups, ⟨rfl, htick⟩, hpasses, rfl⟩
  · rw [if_neg (by omega)]
    refine ⟨hsetup.replenishTicks, hsetup.groups, ⟨rfl, htick⟩, hpasses, ?_⟩
    rw [Nat.add_sub_cancel]

/-! ## The start -/

theorem flatten_chunksIn {α : Type} {n pieces : Nat} (hn : 0 < n) {l : List α}
    (hl : l.length ≤ pieces) : (chunksIn n pieces l).flatten = l := by
  induction pieces generalizing l with
  | zero =>
    rw [List.length_eq_zero_iff.1 (Nat.le_zero.1 hl)]
    rfl
  | succ pieces ih =>
    unfold chunksIn
    split
    · next hempty => rw [List.isEmpty_iff.1 hempty, List.flatten_nil]
    · next hne =>
      have hpos : 0 < l.length := List.length_pos_of_ne_nil fun h => hne (by simp [h])
      rw [List.flatten_cons, ih (by rw [List.length_drop]; omega), List.take_append_drop]

theorem ne_nil_of_mem_chunksIn {α : Type} {n pieces : Nat} (hn : 0 < n) {l g : List α}
    (hg : g ∈ chunksIn n pieces l) : g ≠ [] := by
  induction pieces generalizing l with
  | zero => cases hg
  | succ pieces ih =>
    unfold chunksIn at hg
    split at hg
    · cases hg
    · next hne =>
      rcases List.mem_cons.1 hg with rfl | hg
      · cases l with
        | nil => exact absurd rfl hne
        | cons a l =>
          obtain ⟨m, rfl⟩ := Nat.exists_eq_succ_of_ne_zero hn.ne'
          simp
      · exact ih hg

/-- The factories take the magic states in the order of their nodes. -/
theorem groups_of_setUp {replenishTicks perFactory : Nat}
    (h : setUp b replenishTicks perFactory = .ok (f, b')) :
    f.groups = chunks perFactory (b.nodesOfKind (.patch .magic)).toList := by
  unfold setUp at h
  split at h
  · cases h
  · obtain ⟨t, -, h⟩ := exists_of_bind_eq_ok h
    obtain ⟨b₁, -, h⟩ := exists_of_bind_eq_ok h
    cases h
    rfl

/-- Every magic state of the board belongs to a factory. -/
theorem mem_groups_of_setUp {replenishTicks perFactory : Nat}
    (h : setUp b replenishTicks perFactory = .ok (f, b')) :
    n ∈ f.groups.flatten ↔ b.graph.hasNode n = true ∧ n.kind = .patch .magic := by
  have hper : 0 < perFactory := by
    by_contra hzero
    rw [Nat.pos_iff_ne_zero, not_not] at hzero
    rw [setUp, if_pos hzero] at h
    cases h
  rw [groups_of_setUp h, chunks, flatten_chunksIn hper le_rfl]
  exact mem_nodesOfKind

/-! ## Cycles -/

/-- The magic states of a factory are being made, for some more ticks but not more than a refill
takes, or they are in use and not all of them are spent. -/
def CyclingGroup (b : Board) (replenishTicks : Nat) (g : List Node) : Prop :=
  (∃ t : Int, 0 < t ∧ t ≤ replenishTicks + 1 ∧ ∀ n ∈ g, b.ticksOf n = some t) ∨
    ((∀ n ∈ g, b.ticksOf n = some 0 ∨ b.ticksOf n = some Phase.depletedTicks) ∧
      ∃ n ∈ g, b.ticksOf n = some 0)

/-- Between two ticks, every factory is being refilled or has a magic state ready. -/
structure Cycling (f : Factories) (b : Board) : Prop where
  ne_nil : ∀ g ∈ f.groups, g ≠ []
  group : ∀ g ∈ f.groups, CyclingGroup b f.replenishTicks g

/-- Magic states that all have the same countdown are being made or ready. -/
theorem cyclingGroup_of_same {k : Nat} (hne : g ≠ []) (ht : 0 ≤ t) (hle : t ≤ k + 1)
    (h : ∀ n ∈ g, b.ticksOf n = some t) : CyclingGroup b k g := by
  obtain ⟨n, hn⟩ := List.exists_mem_of_ne_nil g hne
  by_cases hpos : 0 < t
  · exact Or.inl ⟨t, hpos, hle, h⟩
  · obtain rfl : t = 0 := by omega
    exact Or.inr ⟨fun m hm => Or.inl (h m hm), n, hn, h n hn⟩

/-- A factory goes on in its cycle when nodes are occupied and a tick passes. -/
theorem Cycling.pass {b₁ : Board} (hb : b.Sound) (h : f.Cycling b) (hf : Placed b f.groups)
    (hrange : f.replenishTicks + 1 < 2 ^ 31) (hoccupies : b.Occupies b₁)
    (hpasses : Passes f b₁ b') : f.Cycling b' := by
  refine ⟨h.ne_nil, fun g hg => ?_⟩
  have hkind : ∀ n ∈ g, n.kind = .patch .magic := fun n hn =>
    hf.kind n (List.mem_flatten_of_mem hg hn)
  have hne := h.ne_nil g hg
  obtain ⟨n₀, hn₀⟩ := List.exists_mem_of_ne_nil g hne
  by_cases hspent : ∀ m ∈ g, b₁.ticksOf m = some Phase.depletedTicks
  · obtain ⟨hnonneg, hle⟩ := refillTicks_range hrange
    refine cyclingGroup_of_same hne hnonneg hle fun n hn => ?_
    rw [hpasses.group g hg n hn, if_pos hspent]
  · have hticks : ∀ n ∈ g, b'.ticksOf n = (b₁.ticksOf n).map (countdownAfter 1 n) := fun n hn => by
      rw [hpasses.group g hg n hn, if_neg hspent]
    rcases h.group g hg with ⟨t, hpos, hle, hall⟩ | ⟨hall, -⟩
    · -- a refill that goes on is not disturbed
      refine cyclingGroup_of_same (t := t - 1) hne (by omega) (by omega) fun n hn => ?_
      have hkeep : b₁.ticksOf n = some t := by
        rw [hoccupies.closed n (hb.mem_unavailable_of_pos (hall n hn) hpos), hall n hn]
      rw [hticks n hn, hkeep, Option.map_some, countdownAfter_one (by simp [hkind n hn]), if_pos hpos]
    · have hall₁ : ∀ n ∈ g, b₁.ticksOf n = some 0 ∨ b₁.ticksOf n = some Phase.depletedTicks := by
        intro n hn
        rcases hoccupies.magic n (hkind n hn) with hsame | ⟨-, hspent⟩
        · rw [hsame]
          exact hall n hn
        · exact Or.inr hspent
      have hstay : ∀ n ∈ g, b'.ticksOf n = b₁.ticksOf n := by
        intro n hn
        rw [hticks n hn]
        rcases hall₁ n hn with hzero | hspent
        · rw [hzero, Option.map_some, countdownAfter_one (by simp [hkind n hn]), if_neg (by omega)]
        · rw [hspent, Option.map_some, countdownAfter_one (by simp [hkind n hn]),
            if_neg (by decide)]
      push Not at hspent
      obtain ⟨n, hn, hready⟩ := hspent
      refine Or.inr ⟨fun n hn => by rw [hstay n hn]; exact hall₁ n hn, n, hn, ?_⟩
      rw [hstay n hn]
      exact (hall₁ n hn).resolve_right hready

/-- For how many ticks the first factory is still being refilled. -/
def wait (f : Factories) (b : Board) : Nat :=
  match f.groups.flatten.head? with
  | some n => ((b.ticksOf n).getD 0).toNat
  | none => 0

theorem wait_congr {f' : Factories} (hgroups : f'.groups = f.groups) : f'.wait b = f.wait b := by
  unfold wait
  rw [hgroups]

theorem Cycling.wait_le (h : f.Cycling b) : f.wait b ≤ f.replenishTicks + 1 := by
  unfold wait
  split
  · next n hn =>
    obtain ⟨g, hg, hmem⟩ := List.mem_flatten.1 (List.mem_of_mem_head? hn)
    rcases h.group g hg with ⟨t, -, hle, hall⟩ | ⟨hall, -⟩
    · rw [hall n hmem, Option.getD_some]
      omega
    · rcases hall n hmem with hzero | hspent
      · rw [hzero]
        simp
      · rw [hspent]
        simp [Phase.depletedTicks]
  · omega

/-- While no magic state is ready, the refill of the first factory comes closer. -/
theorem Cycling.wait_lt (h : f.Cycling b) (hf : Placed b f.groups)
    (hgroups : f.groups ≠ []) (hready : ∀ n, n.kind = .patch .magic → b.ticksOf n ≠ some 0)
    (hpasses : Passes f b b') : f.wait b' < f.wait b := by
  obtain ⟨g, gs, hcons⟩ := List.exists_cons_of_ne_nil hgroups
  have hg : g ∈ f.groups := hcons ▸ List.mem_cons_self
  obtain ⟨n, rest, rfl⟩ := List.exists_cons_of_ne_nil (h.ne_nil g hg)
  have hn : n ∈ n :: rest := List.mem_cons_self
  have hkind := hf.kind n (List.mem_flatten_of_mem hg hn)
  rcases h.group _ hg with ⟨t, hpos, -, hall⟩ | ⟨-, m, hm, hzero⟩
  · have hafter : b'.ticksOf n = some (t - 1) := by
      rw [hpasses.group _ hg n hn, if_neg, hall n hn, Option.map_some,
        countdownAfter_one (by simp [hkind]),
        if_pos hpos]
      intro hspent
      have hmust := (hall n hn).symm.trans (hspent n hn)
      rw [Option.some_inj, Phase.depletedTicks] at hmust
      omega
    unfold wait
    rw [hcons, List.flatten_cons, List.cons_append, List.head?_cons]
    dsimp only
    rw [hafter, hall n hn, Option.getD_some, Option.getD_some]
    omega
  · exact absurd hzero (hready m (hf.kind m (List.mem_flatten_of_mem hg hm)))

/-- What setting up the factories of a board leaves behind. -/
structure SetsUp (duration : Nat) (b : Board) (f : Factories) (b' : Board) : Prop where
  replenishTicks : f.replenishTicks = duration
  tick : f.tick = 0
  sound : b'.Sound
  graph : b'.graph = b.graph
  placed : Placed b' f.groups
  cycling : duration + 1 < 2 ^ 31 → f.Cycling b'
  other : ∀ n, n.kind ≠ .patch .magic → b'.ticksOf n = b.ticksOf n

/-- Setting up factories fails only if they are to hold no magic states, or if refills take too
long. -/
theorem setUp_ends (hb : b.Sound) (replenishTicks perFactory : Nat) :
    Ends (setUp b replenishTicks perFactory)
      (fun _ => perFactory = 0 ∨ ¬ replenishTicks + 1 < 2 ^ 31)
      fun r => SetsUp replenishTicks b r.1 r.2 := by
  unfold setUp
  split
  · next hper => exact Or.inl hper
  · next hper =>
    have hper : 0 < perFactory := Nat.pos_of_ne_zero hper
    have hmem : ∀ n, n ∈ (b.nodesOfKind (.patch .magic)).toList ↔
        b.graph.hasNode n = true ∧ n.kind = .patch .magic := fun n => mem_nodesOfKind
    refine Ends.bind ((firstCountdown_ends replenishTicks).mono (fun _ h => Or.inr h)
      fun _ h => h) ?_
    intro t ht
    refine Ends.bind ((setTicks_ends_of_hasNode hb fun n hn => ((hmem n).1 hn).1).mono
      (fun e hneg => Or.inr fun hrange => ?_) fun _ h => h) ?_
    · have := (ht hrange).1
      omega
    intro b' hset
    have hflatten : (chunks perFactory (b.nodesOfKind (.patch .magic)).toList).flatten =
        (b.nodesOfKind (.patch .magic)).toList := flatten_chunksIn hper le_rfl
    refine ⟨rfl, rfl, hset.sound, hset.graph, ⟨?_, fun n hn => ?_, fun n hn => ?_⟩, fun hrange => ?_,
      fun n hn => ?_⟩
    · rw [hflatten]
      exact (b.nodesOfKind _).nodup
    · exact ((hmem n).1 (hflatten ▸ hn)).2
    · rw [hset.graph]
      exact ((hmem n).1 (hflatten ▸ hn)).1
    · refine ⟨fun g hg => ne_nil_of_mem_chunksIn hper hg, fun g hg => ?_⟩
      refine cyclingGroup_of_same (ne_nil_of_mem_chunksIn hper hg) (ht hrange).1 (ht hrange).2
        fun n hn => ?_
      rw [hset.ticks, if_pos]
      rw [← hflatten]
      exact List.mem_flatten_of_mem hg hn
    · rw [hset.ticks, if_neg fun hmem' => hn ((hmem n).1 hmem').2]

end Factories

end LatticeSurgery
