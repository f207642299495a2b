import LatticeSurgery.Proofs.Cache.Reuse
import LatticeSurgery.Proofs.Dependency.Reordering
import LatticeSurgery.Proofs.Schedule.Refilling
import LatticeSurgery.Schedule.Run

/-!
# A tick of a run

Between two ticks the state of a run is sound (`Run.Sound`): its parts are sound, the candidates are the
rotations that are free, and the clock is ahead of the counts that go with it (`Run.Counts`).
`Run.step_ends` says what a tick does, whether rotations are packed afresh, an earlier
packing is used again, or the tick passes without packing. Every statement about whole runs follows from
it by induction.
-/

namespace LatticeSurgery

open Ordered WordSource

/-! ## Endings that can be refusals -/

/-- A refusal, or a fault with a property. -/
def Halt.FaultsOnly {ε : Type} (fail : Fault → Prop) : Halt ε → Prop
  | .fault e => fail e
  | .refused _ => True

section Free

variable {c : Circuit} (hc : c.Numbered) {rule : DependencyRule} {p : Progress} {done : Finset Nat}
  (h : p.Tracks (rule.blockers c.rotations) c.rotations.length done) {i j : Nat} (hij : i ≠ j)
  (hi : (rule.blockers c.rotations).Free c.rotations.length done i)
  (hj : (rule.blockers c.rotations).Free c.rotations.length done j) {r s : Rotation}
  (hr : c.rotations[i]? = some r) (hs : c.rotations[j]? = some s)

include hc h hij hi hj hr hs

/-- Two rotations that are free commute. -/
theorem Progress.Tracks.commutes : r.commutes s = true := by
  by_contra hnot
  rw [Bool.not_eq_true] at hnot
  rcases Nat.lt_or_gt_of_ne hij with hlt | hlt
  · exact h.not_free_of_chain (hc.chain_of_noncommuting rule hr hs hlt hnot) hi.2.1 hj
  · rw [Rotation.commutes_comm] at hnot
    exact h.not_free_of_chain (hc.chain_of_noncommuting rule hs hr hlt hnot) hj.2.1 hi

/-- Of two rotations that are free, a rigid one acts on other qubits than the other one. -/
theorem Progress.Tracks.rigidApart : r.RigidApart s := by
  intro hrigid
  rw [← Rotation.commutes_of_isRigid hrigid]
  exact h.commutes hc hij hi hj hr hs

/-- Under the rule of last writers, two rotations that are free act on different qubits. -/
theorem Progress.Tracks.disjoint_activeQubits (hrule : rule = .trivialCommute) :
    r.activeQubits.disjoint s.activeQubits = true := by
  subst hrule
  by_contra hnot
  rw [Bool.not_eq_true] at hnot
  rcases Nat.lt_or_gt_of_ne hij with hlt | hlt
  · exact h.not_free_of_chain (hc.chain_of_shared hr hs hlt hnot) hi.2.1 hj
  · rw [SortedSet.disjoint_comm] at hnot
    exact h.not_free_of_chain (hc.chain_of_shared hs hr hlt hnot) hj.2.1 hi

end Free

namespace Run

variable {σ : Type} [WordSource σ] {conf : Configuration} {c : Circuit} {rng₀ : σ}
  {done : Finset Nat} {s s' : Run σ} {l : List Nat} {ps : List Packed}

/-! ## The rotations that are offered -/

/-- The rotations with the given numbers. -/
def rotationsOf (c : Circuit) (l : List Nat) : List Rotation := l.filterMap fun i => c.rotations[i]?

theorem rotationsAt_eq (hl : ∀ i ∈ l, i < c.rotations.length) :
    rotationsAt c l = .ok (rotationsOf c l) := by
  induction l with
  | nil => rfl
  | cons i is ih =>
    have hi := List.getElem?_eq_getElem (hl i List.mem_cons_self)
    have hrest := ih fun j hj => hl j (List.mem_cons_of_mem _ hj)
    unfold rotationsAt rotationsOf
    rw [hi, List.filterMap_cons, hi, hrest]
    rfl

theorem arrange_perm (order : PackingOrder) (rs : List Rotation) : (arrange order rs).Perm rs := by
  have hparts := List.filter_append_perm (fun r : Rotation => decide (r.kind = .pi8)) rs
  unfold arrange
  cases order with
  | cliffordFirst => exact List.perm_append_comm.trans hparts
  | circuitOrder => exact List.Perm.refl rs
  | pi8First => exact hparts

theorem map_index_rotationsOf (hc : c.Numbered) (hl : ∀ i ∈ l, i < c.rotations.length) :
    (rotationsOf c l).map Rotation.index = l := by
  induction l with
  | nil => rfl
  | cons i is ih =>
    have hi := List.getElem?_eq_getElem (hl i List.mem_cons_self)
    unfold rotationsOf
    rw [List.filterMap_cons, hi, List.map_cons, hc i _ hi]
    exact congrArg (i :: ·) (ih fun j hj => hl j (List.mem_cons_of_mem _ hj))

theorem mem_rotationsOf (hc : c.Numbered) {r : Rotation} (hr : r ∈ rotationsOf c l) :
    r.index ∈ l ∧ c.rotations[r.index]? = some r := by
  obtain ⟨i, hi, hget⟩ := List.mem_filterMap.1 hr
  rw [hc i r hget]
  exact ⟨hi, hget⟩

/-! ## Sound states -/

/-- The counts of a run that go with the clock, which is a 32-bit number: in each tick, an idle tick or
a packing that is used again is counted once at most. -/
structure Counts (s : Run σ) : Prop where
  tick : s.factories.tick < countLimit
  idleTicks : s.idleTicks ≤ s.factories.tick
  cacheHits : s.cacheHits ≤ s.factories.tick

/-- What is true between two ticks, when the rotations of `done` are done. -/
structure Sound (conf : Configuration) (c : Circuit) (rng₀ : σ) (done : Finset Nat) (s : Run σ) :
    Prop where
  /-- The board is sound. -/
  board : s.board.Sound
  /-- The caches of the packer are sound. -/
  packer : s.packer.Sound
  /-- The packer knows how long a turn takes. -/
  turnTicks : s.packer.turnTicks = asCountdown conf.turnTicks
  /-- The cache of packings is sound. -/
  cache : s.cache.Sound
  /-- The source of random words is as reliable as at the start. -/
  rng : Keeps rng₀ s.rng
  /-- The factories know how long a refill takes. -/
  replenishTicks : s.factories.replenishTicks = conf.tickReplenish
  /-- The factories are on the board. -/
  placed : Factories.Placed s.board s.factories.groups
  /-- The factories are being filled or ready. -/
  cycling : conf.tickReplenish + 1 < 2 ^ 31 → s.factories.Cycling s.board
  /-- The rotations of `done` are done. -/
  tracks : s.progress.Tracks (conf.dependencyRule.blockers c.rotations) c.rotations.length done
  /-- The candidates are the free rotations. -/
  candidates : ∀ j, j ∈ s.candidates ↔
    (conf.dependencyRule.blockers c.rotations).Free c.rotations.length done j
  /-- The counts are limited by the clock. -/
  counts : s.Counts

/-- The rotations that are offered to the packer. -/
def offered (conf : Configuration) (c : Circuit) (s : Run σ) : List Rotation :=
  arrange conf.packingOrder (rotationsOf c s.candidates.toList)

omit [WordSource σ] in
theorem mem_offered (hc : c.Numbered) {r : Rotation} (hr : r ∈ offered conf c s) :
    r.index ∈ s.candidates ∧ c.rotations[r.index]? = some r :=
  mem_rotationsOf hc ((arrange_perm conf.packingOrder _).mem_iff.1 hr)

section Offered

variable (hc : c.Numbered) (h : s.Sound conf c rng₀ done)

include h

theorem Sound.lt_of_mem_candidates {i : Nat} (hi : i ∈ s.candidates.toList) :
    i < c.rotations.length :=
  ((h.candidates i).1 hi).1

include hc

theorem Sound.nodup_offered : ((offered conf c s).map Rotation.index).Nodup := by
  refine (List.Perm.nodup_iff ((arrange_perm conf.packingOrder _).map _)).2 ?_
  rw [map_index_rotationsOf hc fun i hi => h.lt_of_mem_candidates hi]
  exact s.candidates.nodup

theorem Sound.length_offered_le : (offered conf c s).length ≤ c.rotations.length := by
  have hsub : (offered conf c s).map Rotation.index ⊆ List.range c.rotations.length := by
    intro i hi
    obtain ⟨r, hr, rfl⟩ := List.mem_map.1 hi
    exact List.mem_range.2 (h.lt_of_mem_candidates (mem_offered hc hr).1)
  have hle := (List.subperm_of_subset (h.nodup_offered hc) hsub).length_le
  rwa [List.length_map, List.length_range] at hle

/-- What is true of every two free rotations is true of those that are offered. -/
theorem Sound.pairwise_offered {R : Rotation → Rotation → Prop}
    (hR : ∀ {i j : Nat} {r r' : Rotation}, i ≠ j →
      (conf.dependencyRule.blockers c.rotations).Free c.rotations.length done i →
      (conf.dependencyRule.blockers c.rotations).Free c.rotations.length done j →
      c.rotations[i]? = some r → c.rotations[j]? = some r' → R r r') :
    (offered conf c s).Pairwise R := by
  have hnodup := List.pairwise_map.1 (h.nodup_offered hc)
  refine List.Pairwise.imp_of_mem (fun {r r'} hr hr' hne => ?_) hnodup
  obtain ⟨hmem, hget⟩ := mem_offered hc hr
  obtain ⟨hmem', hget'⟩ := mem_offered hc hr'
  exact hR hne ((h.candidates _).1 hmem) ((h.candidates _).1 hmem') hget hget'

/-- The rotations that are offered are apart from rigid ones. -/
theorem Sound.rigidApart_offered : (offered conf c s).Pairwise Rotation.RigidApart :=
  h.pairwise_offered hc fun hne hi hj hr hr' => h.tracks.rigidApart hc hne hi hj hr hr'

end Offered

/-! ## Filling a tick -/

/-- What deciding about a tick does. -/
structure Fills (conf : Configuration) (c : Circuit) (s : Run σ) (f : Filled σ) : Prop where
  packs : Packer.Packs s.packer.turnTicks (offered conf c s) s.board f.assigned f.run.board
  waiting : f.waiting = true → f.assigned = [] ∧ f.run.board = s.board ∧
    f.run.packer = s.packer ∧ ∀ n, n.kind = .patch .magic → s.board.ticksOf n ≠ some 0
  packer : f.run.packer.Sound
  config : s.packer.SameConfig f.run.packer
  cache : f.run.cache.Sound
  rng : Keeps s.rng f.run.rng
  setup : s.factories.SameSetup f.run.factories
  progress : f.run.progress = s.progress
  candidates : f.run.candidates = s.candidates
  log : f.run.log = s.log
  idleTicks : f.run.idleTicks = s.idleTicks
  cacheHits : f.run.cacheHits ≤ s.cacheHits + 1
  fails : s.packer.fails.GrowsBy (offered conf c s).length f.run.packer.fails

/-- The board before packing, on which nothing was packed. -/
theorem packs_nil {b : Board} (hb : b.Sound) (turnTicks : Int) (rotations : List Rotation) :
    Packer.Packs turnTicks rotations b [] b where
  occupies := Board.Occupies.refl hb
  order := by simp
  opened := by simp
  apart := fun _ _ => List.Pairwise.nil
  data := fun _ _ _ => rfl
  turn := by simp
  of_turn := by simp
  turning := by simp

/-- Why a tick is not filled: packing stops, or there are too many packings that were used again. -/
def Blocked (conf : Configuration) (c : Circuit) (s : Run σ) (e : Fault) : Prop :=
  s.packer.Stops s.rng (offered conf c s) e ∨ e = .countOutOfRange ∧ countLimit ≤ s.cacheHits + 1

/-- Rotations are packed, or an earlier packing is used again. -/
theorem packOrReuse_ends (h : s.Sound conf c rng₀ done) (available : SortedSet Node) :
    Ends (({ s with factories := (s.factories.takeStock s.board).2 } : Run σ).packOrReuse available
      (offered conf c s)) (s.Blocked conf c) fun r => Fills conf c s ⟨r.1, false, r.2⟩ := by
  have hsetup := Factories.takeStock_setup s.factories s.board
  unfold packOrReuse
  dsimp only
  split
  · refine Ends.bind ((Packer.pack_ends h.packer h.board _ s.rng (offered conf c s)).mono
      (fun e he => Or.inl he) fun _ h => h) ?_
    intro r hr
    exact
      { packs := hr.packs
        waiting := by simp
        packer := hr.packer
        config := hr.config
        cache := h.cache.insert _ fun q hq => ⟨(hr.fresh q hq).tree, (hr.fresh q hq).serves⟩
        rng := hr.rng
        setup := hsetup.trans hr.setup
        progress := rfl
        candidates := rfl
        log := rfl
        idleTicks := rfl
        cacheHits := Nat.le_succ _
        fails := hr.fails }
  · refine Ends.bind ((countPlus_ends s.cacheHits 1).mono (fun e he => Or.inr he) fun _ h => h) ?_
    rintro hits ⟨rfl, -⟩
    refine Ends.bind ((PackingCache.reuse_ends h.cache h.board _ _ (offered conf c s)).mono
      (fun e hneg => Or.inl (Or.inl fun hpos => ?_)) fun _ h => h) ?_
    · omega
    · rintro ⟨b', f'⟩ ⟨hpacks, hsetup'⟩
      exact
        { packs := hpacks
          waiting := by simp
          packer := h.packer
          config := Packer.SameConfig.refl _
          cache := h.cache
          rng := Keeps.refl _
          setup := hsetup.trans hsetup'
          progress := rfl
          candidates := rfl
          log := rfl
          idleTicks := rfl
          cacheHits := Nat.le_refl _
          fails := (FailCounts.GrowsBy.refl _).mono (Nat.zero_le _) }

theorem fill_ends (h : s.Sound conf c rng₀ done) :
    Ends (s.fill conf c) (s.Blocked conf c) (Fills conf c s) := by
  have hsetup := Factories.takeStock_setup s.factories s.board
  unfold fill
  rw [rotationsAt_eq fun i hi => h.lt_of_mem_candidates hi]
  refine Ends.bind (show Ends (.ok _) _ (· = rotationsOf c s.candidates.toList) from rfl) ?_
  rintro rotations rfl
  dsimp only
  split
  · next hwait =>
    -- a tick that passes without packing
    rw [Bool.and_eq_true, Bool.and_eq_true] at hwait
    refine ⟨packs_nil h.board _ _, fun _ => ⟨rfl, rfl, rfl, fun n hn hzero => ?_⟩, h.packer,
      Packer.SameConfig.refl _, h.cache, Keeps.refl _, hsetup, rfl, rfl, rfl, rfl, Nat.le_succ _,
      (FailCounts.GrowsBy.refl _).mono (Nat.zero_le _)⟩
    have hempty := SortedSet.isEmpty_iff.1 hwait.1.2 n
    exact hempty (SortedSet.mem_union.2 (Or.inl (h.board.mem_ready.2 ⟨hn, hzero⟩)))
  · refine Ends.bind (packOrReuse_ends h _) ?_
    rintro ⟨assigned, run⟩ hr
    exact hr

/-! ## Idle ticks -/

/-- How the idle ticks are counted: a tick in which something is done ends them, and a wait for a
refill does not count. -/
inductive CountsIdle (conf : Configuration) (f : Filled σ) (idleTicks : Nat) : Prop
  /-- Something is done. -/
  | busy (h : f.assigned ≠ []) (hidle : idleTicks = 0) : CountsIdle conf f idleTicks
  /-- Nothing is done. -/
  | idle (h : f.assigned = []) (hidle : idleTicks = f.run.idleTicks + 1)
    (hle : idleTicks ≤ conf.maxIdleTicks) : CountsIdle conf f idleTicks
  /-- The tick is a wait for a refill. -/
  | wait (h : f.waiting = true) (hgroups : f.run.factories.groups ≠ [])
    (hassigned : f.assigned = []) (hidle : idleTicks = f.run.idleTicks) :
    CountsIdle conf f idleTicks

omit [WordSource σ] in
theorem CountsIdle.le {f : Filled σ} {idleTicks : Nat} (h : CountsIdle conf f idleTicks) :
    idleTicks ≤ f.run.idleTicks + 1 := by
  cases h with
  | busy _ hidle => omega
  | idle _ hidle _ => omega
  | wait _ _ _ hidle => omega

omit [WordSource σ] in
/-- The idle ticks are counted, unless there are too many of them for a 32-bit number. -/
theorem countIdle_ends (conf : Configuration) (f : Filled σ) : Ends (countIdle conf f)
    (Halt.FaultsOnly fun e => e = .countOutOfRange ∧ countLimit ≤ f.run.idleTicks + 1)
    fun s => ∃ idleTicks, s = { f.run with idleTicks := idleTicks } ∧ CountsIdle conf f idleTicks := by
  unfold countIdle
  dsimp only
  by_cases hempty : f.assigned.isEmpty = true
  · have hassigned := List.isEmpty_iff.1 hempty
    rw [if_pos hempty]
    by_cases hwait : (f.waiting && !f.run.factories.groups.isEmpty) = true
    · rw [if_pos hwait]
      rw [Bool.and_eq_true, Bool.not_eq_true', List.isEmpty_eq_false_iff] at hwait
      exact ⟨f.run.idleTicks, rfl, .wait hwait.1 hwait.2 hassigned rfl⟩
    · rw [if_neg hwait]
      refine Ends.bind (orHalt_ends (countPlus_ends f.run.idleTicks 1)) ?_
      rintro idle ⟨rfl, -⟩
      by_cases hmore : conf.maxIdleTicks < f.run.idleTicks + 1
      · rw [if_pos hmore]
        trivial
      · rw [if_neg hmore]
        exact ⟨_, rfl, .idle hassigned rfl (Nat.le_of_not_lt hmore)⟩
  · rw [if_neg hempty]
    exact ⟨0, rfl, .busy (fun hnil => hempty (by rw [hnil]; rfl)) rfl⟩

/-! ## A tick -/

/-- The numbers of the rotations that are packed. -/
def indices (ps : List Packed) : List Nat := ps.map fun p => p.rotation.index

/-- What a tick does, when the rotations of `ps` are done in it and `b` is the board before time
passes. -/
structure Ticks (conf : Configuration) (c : Circuit) (s : Run σ) (ps : List Packed) (b : Board)
    (s' : Run σ) : Prop where
  /-- The rotations are packed. -/
  packs : Packer.Packs (asCountdown conf.turnTicks) (offered conf c s) s.board ps b
  /-- A tick passes. -/
  passes : Factories.Passes s.factories b s'.board
  /-- The tick is counted. -/
  tick : s'.factories.tick = s.factories.tick + 1
  /-- The factories are the same. -/
  groups : s'.factories.groups = s.factories.groups
  /-- What is done is entered. -/
  log : s'.log = if ps.isEmpty then s.log else s.log.insert s.factories.tick ps
  /-- Either something is done, or the tick is idle, or it is a wait for a refill. -/
  idle : (ps ≠ [] ∧ s'.idleTicks = 0) ∨
    (ps = [] ∧ s'.idleTicks = s.idleTicks + 1 ∧ s'.idleTicks ≤ conf.maxIdleTicks) ∨
    (ps = [] ∧ s'.idleTicks = s.idleTicks ∧ s.factories.groups ≠ [] ∧ b = s.board ∧
      s'.packer = s.packer ∧ ∀ n, n.kind = .patch .magic → s.board.ticksOf n ≠ some 0)
  /-- Each rotation fails once at most. -/
  fails : s.packer.fails.GrowsBy c.rotations.length s'.packer.fails

section Ticks

variable {b : Board}

/-- What is done in a tick was offered, each rotation once. -/
theorem Ticks.nodup_indices (hc : c.Numbered) (h : s.Sound conf c rng₀ done)
    (ht : Ticks conf c s ps b s') : (indices ps).Nodup := by
  obtain ⟨l, hperm, hsub⟩ := ht.packs.order
  have hnodup := (hsub.map Rotation.index).nodup (h.nodup_offered hc)
  rw [(hperm.map Rotation.index).nodup_iff, List.map_map] at hnodup
  exact hnodup

omit [WordSource σ] in
theorem Ticks.mem_candidates (hc : c.Numbered) (ht : Ticks conf c s ps b s') {p : Packed}
    (hp : p ∈ ps) : p.rotation.index ∈ s.candidates ∧
      c.rotations[p.rotation.index]? = some p.rotation :=
  mem_offered hc (ht.packs.order.subset (List.mem_map_of_mem hp))

end Ticks

/-- In a tick, the counts go up by no more than the clock allows. -/
theorem Counts.pass (h : s.Counts) {f : Filled σ} (hf : Fills conf c s f) {idleTicks : Nat}
    (hidle : CountsIdle conf f idleTicks)
    (hrun : s'.idleTicks = idleTicks ∧ s'.cacheHits = f.run.cacheHits)
    (htick : s'.factories.tick = s.factories.tick + 1) (hclock : s'.factories.tick < countLimit) :
    s'.Counts := by
  obtain ⟨hidleTicks, hcacheHits⟩ := hrun
  have hidleLe := hidle.le
  rw [hf.idleTicks] at hidleLe
  have hidleClock := h.idleTicks
  have hhits := hf.cacheHits
  have hhitsClock := h.cacheHits
  exact ⟨hclock, by omega, by omega⟩

/-- Letting a tick pass in which free rotations were done fails only if refills take too long, or if
the clock is at its end. -/
theorem advance_ends (hc : c.Numbered) (h : s.Sound conf c rng₀ done) {f : Filled σ}
    (hf : Fills conf c s f) {idleTicks : Nat} (hidle : CountsIdle conf f idleTicks) :
    Ends (({ f.run with idleTicks := idleTicks } : Run σ).advance f.assigned)
      (fun e => ¬ conf.tickReplenish + 1 < 2 ^ 31 ∨
        e = .countOutOfRange ∧ countLimit ≤ s.factories.tick + 1)
      fun s' => Ticks conf c s f.assigned f.run.board s' ∧
        s'.Sound conf c rng₀ (done ∪ (indices f.assigned).toFinset) := by
  have hreplenish : f.run.factories.replenishTicks = conf.tickReplenish :=
    hf.setup.replenishTicks.trans h.replenishTicks
  have hplaced : Factories.Placed f.run.board s.factories.groups :=
    h.placed.of_hasNode fun n => by rw [hf.packs.occupies.graph]
  have hturn : s.packer.turnTicks = asCountdown conf.turnTicks := h.turnTicks
  unfold advance
  dsimp only
  refine Ends.bind ((Factories.advance_ends hf.packs.occupies.sound
    (by rw [hf.setup.groups]; exact hplaced) f.assigned f.run.log).mono
      (fun _ hstop => by rwa [hreplenish, hf.setup.tick] at hstop) fun _ h => h) ?_
  rintro ⟨f', b', log⟩ ⟨hreplenish', hgroups, ⟨htick, hclock⟩, hpasses, hlog⟩
  dsimp only at hreplenish' hgroups htick hclock hpasses hlog
  rw [hf.setup.tick] at htick
  have hpasses' : Factories.Passes s.factories f.run.board b' := by
    refine ⟨hpasses.sound, hpasses.graph, hpasses.node, hpasses.qubit, fun n hk hn => ?_,
      fun g hg n hn => ?_⟩
    · exact hpasses.other n hk (by rw [hf.setup.groups]; exact hn)
    · rw [hpasses.group g (by rw [hf.setup.groups]; exact hg) n hn, hf.setup.replenishTicks]
  have hfree : ∀ i ∈ SortedSet.ofList (indices f.assigned),
      (conf.dependencyRule.blockers c.rotations).Free c.rotations.length done i := by
    intro i hi
    obtain ⟨p, hp, rfl⟩ := List.mem_map.1 (SortedSet.mem_ofList.1 hi)
    exact (h.candidates _).1 (mem_offered hc (hf.packs.order.subset (List.mem_map_of_mem hp))).1
  obtain ⟨progress, freed, hok, htracks, hfreed⟩ := h.tracks.complete hfree
  rw [Progress.toFinset_toList_ofList] at htracks hfreed
  refine Ends.bind (?_ : Ends _ _ (· = (progress, freed))) ?_
  · rw [hf.progress]
    exact (congrArg (fun x => Ends x _ _) hok).mpr rfl
  rintro - rfl
  refine ⟨⟨hturn ▸ hf.packs, hpasses', ?_, hgroups.trans hf.setup.groups, ?_, ?_,
      hf.fails.mono (h.length_offered_le hc)⟩,
    ⟨hpasses.sound, hf.packer, hf.config.turnTicks.trans hturn, hf.cache, h.rng.trans hf.rng,
      hreplenish'.trans hreplenish, ?_, fun hrange => ?_, htracks, fun j => ?_, ?_⟩⟩
  · exact htick
  · rw [hlog, hf.log, hf.setup.tick]
  · dsimp only
    rcases hidle with ⟨hne, rfl⟩ | ⟨hnil, rfl, hle⟩ | ⟨hwait, hgroups', hnil, rfl⟩
    · exact Or.inl ⟨hne, rfl⟩
    · exact Or.inr (Or.inl ⟨hnil, by rw [hf.idleTicks], hle⟩)
    · obtain ⟨-, hboard, hpacker, hready⟩ := hf.waiting hwait
      exact Or.inr (Or.inr ⟨hnil, hf.idleTicks, hf.setup.groups ▸ hgroups', hboard, hpacker, hready⟩)
  · show Factories.Placed b' f'.groups
    rw [hgroups, hf.setup.groups]
    exact hplaced.of_hasNode hpasses.node
  · have hcycling := (h.cycling hrange).pass h.board h.placed (by rw [h.replenishTicks]; exact hrange)
      hf.packs.occupies hpasses'
    refine ⟨fun g hg => hcycling.ne_nil g ?_, fun g hg => ?_⟩
    · rwa [← hf.setup.groups, ← hgroups]
    · show Factories.CyclingGroup b' f'.replenishTicks g
      rw [hreplenish', hreplenish, ← h.replenishTicks]
      exact hcycling.group g (by rwa [← hf.setup.groups, ← hgroups])
  · have hcontains : (SortedSet.ofList (indices f.assigned)).contains j = false ↔
        j ∉ indices f.assigned := by
      rw [← SortedSet.mem_ofList, ← SortedSet.contains_iff, Bool.not_eq_true]
    rw [indices] at hcontains
    rw [← Progress.toFinset_toList_ofList, Progress.free_after_iff, SortedSet.mem_union,
      SortedSet.mem_filter, hf.candidates, h.candidates, Progress.toFinset_toList_ofList, ← hfreed]
    simp [indices, hcontains]
  · exact h.counts.pass hf hidle ⟨rfl, rfl⟩ htick hclock

/-- A count leaves its range in so many ticks, in some of which rotations are packed: the clock, or a
count of failures, which stands still unless rotations are packed. -/
def RunsOut (c : Circuit) (s : Run σ) (ticks packings : Nat) (e : Fault) : Prop :=
  e = .countOutOfRange ∧ (countLimit ≤ s.factories.tick + ticks ∨
    ∃ reason, countLimit ≤ s.packer.fails.get reason + c.rotations.length * packings)

omit [WordSource σ] in
/-- A count that goes with the clock runs out only when the clock is at its end. -/
theorem RunsOut.of_le {count packings : Nat} {e : Fault}
    (he : e = .countOutOfRange ∧ countLimit ≤ count + 1) (hle : count ≤ s.factories.tick) :
    RunsOut c s 1 packings e :=
  ⟨he.1, Or.inl (by omega)⟩

omit [WordSource σ] in
theorem RunsOut.mono {t t' k k' : Nat} {e : Fault} (h : RunsOut c s t k e) (ht : t ≤ t')
    (hk : k ≤ k') : RunsOut c s t' k' e := by
  obtain ⟨he, hclock | ⟨reason, hfails⟩⟩ := h
  · exact ⟨he, Or.inl (by omega)⟩
  · have hmul := Nat.mul_le_mul_left c.rotations.length hk
    exact ⟨he, Or.inr ⟨reason, by omega⟩⟩

theorem Blocked.cause {e : Fault} (hc : c.Numbered) (h : s.Sound conf c rng₀ done)
    (hturn : conf.turnTicks < 2 ^ 31) (hblocked : s.Blocked conf c e) :
    CanCause rng₀ e ∨ RunsOut c s 1 1 e := by
  rcases hblocked with (hdraw | ⟨he, reason, hfails⟩) | hhits
  · refine Or.inl ((hdraw ?_).of_keeps h.rng)
    rw [h.turnTicks, asCountdown_of_lt hturn]
    omega
  · have hlength := h.length_offered_le hc
    exact Or.inr ⟨he, Or.inr ⟨reason, by omega⟩⟩
  · exact Or.inr (.of_le hhits h.counts.cacheHits)

/-- A tick fails only for reasons of the configuration, through a draw, or because a count leaves its
range. Otherwise it does what `Ticks` says, and the new state is sound. -/
theorem step_ends (hc : c.Numbered) (h : s.Sound conf c rng₀ done) :
    Ends (s.step conf c)
      (Halt.FaultsOnly fun e => conf.turnTicks < 2 ^ 31 → conf.tickReplenish + 1 < 2 ^ 31 →
        CanCause rng₀ e ∨ RunsOut c s 1 1 e)
      fun s' => ∃ ps b, Ticks conf c s ps b s' ∧
        s'.Sound conf c rng₀ (done ∪ (indices ps).toFinset) := by
  unfold step
  refine Ends.bind (orHalt_ends ((fill_ends h).mono (fun e he hturn _ => ?_) fun _ h => h)) ?_
  · exact he.cause hc h hturn
  intro f hf
  refine Ends.bind ((countIdle_ends conf f).mono (fun e he => ?_) fun _ h => h) ?_
  · cases e with
    | refused e => trivial
    | fault e =>
      intro _ _
      have hidle := h.counts.idleTicks
      rw [← hf.idleTicks] at hidle
      exact Or.inr (.of_le he hidle)
  rintro s₁ ⟨idleTicks, rfl, hidle⟩
  refine orHalt_ends ((advance_ends hc h hf hidle).mono (fun e hstop _ hrange => ?_) ?_)
  · rcases hstop with hout | hclock
    · exact absurd hrange hout
    · exact Or.inr (.of_le hclock (Nat.le_refl _))
  · rintro s' ⟨hticks, hsound⟩
    exact ⟨f.assigned, f.run.board, hticks, hsound⟩

end Run

end LatticeSurgery
