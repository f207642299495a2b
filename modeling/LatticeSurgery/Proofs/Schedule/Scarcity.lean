import LatticeSurgery.Proofs.Packing.Queries
import LatticeSurgery.Proofs.Schedule.Replenishing

/-!
# The stock that scarcity is judged by

The factories judge the scarcity of a magic state by the flags of its factory, which are kept apart from
the board. A magic state that is consumed loses its flag, but one that is moved into a storage keeps it
until its factory is refilled. So whenever a magic state is to be chosen, its factory counts as many states
in stock as are ready on the board, and besides those that are still in storages (`stock_counted`). If
storages are filled, a magic state may thus be passed over for one that is farther away, of a factory that
has just as many states ready (`exists_passed_over`).
-/

namespace LatticeSurgery

open Ordered WordSource Board

/-- A tick does not pass if refills take too long. -/
theorem Factories.range_of_advance {f f' : Factories} {b b' : Board} {τ : Type} {done : List τ}
    {log log' : Log τ} (h : f.advance done b log 1 = .ok (f', b', log'))
    (hlt : f.replenishTicks < 2 ^ 31) : f.replenishTicks + 1 < 2 ^ 31 := by
  obtain ⟨ticks, hticks, -⟩ := exists_of_bind_eq_ok h
  unfold refillCountdown at hticks
  split at hticks
  · omega
  · unfold countdownPlus at hticks
    rw [asCountdown_of_lt hlt] at hticks
    dsimp only at hticks
    split at hticks
    · omega
    · cases hticks

/-- The magic states of a factory that are ready on a board. -/
def Board.readyIn (b : Board) (g : List Node) : List Node :=
  g.filter fun n => decide (b.statusOf n = some ⟨.patch .magic, .ready⟩)

namespace Run

variable {σ : Type} [WordSource σ] {conf : Configuration} {c : Circuit} {b : Board} {rng : σ}
  {done : Finset Nat} {s s' : Run σ} {n : Node}

/-! ## The queries of a run -/

/-- The queries of the tick that begins in a state: those of packing, unless the tick passes without it or
an earlier packing is used again. -/
def queries (conf : Configuration) (c : Circuit) (s : Run σ) : List Packer.Query :=
  let rotations := offered conf c s
  let (ready, factories) := s.factories.takeStock s.board
  let available := ready ∪ s.board.withStatus .storage .ready
  let resettable := !(s.board.withStatus .storage .consumed).isEmpty
  if !resettable && available.isEmpty && onlyPi8 rotations then []
  else
    match s.cache.find (PackingCache.key available rotations) rotations s.board with
    | [] => s.packer.queries rotations s.board factories s.rng
    | _ => []

theorem mem_queries {q : Packer.Query} (h : q ∈ s.queries conf c) :
    q ∈ s.packer.queries (offered conf c s) s.board (s.factories.takeStock s.board).2 s.rng := by
  unfold queries at h
  dsimp only at h
  split at h
  · cases h
  · split at h
    · exact h
    · cases h

/-- A π/8 rotation that is done in a tick is given the answer to one of its queries, unless an earlier
packing is used again. -/
theorem exists_query_of_fill {f : Filled σ} (hs : s.Sound conf c rng done)
    (h : s.fill conf c = .ok f) {p : Packed} (hp : p ∈ f.assigned) (hk : p.rotation.kind = .pi8)
    (hfresh : s.cache.find (PackingCache.key
      (s.board.withStatus .magic .ready ∪ s.board.withStatus .storage .ready) (offered conf c s))
      (offered conf c s) s.board = []) : ∃ q ∈ s.queries conf c, Packer.Answers q p := by
  unfold fill at h
  obtain ⟨rotations, hrotations, h⟩ := exists_of_bind_eq_ok h
  obtain rfl := eq_of_rotationsAt hrotations
  dsimp only at h
  rw [show arrange conf.packingOrder (rotationsOf c s.candidates.toList) = offered conf c s from rfl] at h
  split at h
  · cases h
    cases hp
  · next hpacks =>
    obtain ⟨⟨assigned, run⟩, hpack, h⟩ := exists_of_bind_eq_ok h
    cases h
    have hnone : s.cache.find (PackingCache.key
        ((s.factories.takeStock s.board).1 ∪ s.board.withStatus .storage .ready) (offered conf c s))
        (offered conf c s) s.board = [] := hfresh
    have hqueries : s.queries conf c =
        s.packer.queries (offered conf c s) s.board (s.factories.takeStock s.board).2 s.rng := by
      unfold queries
      dsimp only
      rw [if_neg hpacks, hnone]
    unfold packOrReuse at hpack
    dsimp only at hpack
    rw [hnone] at hpack
    obtain ⟨r, hpacked, hpack⟩ := exists_of_bind_eq_ok hpack
    cases hpack
    rw [hqueries]
    exact Packer.exists_query_of_pack hs.packer hs.board hpacked hp hk

/-- What is left of a tick once it is filled. -/
theorem exists_advance_of_step {f : Filled σ} (hstep : s.step conf c = .ok s')
    (hfill : s.fill conf c = .ok f) : s'.packer = f.run.packer ∧ ∃ log,
      f.run.factories.advance f.assigned f.run.board f.run.log 1 = .ok (s'.factories, s'.board, log) := by
  obtain ⟨f', s₁, hfill', hcount, hadvance⟩ := exists_of_step_ok hstep
  obtain rfl := Except.ok.inj (hfill.symm.trans hfill')
  obtain ⟨idleTicks, rfl, -⟩ := (countIdle_ends conf _).of_ok hcount
  obtain ⟨⟨factories, board, log⟩, hfactories, hadvance⟩ := exists_of_bind_eq_ok hadvance
  obtain ⟨⟨progress, freed⟩, -, heq⟩ := exists_of_bind_eq_ok hadvance
  cases heq
  exact ⟨rfl, log, hfactories⟩

/-! ## Magic states in storages -/

/-- The magic state was moved into its storage in an earlier tick and has been spent ever since. -/
def Stowed (conf : Configuration) (c : Circuit) (b : Board) (rng : σ) (s : Run σ) (n : Node) : Prop :=
  ∃ s₀ f, Reachable conf c b rng s₀ ∧ s₀.factories.tick < s.factories.tick ∧
    s₀.fill conf c = .ok f ∧ Packer.Moved s₀.board f.run.board n ∧
    ∀ s₁, Reachable conf c b rng s₁ → s₀.factories.tick < s₁.factories.tick →
      s₁.factories.tick ≤ s.factories.tick → s₁.board.statusOf n = some ⟨.patch .magic, .depleted⟩

section Ticks

variable (hc : c.Numbered) (hb : b.Sound) (h : Reachable conf c b rng s)

include hc hb h

/-- After a tick, the magic states that are still in their storages are those that were before, if they
were spent, and those that were moved in this tick. -/
theorem stowed_step_iff {f : Filled σ} (hleft : s.candidates.isEmpty = false)
    (hstep : s.step conf c = .ok s') (hfill : s.fill conf c = .ok f)
    (hspent : s'.board.statusOf n = some ⟨.patch .magic, .depleted⟩) :
    s'.Stowed conf c b rng n ↔ Packer.Moved s.board f.run.board n ∨ s.Stowed conf c b rng n := by
  obtain ⟨done, hs⟩ := h.sound hc hb
  obtain ⟨f', hfill', hticks⟩ := exists_fill_of_step hc hs hstep
  have htick := hticks.tick
  constructor
  · rintro ⟨s₀, f₀, hreach, hlt, hfill₀, hmoved, hsince⟩
    rcases (show s₀.factories.tick ≤ s.factories.tick by omega).lt_or_eq with hbefore | hnow
    · exact Or.inr ⟨s₀, f₀, hreach, hbefore, hfill₀, hmoved, fun s₁ hs₁ hlater hle =>
        hsince s₁ hs₁ hlater (by omega)⟩
    · obtain rfl := hreach.eq_of_tick hc hb h hnow
      obtain rfl := Except.ok.inj (hfill₀.symm.trans hfill)
      exact Or.inl hmoved
  · have hnext := h.step hleft hstep
    rintro (hmoved | ⟨s₀, f₀, hreach, hlt, hfill₀, hmoved, hsince⟩)
    · refine ⟨s, f, h, by omega, hfill, hmoved, fun s₁ hs₁ hlater hle => ?_⟩
      obtain rfl := hs₁.eq_of_tick hc hb hnext (by omega)
      exact hspent
    · refine ⟨s₀, f₀, hreach, by omega, hfill₀, hmoved, fun s₁ hs₁ hlater hle => ?_⟩
      rcases (show s₁.factories.tick ≤ s'.factories.tick from hle).lt_or_eq with hbefore | hnow
      · exact hsince s₁ hs₁ hlater (by omega)
      · obtain rfl := hs₁.eq_of_tick hc hb hnext hnow
        exact hspent

omit hc hb in
/-- A magic state that is still in its storage is spent. -/
theorem Stowed.spent (hstowed : s.Stowed conf c b rng n) :
    s.board.statusOf n = some ⟨.patch .magic, .depleted⟩ := by
  obtain ⟨s₀, f₀, -, hlt, -, -, hsince⟩ := hstowed
  exact hsince s h hlt le_rfl

/-- Refills are in range in a state in which a magic state is ready. -/
theorem Reachable.replenish_range (hlt : conf.tickReplenish < 2 ^ 32) (hn : n.kind = .patch .magic)
    (hready : s.board.ticksOf n = some 0) (hnode : b.graph.hasNode n = true) :
    conf.tickReplenish + 1 < 2 ^ 31 := by
  have hrange := h.tickReplenish_lt hn hb hlt hnode
  cases h with
  | start hstart =>
    obtain ⟨⟨f, b'⟩, hsetup, hrest⟩ := exists_of_bind_eq_ok hstart
    cases hrest
    have hzero := (Factories.setUp_magic hb hlt hsetup hn hnode).2.symm.trans hready
    rw [Option.some_inj] at hzero
    omega
  | @step s₀ _ h _ hstep =>
    obtain ⟨done, hs⟩ := h.sound hc hb
    obtain ⟨f, hfill, -⟩ := exists_fill_of_step hc hs hstep
    obtain ⟨-, log, hadvance⟩ := exists_advance_of_step hstep hfill
    have hreplenish := ((fill_ends hs).of_ok hfill).setup.replenishTicks.trans hs.replenishTicks
    rw [← hreplenish] at hrange ⊢
    exact Factories.range_of_advance hadvance hrange

/-- A run fills the storages when it is configured to. -/
theorem Reachable.store : s.packer.store = conf.storeMagicStates := by
  induction h with
  | start hstart =>
    obtain ⟨r, -, hstart⟩ := exists_of_bind_eq_ok hstart
    cases hstart
    rfl
  | step h _ hstep ih =>
    obtain ⟨done, hs⟩ := h.sound hc hb
    obtain ⟨f, hfill, -⟩ := exists_fill_of_step hc hs hstep
    obtain ⟨hpacker, -⟩ := exists_advance_of_step hstep hfill
    rw [hpacker, ((fill_ends hs).of_ok hfill).config.store, ih]

end Ticks

/-! ## Flags -/

/-- Between two ticks, the factories list the magic states of the board, and among those that are spent,
the ones that are still in their storages count as in stock. -/
structure Tallied (conf : Configuration) (c : Circuit) (b : Board) (rng : σ) (s : Run σ) : Prop where
  listed : s.factories.Listed
  groups : ∀ n, n ∈ s.factories.groups.flatten ↔ b.graph.hasNode n = true ∧ n.kind = .patch .magic
  stowed : ∀ n ∈ s.factories.groups.flatten, s.board.ticksOf n = some Phase.depletedTicks →
    (s.factories.isInStock n = true ↔ s.Stowed conf c b rng n)

/-- The magic states that are still in their storages are those that are spent and count as in stock. -/
theorem Tallied.stowed_iff (ht : s.Tallied conf c b rng) (h : Reachable conf c b rng s)
    (hn : n ∈ s.factories.groups.flatten) :
    (s.board.ticksOf n = some Phase.depletedTicks ∧ s.factories.isInStock n = true) ↔
      s.Stowed conf c b rng n := by
  constructor
  · rintro ⟨hspent, hinStock⟩
    exact (ht.stowed n hn hspent).1 hinStock
  · intro hstowed
    have hspent := (statusOf_depleted_iff ((ht.groups n).1 hn).2).1 (hstowed.spent h)
    exact ⟨hspent, (ht.stowed n hn hspent).2 hstowed⟩

section Tally

variable (hc : c.Numbered) (hb : b.Sound) (hported : b.graph.Ported)
  (hlt : conf.tickReplenish < 2 ^ 32)

include hb hlt in
/-- When the factories are set up, no magic state is spent. -/
theorem tallied_start (hstart : start conf c b rng = .ok s) : s.Tallied conf c b rng := by
  obtain ⟨⟨f, b'⟩, hsetup, hrest⟩ := exists_of_bind_eq_ok hstart
  cases hrest
  have hplaced := ((Factories.setUp_ends hb _ _).of_ok hsetup).placed
  have hgroups : ∀ n, n ∈ f.groups.flatten ↔ _ := fun n => Factories.mem_groups_of_setUp hsetup
  refine ⟨Factories.listed_of_setUp hsetup hplaced.nodup, hgroups, fun n hn hspent => ?_⟩
  obtain ⟨hnode, hk⟩ := (hgroups n).1 hn
  have hticks := (Factories.setUp_magic hb hlt hsetup hk hnode).2.symm.trans hspent
  rw [Option.some_inj, Phase.depletedTicks] at hticks
  omega

include hc hb hported hlt

/-- A tick keeps the tally: a magic state that is consumed loses its flag, one that is moved into its
storage keeps it, and one that is refilled is not spent any more. -/
theorem Tallied.step (h : Reachable conf c b rng s) (ht : s.Tallied conf c b rng)
    (hleft : s.candidates.isEmpty = false) (hstep : s.step conf c = .ok s') :
    s'.Tallied conf c b rng := by
  obtain ⟨done, hs, hported', hnodes⟩ := h.ported hc hb hported
  obtain ⟨f, hfill, hticks⟩ := exists_fill_of_step hc hs hstep
  have hproceeds := proceeds_of_fill hs hfill
  have hfills := (fill_ends hs).of_ok hfill
  obtain ⟨-, log, hadvance⟩ := exists_advance_of_step hstep hfill
  have hflags := Factories.flags_of_advance hfills.packs.occupies.sound hadvance
  have hfactory : ∀ n, s'.factories.factoryOf? n = s.factories.factoryOf? n := by
    intro n
    obtain ⟨b₀, b₁, turnTicks, -, hcommits, -⟩ := hproceeds.course
    rw [(hflags n).1, (Factories.flags_of_commitAll hcommits n).2, Factories.factoryOf?_takeStock]
  refine ⟨ht.listed.congr hfactory hticks.groups, hticks.groups ▸ ht.groups, fun n hn hspent => ?_⟩
  rw [hticks.groups] at hn
  obtain ⟨hnode, hk⟩ := (ht.groups n).1 hn
  have hrange : 0 ≤ Factories.refillTicks f.run.factories.replenishTicks := by
    rw [hfills.setup.replenishTicks, hs.replenishTicks,
      Factories.refillTicks_of_lt (h.tickReplenish_lt hk hb hlt hnode)]
    split <;> omega
  obtain ⟨hspent₁, hflag⟩ := (hflags n).2 hrange hk hspent
  obtain ⟨id, rfl⟩ : ∃ id, n = magicNode id :=
    ⟨n.id, eq_magicNode hported' ((hnodes n).trans hnode) hk⟩
  have hbefore : s.board.ticksOf (magicNode id) = some 0 ∨
      s.board.ticksOf (magicNode id) = some Phase.depletedTicks := by
    cases hproceeds.fate hs.board hported' id with
    | kept hsame _ _ => exact Or.inr (hsame ▸ hspent₁)
    | consumed hready _ _ _ => exact Or.inl hready
    | moved hready _ _ _ => exact Or.inl hready
  rw [hflag, hproceeds.isInStock_iff hs.board hported' (ht.listed.isSome_factoryOf? hn) hbefore,
    hspent₁, ht.stowed_iff h hn,
    stowed_step_iff hc hb h hleft hstep hfill ((statusOf_depleted_iff hk).2 hspent)]
  exact or_iff_right (by decide)

/-- The tally is kept in every state of a run. -/
theorem Reachable.tallied (h : Reachable conf c b rng s) : s.Tallied conf c b rng := by
  induction h with
  | start hstart => exact tallied_start hb hlt hstart
  | step h hleft hstep ih => exact ih.step hc hb hported hlt h hleft hstep

end Tally

/-! ## What counts at a query -/

/-- The magic state is in its storage: it was moved there in this tick, after which the board is `b'`, or
in an earlier one. -/
def Away (conf : Configuration) (c : Circuit) (b : Board) (rng : σ) (s : Run σ) (b' : Board)
    (n : Node) : Prop :=
  Packer.Moved s.board b' n ∨ s.Stowed conf c b rng n

section Counting

variable (hc : c.Numbered) (hb : b.Sound) (hported : b.graph.Ported)
  (h : Reachable conf c b rng s)

include hc hb hported h

/-- No magic state is in a storage if storages are not filled. -/
theorem Reachable.not_away {ps : List Packed} {b' : Board} {f f' : Factories}
    (hnever : conf.storeMagicStates = .never) (hproceeds : s.packer.Proceeds ps s.board f b' f')
    (id : Nat) : ¬ s.Away conf c b rng b' (magicNode id) := by
  have hnot : ∀ {s : Run σ}, Reachable conf c b rng s → ∀ {ps : List Packed} {b' : Board}
      {f f' : Factories}, s.packer.Proceeds ps s.board f b' f' →
        ¬ Packer.Moved s.board b' (magicNode id) := by
    intro s h ps b' f f' hproceeds
    obtain ⟨done, hs, hported', -⟩ := h.ported hc hb hported
    exact hproceeds.not_moved hs.board hported' ((h.store hc hb).trans hnever) id
  rintro (hmoved | ⟨s₀, f₀, hreach, -, hfill, hmoved, -⟩)
  · exact hnot h hproceeds hmoved
  · obtain ⟨done, hs⟩ := hreach.sound hc hb
    exact hnot hreach (proceeds_of_fill hs hfill) hmoved

variable (hlt : conf.tickReplenish < 2 ^ 32) {ps : List Packed} {b' : Board} {f' : Factories}
  (hproceeds : s.packer.Proceeds ps s.board (s.factories.takeStock s.board).2 b' f')

include hlt hproceeds

/-- Within a tick, a magic state of a factory in use counts as in stock if it is ready, or else if it is in
its storage. -/
theorem Reachable.isInStock_iff (hn : n ∈ s.factories.groups.flatten)
    (hbefore : s.board.ticksOf n = some 0 ∨ s.board.ticksOf n = some Phase.depletedTicks) :
    (f'.isInStock n = true ↔
      b'.statusOf n = some ⟨.patch .magic, .ready⟩ ∨ s.Away conf c b rng b' n) ∧
    (s.Away conf c b rng b' n → b'.statusOf n = some ⟨.patch .magic, .depleted⟩) := by
  obtain ⟨done, hs, hported', hnodes⟩ := h.ported hc hb hported
  have ht := h.tallied hc hb hported hlt
  obtain ⟨hnode, hk⟩ := (ht.groups n).1 hn
  have hstowed := ht.stowed_iff h hn
  obtain ⟨id, rfl⟩ : ∃ id, n = magicNode id :=
    ⟨n.id, eq_magicNode hported' ((hnodes n).trans hnode) hk⟩
  rw [statusOf_ready_iff hk, statusOf_depleted_iff hk]
  refine ⟨?_, ?_⟩
  · rw [hproceeds.isInStock_iff hs.board hported' (ht.listed.isSome_factoryOf? hn) hbefore, hstowed]
    rfl
  · unfold Away
    rw [← hstowed]
    cases hproceeds.fate hs.board hported' id with
    | kept hsame _ hmoved =>
      rintro (hmoved' | ⟨hspent, -⟩)
      · exact absurd hmoved' hmoved
      · exact hsame.trans hspent
    | consumed _ hspent _ _ => exact fun _ => hspent
    | moved _ hspent _ _ => exact fun _ => hspent

/-- Within a tick, a magic state that was ready when the tick began is as plentiful as its factory has
states ready and states in storages. -/
theorem Reachable.scarcity? (hn : n.kind = .patch .magic) (hready : s.board.ticksOf n = some 0) :
    ∃ g ∈ s.factories.groups, n ∈ g ∧ ∃ away : List Node, away.Nodup ∧
      (∀ m, m ∈ away ↔ m ∈ g ∧ s.Away conf c b rng b' m) ∧
      f'.scarcity? n = some ((b'.readyIn g).length + away.length) := by
  obtain ⟨done, hs, hported', hnodes⟩ := h.ported hc hb hported
  have ht := h.tallied hc hb hported hlt
  have hnode : b.graph.hasNode n = true := hnodes n ▸ (hs.board.timed n).2 ⟨0, hready⟩
  have hcycling := hs.cycling (h.replenish_range hc hb hlt hn hready hnode)
  obtain ⟨b₀, b₁, turnTicks, htended, hcommits, -⟩ := hproceeds.course
  have hgroups : f'.groups = s.factories.groups := by
    have hb₀ := (htended.stows hs.board hported').tends.occupies.sound
    exact ((commitAll_storages hb₀ hproceeds.own hcommits).2.2.1.groups).trans
      (Factories.takeStock_setup s.factories s.board).groups
  have hlisted : f'.Listed := ht.listed.congr
    (fun n => (Factories.flags_of_commitAll hcommits n).2.trans Factories.factoryOf?_takeStock) hgroups
  obtain ⟨g, hg, hng, hscarcity⟩ := hlisted.scarcity? hn (hgroups ▸ (ht.groups n).2 ⟨hnode, hn⟩)
  rw [hgroups] at hg
  -- a factory with a ready state is in use
  have hinUse : ∀ m ∈ g, s.board.ticksOf m = some 0 ∨ s.board.ticksOf m = some Phase.depletedTicks := by
    rcases hcycling.group g hg with ⟨t, hpos, -, hall⟩ | ⟨hall, -⟩
    · have := Option.some_inj.1 (hready.symm.trans (hall n hng))
      omega
    · exact hall
  have hinStock := fun m (hm : m ∈ g) => h.isInStock_iff hc hb hported hlt hproceeds
    (List.mem_flatten_of_mem hg hm) (hinUse m hm)
  have hnodup : g.Nodup := (List.nodup_flatten.1 hs.placed.nodup).1 g hg
  refine ⟨g, hg, hng, (g.filter f'.isInStock).filter fun m =>
    !decide (b'.statusOf m = some ⟨.patch .magic, .ready⟩), (hnodup.filter _).filter _,
    fun m => ?_, ?_⟩
  · rw [List.mem_filter, List.mem_filter, and_assoc]
    refine and_congr_right fun hm => ?_
    obtain ⟨hcounts, haway⟩ := hinStock m hm
    rw [hcounts, Bool.not_eq_true', decide_eq_false_iff_not]
    constructor
    · rintro ⟨hready | haway, hnot⟩
      · exact absurd hready hnot
      · exact haway
    · intro hm
      refine ⟨Or.inr hm, fun hready => ?_⟩
      cases hready.symm.trans (haway hm)
  · have hready : (g.filter f'.isInStock).filter (fun m =>
        decide (b'.statusOf m = some ⟨.patch .magic, .ready⟩)) = b'.readyIn g := by
      rw [List.filter_filter]
      refine List.filter_congr fun m hm => ?_
      by_cases hm' : b'.statusOf m = some ⟨.patch .magic, .ready⟩
      · simp [hm', (hinStock m hm).1.2 (Or.inl hm')]
      · simp [hm']
    rw [hscarcity, List.length_eq_length_filter_add, hready]

end Counting

end Run

/-- On a board of a layout, parts of which may be left unused, whenever a π/8 rotation is to be given a
magic state, the factories count each of the magic states from which one is chosen as being as plentiful as
its factory has states ready on the board, and besides states in storages, of which there are none if
storages are not filled. This is the count by which the π/8 rotations of every tick are given theirs,
unless an earlier packing is used again. -/
theorem stock_counted {σ : Type} [WordSource σ] (rng : σ) {l : Layout} {b : Board}
    (hb : Board.ofLayout l = .ok b) (unused : List Node) {c : Circuit} (hc : c.Numbered)
    {conf : Configuration} (hlt : conf.tickReplenish < 2 ^ 32) {s : Run σ}
    (hs : Run.Reachable conf c (b.removeNodes unused) rng s) :
    (∀ q ∈ s.queries conf c, ∀ n ∈ q.candidates, n.kind = .patch .magic →
      ∃ g ∈ s.factories.groups, n ∈ g ∧ ∃ away : List Node, away.Nodup ∧
        (∀ m, m ∈ away ↔ m ∈ g ∧ s.Away conf c (b.removeNodes unused) rng q.desk.board m) ∧
        (conf.storeMagicStates = .never → away = []) ∧
        q.desk.factories.scarcity? n = some ((q.desk.board.readyIn g).length + away.length)) ∧
    ∀ f, s.fill conf c = .ok f →
      s.cache.find (PackingCache.key
        (s.board.withStatus .magic .ready ∪ s.board.withStatus .storage .ready)
        (Run.offered conf c s)) (Run.offered conf c s) s.board = [] →
      ∀ p ∈ f.assigned, p.rotation.kind = .pi8 → ∃ q ∈ s.queries conf c, Packer.Answers q p := by
  have hsound := (Board.ofLayout_spec hb).1
  have hunused := hsound.removeNodes unused
  have hported := ported_removeNodes hsound.graph (ported_ofLayout hb) unused
  obtain ⟨done, hsound', hported', hnodes⟩ := hs.ported hc hunused hported
  refine ⟨fun q hq n hn hk => ?_, fun f hfill hfresh p hp hk =>
    Run.exists_query_of_fill hsound' hfill hp hk hfresh⟩
  obtain ⟨⟨ps, hproceeds⟩, hready⟩ :=
    Packer.proceeds_of_mem_queries hsound'.packer hsound'.board (Run.mem_queries hq)
  obtain ⟨g, hg, hng, away, hnodup, haway, hcount⟩ :=
    hs.scarcity? hc hunused hported hlt hproceeds hk (hready n hn hk)
  refine ⟨g, hg, hng, away, hnodup, haway, fun hnever => ?_, hcount⟩
  refine List.eq_nil_iff_forall_not_mem.2 fun m hm => ?_
  obtain ⟨hmg, hm⟩ := (haway m).1 hm
  have hmem := List.mem_flatten_of_mem hg hmg
  have hplaced := eq_magicNode hported' (hsound'.placed.node m hmem) (hsound'.placed.kind m hmem)
  rw [hplaced] at hm
  exact hs.not_away hc hunused hported hnever hproceeds m.id hm

/-- Three magic states at a row of bus tiles, with a storage and a data patch. -/
def scarceRow : Layout where
  bus := SortedSet.ofList [⟨0, 0⟩, ⟨1, 0⟩, ⟨2, 0⟩, ⟨3, 0⟩, ⟨4, 0⟩]
  data := SortedSet.ofList [⟨0, 1⟩]
  magic := SortedSet.ofList [⟨1, -1⟩, ⟨2, -1⟩, ⟨4, -1⟩]
  zero := ∅
  storage := SortedSet.ofList [⟨3, -1⟩]

/-- Two magic states make a factory, and magic states are stored before packing. -/
def scarceStates : Configuration :=
  { tickReplenish := 0, magicStatesPerFactory := 2, storeMagicStates := .beforePacking }

/-- The magic state in the storage is the first one of the row, which was moved there in the tick in which
the rotation is done. Its factory has one more state ready. -/
theorem scarceRow_counted : ∃ b s, Board.ofLayout scarceRow = .ok b ∧
    Run.start scarceStates (repeated .pi8 1) (b.removeNodes []) (⟨[0], 0⟩ : CyclicWords) = .ok s ∧
    (∃ q ∈ s.queries scarceStates (repeated .pi8 1), q.desk.factories.scarcity? (magicNode 1) = some 2 ∧
      ∃ g ∈ s.factories.groups, (q.desk.board.readyIn g).length = 1 ∧
        ∃ m ∈ g, s.Away scarceStates (repeated .pi8 1) (b.removeNodes []) (⟨[0], 0⟩ : CyclicWords)
          q.desk.board m) ∧
    ∃ q ∈ s.queries scarceStates (repeated .pi8 1), ∃ p : Packed, p.rotation.kind = .pi8 ∧
      Packer.Answers q p := by
  have hrun : (Board.ofLayout scarceRow).toOption.any (fun b =>
      (Run.start scarceStates (repeated .pi8 1) (b.removeNodes [])
        (⟨[0], 0⟩ : CyclicWords)).toOption.any fun s =>
          (s.queries scarceStates (repeated .pi8 1)).any (fun q =>
            decide (magicNode 1 ∈ q.candidates ∧
              q.desk.factories.scarcity? (magicNode 1) = some 2 ∧
              ∀ g ∈ s.factories.groups, (q.desk.board.readyIn g).length = 1)) &&
          (s.fill scarceStates (repeated .pi8 1)).toOption.any fun f =>
            f.assigned.any (fun p => decide (p.rotation.kind = .pi8)) &&
              decide (s.cache.find (PackingCache.key
                (s.board.withStatus .magic .ready ∪ s.board.withStatus .storage .ready)
                (Run.offered scarceStates (repeated .pi8 1) s))
                (Run.offered scarceStates (repeated .pi8 1) s) s.board = [])) = true := by
    decide +kernel
  obtain ⟨b, hb, hrun⟩ := exists_of_any_toOption hrun
  obtain ⟨s, hs, hrun⟩ := exists_of_any_toOption hrun
  rw [Bool.and_eq_true] at hrun
  obtain ⟨hquery, hfilled⟩ := hrun
  obtain ⟨q, hq, hquery⟩ := List.any_eq_true.1 hquery
  obtain ⟨hn, htwo, hone⟩ := of_decide_eq_true hquery
  obtain ⟨f, hfill, hfilled⟩ := exists_of_any_toOption hfilled
  rw [Bool.and_eq_true] at hfilled
  obtain ⟨hpacked, hfresh⟩ := hfilled
  obtain ⟨p, hp, hk⟩ := List.any_eq_true.1 hpacked
  have hnumbered : (repeated .pi8 1).Numbered := by
    intro i r hr
    match i, hr with
    | 0, hr => cases hr; rfl
  obtain ⟨hcounted, hanswered⟩ := stock_counted (⟨[0], 0⟩ : CyclicWords) hb [] hnumbered
    (by decide : scarceStates.tickReplenish < 2 ^ 32) (.start hs)
  obtain ⟨g, hg, -, away, -, haway, -, hcount⟩ := hcounted q hq (magicNode 1) hn rfl
  obtain ⟨q', hq', hanswers⟩ := hanswered f hfill (of_decide_eq_true hfresh) p hp (of_decide_eq_true hk)
  refine ⟨b, s, hb, hs, ⟨q, hq, htwo, g, hg, hone g hg, ?_⟩, q', hq', p, of_decide_eq_true hk, hanswers⟩
  rw [htwo, hone g hg, Option.some_inj] at hcount
  obtain ⟨m, hm⟩ := List.exists_mem_of_length_pos (show 0 < away.length by omega)
  exact ⟨m, (haway m).1 hm⟩

/-- The first magic state of the row is moved into the storage, but still counts as in stock. So the
second one, of the same factory, is passed over for the third one, which is farther away, though each of
the two factories has one state ready. -/
theorem exists_passed_over : ∃ b s, Board.ofLayout scarceRow = .ok b ∧
    Run.start scarceStates (repeated .pi8 1) (b.removeNodes []) (⟨[0], 0⟩ : CyclicWords) = .ok s ∧
    s.factories.groups = [[magicNode 0, magicNode 1], [magicNode 2]] ∧
    ∃ q ∈ s.queries scarceStates (repeated .pi8 1), magicNode 1 ∈ q.candidates ∧
      q.desk.factories.scarcity? (magicNode 1) = some 2 ∧
      q.desk.board.readyIn [magicNode 0, magicNode 1] = [magicNode 1] ∧
      q.desk.board.readyIn [magicNode 2] = [magicNode 2] ∧
      (q.sub.path? (magicNode 1) q.target).map Prod.fst = some 200002 ∧
      (q.sub.path? (magicNode 2) q.target).map Prod.fst = some 200004 ∧
      q.answer.map Prod.fst = some (magicNode 2) := by
  have hrun : (Board.ofLayout scarceRow).toOption.any (fun b =>
      (Run.start scarceStates (repeated .pi8 1) (b.removeNodes [])
        (⟨[0], 0⟩ : CyclicWords)).toOption.any fun s =>
          decide (s.factories.groups = [[magicNode 0, magicNode 1], [magicNode 2]]) &&
          (s.queries scarceStates (repeated .pi8 1)).any fun q =>
            decide (magicNode 1 ∈ q.candidates ∧
              q.desk.factories.scarcity? (magicNode 1) = some 2 ∧
              q.desk.board.readyIn [magicNode 0, magicNode 1] = [magicNode 1] ∧
              q.desk.board.readyIn [magicNode 2] = [magicNode 2] ∧
              (q.sub.path? (magicNode 1) q.target).map Prod.fst = some 200002 ∧
              (q.sub.path? (magicNode 2) q.target).map Prod.fst = some 200004 ∧
              q.answer.map Prod.fst = some (magicNode 2))) = true := by
    decide +kernel
  obtain ⟨b, hb, hrun⟩ := exists_of_any_toOption hrun
  obtain ⟨s, hs, hrun⟩ := exists_of_any_toOption hrun
  rw [Bool.and_eq_true] at hrun
  obtain ⟨hgroups, hquery⟩ := hrun
  obtain ⟨q, hq, hquery⟩ := List.any_eq_true.1 hquery
  exact ⟨b, s, hb, hs, of_decide_eq_true hgroups, q, hq, of_decide_eq_true hquery⟩

end LatticeSurgery
