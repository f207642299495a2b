import LatticeSurgery.Proofs.Dependency.Counts
import Mathlib.Data.Set.Card
import Mathlib.Order.Bounds.Basic

/-!
# Levels

The levels of a progress are found by completing what is unblocked, then what this unblocks, and so on.
None of these completions fails, and they end when nothing is left (`Progress.Levelled`). A rotation is
on the level that its longest chain of blockers says, counted among the rotations that are not done
(`levels_count_chains`).

The argument goes level by level. After `k` levels, what is done is what was done before and all
rotations without a chain longer than `k` (`Blockers.Within`); this decides what the next level is.
-/

namespace LatticeSurgery

open Blockers

namespace Blockers

variable {b : Blockers} {waiting : Nat → Prop} {i j n k : Nat}

/-- A chain of so many waiting rotations, each a blocker of the next one, ends with the rotation. -/
inductive ChainTo (b : Blockers) (waiting : Nat → Prop) : Nat → Nat → Prop
  /-- The rotation alone. -/
  | single {j : Nat} (hj : waiting j) : ChainTo b waiting j 1
  /-- A chain, and a rotation behind its last one. -/
  | snoc {i j n : Nat} (h : ChainTo b waiting i n) (hb : b.Blocks i j) (hj : waiting j) :
      ChainTo b waiting j (n + 1)

theorem ChainTo.waits (h : b.ChainTo waiting j n) : waiting j := by
  cases h <;> assumption

/-- The longest chain that ends with the rotation has the length `n`. -/
def Depth (b : Blockers) (waiting : Nat → Prop) (j n : Nat) : Prop :=
  IsGreatest {m | b.ChainTo waiting j m} n

/-- The rotation waits, and no chain that ends with it is longer than `n`. -/
def Within (b : Blockers) (waiting : Nat → Prop) (n j : Nat) : Prop :=
  waiting j ∧ ∀ m, b.ChainTo waiting j m → m ≤ n

theorem Within.mono (h : b.Within waiting n j) (hnk : n ≤ k) : b.Within waiting k j :=
  ⟨h.1, fun m hm => (h.2 m hm).trans hnk⟩

theorem not_within_zero : ¬ b.Within waiting 0 j := fun h =>
  absurd (h.2 1 (.single h.1)) (by decide)

/-- Chains to a rotation are one longer than the chains to its blockers. -/
theorem within_succ_iff : b.Within waiting (n + 1) j ↔
    waiting j ∧ ∀ i, b.Blocks i j → waiting i → b.Within waiting n i := by
  refine and_congr_right fun hj => ⟨fun h i hb hi => ⟨hi, fun m hm => ?_⟩, fun h m hm => ?_⟩
  · have := h (m + 1) (.snoc hm hb hj)
    omega
  · cases hm with
    | single => omega
    | @snoc i _ m hm hb _ => exact Nat.succ_le_succ ((h i hb hm.waits).2 m hm)

theorem depth_succ_iff : b.Depth waiting j (n + 1) ↔
    b.Within waiting (n + 1) j ∧ ¬ b.Within waiting n j := by
  constructor
  · rintro ⟨hchain, hle⟩
    exact ⟨⟨hchain.waits, fun m hm => hle hm⟩, fun h => absurd (h.2 _ hchain) (by omega)⟩
  · rintro ⟨h, hnot⟩
    refine ⟨?_, fun m hm => h.2 m hm⟩
    obtain ⟨m, hm, hlt⟩ : ∃ m, b.ChainTo waiting j m ∧ n < m := by
      by_contra hall
      push Not at hall
      exact hnot ⟨h.1, hall⟩
    obtain rfl : m = n + 1 := le_antisymm (h.2 m hm) hlt
    exact hm

theorem not_depth_zero : ¬ b.Depth waiting j 0 := fun h => nomatch h.1

/-- The numbers say how many rotations have a longest chain of each length, from one up to the length of
the longest chain of all. -/
structure Tallied (b : Blockers) (waiting : Nat → Prop) (sizes : List Nat) : Prop where
  size : ∀ m n, sizes[m]? = some n → 0 < n ∧ n = {j | b.Depth waiting j (1 + m)}.ncard
  within : ∀ j, waiting j → b.Within waiting sizes.length j

variable {sizes : List Nat}

theorem Tallied.range_of_depth (h : b.Tallied waiting sizes) {d : Nat} (hd : b.Depth waiting j d) :
    1 ≤ d ∧ d ≤ sizes.length := by
  cases d with
  | zero => exact absurd hd not_depth_zero
  | succ d => exact ⟨Nat.succ_pos d, (h.within j (depth_succ_iff.1 hd).1.1).2 _ hd.1⟩

/-- Every length that occurs has its number. -/
theorem Tallied.getElem?_iff (h : b.Tallied waiting sizes) {d n : Nat} :
    (∃ m, d = 1 + m ∧ sizes[m]? = some n) ↔ 0 < n ∧ n = {j | b.Depth waiting j d}.ncard := by
  constructor
  · rintro ⟨m, rfl, hget⟩
    exact h.size m n hget
  · rintro ⟨hpos, rfl⟩
    obtain ⟨j, hj⟩ := Set.nonempty_of_ncard_ne_zero hpos.ne'
    obtain ⟨hone, hle⟩ := h.range_of_depth hj
    obtain ⟨m, rfl⟩ := Nat.exists_eq_add_of_le hone
    have hget : sizes[m]? = some sizes[m] := List.getElem?_eq_getElem (by omega)
    exact ⟨m, rfl, (h.size m _ hget).2 ▸ hget⟩

/-- There are as many numbers as the longest chain has rotations. -/
theorem Tallied.isGreatest_length (h : b.Tallied waiting sizes) :
    IsGreatest {n | n = 0 ∨ ∃ j, b.ChainTo waiting j n} sizes.length := by
  constructor
  · cases hsizes : sizes.length with
    | zero => exact Or.inl rfl
    | succ m =>
      have hget : sizes[m]? = some sizes[m] := List.getElem?_eq_getElem (by omega)
      obtain ⟨hpos, heq⟩ := h.size m _ hget
      obtain ⟨j, hj⟩ := Set.nonempty_of_ncard_ne_zero (heq ▸ hpos).ne'
      rw [Nat.add_comm] at hj
      exact Or.inr ⟨j, hj.1⟩
  · rintro n (rfl | ⟨j, hj⟩)
    · exact Nat.zero_le _
    · exact (h.within j hj.waits).2 n hj

end Blockers

namespace Progress

/-- Levels are completed one after the other until one is empty, and no completion fails. The numbers are
the sizes of the levels. -/
inductive Levelled : Progress → SortedSet Nat → List Nat → Prop
  /-- An empty level is the end. -/
  | nil {p : Progress} {level : SortedSet Nat} (hempty : level.isEmpty = true) : Levelled p level []
  /-- A level is completed, and what this unblocks is the next one. -/
  | cons {p p' : Progress} {level next : SortedSet Nat} {sizes : List Nat}
      (hsome : level.isEmpty = false) (hok : p.complete level = .ok (p', next))
      (rest : Levelled p' next sizes) : Levelled p level (level.size :: sizes)

variable {p p' q p₀ : Progress} {b : Blockers} {known : Nat → Prop} {done : Finset Nat}
  {level next : SortedSet Nat} {sizes : List Nat} {k : Nat}

/-- The number of members of a set that is described by a property. -/
theorem size_eq_ncard {s : SortedSet Nat} {P : Nat → Prop} (h : ∀ j, j ∈ s ↔ P j) :
    s.size = {j | P j}.ncard := by
  have hset : {j | P j} = ↑s.toList.toFinset := by
    ext j
    rw [Finset.mem_coe, List.mem_toFinset, Set.mem_ofPred_eq, ← h]
    rfl
  rw [hset, Set.ncard_coe_finset, List.toFinset_card_of_nodup s.nodup]
  rfl

/-! ## The histogram -/

theorem map_fst_depthHistogram (p : Progress) :
    p.depthHistogram.map Prod.fst = List.range' 1 p.levels.length := by
  rw [depthHistogram, List.map_map]
  exact List.zipIdx_map_snd 1 p.levels

theorem map_snd_depthHistogram (p : Progress) : p.depthHistogram.map Prod.snd = p.levels := by
  rw [depthHistogram, List.map_map]
  exact List.zipIdx_map_fst 1 p.levels

theorem mem_depthHistogram {d n : Nat} :
    (d, n) ∈ p.depthHistogram ↔ ∃ m, d = 1 + m ∧ p.levels[m]? = some n := by
  rw [depthHistogram, List.mem_map]
  constructor
  · rintro ⟨⟨n', d'⟩, hmem, heq⟩
    obtain ⟨rfl, rfl⟩ := Prod.mk.inj heq
    obtain ⟨hle, hget⟩ := List.mk_mem_zipIdx_iff_le_and_getElem?_sub.1 hmem
    exact ⟨d' - 1, by omega, hget⟩
  · rintro ⟨m, rfl, hget⟩
    refine ⟨(n, 1 + m), List.mk_mem_zipIdx_iff_le_and_getElem?_sub.2 ⟨by omega, ?_⟩, rfl⟩
    rwa [Nat.add_sub_cancel_left]

/-! ## One level -/

/-- The state after `k` levels, when the rotations of `done` were done before the first one: of the
others, those without a chain longer than `k` are done, and those with a longest chain of `k + 1` are the
next level. -/
structure AtLevel (b : Blockers) (known : Nat → Prop) (done : Finset Nat) (k : Nat) (p : Progress)
    (level : SortedSet Nat) : Prop where
  /-- What is done is counted. -/
  counts : ∃ done', p.Counts b known done' ∧ ∀ j, known j →
    (j ∈ done' ↔ j ∈ done ∨ b.Within (fun j => known j ∧ j ∉ done) k j)
  /-- The next level. -/
  level : ∀ j, j ∈ level ↔ b.Depth (fun j => known j ∧ j ∉ done) j (k + 1)

section Level

variable (hlt : ∀ i j, b.Blocks i j → i < j) (hknown : ∀ i j, b.Blocks i j → known j → known i)

include hknown in
theorem Counts.atLevel (h : p.Counts b known done) : AtLevel b known done 0 p p.unblocked := by
  refine ⟨⟨done, h, fun j hj => ?_⟩, fun j => ?_⟩
  · simp [not_within_zero]
  · rw [unblocked, SortedMap.mem_keySet_filter, depth_succ_iff, within_succ_iff]
    simp only [decide_eq_true_eq, exists_eq_right, not_within_zero, not_false_eq_true, and_true,
      imp_false, h.pending_eq_zero, ← and_assoc]
    refine and_congr_right fun hj => forall_congr' fun i => imp_congr_right fun hb => ?_
    simp [hknown i j hb hj.1]

/-- The rotations that are known and not done have been counted. -/
theorem AtLevel.mem_keys (h : AtLevel b known done k p level) {j : Nat} : j ∈ p.pending.keys ↔
    (known j ∧ j ∉ done) ∧ ¬ b.Within (fun j => known j ∧ j ∉ done) k j := by
  obtain ⟨done', hcounts, hdone'⟩ := h.counts
  rw [SortedMap.mem_keys_iff]
  simp only [hcounts.pending, exists_and_left, exists_eq, and_true, and_assoc]
  refine and_congr_right fun hj => ?_
  rw [hdone' j hj, not_or]

include hknown in
/-- A level is completed without fail, and what this unblocks is the next level. -/
theorem AtLevel.complete (hclosed : ∀ i j, b.Blocks i j → j ∈ done → i ∈ done)
    (h : AtLevel b known done k p level) : ∃ p' next, p.complete level = .ok (p', next) ∧
      AtLevel b known done (k + 1) p' next := by
  obtain ⟨done', hcounts, hdone'⟩ := h.counts
  have hlevel : ∀ j, j ∈ level ↔ _ := fun j => (h.level j).trans depth_succ_iff
  have hclear : ∀ i ∈ level, ¬ b.Obstructed known done' level.toList i := by
    intro j hj
    obtain ⟨hwithin, hnot⟩ := (hlevel j).1 hj
    obtain ⟨⟨hj, hopen⟩, hblockers⟩ := within_succ_iff.1 hwithin
    rintro (hn | hin | ⟨i, hb, hi, -⟩)
    · exact hn hj
    · exact ((hdone' j hj).1 hin).elim hopen hnot
    · have hi' := hknown i j hb hj
      rw [hdone' i hi', not_or] at hi
      exact hi.2 (hblockers i hb ⟨hi', hi.1⟩)
  obtain ⟨⟨p', next⟩, hok, -, hcounts', hnext⟩ := ((hcounts.complete level).mono
    (fun e ⟨i, hi, hobstructed, _⟩ => hclear i hi hobstructed) fun _ hr => hr).exists_ok
  have hdone'' : ∀ j, known j → (j ∈ done' ∪ level.toList.toFinset ↔
      j ∈ done ∨ b.Within (fun j => known j ∧ j ∉ done) (k + 1) j) := by
    intro j hj
    rw [Finset.mem_union, List.mem_toFinset, hdone' j hj, SortedSet.mem_toList, hlevel]
    constructor
    · rintro ((hj | hj) | hj)
      · exact Or.inl hj
      · exact Or.inr (hj.mono (Nat.le_succ k))
      · exact Or.inr hj.1
    · rintro (hj | hj)
      · exact Or.inl (Or.inl hj)
      · by_cases hk : b.Within (fun j => known j ∧ j ∉ done) k j
        · exact Or.inl (Or.inr hk)
        · exact Or.inr ⟨hj, hk⟩
  refine ⟨p', next, hok, ⟨_, hcounts', hdone''⟩, fun j => ?_⟩
  rw [hnext, depth_succ_iff, within_succ_iff, within_succ_iff]
  constructor
  · rintro ⟨hj, ⟨i, hb, hi⟩, hall⟩
    have hki := hknown i j hb hj
    rw [hdone' i hki, not_or] at hi
    have hwaiting : known j ∧ j ∉ done := ⟨hj, fun hin => hi.1 (hclosed i j hb hin)⟩
    refine ⟨⟨hwaiting, fun m hbm hm => ?_⟩, fun hshort => hi.2 (hshort.2 i hb ⟨hki, hi.1⟩)⟩
    exact ((hdone'' m hm.1).1 (hall m hbm)).resolve_left hm.2
  · rintro ⟨⟨hj, hall⟩, hlong⟩
    obtain ⟨i, hb, hi, hnot⟩ : ∃ i, b.Blocks i j ∧ (known i ∧ i ∉ done) ∧
        ¬ b.Within (fun j => known j ∧ j ∉ done) k i := by
      by_contra hnone
      push Not at hnone
      exact hlong ⟨hj, hnone⟩
    refine ⟨hj.1, ⟨i, hb, ?_⟩, fun m hbm => ?_⟩
    · rw [hdone' i hi.1, not_or]
      exact ⟨hi.2, hnot⟩
    · have hm := hknown m j hbm hj.1
      rw [hdone'' m hm]
      by_cases hin : m ∈ done
      · exact Or.inl hin
      · exact Or.inr (hall m hbm ⟨hm, hin⟩)

include hlt in
/-- If a level is empty, nothing is left: the smallest rotation that is left would be on it. -/
theorem AtLevel.within_of_isEmpty (h : AtLevel b known done k p level) (hempty : level.isEmpty = true)
    {j : Nat} (hj : known j ∧ j ∉ done) : b.Within (fun j => known j ∧ j ∉ done) k j := by
  induction j using Nat.strong_induction_on with
  | _ j ih =>
    by_contra hnot
    refine SortedSet.isEmpty_iff.1 hempty j ((h.level j).2 (depth_succ_iff.2 ⟨?_, hnot⟩))
    exact within_succ_iff.2 ⟨hj, fun i hb hi => ih i (hlt i j hb) hi⟩

/-- Completing a level takes it from what is left. -/
theorem AtLevel.remaining (h : AtLevel b known done k p level)
    (h' : AtLevel b known done (k + 1) p' next) : level.size + p'.remaining = p.remaining := by
  have hkeys : ∀ q : Progress, q.remaining = q.pending.keys.toFinset.card := fun q => by
    have hcard := List.toFinset_card_of_nodup q.pending.keySet.nodup
    exact (hcard.trans (List.length_map Prod.fst)).symm
  have hsplit : p.pending.keys.toFinset = level.toList.toFinset ∪ p'.pending.keys.toFinset := by
    ext j
    rw [Finset.mem_union, List.mem_toFinset, List.mem_toFinset, List.mem_toFinset, h.mem_keys,
      h'.mem_keys, SortedSet.mem_toList, h.level, depth_succ_iff]
    constructor
    · rintro ⟨hj, hk⟩
      by_cases hk' : b.Within (fun j => known j ∧ j ∉ done) (k + 1) j
      · exact Or.inl ⟨hk', hk⟩
      · exact Or.inr ⟨hj, hk'⟩
    · rintro (⟨hk', hk⟩ | ⟨hj, hk'⟩)
      · exact ⟨hk'.1, hk⟩
      · exact ⟨hj, fun hk => hk' (hk.mono (Nat.le_succ k))⟩
  have hapart : Disjoint level.toList.toFinset p'.pending.keys.toFinset := by
    refine Finset.disjoint_left.2 fun j hj hj' => ?_
    rw [List.mem_toFinset, SortedSet.mem_toList, h.level, depth_succ_iff] at hj
    rw [List.mem_toFinset, h'.mem_keys] at hj'
    exact hj'.2 hj.1
  rw [hkeys, hkeys, hsplit, Finset.card_union_of_disjoint hapart,
    List.toFinset_card_of_nodup level.nodup]
  rfl

/-! ## All levels -/

variable (hclosed : ∀ i j, b.Blocks i j → j ∈ done → i ∈ done)

include hknown hclosed in
/-- There are enough steps to complete all levels. -/
theorem AtLevel.levelled (steps : Nat) (h : AtLevel b known done k p level)
    (hsteps : p.remaining ≤ steps) : Levelled p level (levelsFrom steps p level) := by
  induction steps generalizing k p level with
  | zero =>
    obtain ⟨p', next, -, h'⟩ := h.complete hknown hclosed
    have hsum := h.remaining h'
    refine .nil (List.isEmpty_iff_length_eq_zero.2 ?_)
    change level.size = 0
    omega
  | succ steps ih =>
    unfold levelsFrom
    by_cases hempty : level.isEmpty = true
    · rw [if_pos hempty]
      exact .nil hempty
    · obtain ⟨p', next, hok, h'⟩ := h.complete hknown hclosed
      have hsum := h.remaining h'
      rw [Bool.not_eq_true] at hempty
      have hpos : 0 < level.size := by
        obtain ⟨j, hj⟩ := SortedSet.isEmpty_eq_false_iff.1 hempty
        exact List.length_pos_of_mem hj
      rw [if_neg (by simp [hempty]), hok]
      exact .cons hempty hok (ih h' (by omega))

include hlt hknown hclosed in
/-- The levels from the next one on: how many rotations each of them has, that none is empty, that no
rotation has a longer chain, and that together they have all that is left. -/
theorem Levelled.spec (hlevels : Levelled p level sizes) (h : AtLevel b known done k p level) :
    (∀ m n, sizes[m]? = some n → 0 < n ∧
      n = {j | b.Depth (fun j => known j ∧ j ∉ done) j (k + 1 + m)}.ncard) ∧
    (∀ j, known j ∧ j ∉ done → b.Within (fun j => known j ∧ j ∉ done) (k + sizes.length) j) ∧
    sizes.sum = p.remaining := by
  induction hlevels generalizing k with
  | @nil p level hempty =>
    have hall : ∀ j, known j ∧ j ∉ done → b.Within (fun j => known j ∧ j ∉ done) k j :=
      fun j hj => h.within_of_isEmpty hlt hempty hj
    refine ⟨by simp, hall, ?_⟩
    have hnone : p.pending.keys = [] := List.eq_nil_iff_forall_not_mem.2 fun j hj =>
      (h.mem_keys.1 hj).2 (hall j (h.mem_keys.1 hj).1)
    rw [remaining, SortedMap.size, List.map_eq_nil_iff.1 hnone]
    rfl
  | @cons p p' level next sizes hsome hok _ ih =>
    obtain ⟨p'', next', hok', h'⟩ := h.complete hknown hclosed
    obtain ⟨rfl, rfl⟩ := Prod.mk.inj (Except.ok.inj (hok.symm.trans hok'))
    obtain ⟨hsizes, hall, hsum⟩ := ih h'
    refine ⟨fun m n hm => ?_, fun j hj => ?_, ?_⟩
    · cases m with
      | zero =>
        cases hm
        obtain ⟨j, hj⟩ := SortedSet.isEmpty_eq_false_iff.1 hsome
        exact ⟨List.length_pos_of_mem hj, size_eq_ncard h.level⟩
      | succ m =>
        have hlater := hsizes m n hm
        rwa [show k + 1 + 1 + m = k + 1 + (m + 1) by omega] at hlater
    · exact (hall j hj).mono (by rw [List.length_cons]; omega)
    · rw [List.sum_cons, hsum, h.remaining h']

end Level

/-! ## Circuits -/

section Circuit

variable {c : Circuit} {calls : List (SortedSet Nat)} (hc : c.Numbered) (hstart : Starts c known p₀)

include hc hstart

/-- Rotations wait for earlier ones that are covered as well. -/
theorem Starts.blocks {i j : Nat} (h : p₀.blockers.Blocks i j) : i < j ∧ (known j → known i) := by
  cases hstart with
  | all rule =>
    have hij := (hc.orders rule).lt i j (blocks_ofCircuit.1 h)
    exact ⟨hij, fun hj => hij.trans hj⟩
  | pi8 =>
    obtain ⟨⟨hij, -⟩, hi, -⟩ := hc.sharesPi8_of_blocks h
    exact ⟨hij, fun _ => hi⟩

/-- As long as calls succeed, the levels can be completed one after the other without fail. The levels
are counted from one, the number of rotations on a level is the number of those of no call whose longest
chain of blockers among these is as long as the level says, and each of them is on a level. There are as
many levels as the longest chain has rotations. -/
theorem levels_count_chains (h : p₀.Calls calls p) :
    p.Levelled p.unblocked p.levels ∧
    p.depthHistogram.map Prod.fst = List.range' 1 p.levels.length ∧
    p.depthHistogram.map Prod.snd = p.levels ∧
    (∀ d n, (d, n) ∈ p.depthHistogram ↔
      0 < n ∧ n = {j | p₀.blockers.Depth (fun j => known j ∧ j ∉ called calls) j d}.ncard) ∧
    (p.depthHistogram.map Prod.snd).sum = p.remaining ∧
    IsGreatest {n | n = 0 ∨ ∃ j, p₀.blockers.ChainTo (fun j => known j ∧ j ∉ called calls) j n}
      p.depthHistogram.length := by
  have hcounts := h.counts (hstart.counts hc)
  rw [Finset.empty_union] at hcounts
  have hlt : ∀ i j, p₀.blockers.Blocks i j → i < j := fun i j hb => (hstart.blocks hc hb).1
  have hknown : ∀ i j, p₀.blockers.Blocks i j → known j → known i := fun i j hb =>
    (hstart.blocks hc hb).2
  have hatLevel := hcounts.atLevel hknown
  have hlevelled := hatLevel.levelled hknown hcounts.closed p.remaining le_rfl
  obtain ⟨hsizes, hall, hsum⟩ := hlevelled.spec hlt hknown hcounts.closed hatLevel
  rw [Nat.zero_add] at hsizes hall
  have htallied : p₀.blockers.Tallied (fun j => known j ∧ j ∉ called calls) p.levels := ⟨hsizes, hall⟩
  have hlength : p.depthHistogram.length = p.levels.length := by
    rw [← p.map_snd_depthHistogram, List.length_map]
  refine ⟨hlevelled, p.map_fst_depthHistogram, p.map_snd_depthHistogram,
    fun d n => mem_depthHistogram.trans htallied.getElem?_iff, ?_, ?_⟩
  · rw [p.map_snd_depthHistogram]
    exact hsum
  · rw [hlength]
    exact htallied.isGreatest_length

end Circuit

/-- When the first rotation of the chained circuit is done, the second one is on the first level and the
two behind it are on one level each. -/
theorem chainedCircuit_levels_count_chains : chainedCircuit.Numbered ∧
    ∃ p freed, (ofCircuit chainedCircuit .trivialCommute).complete (SortedSet.ofList [0]) =
        .ok (p, freed) ∧
      p.depthHistogram = [(1, 1), (2, 1), (3, 1)] ∧
      p.Levelled p.unblocked p.levels ∧
      IsGreatest {n | n = 0 ∨ ∃ j, (ofCircuit chainedCircuit .trivialCommute).blockers.ChainTo
        (fun j => j < 4 ∧ j ∉ called [SortedSet.ofList [0]]) j n} 3 := by
  have hc := chainedCircuit_numbered
  obtain ⟨p, freed, hok, hhistogram⟩ : ∃ p freed,
      (ofCircuit chainedCircuit .trivialCommute).complete (SortedSet.ofList [0]) = .ok (p, freed) ∧
        p.depthHistogram = [(1, 1), (2, 1), (3, 1)] := ⟨_, _, rfl, by decide⟩
  obtain ⟨hlevelled, -, -, -, -, hgreatest⟩ :=
    levels_count_chains hc (.all .trivialCommute) (.cons hok (.nil p))
  rw [hhistogram] at hgreatest
  exact ⟨hc, p, freed, hok, hhistogram, hlevelled, hgreatest⟩

end Progress

end LatticeSurgery
