import LatticeSurgery.Board.Countdowns
import LatticeSurgery.Proofs.Collections

/-!
# Indexed countdowns

The two indices of `Countdowns` repeat what the countdowns say, and every countdown has a meaning
for its node: this is `Countdowns.Sound`, which placing, removing and changing a countdown keep.
Under it, each index is a question about countdowns, and only which of the statuses have a list at all
is not (`Countdowns.Sound.eq_of_get?`).
-/

namespace LatticeSurgery

open Ordered

/-! ## What a countdown means -/

/-- A countdown has a meaning for a node. -/
def Node.Means (n : Node) (t : Int) : Prop := (Status.ofTicks n t).isSome = true

theorem Node.means_of_nonneg {n : Node} {t : Int} (h : 0 ≤ t) : n.Means t := by
  unfold Node.Means Status.ofTicks Phase.ofTicks
  split
  · rfl
  · rw [if_pos (by omega)]
    split <;> rfl

theorem Node.means_depleted {n : Node} (h : n.kind = .patch .magic) :
    n.Means Phase.depletedTicks := by
  unfold Node.Means Status.ofTicks
  rw [h]
  rfl

theorem Node.means_storage {n : Node} (h : n.kind = .patch .storage) {t : Int}
    (ht : t = Phase.consumedTicks ∨ t = Phase.connectingTicks ∨ t = Phase.emptyTicks) :
    n.Means t := by
  unfold Node.Means Status.ofTicks
  rw [h]
  rcases ht with rfl | rfl | rfl <;> rfl

/-- Bus tiles, data patches and zero states have no resting state. -/
theorem Node.Means.nonneg {n : Node} {t : Int} (h : n.Means t) (hm : n.kind ≠ .patch .magic)
    (hs : n.kind ≠ .patch .storage) : 0 ≤ t := by
  by_contra hlt
  unfold Node.Means Status.ofTicks Phase.ofTicks at h
  rw [if_neg (by omega), if_neg (by omega)] at h
  split at h <;> simp_all

/-- The only resting state of a magic state is to be spent. -/
theorem Node.Means.of_magic {n : Node} {t : Int} (h : n.Means t) (hn : n.kind = .patch .magic) :
    0 ≤ t ∨ t = Phase.depletedTicks := by
  by_contra hnot
  rw [not_or] at hnot
  unfold Node.Means Status.ofTicks Phase.ofTicks at h
  rw [if_neg (by omega), if_neg (by omega), hn] at h
  dsimp only at h
  rw [if_neg hnot.2] at h
  cases h

theorem Status.kind_of_ofTicks {n : Node} {t : Int} {s : Status} (h : ofTicks n t = some s) :
    s.kind = n.kind := by
  obtain ⟨p, -, rfl⟩ := Option.map_eq_some_iff.1 h
  rfl

/-- The status depends on the kind of the node only. -/
theorem Status.ofTicks_congr {n m : Node} (h : n.kind = m.kind) (t : Int) :
    ofTicks n t = ofTicks m t := by
  unfold ofTicks
  rw [h]

/-- Only zero means ready. -/
theorem Phase.ofTicks_ready_iff {k : NodeKind} {t : Int} : ofTicks k t = some .ready ↔ t = 0 := by
  constructor
  · intro h
    by_contra ht
    unfold ofTicks at h
    rw [if_neg ht] at h
    cases k with
    | bus => split_ifs at h; cases h
    | patch k => cases k <;> dsimp only at h <;> split_ifs at h <;> cases h
  · rintro rfl
    rfl

/-- A node is ready when its countdown is zero. -/
theorem Status.ofTicks_ready_iff {n : Node} {t : Int} {k : NodeKind} :
    ofTicks n t = some ⟨k, .ready⟩ ↔ n.kind = k ∧ t = 0 := by
  rw [ofTicks, Option.map_eq_some_iff, ← Phase.ofTicks_ready_iff (k := n.kind)]
  constructor
  · rintro ⟨p, hp, heq⟩
    cases heq
    exact ⟨rfl, hp⟩
  · rintro ⟨rfl, hp⟩
    exact ⟨.ready, hp, rfl⟩

/-- A magic state is depleted when its countdown says so. -/
theorem Status.ofTicks_depleted_iff {n : Node} {t : Int} (hn : n.kind = .patch .magic) :
    ofTicks n t = some ⟨.patch .magic, .depleted⟩ ↔ t = Phase.depletedTicks := by
  unfold ofTicks Phase.ofTicks
  rw [hn]
  constructor
  · intro h
    by_contra ht
    dsimp only at h
    split_ifs at h <;> cases h
  · rintro rfl
    rfl

namespace Countdowns

variable {c : Countdowns} {n m : Node} {t : Int}

/-- The indices agree with the countdowns, each of which has a meaning. -/
structure Sound (c : Countdowns) : Prop where
  withStatus : ∀ s n, n ∈ c.withStatus s ↔ ∃ t, c.get? n = some t ∧ Status.ofTicks n t = some s
  unavailable : ∀ n, n ∈ c.unavailable ↔ ∃ t, c.get? n = some t ∧ n.isClosed t = true
  means : ∀ n t, c.get? n = some t → n.Means t

theorem get?_place (c : Countdowns) (n m : Node) (t : Int) :
    (c.place n t).get? m = if same m n then some t else c.get? m :=
  SortedMap.get?_insert _ _ _ _

theorem get?_remove (c : Countdowns) (n m : Node) :
    (c.remove n).get? m = if same n m then none else c.get? m := by
  unfold remove
  split
  · next hnone =>
    split
    · next h => rw [← same_iff.1 h, hnone]
    · rfl
  · exact SortedMap.get?_erase _ _ _

theorem get?_set (c : Countdowns) (n m : Node) (t : Int) :
    (c.set n t).get? m = if same m n then some t else c.get? m := by
  rw [set, get?_place, get?_remove]
  split
  · rfl
  · next h => rw [if_neg (by simpa using Ne.symm (by simpa using h))]

theorem sound_empty : (∅ : Countdowns).Sound := by
  refine ⟨fun s n => ?_, fun n => ?_, fun n t h => ?_⟩
  · refine ⟨fun h => absurd h (SortedSet.not_mem_empty n), ?_⟩
    rintro ⟨t, ht, -⟩
    cases ht
  · refine ⟨fun h => absurd h (SortedSet.not_mem_empty n), ?_⟩
    rintro ⟨t, ht, -⟩
    cases ht
  · cases h

theorem Sound.place (hc : c.Sound) (hn : c.get? n = none) (ht : n.Means t) :
    (c.place n t).Sound := by
  obtain ⟨s₀, hs₀⟩ := Option.isSome_iff_exists.1 ht
  have hfresh : ∀ s, n ∉ c.withStatus s := fun s h => by
    obtain ⟨t', ht', -⟩ := (hc.withStatus s n).1 h
    rw [hn] at ht'
    cases ht'
  refine ⟨fun s m => ?_, fun m => ?_, fun m t' h => ?_⟩
  · have hindex : (c.place n t).withStatus s =
        if same s s₀ then (c.withStatus s₀).insert n else c.withStatus s := by
      unfold Countdowns.place Countdowns.withStatus
      rw [hs₀]
      exact SortedMap.getD_insert _ _ _ _ _
    rw [hindex, get?_place]
    by_cases hm : m = n
    · subst hm
      simp only [same_self, if_true, Option.some.injEq, exists_eq_left', hs₀]
      by_cases hs : s = s₀
      · simp [hs]
      · rw [if_neg (by simpa using hs)]
        exact ⟨fun h => absurd h (hfresh s), fun h => absurd h.symm hs⟩
    · rw [if_neg (show ¬ same m n = true by simpa using hm), ← hc.withStatus]
      by_cases hs : s = s₀
      · simp [hs, hm]
      · rw [if_neg (by simpa using hs)]
  · rw [get?_place]
    have hindex : (c.place n t).unavailable =
        if n.isClosed t = true then c.unavailable.insert n else c.unavailable := rfl
    have hopen : n ∉ c.unavailable := fun h => by
      obtain ⟨t', ht', -⟩ := (hc.unavailable n).1 h
      rw [hn] at ht'
      cases ht'
    rw [hindex]
    by_cases hm : m = n
    · subst hm
      by_cases hclosed : m.isClosed t = true <;> simp [hclosed, hopen]
    · rw [if_neg (show ¬ same m n = true by simpa using hm), ← hc.unavailable]
      by_cases hclosed : n.isClosed t = true <;> simp [hclosed, hm]
  · rw [get?_place] at h
    split at h
    · next hm =>
      cases h
      rw [same_iff.1 hm]
      exact ht
    · exact hc.means m t' h

theorem Sound.remove (hc : c.Sound) (n : Node) : (c.remove n).Sound := by
  cases hn : c.get? n with
  | none =>
    unfold Countdowns.remove
    rw [hn]
    exact hc
  | some t =>
    obtain ⟨s₀, hs₀⟩ := Option.isSome_iff_exists.1 (hc.means n t hn)
    have hindex : ∀ s m, m ∈ (c.remove n).withStatus s ↔ m ∈ c.withStatus s ∧ m ≠ n := by
      intro s m
      have hentry : (c.remove n).withStatus s = if same s s₀ then
          ((c.byStatus.get? s).map (SortedSet.erase · n)).getD ∅ else c.withStatus s := by
        unfold Countdowns.remove Countdowns.withStatus SortedMap.getD
        rw [hn]
        simp only [hs₀, SortedMap.get?_modify]
        split <;> rfl
      rw [hentry]
      by_cases hs : s = s₀
      · subst hs
        rw [if_pos (same_self s), Countdowns.withStatus, SortedMap.getD]
        cases c.byStatus.get? s with
        | none => simp
        | some l => simp [eq_comm]
      · rw [if_neg (by simpa using hs)]
        refine ⟨fun h => ⟨h, ?_⟩, And.left⟩
        rintro rfl
        obtain ⟨t', ht', hs'⟩ := (hc.withStatus s m).1 h
        rw [hn, Option.some_inj] at ht'
        rw [← ht', hs₀, Option.some_inj] at hs'
        exact hs hs'.symm
    have hget : ∀ m t', (c.remove n).get? m = some t' ↔ c.get? m = some t' ∧ m ≠ n := by
      intro m t'
      rw [get?_remove]
      split
      · next h => simp [same_iff.1 h]
      · next h => simp [show m ≠ n from fun hm => h (same_iff.2 hm.symm)]
    have hopen : ∀ m, m ∈ (c.remove n).unavailable ↔ m ∈ c.unavailable ∧ m ≠ n := by
      intro m
      unfold Countdowns.remove
      rw [hn]
      simp [eq_comm]
    refine ⟨fun s m => ?_, fun m => ?_, fun m t' h => hc.means m t' ((hget m t').1 h).1⟩
    · simp only [hindex, hc.withStatus, hget]
      constructor
      · rintro ⟨⟨t', ht', hs⟩, hm⟩
        exact ⟨t', ⟨ht', hm⟩, hs⟩
      · rintro ⟨t', ⟨ht', hm⟩, hs⟩
        exact ⟨⟨t', ht', hs⟩, hm⟩
    · simp only [hopen, hc.unavailable, hget]
      constructor
      · rintro ⟨⟨t', ht', hs⟩, hm⟩
        exact ⟨t', ⟨ht', hm⟩, hs⟩
      · rintro ⟨t', ⟨ht', hm⟩, hs⟩
        exact ⟨⟨t', ht', hs⟩, hm⟩

theorem Sound.set (hc : c.Sound) (ht : n.Means t) : (c.set n t).Sound :=
  (hc.remove n).place (by rw [get?_remove, if_pos (same_self n)]) ht

/-! ## Which statuses have a list -/

variable {c' : Countdowns} {s : Status}

/-- There is a list of the nodes with the status, which may be empty. -/
def Lists (c : Countdowns) (s : Status) : Prop := c.byStatus.contains s = true

theorem lists_place : (c.place n t).Lists s ↔ c.Lists s ∨ Status.ofTicks n t = some s := by
  unfold Lists SortedMap.contains place
  cases hs : Status.ofTicks n t with
  | none => simp
  | some s₀ =>
    dsimp only
    rw [SortedMap.get?_insert]
    split
    · next h => simp [same_iff.1 h]
    · next h => simp [show ¬ s₀ = s from fun heq => h (same_iff.2 heq.symm)]

theorem lists_remove : (c.remove n).Lists s ↔ c.Lists s := by
  unfold remove
  split
  · exact Iff.rfl
  · unfold Lists SortedMap.contains
    dsimp only
    split
    · rw [SortedMap.get?_modify]
      split
      · next h => rw [Option.isSome_map]
      · exact Iff.rfl
    · exact Iff.rfl

/-- When a countdown changes, its node is listed under the new status, and no list disappears. -/
theorem lists_set : (c.set n t).Lists s ↔ c.Lists s ∨ Status.ofTicks n t = some s := by
  rw [set, lists_place, lists_remove]

/-- The status of every node has a list. -/
theorem Sound.lists_of_get? (hc : c.Sound) (hn : c.get? n = some t)
    (hs : Status.ofTicks n t = some s) : c.Lists s := by
  have hmem : n ∈ c.withStatus s := (hc.withStatus s n).2 ⟨t, hn, hs⟩
  unfold Countdowns.withStatus SortedMap.getD at hmem
  unfold Lists SortedMap.contains
  cases h : c.byStatus.get? s with
  | none =>
    rw [h] at hmem
    exact absurd hmem (SortedSet.not_mem_empty n)
  | some l => rfl

/-- Countdowns with the same lists are the same when they give every node the same one. -/
theorem Sound.eq_of_get? (hc : c.Sound) (hc' : c'.Sound) (hget : ∀ n, c.get? n = c'.get? n)
    (hlists : ∀ s, c.Lists s ↔ c'.Lists s) : c = c' := by
  have hticks : c.ticks = c'.ticks := SortedMap.ext_get? hget
  have hclosed : c.unavailable = c'.unavailable := SortedSet.ext_mem fun n => by
    rw [hc.unavailable, hc'.unavailable, hget]
  have hstatus : c.byStatus = c'.byStatus := SortedMap.ext_get? fun s => by
    have hmem : c.withStatus s = c'.withStatus s := SortedSet.ext_mem fun n => by
      rw [hc.withStatus, hc'.withStatus, hget]
    have hlist := hlists s
    unfold Lists SortedMap.contains at hlist
    rw [Countdowns.withStatus, Countdowns.withStatus, SortedMap.getD, SortedMap.getD] at hmem
    cases h : c.byStatus.get? s <;> cases h' : c'.byStatus.get? s <;> simp_all
  cases c
  cases c'
  exact Countdowns.mk.injEq .. ▸ ⟨hticks, hstatus, hclosed⟩

end Countdowns

end LatticeSurgery
