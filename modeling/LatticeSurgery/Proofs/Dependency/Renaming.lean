import LatticeSurgery.Dependency.Progress
import LatticeSurgery.Proofs.Dependency.Rules
import Mathlib.Data.Set.Function

/-!
# Dependencies under renaming

When the qubits of a circuit are placed, every set of qubits is built anew with the numbers of the
patches, in a new order. As long as different qubits get different patches, nothing that the dependency
rules look at depends on the numbers: what two rotations share, how many qubits they share with which
operators, and whether they are the same operation. So a rotation waits for the same rotations before and
after the placement, under every rule (`Circuit.place_keeps_dependencies`).

The names are different on a set `qs` of qubits, to which all qubits of the rotations belong.
-/

namespace LatticeSurgery

namespace SortedSet

variable {α β : Type} [Ordered α] [Ordered β] {f : α → β} {s t : SortedSet α} {qs : Set α}

section InjOn

variable (hf : Set.InjOn f qs) (hs : ∀ a ∈ s, a ∈ qs) (ht : ∀ a ∈ t, a ∈ qs)

include hf hs

theorem apply_mem_map_iff {a : α} (ha : a ∈ qs) : f a ∈ s.map f ↔ a ∈ s := by
  rw [mem_map]
  constructor
  · rintro ⟨b, hb, heq⟩
    exact hf (hs b hb) ha heq ▸ hb
  · exact fun h => ⟨a, h, rfl⟩

theorem size_map : (s.map f).size = s.size := by
  have hnodup : (s.toList.map f).Nodup :=
    s.nodup.map_on fun a ha b hb => hf (hs a ha) (hs b hb)
  have hperm : (s.map f).toList.Perm (s.toList.map f) :=
    (List.perm_ext_iff_of_nodup (s.map f).nodup hnodup).2 fun b => mem_ofList
  exact hperm.length_eq.trans (List.length_map f)

include ht

theorem map_inter : (s ∩ t).map f = s.map f ∩ t.map f := by
  refine ext_mem fun b => ?_
  rw [mem_inter, mem_map, mem_map]
  constructor
  · rintro ⟨a, ha, rfl⟩
    rw [mem_inter] at ha
    exact ⟨⟨a, ha.1, rfl⟩, (apply_mem_map_iff hf ht (hs a ha.1)).2 ha.2⟩
  · rintro ⟨⟨a, ha, rfl⟩, hb⟩
    exact ⟨a, mem_inter.2 ⟨ha, (apply_mem_map_iff hf ht (hs a ha)).1 hb⟩, rfl⟩

theorem disjoint_map : (s.map f).disjoint (t.map f) = s.disjoint t := by
  rw [Bool.eq_iff_iff, disjoint_iff, disjoint_iff]
  constructor
  · intro h a ha hat
    exact h (f a) (mem_map.2 ⟨a, ha, rfl⟩) (mem_map.2 ⟨a, hat, rfl⟩)
  · intro h b hb hbt
    obtain ⟨a, ha, rfl⟩ := mem_map.1 hb
    exact h a ha ((apply_mem_map_iff hf ht (hs a ha)).1 hbt)

theorem map_eq_map_iff : s.map f = t.map f ↔ s = t := by
  refine ⟨fun h => ext_mem fun a => ?_, fun h => h ▸ rfl⟩
  constructor
  · exact fun ha => (apply_mem_map_iff hf ht (hs a ha)).1 (h ▸ mem_map.2 ⟨a, ha, rfl⟩)
  · exact fun ha => (apply_mem_map_iff hf hs (ht a ha)).1 (h ▸ mem_map.2 ⟨a, ha, rfl⟩)

end InjOn

end SortedSet

variable {name : Nat → Nat} {qs : Set Nat} {a b : Rotation} {rs : List Rotation}

namespace Rotation

open Dependency

theorem xPart_rename (name : Nat → Nat) (r : Rotation) :
    (r.rename name).xPart = r.xPart.map name := by
  rw [xPart, xPart, SortedSet.map_union]
  rfl

theorem zPart_rename (name : Nat → Nat) (r : Rotation) :
    (r.rename name).zPart = r.zPart.map name := by
  rw [zPart, zPart, SortedSet.map_union]
  rfl

section InjOn

variable (hname : Set.InjOn name qs) (ha : ∀ q ∈ a.activeQubits, q ∈ qs)
  (hb : ∀ q ∈ b.activeQubits, q ∈ qs)

include hname ha hb

theorem triviallyCommutes_rename :
    (a.rename name).triviallyCommutes (b.rename name) = a.triviallyCommutes b := by
  rw [triviallyCommutes, triviallyCommutes, activeQubits_rename, activeQubits_rename]
  exact SortedSet.disjoint_map hname ha hb

/-- Whether two rotations commute does not depend on the numbers of the qubits. -/
theorem commutes_rename : (a.rename name).commutes (b.rename name) = a.commutes b := by
  have hsize : ∀ s t : SortedSet Nat, (∀ q ∈ s, q ∈ qs) → (∀ q ∈ t, q ∈ qs) →
      (s.map name ∩ t.map name).size = (s ∩ t).size := by
    intro s t hs ht
    rw [← SortedSet.map_inter hname hs ht]
    exact SortedSet.size_map hname fun q hq => hs q (SortedSet.mem_inter.1 hq).1
  have hax : ∀ q ∈ a.xPart, q ∈ qs := fun q hq => ha q (activeQubits_of_xPart hq)
  have haz : ∀ q ∈ a.zPart, q ∈ qs := fun q hq => ha q (activeQubits_of_zPart hq)
  have hbx : ∀ q ∈ b.xPart, q ∈ qs := fun q hq => hb q (activeQubits_of_xPart hq)
  have hbz : ∀ q ∈ b.zPart, q ∈ qs := fun q hq => hb q (activeQubits_of_zPart hq)
  rw [commutes, commutes, triviallyCommutes_rename hname ha hb, xPart_rename, xPart_rename,
    zPart_rename, zPart_rename, hsize _ _ hax hbz, hsize _ _ haz hbx]
  rfl

/-- Whether two rotations are the same operation does not depend on the numbers of the qubits. -/
theorem shapeOf_rename_eq_iff :
    shapeOf (a.rename name) = shapeOf (b.rename name) ↔ shapeOf a = shapeOf b := by
  have hmap : ∀ s t : SortedSet Nat, (∀ q ∈ s, q ∈ a.activeQubits) →
      (∀ q ∈ t, q ∈ b.activeQubits) → (s.map name = t.map name ↔ s = t) := fun s t hs ht =>
    SortedSet.map_eq_map_iff hname (fun q hq => ha q (hs q hq)) fun q hq => hb q (ht q hq)
  rw [shapeOf_eq_iff, shapeOf_eq_iff]
  refine and_congr_right fun _ => and_congr (hmap _ _ ?_ ?_) (and_congr (hmap _ _ ?_ ?_)
    (hmap _ _ ?_ ?_))
  all_goals
    intro q hq
    rw [mem_activeQubits]
    tauto

end InjOn

end Rotation

namespace Dependency

variable {memo memo' : CommutationMemo}

/-! ## Rotations that share a qubit -/

/-- The latest rotation on a qubit is the latest one on its patch. -/
theorem lastWritersFrom_rename (hname : Set.InjOn name qs)
    (hrs : ∀ r ∈ rs, ∀ q ∈ r.activeQubits, q ∈ qs) {writers writers' : SortedMap Nat Nat}
    (hw : ∀ q ∈ qs, writers'.get? (name q) = writers.get? q) (b : Blockers) :
    lastWritersFrom (rs.map (Rotation.rename name)) writers' b = lastWritersFrom rs writers b := by
  induction rs generalizing writers writers' b with
  | nil => rfl
  | cons r rest ih =>
    have hr : ∀ q ∈ r.activeQubits, q ∈ qs := hrs r List.mem_cons_self
    have hblockers : SortedSet.ofList ((r.rename name).activeQubits.toList.filterMap writers'.get?) =
        SortedSet.ofList (r.activeQubits.toList.filterMap writers.get?) := by
      refine SortedSet.ext_mem fun i => ?_
      rw [SortedSet.mem_ofList, SortedSet.mem_ofList, List.mem_filterMap, List.mem_filterMap,
        Rotation.activeQubits_rename]
      constructor
      · rintro ⟨p, hp, hi⟩
        obtain ⟨q, hq, rfl⟩ := SortedSet.mem_map.1 hp
        exact ⟨q, hq, hw q (hr q hq) ▸ hi⟩
      · rintro ⟨q, hq, hi⟩
        exact ⟨name q, SortedSet.mem_map.2 ⟨q, hq, rfl⟩, (hw q (hr q hq)).trans hi⟩
    rw [List.map_cons, lastWritersFrom, lastWritersFrom, hblockers]
    refine ih (fun s hs => hrs s (List.mem_cons_of_mem _ hs)) (fun q hq => ?_) _
    rw [get?_foldl_writers, get?_foldl_writers, hw q hq, Rotation.activeQubits_rename]
    exact if_congr (SortedSet.apply_mem_map_iff hname hr hq) rfl rfl

/-! ## Rotations that do not commute -/

theorem noncommutingFrom_rename (hname : Set.InjOn name qs)
    (hrs : ∀ r ∈ rs, ∀ q ∈ r.activeQubits, q ∈ qs) (b : Blockers) :
    noncommutingFrom (rs.map (Rotation.rename name)) b = noncommutingFrom rs b := by
  induction rs generalizing b with
  | nil => rfl
  | cons a rest ih =>
    have hrest : ∀ r ∈ rest, ∀ q ∈ r.activeQubits, q ∈ qs := fun r hr =>
      hrs r (List.mem_cons_of_mem _ hr)
    rw [List.map_cons, noncommutingFrom, noncommutingFrom, List.foldl_map]
    have hfold : rest.foldl (fun bs r => if (a.rename name).commutes (r.rename name) then bs
          else bs.add a.index r.index) b =
        rest.foldl (fun bs r => if a.commutes r then bs else bs.add a.index r.index) b := by
      refine List.foldl_ext _ _ _ fun bs r hr => ?_
      rw [Rotation.commutes_rename hname (hrs a List.mem_cons_self) (hrest r hr)]
    exact (ih hrest _).trans (congrArg _ hfold)

/-! ## The trimmed rule -/

/-- The answers that are remembered are kept under other shapes, but they are right ones. -/
theorem blockUntilSame_rename (hname : Set.InjOn name qs) (ha : ∀ q ∈ a.activeQubits, q ∈ qs)
    (hrs : ∀ r ∈ rs, ∀ q ∈ r.activeQubits, q ∈ qs) (hm : memo.Right) (hm' : memo'.Right)
    (b : Blockers) :
    (blockUntilSame (a.rename name) (rs.map (Rotation.rename name)) memo' b).2 =
      (blockUntilSame a rs memo b).2 := by
  induction rs generalizing memo memo' b with
  | nil => rfl
  | cons r rest ih =>
    have hr : ∀ q ∈ r.activeQubits, q ∈ qs := hrs r List.mem_cons_self
    have hsame : Ordered.same (shapeOf (a.rename name)) (shapeOf (r.rename name)) =
        Ordered.same (shapeOf a) (shapeOf r) := by
      rw [Bool.eq_iff_iff, Ordered.same_iff, Ordered.same_iff]
      exact Rotation.shapeOf_rename_eq_iff hname ha hr
    rw [List.map_cons, blockUntilSame, blockUntilSame, hsame]
    split
    · rfl
    · obtain ⟨hanswer, hright⟩ := commutesMemo_spec hm a r
      obtain ⟨hanswer', hright'⟩ := commutesMemo_spec hm' (a.rename name) (r.rename name)
      rw [Rotation.commutes_rename hname ha hr] at hanswer'
      dsimp only
      rw [hanswer, hanswer']
      exact ih (fun s hs => hrs s (List.mem_cons_of_mem _ hs)) hright hright' _

theorem trimmedFrom_rename (hname : Set.InjOn name qs)
    (hrs : ∀ r ∈ rs, ∀ q ∈ r.activeQubits, q ∈ qs) (hm : memo.Right) (hm' : memo'.Right)
    (b : Blockers) :
    trimmedFrom (rs.map (Rotation.rename name)) memo' b = trimmedFrom rs memo b := by
  induction rs generalizing memo memo' b with
  | nil => rfl
  | cons a rest ih =>
    have ha : ∀ q ∈ a.activeQubits, q ∈ qs := hrs a List.mem_cons_self
    have hrest : ∀ r ∈ rest, ∀ q ∈ r.activeQubits, q ∈ qs := fun r hr =>
      hrs r (List.mem_cons_of_mem _ hr)
    have hright := (blockUntilSame_spec a rest hm b).1
    have hright' := (blockUntilSame_spec (a.rename name) (rest.map (Rotation.rename name)) hm' b).1
    rw [List.map_cons, trimmedFrom, trimmedFrom]
    dsimp only
    rw [blockUntilSame_rename hname ha hrest hm hm' b]
    exact ih hrest hright hright' _

end Dependency

/-! ## All rules -/

theorem DependencyRule.blockers_rename (rule : DependencyRule) (hname : Set.InjOn name qs)
    (hrs : ∀ r ∈ rs, ∀ q ∈ r.activeQubits, q ∈ qs) :
    rule.blockers (rs.map (Rotation.rename name)) = rule.blockers rs := by
  cases rule with
  | trivialCommute => exact Dependency.lastWritersFrom_rename hname hrs (fun _ _ => rfl) ∅
  | full => exact Dependency.noncommutingFrom_rename hname hrs ∅
  | fullTrimmed =>
    exact Dependency.trimmedFrom_rename hname hrs Dependency.right_empty Dependency.right_empty ∅

namespace Circuit

/-- The qubits on which some rotation of a circuit acts. -/
def usedQubits (c : Circuit) : Set Nat := {q | ∃ r ∈ c.rotations, q ∈ r.activeQubits}

/-- If the qubits that a circuit uses get different patches, where one without a patch keeps its number,
then the rotations commute as they did before, and each waits for the rotations for which it waited
before: under every rule, and among the π/8 rotations alone. -/
theorem place_keeps_dependencies {c : Circuit} {patches : SortedMap Nat Nat}
    (hpatches : Set.InjOn (fun q => patches.getD q q) c.usedQubits) :
    (∀ (i j : Nat) (r s : Rotation), c.rotations[i]? = some r → c.rotations[j]? = some s →
      ∃ r' s', (c.place patches).rotations[i]? = some r' ∧
        (c.place patches).rotations[j]? = some s' ∧
        r'.commutes s' = r.commutes s ∧ r'.triviallyCommutes s' = r.triviallyCommutes s) ∧
    (∀ rule, Progress.ofCircuit (c.place patches) rule = Progress.ofCircuit c rule) ∧
    Progress.ofPi8 (c.place patches) = Progress.ofPi8 c := by
  have hused : ∀ r ∈ c.rotations, ∀ q ∈ r.activeQubits, q ∈ c.usedQubits :=
    fun r hr q hq => ⟨r, hr, hq⟩
  have hindex : ∀ rs : List Rotation, (rs.map (Rotation.rename fun q => patches.getD q q)).map
      Rotation.index = rs.map Rotation.index := fun rs => List.map_map
  refine ⟨fun i j r s hr hs => ?_, fun rule => ?_, ?_⟩
  · have hget : ∀ (k : Nat) (t : Rotation), c.rotations[k]? = some t →
        (c.place patches).rotations[k]? = some (t.rename fun q => patches.getD q q) := by
      intro k t ht
      show (c.rotations.map _)[k]? = _
      rw [List.getElem?_map, ht]
      rfl
    have hr' := hused r (List.mem_of_getElem? hr)
    have hs' := hused s (List.mem_of_getElem? hs)
    exact ⟨_, _, hget i r hr, hget j s hs, Rotation.commutes_rename hpatches hr' hs',
      Rotation.triviallyCommutes_rename hpatches hr' hs'⟩
  · show Progress.start ((c.rotations.map _).map _) (rule.blockers (c.rotations.map _)) = _
    rw [hindex, rule.blockers_rename hpatches hused]
    rfl
  · have hfilter : (c.place patches).rotations.filter (fun r => decide (r.kind = .pi8)) =
        (c.rotations.filter fun r => decide (r.kind = .pi8)).map
          (Rotation.rename fun q => patches.getD q q) := List.filter_map
    unfold Progress.ofPi8
    dsimp only
    rw [hfilter, hindex]
    congr 1
    exact Dependency.lastWritersFrom_rename hpatches
      (fun r hr => hused r (List.mem_filter.1 hr).1) (fun _ _ => rfl) ∅

/-- The same rotation by π/8 twice, with a rotation by π/4 in between that commutes with neither, and a
measurement. -/
def repeatedCircuit : Circuit := .ofRotations "repeated"
  [⟨0, .pi8, .plus, .ofList [0, 1], ∅, ∅⟩, ⟨1, .pi4, .minus, ∅, .ofList [2], .ofList [1]⟩,
    ⟨2, .pi8, .minus, .ofList [0, 1], ∅, ∅⟩, ⟨3, .measurement, .plus, .ofList [0], ∅, .ofList [2]⟩] 3

/-- Qubits 0 and 2 are placed in the other order, and qubit 1 keeps its number. -/
def crossedPatches : SortedMap Nat Nat := SortedMap.ofList [(0, 7), (2, 0)]

/-- The placement turns the order of the qubits around, and the last rotation still waits for the two
before it. -/
theorem repeatedCircuit_keeps_dependencies :
    Set.InjOn (fun q => crossedPatches.getD q q) repeatedCircuit.usedQubits ∧
    ((repeatedCircuit.place crossedPatches).rotations.map fun r => r.activeQubits.toList) =
      [[1, 7], [0, 1], [1, 7], [0, 7]] ∧
    (∀ rule, Progress.ofCircuit (repeatedCircuit.place crossedPatches) rule =
      Progress.ofCircuit repeatedCircuit rule) ∧
    (Progress.ofCircuit (repeatedCircuit.place crossedPatches) .trivialCommute).blockers.of 3 =
      SortedSet.ofList [1, 2] ∧
    (Progress.ofPi8 (repeatedCircuit.place crossedPatches)).blockers.of 2 = SortedSet.ofList [0] := by
  have hused : ∀ q ∈ repeatedCircuit.usedQubits, q < 3 := by
    rintro q ⟨r, hr, hq⟩
    have hall : ∀ r ∈ repeatedCircuit.rotations, ∀ q ∈ r.activeQubits.toList, q < 3 := by decide
    exact hall r hr q hq
  have hinj : ∀ p < 3, ∀ q < 3, crossedPatches.getD p p = crossedPatches.getD q q → p = q := by
    decide
  have hpatches : Set.InjOn (fun q => crossedPatches.getD q q) repeatedCircuit.usedQubits :=
    fun p hp q hq => hinj p (hused p hp) q (hused q hq)
  obtain ⟨-, hrules, hpi8⟩ := place_keeps_dependencies hpatches
  refine ⟨hpatches, by decide, hrules, ?_, ?_⟩
  · rw [hrules]
    decide
  · rw [hpi8]
    decide

end Circuit

end LatticeSurgery
