import LatticeSurgery.Placement.Basic
import LatticeSurgery.Proofs.Circuit.Reading

/-!
# Placements that can be used

A map from qubits to patches is a placement of `n` qubits on given patches (`Placement.Places`) if it
gives no patch away twice; it is a complete one (`Placement.PlacesAll`) if every qubit below `n` has a
patch. Pairing a permutation of the qubits with different patches gives a complete placement, and the
order by flips is such a permutation.
-/

namespace LatticeSurgery

open Ordered

namespace Placement

/-- Some of the first `n` qubits have patches, different ones, all of them in `patches`. -/
structure Places (patches : List Nat) (n : Nat) (m : SortedMap Nat Nat) : Prop where
  lt : ∀ q p, m.get? q = some p → q < n
  mem : ∀ q p, m.get? q = some p → p ∈ patches
  injective : ∀ q q' p, m.get? q = some p → m.get? q' = some p → q = q'

/-- All of the first `n` qubits have patches. -/
structure PlacesAll (patches : List Nat) (n : Nat) (m : SortedMap Nat Nat) : Prop
    extends Places patches n m where
  total : ∀ q < n, ∃ p, m.get? q = some p

variable {patches : List Nat} {n : Nat} {m : SortedMap Nat Nat}

/-- Each qubit has the patch at the same place. -/
theorem get?_ofList_zip {qs ps : List Nat} (hqs : qs.Nodup) (hle : qs.length ≤ ps.length) {q p : Nat} :
    (SortedMap.ofList (qs.zip ps)).get? q = some p ↔ ∃ i : Nat, qs[i]? = some q ∧ ps[i]? = some p := by
  have hkeys : (qs.zip ps).map Prod.fst = qs := List.map_fst_zip hle
  rw [SortedMap.get?_ofList_iff (hkeys.symm ▸ hqs), List.mem_iff_getElem?]
  simp only [List.getElem?_zip_eq_some]

/-- The qubits in any order, each with the patch at the same place of a list of different patches. -/
theorem placesAll_zip {qs ps : List Nat} (hqs : qs.Perm (List.range n)) (hps : ps.Nodup)
    (hmem : ∀ p ∈ ps, p ∈ patches) (hlength : n ≤ ps.length) :
    PlacesAll patches n (SortedMap.ofList (qs.zip ps)) := by
  have hle : qs.length ≤ ps.length := by
    rw [hqs.length_eq, List.length_range]
    exact hlength
  have hnodup : qs.Nodup := hqs.nodup_iff.2 List.nodup_range
  have hget := fun q p => get?_ofList_zip hnodup hle (q := q) (p := p)
  refine ⟨⟨fun q p h => ?_, fun q p h => ?_, fun q q' p h h' => ?_⟩, fun q hq => ?_⟩
  · obtain ⟨i, hqi, -⟩ := (hget q p).1 h
    exact List.mem_range.1 (hqs.mem_iff.1 (List.mem_of_getElem? hqi))
  · obtain ⟨i, -, hpi⟩ := (hget q p).1 h
    exact hmem p (List.mem_of_getElem? hpi)
  · obtain ⟨i, hqi, hpi⟩ := (hget q p).1 h
    obtain ⟨j, hqj, hpj⟩ := (hget q' p).1 h'
    obtain rfl : i = j :=
      (List.getElem?_inj (List.getElem?_eq_some_iff.1 hpi).1 hps).1 (hpi.trans hpj.symm)
    exact Option.some.inj (hqi.symm.trans hqj)
  · obtain ⟨i, hi, hqi⟩ := List.getElem_of_mem (hqs.mem_iff.2 (List.mem_range.2 hq))
    exact ⟨ps[i], (hget q _).2 ⟨i, by rw [List.getElem?_eq_getElem hi, hqi],
      List.getElem?_eq_getElem (hi.trans_le hle)⟩⟩

/-! ## Patches next to the bus -/

theorem nodup_keys {κ ν : Type} [Ordered κ] (m : SortedMap κ ν) : m.keys.Nodup := m.keySet.nodup

theorem length_keys {κ ν : Type} [Ordered κ] (m : SortedMap κ ν) : m.keys.length = m.size :=
  List.length_map Prod.fst

/-- The patches next to the bus are the corners and those with one side at the bus. -/
theorem corners_append_sides_perm (facings : SortedMap Nat Facing) :
    (corners facings ++ sides facings).Perm facings.keys := by
  have hperm := List.filter_append_perm (fun e : Nat × Facing => decide (e.2 = .both)) facings.entries
  have hmap := hperm.map Prod.fst
  rwa [List.map_append] at hmap

end Placement

namespace CircuitStats

/-- There are statistics of each qubit below `n` and of no other. -/
def Covers (n : Nat) (m : SortedMap Nat QubitStats) : Prop :=
  ∀ q, (m.get? q).isSome = true ↔ q < n

variable {n : Nat} {c : Count}

theorem Covers.upsert {m : SortedMap Nat QubitStats} (hm : Covers n m) {q : Nat} (hq : q < n)
    (f : Option QubitStats → QubitStats) : Covers n (m.upsert q f) := by
  intro q'
  show ((m.insert q _).get? q').isSome = true ↔ _
  by_cases hq' : q' = q
  · subst hq'
    rw [SortedMap.get?_insert_self]
    exact iff_of_true rfl hq
  · rw [SortedMap.get?_insert_ne _ hq']
    exact hm q'

theorem Covers.foldl {f : Count → Nat → Count} {qs : List Nat} (hc : Covers n c.qubits)
    (hf : ∀ c q, Covers n c.qubits → q < n → Covers n (f c q).qubits) (hqs : ∀ q ∈ qs, q < n) :
    Covers n (qs.foldl f c).qubits :=
  List.foldlRecOn (motive := fun c : Count => Covers n c.qubits) qs f hc
    fun c hc q hq => hf c q hc (hqs q hq)

theorem Covers.addPairs (hc : Covers n c.qubits) {qs : List Nat} (hqs : ∀ q ∈ qs, q < n) :
    Covers n (c.addPairs qs).qubits := by
  induction qs generalizing c with
  | nil => exact hc
  | cons q qs ih =>
    have hrest : ∀ p ∈ qs, p < n := fun p hp => hqs p (List.mem_cons_of_mem _ hp)
    refine ih (hc.foldl (fun c p hc hp => ?_) hrest) hrest
    have hfirst : Covers n (c.addAffinity q p).qubits := hc.upsert (hqs q List.mem_cons_self) _
    exact hfirst.upsert hp _

theorem Covers.addRotation (hc : Covers n c.qubits) {r : Rotation}
    (hr : ∀ q ∈ r.activeQubits, q < n) : Covers n (c.addRotation r).qubits := by
  have hmem := fun q => Rotation.mem_activeQubits (r := r) (q := q)
  have hx : Covers n (r.x.toList.foldl Count.addX c).qubits :=
    hc.foldl (fun c q hc hq => hc.upsert hq _) fun q hq => hr q ((hmem q).2 (Or.inl hq))
  have hz : Covers n (r.z.toList.foldl Count.addZ _).qubits :=
    hx.foldl (fun c q hc hq => hc.upsert hq _) fun q hq => hr q ((hmem q).2 (Or.inr (Or.inr hq)))
  have hy : Covers n (r.y.toList.foldl Count.addY _).qubits :=
    hz.foldl (fun c q hc hq => hc.upsert hq _) fun q hq => hr q ((hmem q).2 (Or.inr (Or.inl hq)))
  exact hy.addPairs hr

theorem covers_start (n : Nat) : Covers n (Count.start n).qubits := by
  intro q
  refine SortedMap.isSome_get?_ofList.trans ?_
  rw [List.map_map, List.mem_map]
  constructor
  · rintro ⟨p, hp, rfl⟩
    exact List.mem_range.1 hp
  · exact fun hq => ⟨q, List.mem_range.2 hq, rfl⟩

theorem placeByFlips_perm (flips : Nat → Nat) (q : Nat) (qs : List Nat) :
    (placeByFlips flips q qs).Perm (q :: qs) := by
  induction qs with
  | nil => exact List.Perm.refl _
  | cons p ps ih =>
    unfold placeByFlips
    split
    · exact List.Perm.refl _
    · exact (ih.cons p).trans (List.Perm.swap _ _ _)

theorem byFlips_perm (s : CircuitStats) : s.byFlips.Perm s.qubits.keys := by
  unfold byFlips
  induction s.qubits.keys with
  | nil => exact List.Perm.refl _
  | cons q qs ih => exact (placeByFlips_perm _ q _).trans (ih.cons q)

/-- The order by flips is an order of the qubits of the circuit. -/
theorem byFlips_ofCircuit_perm {c : Circuit}
    (hc : ∀ r ∈ c.rotations, ∀ q ∈ r.activeQubits, q < c.numQubits) :
    (ofCircuit c).byFlips.Perm (List.range c.numQubits) := by
  have hcovers : Covers c.numQubits
      (c.rotations.foldl Count.addRotation (Count.start c.numQubits)).qubits :=
    List.foldlRecOn (motive := fun count : Count => Covers c.numQubits count.qubits) _ _
      (covers_start _) fun count hcount r hr => hcount.addRotation (hc r hr)
  refine (byFlips_perm _).trans ((List.perm_ext_iff_of_nodup (Placement.nodup_keys _)
    List.nodup_range).2 fun q => ?_)
  rw [SortedMap.mem_keys_iff, ← Option.isSome_iff_exists, List.mem_range, ← hcovers q]
  show ((SortedMap.mapValues _ _).get? q).isSome = true ↔ _
  rw [SortedMap.get?_mapValues, Option.isSome_map]

theorem lt_of_mem_byFlips {c : Circuit} (hc : ∀ r ∈ c.rotations, ∀ q ∈ r.activeQubits, q < c.numQubits)
    {q : Nat} (hq : q ∈ (ofCircuit c).byFlips) : q < c.numQubits :=
  List.mem_range.1 ((byFlips_ofCircuit_perm hc).mem_iff.1 hq)

end CircuitStats

end LatticeSurgery
