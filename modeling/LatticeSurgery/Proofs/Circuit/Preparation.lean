import LatticeSurgery.Problem
import LatticeSurgery.Proofs.Circuit.Reading
import LatticeSurgery.Proofs.Schedule.Loop

/-!
# Circuits that are prepared

A proper circuit is prepared for a board in three steps: its qubits are renamed to patches, its Y are
eliminated, and turns are put in. Each step hands on what the next one needs, and the circuit in the end
is one that the scheduler can take (`Circuit.Schedulable`). The turns are all that the last step adds.
-/

namespace LatticeSurgery

namespace Rotation

variable {r e : Rotation} {q : Nat} {split : SortedSet Nat}

/-- The rotation without its number. -/
def unindexed (r : Rotation) : Rotation := { r with index := 0 }

/-- Different qubits get different names. -/
theorem Proper.rename {name : Nat → Nat} (hr : r.Proper)
    (hname : ∀ p ∈ r.activeQubits, ∀ q ∈ r.activeQubits, name p = name q → p = q) :
    (r.rename name).Proper := by
  have hapart : ∀ s t : SortedSet Nat, (∀ q ∈ s, q ∈ r.activeQubits) →
      (∀ q ∈ t, q ∈ r.activeQubits) → (∀ q ∈ s, q ∉ t) → ∀ q ∈ s.map name, q ∉ t.map name := by
    intro s t hs ht hst q hq hq'
    obtain ⟨p, hp, rfl⟩ := SortedSet.mem_map.1 hq
    obtain ⟨p', hp', heq⟩ := SortedSet.mem_map.1 hq'
    obtain rfl := hname p' (ht _ hp') p (hs _ hp) heq
    exact hst _ hp hp'
  have hx : ∀ q ∈ r.x, q ∈ r.activeQubits := fun q hq => mem_activeQubits.2 (Or.inl hq)
  have hy : ∀ q ∈ r.y, q ∈ r.activeQubits := fun q hq => mem_activeQubits.2 (Or.inr (Or.inl hq))
  have hz : ∀ q ∈ r.z, q ∈ r.activeQubits := fun q hq => mem_activeQubits.2 (Or.inr (Or.inr hq))
  exact ⟨hr.kind, hapart _ _ hx hy hr.xy, hapart _ _ hx hz hr.xz, hapart _ _ hy hz hr.yz⟩

/-- A rotation that is neither a turn nor has a Y, and that is used through one operator at a time on
the patches of `split`. -/
structure Split (r : Rotation) (split : SortedSet Nat) : Prop where
  kind : r.kind ≠ .turn
  noY : r.y = ∅
  apart : ∀ q ∈ split, q ∈ r.x → q ∉ r.z

/-- What takes the place of a proper rotation when its Y are eliminated. -/
theorem Proper.split_of_mem_eliminateY (hr : r.Proper) (h : e ∈ Circuit.eliminateY split r) :
    e.Split split ∧ ∀ q ∈ e.activeQubits, q ∈ r.activeQubits := by
  unfold Circuit.eliminateY at h
  set change := r.y.filter split.contains with hchange
  set keep := r.y.filter fun q => !split.contains q with hkeep
  have hmem_change : ∀ q, q ∈ change → q ∈ r.y := fun q hq => (SortedSet.mem_filter.1 hq).1
  have hmem_keep : ∀ q, q ∈ keep → q ∈ r.y ∧ q ∉ split := by
    intro q hq
    rw [hkeep, SortedSet.mem_filter, Bool.not_eq_true', ← Bool.not_eq_true,
      SortedSet.contains_iff] at hq
    exact hq
  -- on a patch of `split` the sets differ from those of `r` by the Y that are changed only
  have hapart : ∀ q ∈ split, q ∈ r.x ∪ keep ∨ q ∈ change → q ∉ r.z ∪ keep := by
    intro q hsplit hx hz
    rw [SortedSet.mem_union] at hx hz
    replace hz := hz.resolve_right fun hq => (hmem_keep q hq).2 hsplit
    rcases hx with (hx | hx) | hx
    · exact hr.xz q hx hz
    · exact (hmem_keep q hx).2 hsplit
    · exact hr.yz q (hmem_change q hx) hz
  have hactive : ∀ q, q ∈ r.x ∪ keep ∨ q ∈ change ∨ q ∈ r.z ∪ keep → q ∈ r.activeQubits := by
    intro q hq
    rw [SortedSet.mem_union, SortedSet.mem_union] at hq
    rw [mem_activeQubits]
    have h₁ := hmem_change q
    have h₂ := hmem_keep q
    tauto
  dsimp only at h
  split at h
  · rw [List.mem_singleton] at h
    subst h
    refine ⟨⟨hr.kind, rfl, fun q hsplit hx => hapart q hsplit (Or.inl hx)⟩, fun q hq => hactive q ?_⟩
    rw [mem_activeQubits] at hq
    rcases hq with hq | hq | hq
    · exact Or.inl hq
    · exact absurd hq (SortedSet.not_mem_empty q)
    · exact Or.inr (Or.inr hq)
  · obtain ⟨hkind, hy, hwithin, hboth⟩ := Circuit.conjugateY_spec h
    exact ⟨⟨hkind hr.kind, hy, fun q hsplit hx hz =>
      hapart q hsplit (hboth q hx hz).1 (hboth q hx hz).2⟩, fun q hq => hactive q (hwithin q hq)⟩

end Rotation

namespace Circuit

variable {c : Circuit} {rs : List Rotation} {m : SortedMap Nat Facing} {e : Rotation}

/-- A circuit whose qubits get different patches stays proper. -/
theorem Proper.place (hc : c.Proper) {patches : SortedMap Nat Nat}
    (hinj : ∀ p < c.numQubits, ∀ q < c.numQubits, patches.getD p p = patches.getD q q → p = q) :
    ∀ r ∈ (c.place patches).rotations, r.Proper ∧
      ∀ p ∈ r.activeQubits, ∃ q < c.numQubits, p = patches.getD q q := by
  intro r hr
  obtain ⟨r', hr', rfl⟩ := List.mem_map.1 hr
  refine ⟨(hc.proper r' hr').rename fun p hp q hq =>
    hinj p (hc.lt r' hr' p hp) q (hc.lt r' hr' q hq), fun p hp => ?_⟩
  rw [Rotation.activeQubits_rename, SortedSet.mem_map] at hp
  obtain ⟨q, hq, rfl⟩ := hp
  exact ⟨q, hc.lt r' hr' q hq, rfl⟩

/-! ## Turns -/

theorem kind_turnTo (patch : Nat) (basis : Basis) : (turnTo patch basis).kind = .turn := by
  cases basis <;> rfl

theorem mem_turnsFor {ns : List Node} (h : e ∈ (turnsFor ns m).1) :
    ∃ q basis, .qubit q basis ∈ ns ∧ e = turnTo q basis := by
  induction ns generalizing m with
  | nil => cases h
  | cons n ns ih =>
    have hrest : ∀ m, e ∈ (turnsFor ns m).1 →
        ∃ q basis, .qubit q basis ∈ n :: ns ∧ e = turnTo q basis := by
      intro m h
      obtain ⟨q, basis, hmem, he⟩ := ih h
      exact ⟨q, basis, List.mem_cons_of_mem _ hmem, he⟩
    by_cases hn : ∃ id basis, n = .qubit id basis
    · obtain ⟨id, basis, rfl⟩ := hn
      rw [turnsFor_qubit] at h
      split at h
      · rcases List.mem_cons.1 h with rfl | h
        · exact ⟨id, basis, List.mem_cons_self, rfl⟩
        · exact hrest _ h
      · exact hrest _ h
    · rw [turnsFor_of_ne_qubit hn] at h
      exact hrest _ h

/-- What is put in before a rotation are turns of patches on which it acts. -/
theorem mem_turnBefore (h : e ∈ turnBefore rs m) :
    e ∈ rs ∨ ∃ r ∈ rs, ∃ q basis, .qubit q basis ∈ r.activeNodes ∧ e = turnTo q basis := by
  induction rs generalizing m with
  | nil => cases h
  | cons r rs ih =>
    rcases List.mem_append.1 h with h | h
    · obtain ⟨q, basis, hmem, he⟩ := mem_turnsFor h
      exact Or.inr ⟨r, List.mem_cons_self, q, basis, hmem, he⟩
    · rcases List.mem_cons.1 h with rfl | h
      · exact Or.inl List.mem_cons_self
      · exact (ih h).imp (List.mem_cons_of_mem _) fun ⟨r', hr', hturn⟩ =>
          ⟨r', List.mem_cons_of_mem _ hr', hturn⟩

/-- Nothing but turns is put in. -/
theorem filter_turnBefore (hrs : ∀ r ∈ rs, r.kind ≠ .turn) (m : SortedMap Nat Facing) :
    (turnBefore rs m).filter (fun r => !decide (r.kind = .turn)) = rs := by
  induction rs generalizing m with
  | nil => rfl
  | cons r rs ih =>
    have hturns : (turnsFor r.activeNodes.toList m).1.filter (fun r => !decide (r.kind = .turn)) = [] := by
      rw [List.filter_eq_nil_iff]
      intro e he
      obtain ⟨q, basis, -, rfl⟩ := mem_turnsFor he
      simp [kind_turnTo]
    have hr : (!decide (r.kind = .turn)) = true := by simp [hrs r List.mem_cons_self]
    show ((turnsFor r.activeNodes.toList m).1 ++ r :: turnBefore rs _).filter _ = _
    rw [List.filter_append, hturns, List.nil_append, List.filter_cons, if_pos hr,
      ih fun r' hr' => hrs r' (List.mem_cons_of_mem _ hr')]

/-! ## Numbers -/

theorem map_unindexed_renumber (rs : List Rotation) :
    (renumber rs).map Rotation.unindexed = rs.map Rotation.unindexed := by
  refine List.ext_getElem? fun i => ?_
  rw [List.getElem?_map, List.getElem?_map, getElem?_renumber, Option.map_map]
  rfl

/-- What does not look at the numbers can be done before numbering. -/
theorem flatMap_renumber {α : Type} {f : Rotation → List α} (hf : ∀ r, f r.unindexed = f r)
    (rs : List Rotation) : (renumber rs).flatMap f = rs.flatMap f := by
  have hnumber : ∀ rs : List Rotation, rs.flatMap f = (rs.map Rotation.unindexed).flatMap f := by
    intro rs
    rw [List.flatMap_map]
    exact List.flatMap_congr fun r _ => (hf r).symm
  rw [hnumber, map_unindexed_renumber, ← hnumber]

/-- A new numbering does not depend on the old numbers. -/
theorem renumber_congr {rs rs' : List Rotation}
    (h : rs.map Rotation.unindexed = rs'.map Rotation.unindexed) : renumber rs = renumber rs' := by
  refine List.ext_getElem? fun i => ?_
  have hi := congrArg (fun l : List Rotation => l[i]?.map fun r => { r with index := i }) h
  simp only [List.getElem?_map, Option.map_map] at hi
  rw [getElem?_renumber, getElem?_renumber]
  exact hi

/-! ## The whole preparation -/

/-- What the scheduler relies on. The numbers are the places, there is no Y, the rotations act on
patches of the board, and they use each patch of `nonCorner` through one operator, if at all. -/
structure Schedulable (c : Circuit) (nonCorner : SortedSet Nat) (b : Board) : Prop where
  numbered : c.Numbered
  noY : ∀ r ∈ c.rotations, r.y = ∅
  known : ∀ r ∈ c.rotations, ∀ q ∈ r.activeQubits, ∀ basis,
    b.graph.hasNode (.qubit q basis) = true
  oneSided : ∀ r ∈ c.rotations, ∀ q ∈ nonCorner, q ∈ r.activeQubits → (q ∈ r.x ↔ q ∉ r.z)

variable {nonCorner : SortedSet Nat} {b : Board}

/-- The rotations before turns are put in. -/
theorem split_withoutY (hc : ∀ r ∈ c.rotations, r.Proper)
    (he : e ∈ (c.withoutY nonCorner).rotations) :
    e.Split nonCorner ∧ ∃ r ∈ c.rotations, ∀ q ∈ e.activeQubits, q ∈ r.activeQubits := by
  obtain ⟨e', he', i, rfl⟩ := exists_of_mem_renumber he
  obtain ⟨r, hr, he'⟩ := List.mem_flatMap.1 he'
  obtain ⟨hsplit, hactive⟩ := (hc r hr).split_of_mem_eliminateY he'
  exact ⟨⟨hsplit.kind, hsplit.noY, hsplit.apart⟩, r, hr, hactive⟩

/-- A circuit of proper rotations on patches of the board is prepared for the scheduler. -/
theorem schedulable_prepare (hc : ∀ r ∈ c.rotations, r.Proper)
    (hb : ∀ r ∈ c.rotations, ∀ q ∈ r.activeQubits, ∀ basis,
      b.graph.hasNode (.qubit q basis) = true) :
    (Problem.prepare c nonCorner b).Schedulable nonCorner b := by
  have hall : ∀ r ∈ turnBefore (c.withoutY nonCorner).rotations b.facings,
      r.y = ∅ ∧ (∀ q ∈ r.activeQubits, ∀ basis, b.graph.hasNode (.qubit q basis) = true) ∧
        ∀ q ∈ nonCorner, q ∈ r.x → q ∉ r.z := by
    intro r hr
    rcases mem_turnBefore hr with hr | ⟨r', hr', q, basis, hnode, rfl⟩
    · obtain ⟨hsplit, r₀, hr₀, hactive⟩ := split_withoutY hc hr
      exact ⟨hsplit.noY, fun q hq => hb r₀ hr₀ q (hactive q hq), hsplit.apart⟩
    · obtain ⟨-, r₀, hr₀, hactive⟩ := split_withoutY hc hr'
      have hq := hb r₀ hr₀ q (hactive q (Rotation.id_mem_activeQubits hnode))
      cases basis <;>
        simpa [turnTo, Rotation.unnumbered, Rotation.mem_activeQubits] using hq
  refine ⟨numbered_withTurns _ _, fun r hr => ?_, fun r hr => ?_, fun r hr q hq hactive => ?_⟩
  all_goals
    obtain ⟨r', hr', i, rfl⟩ := exists_of_mem_renumber hr
    obtain ⟨hy, hnodes, hapart⟩ := hall r' hr'
  · exact hy
  · exact hnodes
  · refine ⟨hapart q hq, fun hz => ?_⟩
    rcases Rotation.mem_activeQubits.1 hactive with hx | hy' | hz'
    · exact hx
    · exact absurd (hy ▸ hy') (SortedSet.not_mem_empty q)
    · exact absurd hz' hz

/-- Without its turns and numbered anew, a circuit that is prepared is the circuit without Y. -/
theorem renumber_filter_prepare (hc : ∀ r ∈ c.rotations, r.Proper) :
    renumber ((Problem.prepare c nonCorner b).rotations.filter fun r => !decide (r.kind = .turn)) =
      (c.withoutY nonCorner).rotations := by
  have hkind : ∀ r ∈ (c.withoutY nonCorner).rotations, r.kind ≠ .turn :=
    fun r hr => (split_withoutY hc hr).1.kind
  have hfilter : ∀ rs : List Rotation,
      (rs.filter fun r => !decide (r.kind = .turn)).map Rotation.unindexed =
        (rs.map Rotation.unindexed).filter fun r => !decide (r.kind = .turn) := by
    intro rs
    rw [List.filter_map]
    rfl
  calc
    _ = renumber (c.withoutY nonCorner).rotations := by
      refine renumber_congr ?_
      rw [hfilter]
      show ((renumber (turnBefore (c.withoutY nonCorner).rotations b.facings)).map _).filter _ = _
      rw [map_unindexed_renumber, ← hfilter, filter_turnBefore hkind]
    _ = _ := renumber_congr (map_unindexed_renumber _)

end Circuit

end LatticeSurgery
