import LatticeSurgery.Circuit.Reader
import LatticeSurgery.Proofs.Circuit.Turns

/-!
# Circuits that are read

The operators of a rotation are proper (`Rotation.Proper`) if it is not a turn and acts on each of its
qubits through one operator. A circuit that is read from a text has proper rotations on the qubits below
its width, whether or not its Y are expressed with X on the way.
-/

namespace LatticeSurgery

namespace Rotation

/-- The rotation is not a turn, and it acts on each of its qubits through one operator. -/
structure Proper (r : Rotation) : Prop where
  kind : r.kind ≠ .turn
  xy : ∀ q ∈ r.x, q ∉ r.y
  xz : ∀ q ∈ r.x, q ∉ r.z
  yz : ∀ q ∈ r.y, q ∉ r.z

instance (r : Rotation) : Decidable r.Proper :=
  decidable_of_iff (r.kind ≠ .turn ∧ (∀ q ∈ r.x.toList, q ∉ r.y) ∧ (∀ q ∈ r.x.toList, q ∉ r.z) ∧
      ∀ q ∈ r.y.toList, q ∉ r.z)
    ⟨fun ⟨kind, xy, xz, yz⟩ => ⟨kind, xy, xz, yz⟩, fun h => ⟨h.kind, h.xy, h.xz, h.yz⟩⟩

end Rotation

namespace Instruction

variable {i : Instruction} {ps : List Pauli} {q : Nat}

theorem mem_qubitsWith {p : Pauli} : q ∈ qubitsWith ps p ↔ ps[q]? = some p := by
  simp only [qubitsWith, SortedSet.mem_ofList, List.mem_map, List.mem_filter, decide_eq_true_eq]
  constructor
  · rintro ⟨⟨p', q'⟩, ⟨hmem, rfl⟩, rfl⟩
    exact List.mk_mem_zipIdx_iff_getElem?.1 hmem
  · exact fun h => ⟨(p, q), ⟨List.mk_mem_zipIdx_iff_getElem?.2 h, rfl⟩, rfl⟩

/-- The places of two letters of a Pauli string are different. -/
theorem not_mem_qubitsWith {p p' : Pauli} (hne : p ≠ p') (h : q ∈ qubitsWith ps p) :
    q ∉ qubitsWith ps p' := by
  rw [mem_qubitsWith] at h ⊢
  rw [h, Option.some_inj]
  exact hne

theorem kind_ne_turn (i : Instruction) : i.kind ≠ .turn := by
  cases i with
  | rotate n ps =>
    rw [kind]
    split <;> simp
  | measure s ps => simp [kind]

theorem proper_rotation (i : Instruction) : i.rotation.Proper where
  kind := i.kind_ne_turn
  xy _ := not_mem_qubitsWith (by decide)
  xz _ := not_mem_qubitsWith (by decide)
  yz _ := not_mem_qubitsWith (by decide)

theorem lt_of_mem_activeQubits (h : q ∈ i.rotation.activeQubits) : q < i.paulis.length := by
  rcases Rotation.mem_activeQubits.1 h with h | h | h <;>
    exact (List.getElem?_eq_some_iff.1 (mem_qubitsWith.1 h)).1

end Instruction

namespace Circuit

variable {kind : RotationKind} {sign : Sign} {x z y : SortedSet Nat} {e : Rotation}

/-! ## Y expressed with X -/

theorem mem_oddGroups {g : SortedSet Nat} (hg : g ∈ oddGroups y) {q : Nat} (hq : q ∈ g) : q ∈ y := by
  unfold oddGroups at hg
  split at hg
  · split at hg
    · simp only [List.mem_cons, List.not_mem_nil, or_false, or_self] at hg
      rw [hg] at hq
      exact absurd hq (SortedSet.not_mem_empty q)
    · next a as hy =>
      simp only [List.mem_cons, List.not_mem_nil, or_false] at hg
      rcases hg with rfl | rfl
      · rw [SortedSet.mem_insert] at hq
        obtain rfl := hq.resolve_right (SortedSet.not_mem_empty q)
        rw [SortedSet.mem_def, hy]
        exact List.mem_cons_self
      · exact (SortedSet.mem_erase.1 hq).1
  · rw [List.mem_singleton] at hg
    exact hg ▸ hq

/-- Where Y is expressed with X, there are π/4 rotations about Z on qubits of Y, and the rotation with
X for Y. -/
theorem mem_conjugateY (h : e ∈ conjugateY kind sign x z y) :
    (∃ s g, (∀ q ∈ g, q ∈ y) ∧ e = zTurn s g) ∨ e = Rotation.unnumbered kind sign (x ∪ y) ∅ z := by
  have hturn : ∀ s, e ∈ (oddGroups y).map (zTurn s) → ∃ s g, (∀ q ∈ g, q ∈ y) ∧ e = zTurn s g := by
    intro s hmem
    obtain ⟨g, hg, rfl⟩ := List.mem_map.1 hmem
    exact ⟨s, g, fun _ => mem_oddGroups hg, rfl⟩
  rw [conjugateY, List.mem_append, List.mem_append, List.mem_singleton] at h
  rcases h with (h | h) | h
  · exact Or.inl (hturn _ h)
  · exact Or.inr h
  · exact Or.inl (hturn _ h)

/-- The rotations that express one with Y have no Y and act on the same qubits; on a qubit on which the
operators do not meet, they are used one at a time. -/
theorem conjugateY_spec (h : e ∈ conjugateY kind sign x z y) :
    (kind ≠ .turn → e.kind ≠ .turn) ∧ e.y = ∅ ∧ (∀ q ∈ e.activeQubits, q ∈ x ∨ q ∈ y ∨ q ∈ z) ∧
      ∀ q ∈ e.x, q ∈ e.z → (q ∈ x ∨ q ∈ y) ∧ q ∈ z := by
  rcases mem_conjugateY h with ⟨s, g, hg, rfl⟩ | rfl
  · refine ⟨fun _ => by simp [zTurn, Rotation.unnumbered], rfl, fun q hq => ?_, fun q hq => ?_⟩
    · rw [Rotation.mem_activeQubits] at hq
      exact Or.inr (Or.inl (hg q (by simpa [zTurn, Rotation.unnumbered] using hq)))
    · exact absurd hq (SortedSet.not_mem_empty q)
  · refine ⟨id, rfl, fun q hq => ?_, fun q hx hz => ⟨SortedSet.mem_union.1 hx, hz⟩⟩
    rw [Rotation.mem_activeQubits] at hq
    simpa [Rotation.unnumbered, or_assoc] using hq

theorem proper_of_mem_conjugateY {r : Rotation} (hr : r.Proper)
    (h : e ∈ conjugateY r.kind r.sign r.x r.z r.y) :
    e.Proper ∧ ∀ q ∈ e.activeQubits, q ∈ r.activeQubits := by
  obtain ⟨hkind, hy, hactive, hboth⟩ := conjugateY_spec h
  have hnot : ∀ q, q ∉ e.y := fun q => hy ▸ SortedSet.not_mem_empty q
  refine ⟨⟨hkind hr.kind, fun q _ => hnot q, fun q hx hz => ?_, fun q h => absurd h (hnot q)⟩,
    fun q hq => Rotation.mem_activeQubits.2 (hactive q hq)⟩
  obtain ⟨h | h, hz⟩ := hboth q hx hz
  · exact hr.xz q h hz
  · exact hr.yz q h hz

/-! ## Texts -/

/-- All instructions of a text have the same width. -/
theorem exists_width_of_readLines {width : Option Nat} {lines : List (List Char × Nat)}
    {is : List Instruction} (h : readLines width lines = .ok is) :
    ∃ w, width.getD w = w ∧ ∀ i ∈ is, i.paulis.length = w := by
  induction lines generalizing width is with
  | nil =>
    cases h
    refine ⟨width.getD 0, ?_, fun i hi => absurd hi List.not_mem_nil⟩
    cases width <;> rfl
  | cons line lines ih =>
    unfold readLines at h
    split at h
    · exact ih h
    · split at h
      · cases h
      · next i _ =>
        dsimp only at h
        split at h
        · cases h
        · next hlength =>
          obtain ⟨is', hrest, h⟩ := exists_of_bind_eq_ok h
          cases h
          obtain ⟨w, hw, hall⟩ := ih hrest
          obtain rfl : width.getD i.paulis.length = w := hw
          rw [ne_eq, not_not] at hlength
          refine ⟨width.getD i.paulis.length, by cases width <;> rfl, fun j hj => ?_⟩
          rcases List.mem_cons.1 hj with rfl | hj
          · exact hlength.symm
          · exact hall j hj

/-- The rotations are proper and act on qubits that the circuit has. -/
structure Proper (c : Circuit) : Prop where
  proper : ∀ r ∈ c.rotations, r.Proper
  lt : ∀ r ∈ c.rotations, ∀ q ∈ r.activeQubits, q < c.numQubits

theorem exists_of_mem_renumber {rs : List Rotation} {r : Rotation} (h : r ∈ renumber rs) :
    ∃ r' ∈ rs, ∃ i, r = { r' with index := i } := by
  obtain ⟨⟨r', i⟩, hmem, rfl⟩ := List.mem_map.1 h
  exact ⟨r', List.fst_mem_of_mem_zipIdx hmem, i, rfl⟩

/-- A circuit that is read from a text is proper. -/
theorem proper_ofText {name text : String} {splitY : Bool} {c : Circuit}
    (h : ofText name text splitY = .ok c) : c.Proper := by
  obtain ⟨is, his, h⟩ := exists_of_bind_eq_ok h
  obtain ⟨w, -, hwidth⟩ := exists_width_of_readLines his
  cases is with
  | nil => cases h
  | cons i is =>
    cases h
    have hall : ∀ e ∈ (i :: is).flatMap (Instruction.rotations splitY),
        e.Proper ∧ ∀ q ∈ e.activeQubits, q < i.paulis.length := by
      intro e he
      obtain ⟨j, hj, he⟩ := List.mem_flatMap.1 he
      have hlt : ∀ q ∈ j.rotation.activeQubits, q < i.paulis.length := by
        intro q hq
        rw [hwidth i List.mem_cons_self, ← hwidth j hj]
        exact Instruction.lt_of_mem_activeQubits hq
      unfold Instruction.rotations at he
      dsimp only at he
      split at he
      · obtain ⟨hproper, hactive⟩ := proper_of_mem_conjugateY j.proper_rotation he
        exact ⟨hproper, fun q hq => hlt q (hactive q hq)⟩
      · rw [List.mem_singleton] at he
        subst he
        exact ⟨j.proper_rotation, hlt⟩
    refine ⟨fun r hr => ?_, fun r hr => ?_⟩
    all_goals
      obtain ⟨r', hr', k, rfl⟩ := exists_of_mem_renumber hr
      obtain ⟨hproper, hlt⟩ := hall r' hr'
    · exact ⟨hproper.kind, hproper.xy, hproper.xz, hproper.yz⟩
    · exact hlt

end Circuit

end LatticeSurgery
