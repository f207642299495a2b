import LatticeSurgery.Circuit.YElimination
import LatticeSurgery.Proofs.Circuit.PauliString
import LatticeSurgery.Proofs.Circuit.Reading

/-!
# The sign after Y is eliminated

A rotation with Y is expressed by one with X between π/4 rotations about Z. Each group of qubits that is
turned contributes a power of i that depends on its size, and nothing makes up for it: the sign of the
rotation is kept for one or two Y modulo four, and is the opposite one otherwise
(`conjugateY_keeps_sign_iff`).
-/

namespace LatticeSurgery

open scoped symmDiff

open PauliString

/-- The other sign. -/
def Sign.opposite : Sign → Sign
  | plus => minus
  | minus => plus

theorem Sign.phase_opposite (s : Sign) : s.opposite.phase = s.phase + 2 := by
  cases s <;> decide

namespace Circuit

variable {c : ZMod 4} {kind : RotationKind} {sign : Sign} {x y z : SortedSet Nat}

/-! ## Moving a string before rotations -/

/-- What takes the place of a string after π/4 rotations, the last of which is next to it. -/
def conjugated (c : ZMod 4) (rs : List Rotation) (p : PauliString) : PauliString :=
  rs.foldr (fun r p => conjugate c r.string p) p

/-- The operations `rs` do what `r` does: one of them, in the middle, is of the kind of `r` and has its
string once it is moved before the π/4 rotations in front, and the π/4 rotations have no effect
otherwise. -/
def Expresses (c : ZMod 4) (rs : List Rotation) (r : Rotation) : Prop :=
  ∃ front mid back, rs = front ++ mid :: back ∧ front.length = back.length ∧
    (∀ e ∈ front ++ back, e.kind = .pi4) ∧ mid.kind = r.kind ∧
    conjugated c front mid.string = r.string ∧ ∀ p, conjugated c (front ++ back) p = p

/-- A turn about Z leaves the X of a string as they are, and has an effect when it meets an odd number
of them. -/
theorem conjugate_zTurn (c : ZMod 4) (s : Sign) (g : SortedSet Nat) (p : PauliString) :
    conjugate c (zTurn s g).string p =
      if (g.toFinset ∩ p.x).card % 2 = 0 then p
      else ⟨p.phase + (s.phase + 2 + c), p.x, g.toFinset ∆ p.z⟩ := by
  have hstring : (zTurn s g).string = ⟨s.phase, ∅, g.toFinset⟩ := by
    ext1
    · exact add_zero _
    · simp [zTurn, Rotation.unnumbered, Rotation.string, Rotation.xPart]
    · simp [zTurn, Rotation.unnumbered, Rotation.string, Rotation.zPart]
  simp only [conjugate, hstring, comm_iff, Finset.inter_empty, Finset.card_empty, add_zero]
  by_cases heven : (g.toFinset ∩ p.x).card % 2 = 0
  · rw [if_pos heven, if_pos heven]
  · have hodd : (2 * (g.toFinset ∩ p.x).card : ZMod 4) = 2 * (1 : Nat) :=
      two_mul_natCast_eq_iff.2 (by omega)
    rw [if_neg heven, if_neg heven, mul_def, hodd]
    ext1
    · simp only [turned]
      push_cast
      ring
    · exact bot_symmDiff _
    · rfl

theorem conjugate_zTurn_comm (c : ZMod 4) (s t : Sign) (g h : SortedSet Nat) (p : PauliString) :
    conjugate c (zTurn s g).string (conjugate c (zTurn t h).string p) =
      conjugate c (zTurn t h).string (conjugate c (zTurn s g).string p) := by
  simp only [conjugate_zTurn]
  split <;> split <;> simp_all [symmDiff_left_comm, add_right_comm]

/-- A turn undoes the turn in the other direction. -/
theorem conjugate_zTurn_cancel (hc : c = 1 ∨ c = 3) (g : SortedSet Nat) (p : PauliString) :
    conjugate c (zTurn .plus g).string (conjugate c (zTurn .minus g).string p) = p := by
  have hphase : (Sign.minus.phase + 2 + c) + (Sign.plus.phase + 2 + c) = 0 := by
    rcases hc with rfl | rfl <;> decide
  rw [conjugate_zTurn, conjugate_zTurn]
  split
  · rfl
  · ext1
    · rw [add_assoc, hphase, add_zero]
    · rfl
    · exact symmDiff_symmDiff_cancel_left ..

theorem conjugate_conjugated (c : ZMod 4) (s t : Sign) (g : SortedSet Nat)
    (gs : List (SortedSet Nat)) (p : PauliString) :
    conjugate c (zTurn s g).string (conjugated c (gs.map (zTurn t)) p) =
      conjugated c (gs.map (zTurn t)) (conjugate c (zTurn s g).string p) := by
  induction gs with
  | nil => rfl
  | cons h gs ih =>
    calc conjugate c (zTurn s g).string (conjugated c ((h :: gs).map (zTurn t)) p)
        = conjugate c (zTurn t h).string
            (conjugate c (zTurn s g).string (conjugated c (gs.map (zTurn t)) p)) :=
          conjugate_zTurn_comm ..
      _ = conjugated c ((h :: gs).map (zTurn t)) (conjugate c (zTurn s g).string p) := by
          rw [ih]
          rfl

/-- Turns undo the same turns in the other direction, also with an operation in between. -/
theorem conjugated_cancel (hc : c = 1 ∨ c = 3) (gs : List (SortedSet Nat)) (p : PauliString) :
    conjugated c (gs.map (zTurn .plus) ++ gs.map (zTurn .minus)) p = p := by
  rw [conjugated, List.foldr_append]
  change conjugated c (gs.map (zTurn .plus)) (conjugated c (gs.map (zTurn .minus)) p) = p
  induction gs with
  | nil => rfl
  | cons g gs ih =>
    change conjugate c (zTurn .plus g).string (conjugated c (gs.map (zTurn .plus))
      (conjugate c (zTurn .minus g).string (conjugated c (gs.map (zTurn .minus)) p))) = p
    rw [conjugate_conjugated, conjugate_zTurn_cancel hc, ih]

/-- Turns about groups of odd size, on qubits on which the string has an X. -/
theorem conjugated_of_odd {gs : List (SortedSet Nat)} {p : PauliString}
    (hgs : ∀ g ∈ gs, g.size % 2 = 1 ∧ ∀ q ∈ g, q ∈ p.x) :
    conjugated c (gs.map (zTurn .plus)) p =
      ⟨p.phase + gs.length * (2 + c), p.x, gs.foldr (fun g z => g.toFinset ∆ z) p.z⟩ := by
  induction gs with
  | nil => simp [conjugated]
  | cons g gs ih =>
    obtain ⟨hodd, hsub⟩ := hgs g List.mem_cons_self
    have hmeet : g.toFinset ∩ p.x = g.toFinset :=
      Finset.inter_eq_left.2 fun q hq => hsub q (SortedSet.mem_toFinset.1 hq)
    change conjugate c (zTurn .plus g).string (conjugated c (gs.map (zTurn .plus)) p) = _
    rw [ih fun h hh => hgs h (List.mem_cons_of_mem _ hh), conjugate_zTurn, if_neg]
    · ext1
      · simp only [List.length_cons, Sign.phase]
        push_cast
        ring
      · rfl
      · rfl
    · dsimp only
      rw [hmeet, SortedSet.card_toFinset, hodd]
      decide

/-! ## The groups -/

/-- The groups are of odd size, disjoint, and make up the set. -/
theorem oddGroups_spec {y : SortedSet Nat} {p : Nat} (hp : p ∈ y) :
    (∀ g ∈ oddGroups y, g.size % 2 = 1) ∧
      (oddGroups y).length = (if y.size % 2 = 0 then 2 else 1) ∧
      ∀ s : Finset Nat, (oddGroups y).foldr (fun g z => g.toFinset ∆ z) s = y.toFinset ∆ s := by
  unfold oddGroups
  by_cases heven : y.size % 2 = 0
  · rw [if_pos heven, if_pos heven]
    match hy : y.toList with
    | [] => exact absurd (hy ▸ SortedSet.mem_toList.2 hp) List.not_mem_nil
    | q :: rest =>
      have hq : q ∈ y := SortedSet.mem_toList.1 (hy ▸ List.mem_cons_self)
      have hfirst : ((∅ : SortedSet Nat).insert q).toFinset = {q} := by
        ext a
        simp
      have hrest : (y.erase q).toFinset = y.toFinset.erase q := by
        ext a
        simp [and_comm, eq_comm]
      refine ⟨fun g hg => ?_, rfl, fun s => ?_⟩
      · simp only [List.mem_cons, List.not_mem_nil, or_false] at hg
        rcases hg with rfl | rfl
        · rfl
        · have hsize : (y.erase q).size + 1 = y.size := by
            rw [← SortedSet.card_toFinset, ← SortedSet.card_toFinset, hrest]
            exact Finset.card_erase_add_one (SortedSet.mem_toFinset.2 hq)
          omega
      · have hjoin : {q} ∆ y.toFinset.erase q = y.toFinset := by
          ext a
          by_cases ha : a = q <;> simp [Finset.mem_symmDiff, ha, hq]
        rw [List.foldr_cons, List.foldr_cons, List.foldr_nil, hfirst, hrest, ← symmDiff_assoc, hjoin]
  · rw [if_neg heven, if_neg heven]
    refine ⟨fun g hg => ?_, rfl, fun s => rfl⟩
    rw [List.mem_singleton.1 hg]
    omega

/-! ## The sign -/

/-- What the rotations that stand for a rotation with Y do. -/
theorem expresses_conjugateY_iff (hc : c = 1 ∨ c = 3) {p : Nat} (hp : p ∈ y) {r : Rotation} :
    Expresses c (conjugateY kind sign x z y) r ↔
      kind = r.kind ∧ r.string = ⟨sign.phase + (if y.size % 2 = 0 then 2 else 1) * (2 + c),
        (x ∪ y).toFinset, y.toFinset ∆ z.toFinset⟩ := by
  obtain ⟨hodd, hlength, hjoin⟩ := oddGroups_spec hp
  set mid := Rotation.unnumbered kind sign (x ∪ y) ∅ z with hmid
  have hstring : mid.string = ⟨sign.phase, (x ∪ y).toFinset, z.toFinset⟩ := by
    ext1
    · exact add_zero _
    · simp [hmid, Rotation.unnumbered, Rotation.string, Rotation.xPart]
    · simp [hmid, Rotation.unnumbered, Rotation.string, Rotation.zPart]
  have hmoved : conjugated c ((oddGroups y).map (zTurn .plus)) mid.string =
      ⟨sign.phase + (if y.size % 2 = 0 then 2 else 1) * (2 + c), (x ∪ y).toFinset,
        y.toFinset ∆ z.toFinset⟩ := by
    rw [conjugated_of_odd, hlength, hstring, hjoin]
    · push_cast
      rfl
    · intro g hg
      refine ⟨hodd g hg, fun q hq => ?_⟩
      rw [hstring, SortedSet.mem_toFinset, SortedSet.mem_union]
      exact Or.inr (mem_oddGroups hg hq)
  have hsplit : conjugateY kind sign x z y =
      (oddGroups y).map (zTurn .plus) ++ mid :: (oddGroups y).map (zTurn .minus) := by
    rw [conjugateY, List.append_assoc]
    rfl
  rw [hsplit, ← hmoved]
  constructor
  · rintro ⟨front, mid', back, heq, hsize, -, hkind, hmid', -⟩
    have hfront : ((oddGroups y).map (zTurn .plus)).length = front.length := by
      have := congrArg List.length heq
      simp only [List.length_append, List.length_cons, List.length_map] at this ⊢
      omega
    obtain ⟨rfl, htail⟩ := List.append_inj heq hfront
    obtain ⟨rfl, -⟩ := List.cons.inj htail
    exact ⟨hkind, hmid'.symm⟩
  · rintro ⟨hkind, hr⟩
    refine ⟨_, mid, _, rfl, by simp, fun e he => ?_, hkind, hr.symm, conjugated_cancel hc _⟩
    rw [List.mem_append, List.mem_map, List.mem_map] at he
    obtain ⟨g, -, rfl⟩ | ⟨g, -, rfl⟩ := he <;> rfl

/-- Whether the rotation itself is expressed depends on the sign and on the number of Y only. -/
theorem expresses_with_y_iff (hc : c = 1 ∨ c = 3) {p : Nat} (hp : p ∈ y) (hyz : ∀ q ∈ y, q ∉ z)
    {s : Sign} : Expresses c (conjugateY kind sign x z y) (.unnumbered kind s x y z) ↔
      s.phase + y.size = sign.phase + (if y.size % 2 = 0 then 2 else 1) * (2 + c) := by
  have hunion : (z ∪ y).toFinset = y.toFinset ∆ z.toFinset := by
    ext q
    rw [SortedSet.mem_toFinset, SortedSet.mem_union, Finset.mem_symmDiff, SortedSet.mem_toFinset,
      SortedSet.mem_toFinset]
    have := hyz q
    tauto
  rw [expresses_conjugateY_iff hc hp]
  simp only [Rotation.unnumbered, Rotation.string, Rotation.xPart, Rotation.zPart, hunion,
    PauliString.mk.injEq, and_true, true_and]

/-- A single Y is expressed with its sign. -/
def KeepsSingleY (c : ZMod 4) : Prop :=
  ∀ (kind : RotationKind) (sign : Sign) (x z : SortedSet Nat) (q : Nat), q ∉ x → q ∉ z →
    Expresses c (conjugateY kind sign x z ((∅ : SortedSet Nat).insert q))
      (.unnumbered kind sign x ((∅ : SortedSet Nat).insert q) z)

/-- A single Y fixes the direction in which a positive rotation turns. -/
theorem keepsSingleY_iff (hc : c = 1 ∨ c = 3) : KeepsSingleY c ↔ c = 3 := by
  have hone : ∀ {q : Nat} {z : SortedSet Nat} {kind : RotationKind} {sign : Sign} {x : SortedSet Nat},
      q ∉ z → (Expresses c (conjugateY kind sign x z ((∅ : SortedSet Nat).insert q))
        (.unnumbered kind sign x ((∅ : SortedSet Nat).insert q) z) ↔ c = 3) := by
    intro q z kind sign x hq
    have hyz : ∀ p ∈ (∅ : SortedSet Nat).insert q, p ∉ z := by
      intro p hp
      rw [SortedSet.mem_insert] at hp
      rwa [hp.resolve_right (SortedSet.not_mem_empty p)]
    rw [expresses_with_y_iff hc (SortedSet.mem_insert.2 (Or.inl rfl)) hyz]
    have hsize : ((∅ : SortedSet Nat).insert q).size = 1 := rfl
    rw [hsize, add_right_inj]
    rcases hc with rfl | rfl <;> decide
  refine ⟨fun h => ?_, fun h kind sign x z q _ hz => (hone hz).2 h⟩
  exact (hone (SortedSet.not_mem_empty 0)).1 (h .pi8 .plus ∅ ∅ 0 (by simp) (by simp))

/-- Eliminating Y keeps the sign exactly for one or two Y modulo four. Otherwise the rotation with the
opposite sign is expressed. -/
theorem conjugateY_keeps_sign_iff (hc : c = 1 ∨ c = 3) (hsingle : KeepsSingleY c)
    {p : Nat} (hp : p ∈ y) (hyz : ∀ q ∈ y, q ∉ z) :
    (Expresses c (conjugateY kind sign x z y) (.unnumbered kind sign x y z) ↔
        y.size % 4 = 1 ∨ y.size % 4 = 2) ∧
      (Expresses c (conjugateY kind sign x z y) (.unnumbered kind sign.opposite x y z) ↔
        y.size % 4 = 3 ∨ y.size % 4 = 0) := by
  obtain rfl := (keepsSingleY_iff hc).1 hsingle
  have hsize : (y.size : ZMod 4) = (y.size % 4 : Nat) := (ZMod.natCast_mod ..).symm
  have hparity : y.size % 2 = y.size % 4 % 2 := (Nat.mod_mod_of_dvd _ (by decide)).symm
  rw [expresses_with_y_iff hc hp hyz, expresses_with_y_iff hc hp hyz, hsize, hparity,
    Sign.phase_opposite, add_assoc, add_right_inj, add_right_inj]
  have hlt : y.size % 4 < 4 := Nat.mod_lt _ (by decide)
  generalize y.size % 4 = n at hlt
  clear hsize hparity
  decide +revert

/-- A measurement with six Y keeps its sign. -/
theorem six_y_keep_sign : ((3 : ZMod 4) = 1 ∨ (3 : ZMod 4) = 3) ∧ KeepsSingleY 3 ∧
    0 ∈ SortedSet.ofList [0, 1, 2, 3, 4, 5] ∧
    (∀ q ∈ SortedSet.ofList [0, 1, 2, 3, 4, 5], q ∉ SortedSet.ofList [7, 8]) ∧
    Expresses 3 (conjugateY .measurement .minus (SortedSet.ofList [6]) (SortedSet.ofList [7, 8])
        (SortedSet.ofList [0, 1, 2, 3, 4, 5]))
      (.unnumbered .measurement .minus (SortedSet.ofList [6]) (SortedSet.ofList [0, 1, 2, 3, 4, 5])
        (SortedSet.ofList [7, 8])) := by
  have hsingle : KeepsSingleY 3 := (keepsSingleY_iff (Or.inr rfl)).2 rfl
  have hp : 0 ∈ SortedSet.ofList [0, 1, 2, 3, 4, 5] := by decide
  have hyz : ∀ q ∈ SortedSet.ofList [0, 1, 2, 3, 4, 5], q ∉ SortedSet.ofList [7, 8] := by
    intro q hq
    rw [SortedSet.mem_ofList] at hq ⊢
    revert q
    decide
  exact ⟨Or.inr rfl, hsingle, hp, hyz,
    (conjugateY_keeps_sign_iff (Or.inr rfl) hsingle hp hyz).1.2 (Or.inr rfl)⟩

/-- A rotation about three Y does not keep its sign. -/
theorem three_y_lose_sign : KeepsSingleY 3 ∧ ¬ KeepsSingleY 1 ∧
    ¬ Expresses 3 (conjugateY .pi8 .plus ∅ ∅ (SortedSet.ofList [0, 1, 2]))
      (.unnumbered .pi8 .plus ∅ (SortedSet.ofList [0, 1, 2]) ∅) := by
  refine ⟨(keepsSingleY_iff (Or.inr rfl)).2 rfl,
    fun h => absurd ((keepsSingleY_iff (Or.inl rfl)).1 h) (by decide), fun h => ?_⟩
  have hp : 0 ∈ SortedSet.ofList [0, 1, 2] := by decide
  have hphase := (expresses_with_y_iff (Or.inr rfl) hp fun q _ => SortedSet.not_mem_empty q).1 h
  have hsize : (SortedSet.ofList [0, 1, 2]).size = 3 := by decide
  rw [hsize] at hphase
  exact absurd hphase (by decide)

end Circuit

end LatticeSurgery
