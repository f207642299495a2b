import LatticeSurgery.Proofs.Placement.Draws
import Mathlib.Algebra.Order.Field.Basic
import Mathlib.Data.Rat.Cast.Order

/-!
# Comparing qubits

A qubit joins the crossing of a seed if it shares two fifths of its requests with the seed and its other
requests are at most a tenth of those of the seed. `CircuitStats.attracts` decides this as it is worded,
by ratios and a difference, and checks every step of the comparison: both qubits are listed, they are not
the same one, nothing is divided by zero, and no more requests are taken off than there are. Placing
around crossings with this test in place of the one without checks comes to the same ending with every
circuit, board and source of random words (`Placement.checkedCluster_eq`), so no check ever fails.
-/

namespace LatticeSurgery

namespace CircuitStats

/-- Why a comparison breaks down. -/
inductive Slip
  /-- There are no statistics of the qubit. -/
  | unlisted (qubit : Nat)
  /-- The qubit is compared with itself. -/
  | sameQubit (qubit : Nat)
  /-- More is taken off than there is. -/
  | belowZero
  /-- Something is divided by zero. -/
  | zeroDivisor
deriving DecidableEq

/-- The statistics of a qubit. -/
def listed (stats : CircuitStats) (q : Nat) : Except Slip QubitStats :=
  (stats.qubits.get? q).elim (.error (.unlisted q)) .ok

/-- What is left of `n` after taking `m` off. -/
def rest (n m : Nat) : Except Slip Nat := if m ≤ n then .ok (n - m) else .error .belowZero

/-- The ratio of `n` to `m`. -/
def ratio (n m : Nat) : Except Slip ℚ := if m = 0 then .error .zeroDivisor else .ok (n / m)

/-- Whether a qubit is attracted by a seed, by ratios of requests, with each step checked. Without shared
requests nothing is divided. -/
def compare (leech seed : QubitStats) : Except Slip Bool :=
  let shared := leech.affinityWith seed.id
  if shared = 0 ∨ leech.requests = 0 ∨ seed.requests = 0 then .ok false
  else do
    let attraction ← ratio shared leech.requests
    let others ← rest leech.requests shared
    let repulsion ← ratio others seed.requests
    return decide (2 / 5 ≤ attraction) && decide (repulsion ≤ 1 / 10)

/-- Whether one qubit is attracted by another one, with each step checked. -/
def attracts (stats : CircuitStats) (leech seed : Nat) : Except Slip Bool :=
  if leech = seed then .error (.sameQubit leech)
  else do
    let l ← stats.listed leech
    let s ← stats.listed seed
    compare l s

variable {c : Circuit} {p q : Nat}

theorem two_fifths_le_iff {n m : Nat} (hm : m ≠ 0) : (2 / 5 : ℚ) ≤ n / m ↔ 2 * m ≤ 5 * n := by
  have hpos : (0 : ℚ) < m := Nat.cast_pos.2 (Nat.pos_of_ne_zero hm)
  rw [div_le_div_iff₀ (by norm_num) hpos, mul_comm (n : ℚ)]
  exact_mod_cast Iff.rfl

theorem le_tenth_iff {n m : Nat} (hm : m ≠ 0) : (n / m : ℚ) ≤ 1 / 10 ↔ 10 * n ≤ m := by
  have hpos : (0 : ℚ) < m := Nat.cast_pos.2 (Nat.pos_of_ne_zero hm)
  rw [div_le_div_iff₀ hpos (by norm_num), one_mul, mul_comm (n : ℚ)]
  exact_mod_cast Iff.rfl

/-- If the shared requests are among those of the qubit, the comparison can be carried out. -/
theorem compare_eq {l s : QubitStats} (hshared : l.affinityWith s.id ≤ l.requests) :
    compare l s = .ok (Placement.isAttracted l s) := by
  unfold compare Placement.isAttracted
  dsimp only
  split
  · next hzero => rcases hzero with h | h | h <;> simp [h]
  · next hpos =>
    rw [not_or, not_or] at hpos
    obtain ⟨hshares, hrequests, hseed⟩ := hpos
    have hattraction : ratio (l.affinityWith s.id) l.requests =
        .ok (l.affinityWith s.id / l.requests) := if_neg hrequests
    have hothers : rest l.requests (l.affinityWith s.id) = .ok (l.requests - l.affinityWith s.id) :=
      if_pos hshared
    have hrepulsion : ratio (l.requests - l.affinityWith s.id) s.requests =
        .ok (((l.requests - l.affinityWith s.id : Nat) : ℚ) / s.requests) := if_neg hseed
    rw [hattraction, hothers]
    show (ratio _ _ >>= _) = _
    rw [hrepulsion]
    show Except.ok _ = _
    simp only [two_fifths_le_iff hrequests, le_tenth_iff hseed]
    simp [Nat.pos_iff_ne_zero, hshares, hrequests, hseed]

/-- Statistics that no circuit has: two requests are shared, but there is one only. -/
example : compare { requests := 1, affinity := .ofList [(0, 2)] } { id := 0, requests := 20 } =
    .error .belowZero := rfl

theorem listed_ofCircuit (hq : q ∈ (ofCircuit c).byFlips) :
    (ofCircuit c).listed q = .ok ((ofCircuit c).of q) ∧ ((ofCircuit c).of q).id = q := by
  obtain ⟨s, hs⟩ := SortedMap.mem_keys_iff.1 ((byFlips_perm _).mem_iff.1 hq)
  have hof : (ofCircuit c).of q = s := by rw [of, SortedMap.getD, hs, Option.getD_some]
  rw [hof]
  refine ⟨by rw [listed, hs, Option.elim_some], ?_⟩
  rw [show (ofCircuit c).qubits.get? q = _ from SortedMap.get?_mapValues _ _ q] at hs
  obtain ⟨s', -, rfl⟩ := Option.map_eq_some_iff.1 hs
  rfl

/-- Two different qubits of a circuit can be compared: no qubit shares more requests than it has. -/
theorem attracts_ofCircuit (hp : p ∈ (ofCircuit c).byFlips) (hq : q ∈ (ofCircuit c).byFlips)
    (hne : p ≠ q) : (ofCircuit c).attracts p q =
      .ok (Placement.isAttracted ((ofCircuit c).of p) ((ofCircuit c).of q)) := by
  obtain ⟨hlisted, -⟩ := listed_ofCircuit hp
  obtain ⟨hlisted', hid⟩ := listed_ofCircuit hq
  rw [attracts, if_neg hne, hlisted, hlisted']
  refine compare_eq ?_
  rw [hid]
  exact affinityWith_le_requests c p q

end CircuitStats

/-! ## Checked runs -/

namespace Placement

open CircuitStats (Slip)

variable {σ : Type} [WordSource σ]

/-- Gives the patches of a crossing to the qubits of a list that the seed attracts, with each comparison
checked. -/
def checkedFill (stats : CircuitStats) (seed : Nat) :
    List Nat → List Nat → Clustering → σ → Except (Halt Slip) (Clustering × σ)
  | [], _, c, rng => .ok (c, rng)
  | leech :: leeches, crossing, c, rng =>
    if c.placed.contains leech then checkedFill stats seed leeches crossing c rng
    else do
      -- asked also when the crossing has no place left
      if ← orRefuse (stats.attracts leech seed) then
        match ← orHalt (takeRandom crossing rng) with
        | (none, rng) => return (c, rng)
        | (some (patch, crossing), rng) =>
          checkedFill stats seed leeches crossing (c.give leech patch) rng
      else checkedFill stats seed leeches crossing c rng

/-- Seeds crossings in at most `rounds` rounds, with each comparison checked. -/
def checkedSeed (stats : CircuitStats) :
    Nat → List (List Nat) → Clustering → σ → Except (Halt Slip) (Clustering × σ)
  | 0, _, c, rng => .ok (c, rng)
  | rounds + 1, crossings, c, rng =>
    if crossings.isEmpty || c.seeds.isEmpty then .ok (c, rng)
    else do
      let (i, rng) ← orHalt (drawSeed stats c.seeds rng)
      match c.seeds[i]? with
      | none => return (c, rng)
      | some seed =>
        match ← orHalt (takeRandom crossings rng) with
        | (none, rng) => return (c, rng)
        | (some (crossing, crossings), rng) =>
          match ← orHalt (takeRandom crossing rng) with
          | (none, rng) =>
            checkedSeed stats rounds crossings { c with seeds := c.seeds.eraseIdx i } rng
          | (some (patch, crossing), rng) =>
            let (c, rng) ← checkedFill stats seed stats.byFlips crossing (c.give seed patch) rng
            checkedSeed stats rounds crossings c rng

/-- Places qubits around crossings, with each comparison checked. -/
def checkedCluster (stats : CircuitStats) (b : Board) (rng : σ) :
    Except (Halt Slip) (SortedMap Nat Nat × σ) := do
  let corners := corners b.facings
  let crossings := crossings b corners
  let (c, rng) ← checkedSeed stats crossings.length crossings ⟨∅, stats.byFlips⟩ rng
  let left := corners.filter fun p => !c.placed.values.contains p
  orHalt (placeRest stats.byFlips left (sides b.facings) c.placed rng)

variable {c : Circuit} {s : σ} {seed : Nat} {cl : Clustering}

theorem contains_give (cl : Clustering) (q p : Nat) {r : Nat} (h : r = q ∨ cl.placed.contains r = true) :
    (cl.give q p).placed.contains r = true := by
  show (cl.placed.insert q p).contains r = true
  rw [SortedMap.contains, SortedMap.get?_insert]
  split
  · rfl
  · next hne => exact h.resolve_left fun heq => hne (Ordered.same_iff.2 heq)

/-- A qubit that is compared with the seed has no patch yet, unlike the seed. -/
theorem checkedFill_eq {qs crossing : List Nat} (hseed : seed ∈ (CircuitStats.ofCircuit c).byFlips)
    (hqs : ∀ q ∈ qs, q ∈ (CircuitStats.ofCircuit c).byFlips)
    (hplaced : cl.placed.contains seed = true) :
    checkedFill (CircuitStats.ofCircuit c) seed qs crossing cl s =
      orHalt (fillCrossing (CircuitStats.ofCircuit c) seed qs crossing cl s) := by
  induction qs generalizing crossing cl s with
  | nil => rfl
  | cons q qs ih =>
    have hq := hqs q List.mem_cons_self
    have hrest : ∀ q ∈ qs, q ∈ (CircuitStats.ofCircuit c).byFlips := fun q hq =>
      hqs q (List.mem_cons_of_mem _ hq)
    unfold checkedFill fillCrossing
    cases hnew : cl.placed.contains q with
    | true => exact ih hrest hplaced
    | false =>
      have hne : q ≠ seed := by
        rintro rfl
        rw [hplaced] at hnew
        cases hnew
      rw [if_neg Bool.false_ne_true, CircuitStats.attracts_ofCircuit hq hseed hne, Bool.false_or]
      cases isAttracted ((CircuitStats.ofCircuit c).of q) ((CircuitStats.ofCircuit c).of seed) with
      | false => exact ih hrest hplaced
      | true =>
        refine orHalt_bind ?_
        rintro ⟨r, t⟩ -
        cases r with
        | none => rfl
        | some r => exact ih hrest (contains_give cl q r.1 (Or.inr hplaced))

/-- The seeds are qubits of the circuit, and a seed has a patch before others are compared with it. -/
theorem checkedSeed_eq {rounds : Nat} {crossings : List (List Nat)}
    (hseeds : ∀ q ∈ cl.seeds, q ∈ (CircuitStats.ofCircuit c).byFlips) :
    checkedSeed (CircuitStats.ofCircuit c) rounds crossings cl s =
      orHalt (seedCrossings (CircuitStats.ofCircuit c) rounds crossings cl s) := by
  induction rounds generalizing crossings cl s with
  | zero => rfl
  | succ rounds ih =>
    unfold checkedSeed seedCrossings
    split
    · rfl
    · refine orHalt_bind ?_
      rintro ⟨i, t⟩ -
      cases hseed : cl.seeds[i]? with
      | none => simp only [hseed]; rfl
      | some seed =>
        have hlisted := hseeds seed (List.mem_of_getElem? hseed)
        simp only [hseed]
        refine orHalt_bind ?_
        rintro ⟨r, t'⟩ -
        cases r with
        | none => rfl
        | some r =>
          refine orHalt_bind ?_
          rintro ⟨r', t''⟩ -
          cases r' with
          | none => exact ih fun q hq => hseeds q (List.mem_of_mem_eraseIdx hq)
          | some r' =>
            dsimp only
            rw [checkedFill_eq hlisted (fun _ hq => hq) (contains_give cl seed r'.1 (Or.inl rfl))]
            refine orHalt_bind fun filled hfill => ih fun q hq => hseeds q ?_
            exact List.mem_of_mem_filter ((seeds_fillCrossing hfill).subset hq)

theorem checkedCluster_eq (c : Circuit) (b : Board) (s : σ) :
    checkedCluster (CircuitStats.ofCircuit c) b s =
      orHalt (cluster (CircuitStats.ofCircuit c) b s) := by
  unfold checkedCluster cluster
  dsimp only
  rw [checkedSeed_eq fun _ hq => hq]
  exact orHalt_bind fun _ _ => rfl

end Placement

/-- The affinity of two different qubits is the number of rotations that touch both, so it is the same
from either side, and neither of the two has fewer requests. In every run of the placement around
crossings all comparisons can be carried out: those of different qubits, all of them listed, without
taking off more requests than there are and without dividing by zero. -/
theorem CircuitStats.affinity_comparable (c : Circuit) :
    (∀ p q, ((ofCircuit c).of p).affinityWith q = (if p = q then 0 else
          c.rotations.countP fun r => r.activeQubits.contains p && r.activeQubits.contains q) ∧
        ((ofCircuit c).of p).affinityWith q = ((ofCircuit c).of q).affinityWith p ∧
        ((ofCircuit c).of p).affinityWith q ≤ ((ofCircuit c).of p).requests ∧
        ((ofCircuit c).of p).affinityWith q ≤ ((ofCircuit c).of q).requests) ∧
    ∀ {σ : Type} [WordSource σ] (b : Board) (s : σ),
      Placement.checkedCluster (ofCircuit c) b s = orHalt (Placement.cluster (ofCircuit c) b s) := by
  refine ⟨fun p q => ?_, fun b s => Placement.checkedCluster_eq c b s⟩
  have hcomm : ((ofCircuit c).of p).affinityWith q = ((ofCircuit c).of q).affinityWith p := by
    rw [affinityWith_ofCircuit, affinityWith_ofCircuit]
    exact List.countP_congr fun r _ => by rw [Rotation.joins_comm]
  refine ⟨?_, hcomm, affinityWith_le_requests c p q, hcomm ▸ affinityWith_le_requests c q p⟩
  rw [affinityWith_ofCircuit]
  split
  · next heq => exact List.countP_eq_zero.2 fun r _ h => (Rotation.joins_iff.1 h).1 heq
  · next hne => exact List.countP_congr fun r _ => by simp [Rotation.joins, hne]

end LatticeSurgery
