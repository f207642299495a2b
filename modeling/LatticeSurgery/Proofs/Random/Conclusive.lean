import LatticeSurgery.Proofs.Random.Draw
import Mathlib.Algebra.GroupWithZero.Nat

/-!
# Draws that come to an end

A draw rejects words, so that it can go on for ever with a source that hands out the wrong ones. A source
is conclusive (`WordSource.Conclusive`) if its words have their width and its draws come to an end. From
such a source every number that is drawn is in its range, and nothing goes wrong when a list is shuffled.
A list of words that is handed out in a cycle is conclusive if one of them is zero, which every draw
accepts (`CyclicWords.conclusive`).
-/

namespace LatticeSurgery

variable {σ : Type} [WordSource σ]

/-- In the states of `P` the words have their width, and the draws come to an end: those from a range, and
those of a place among weights whose sum is a number of 32 bits. -/
structure WordSource.Conclusive (P : σ → Prop) : Prop extends WordSource.Ranged P where
  narrow : ∀ s w s', P s → WordSource.next32 s = .ok (w, s') → w < Nat.pow 2 32
  below32 : ∀ s, P s → ∀ n, 0 < n → ∃ r, Draw.below32 n s = .ok r
  below64 : ∀ s, P s → ∀ n, 0 < n → ∃ r, Draw.below64 n s = .ok r
  weighted : ∀ s, P s → ∀ weights : List Nat, weights.sum < Nat.pow 2 32 →
    ∃ r, Draw.weighted weights s = .ok r

namespace Draw

open WordSource

variable {P : σ → Prop} {s s' : σ} {n v : Nat} {weights : List Nat}

theorem below32_ranged (hP : Conclusive P) (hs : P s) (hn : 0 < n)
    (h : below32 n s = .ok (v, s')) : v < n ∧ P s' := by
  obtain ⟨⟨w, hw, haccept⟩, hs'⟩ := draw_spec (Q := (· < Nat.pow 2 32))
    (fun s w s' hs hw => ⟨hP.narrow s w s' hs hw, hP.next32 s w s' hs hw⟩) hs h
  exact ⟨lt_of_accept? hw hn haccept, hs'⟩

theorem placeOfShare_lt {c : Nat} (h : c < weights.sum) : placeOfShare c weights < weights.length := by
  induction weights generalizing c with
  | nil => exact absurd h (Nat.not_lt_zero c)
  | cons w ws ih =>
    unfold placeOfShare
    split
    · exact Nat.succ_pos _
    · rw [List.sum_cons] at h
      exact Nat.succ_lt_succ (ih (by omega))

/-- A place that is drawn by weight is one of the list. -/
theorem weighted_lt {i : Nat} (hP : Conclusive P) (hs : P s)
    (h : Draw.weighted weights s = .ok (some i, s')) : i < weights.length := by
  unfold Draw.weighted at h
  dsimp only at h
  split at h
  · cases h
  · next htotal =>
    obtain ⟨⟨c, t⟩, hc, h⟩ := exists_of_bind_eq_ok h
    cases h
    obtain ⟨⟨w, hw, haccept⟩, -⟩ := draw_spec (Q := (· < Nat.pow 2 32))
      (fun s w s' hs hw => ⟨hP.narrow s w s' hs hw, hP.next32 s w s' hs hw⟩) hs hc
    exact placeOfShare_lt (lt_of_accept? hw (Nat.pos_of_ne_zero htotal) haccept)

/-! ## Shuffling -/

theorem shuffleBelow_ends {α : Type} (hP : Conclusive P) (hs : P s) (l : List α) :
    Ends (shuffleBelow n l s) (fun _ => False) fun r => P r.2 := by
  induction n generalizing l s with
  | zero => exact hs
  | succ n ih =>
    cases n with
    | zero => exact hs
    | succ n =>
      obtain ⟨⟨j, t⟩, hj⟩ := hP.below32 s hs (n + 2) (Nat.succ_pos _)
      unfold shuffleBelow
      rw [hj]
      exact ih (below32_ranged hP hs (Nat.succ_pos _) hj).2 _

theorem shuffle_ends {α : Type} (hP : Conclusive P) (hs : P s) (l : List α) :
    Ends (shuffle l s) (fun _ => False) fun r => P r.2 := shuffleBelow_ends hP hs l

end Draw

/-! ## Words in a cycle -/

namespace CyclicWords

variable {words : List Nat}

/-- Where the word so many places ahead is zero, a draw ends there at the latest. -/
theorem exists_draw {next : CyclicWords → Except Fault (Nat × CyclicWords)}
    (hnext : ∀ position, ∃ w, next ⟨words, position⟩ = .ok (w, ⟨words, position + 1⟩) ∧
      (words[position % words.length]? = some 0 → w = 0))
    {width bound n ahead tries position : Nat} (htries : ahead < tries)
    (hzero : words[(position + ahead) % words.length]? = some 0) :
    ∃ r, Draw.draw next width bound n tries ⟨words, position⟩ = .ok r := by
  induction tries generalizing ahead position with
  | zero => exact absurd htries (Nat.not_lt_zero _)
  | succ tries ih =>
    obtain ⟨w, hw, hw0⟩ := hnext position
    unfold Draw.draw
    rw [hw]
    cases haccept : Draw.accept? width bound n w with
    | some v =>
      refine ⟨(v, ⟨words, position + 1⟩), ?_⟩
      simp only [bind, Except.bind, haccept]
      rfl
    | none =>
      simp only [bind, Except.bind, haccept]
      cases ahead with
      | zero =>
        rw [hw0 hzero, Draw.accept?, Nat.zero_mul, Nat.zero_mod] at haccept
        simp at haccept
      | succ ahead =>
        refine ih (Nat.lt_of_succ_lt_succ htries) ?_
        rwa [Nat.add_right_comm]

/-- Some word within the next round is zero. -/
theorem exists_ahead (hzero : 0 ∈ words) (position : Nat) :
    ∃ ahead < words.length, words[(position + ahead) % words.length]? = some 0 := by
  obtain ⟨i, hi, hget⟩ := List.getElem_of_mem hzero
  have hposition := Nat.mod_lt position (Nat.zero_lt_of_lt hi)
  have hplace : ∃ ahead < words.length, (position + ahead) % words.length = i := by
    by_cases hle : position % words.length ≤ i
    · refine ⟨i - position % words.length, by omega, ?_⟩
      rw [← Nat.mod_add_mod, Nat.add_sub_cancel' hle, Nat.mod_eq_of_lt hi]
    · refine ⟨i + words.length - position % words.length, by omega, ?_⟩
      rw [← Nat.mod_add_mod, Nat.add_sub_cancel' (by omega), Nat.add_mod_right, Nat.mod_eq_of_lt hi]
  obtain ⟨ahead, hahead, heq⟩ := hplace
  exact ⟨ahead, hahead, by rw [heq, List.getElem?_eq_getElem hi, hget]⟩

/-- Words in a cycle are conclusive if zero is among them. -/
theorem conclusive (hwords : ∀ w ∈ words, w < Nat.pow 2 64) (hzero : 0 ∈ words) :
    WordSource.Conclusive fun s : CyclicWords => s.words = words := by
  have hlength : 0 < words.length := List.length_pos_of_mem hzero
  have hnext64 : ∀ position, ∃ w, next64 ⟨words, position⟩ = .ok (w, ⟨words, position + 1⟩) ∧
      words[position % words.length]? = some w := by
    intro position
    have hlt := Nat.mod_lt position hlength
    refine ⟨words[position % words.length], ?_, List.getElem?_eq_getElem hlt⟩
    unfold next64
    rw [List.getElem?_eq_getElem hlt]
  have hnext32 : ∀ position, ∃ w, next32 ⟨words, position⟩ = .ok (w, ⟨words, position + 1⟩) ∧
      (words[position % words.length]? = some 0 → w = 0) := by
    intro position
    obtain ⟨w, hw, hget⟩ := hnext64 position
    refine ⟨w % 4294967296, ?_, fun h => ?_⟩
    · unfold next32
      rw [hw]
      rfl
    · obtain rfl : w = 0 := Option.some.inj (hget.symm.trans h)
      rfl
  have hdraw32 : ∀ s : CyclicWords, s.words = words → ∀ bound n,
      ∃ r, Draw.draw WordSource.next32 32 bound n (WordSource.patience s) s = .ok r := by
    rintro ⟨ws, position⟩ hws bound n
    obtain rfl : ws = words := hws
    obtain ⟨ahead, hahead, hget⟩ := exists_ahead hzero position
    exact exists_draw hnext32 (Nat.lt_succ_of_lt hahead) hget
  refine ⟨ranged hwords, fun s w s' hs h => ?_, fun s hs n _ => hdraw32 s hs _ n, fun s hs n _ => ?_,
    fun s hs weights _ => ?_⟩
  · obtain ⟨⟨v, t⟩, -, h⟩ := exists_of_bind_eq_ok h
    cases h
    exact Nat.mod_lt v (by decide)
  · obtain ⟨ws, position⟩ := s
    obtain rfl : ws = words := hs
    obtain ⟨ahead, hahead, hget⟩ := exists_ahead hzero position
    refine exists_draw (fun position => ?_) (Nat.lt_succ_of_lt hahead) hget
    obtain ⟨w, hw, hget⟩ := hnext64 position
    exact ⟨w, hw, fun h => Option.some.inj (hget.symm.trans h)⟩
  · unfold Draw.weighted
    dsimp only
    split
    · exact ⟨_, rfl⟩
    · obtain ⟨r, hr⟩ := hdraw32 s hs (Draw.exactBound 32 (weights.foldr (· + ·) 0))
        (weights.foldr (· + ·) 0)
      rw [hr]
      exact ⟨_, rfl⟩

end CyclicWords

end LatticeSurgery
