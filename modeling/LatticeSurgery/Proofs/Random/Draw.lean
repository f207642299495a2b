import LatticeSurgery.Proofs.Endings
import LatticeSurgery.Random.Draw

/-!
# Draws from a reliable source

A source is reliable on a set of states if it hands out a word in each of them and stays in the set.
A draw from such a source can only fail by giving up, and it leaves the source in the set. A source is
ranged if its words of 64 bits are below 2⁶⁴; a number that is drawn from them is in its range. Whatever
the words are, a list that is shuffled keeps its elements.
-/

namespace LatticeSurgery

variable {σ : Type} [WordSource σ]

/-- In the states of `P` the source always hands out a word, and it stays in `P`. -/
def WordSource.Reliable (P : σ → Prop) : Prop :=
  ∀ s, P s → ∃ w s', WordSource.next32 s = .ok (w, s') ∧ P s'

/-- The source in the state `s'` is as reliable as in the state `s`. -/
def WordSource.Keeps (s s' : σ) : Prop :=
  ∀ P : σ → Prop, WordSource.Reliable P → P s → P s'

/-- A fault that a reliable source in the state `s` does not exclude. -/
def WordSource.Excuses (s : σ) (e : Fault) : Prop :=
  ∀ P : σ → Prop, WordSource.Reliable P → P s → e = .drawAbandoned

/-- In the states of `P` every draw from a range comes to an end as well. -/
structure WordSource.Decisive (P : σ → Prop) : Prop where
  reliable : WordSource.Reliable P
  draws : ∀ s, P s → ∀ n, ∃ r, Draw.below32 n s = .ok r

/-- A fault that the source in the state `s` can bring about. -/
structure WordSource.CanCause (s : σ) (e : Fault) : Prop where
  excuses : WordSource.Excuses s e
  undecided : ∀ P : σ → Prop, WordSource.Decisive P → ¬ P s

/-- In the states of `P` a word of 64 bits is below 2⁶⁴, and the source stays in `P`. -/
structure WordSource.Ranged (P : σ → Prop) : Prop where
  next32 : ∀ s w s', P s → WordSource.next32 s = .ok (w, s') → P s'
  next64 : ∀ s w s', P s → WordSource.next64 s = .ok (w, s') → w < Nat.pow 2 64 ∧ P s'

namespace WordSource

variable {s s' s'' : σ} {e : Fault}

theorem Keeps.refl (s : σ) : Keeps s s := fun _ _ h => h

theorem Keeps.trans (h : Keeps s s') (h' : Keeps s' s'') : Keeps s s'' :=
  fun P hP hs => h' P hP (h P hP hs)

theorem Excuses.of_keeps (h : Keeps s s') (he : Excuses s' e) : Excuses s e :=
  fun P hP hs => he P hP (h P hP hs)

theorem CanCause.of_keeps (h : Keeps s s') (he : CanCause s' e) : CanCause s e :=
  ⟨he.excuses.of_keeps h, fun P hP hs => he.undecided P hP (h P hP.reliable hs)⟩

end WordSource

/-- A list of words that is handed out in a cycle never runs out. -/
theorem CyclicWords.reliable {words : List Nat} (hwords : words ≠ []) :
    WordSource.Reliable fun s : CyclicWords => s.words = words := by
  rintro ⟨ws, position⟩ hws
  obtain rfl : ws = words := hws
  have hlt := Nat.mod_lt position (List.length_pos_iff.2 hwords)
  refine ⟨ws[position % ws.length] % 4294967296, ⟨ws, position + 1⟩, ?_, rfl⟩
  show CyclicWords.next32 _ = _
  unfold CyclicWords.next32 CyclicWords.next64
  rw [List.getElem?_eq_getElem hlt]
  rfl

/-- Words below 2⁶⁴ that are handed out in a cycle are in range. -/
theorem CyclicWords.ranged {words : List Nat} (hwords : ∀ w ∈ words, w < Nat.pow 2 64) :
    WordSource.Ranged fun s : CyclicWords => s.words = words := by
  have hnext : ∀ (s : CyclicWords) w s', s.words = words → s.next64 = .ok (w, s') →
      w ∈ words ∧ s'.words = words := by
    intro s w s' hs h
    unfold CyclicWords.next64 at h
    split at h
    · next hw =>
      cases h
      exact ⟨hs ▸ List.mem_of_getElem? hw, hs⟩
    · cases h
  refine ⟨fun s w s' hs h => ?_, fun s w s' hs h => ?_⟩
  · obtain ⟨⟨v, t⟩, hv, h⟩ := exists_of_bind_eq_ok h
    cases h
    exact (hnext s v _ hs hv).2
  · obtain ⟨hw, hs'⟩ := hnext s w s' hs h
    exact ⟨hwords w hw, hs'⟩

/-- The words of a key stream are in range. -/
theorem KeyStream.ranged : WordSource.Ranged fun _ : KeyStream => True := by
  have hword : ∀ s : KeyStream, s.word.1 < 2 ^ 32 := by
    intro s
    unfold KeyStream.word
    dsimp only
    split
    · exact Nat.two_pow_pos 32
    · next w _ _ => exact w.toNat_lt
  refine ⟨fun _ _ _ _ _ => trivial, fun s w s' _ h => ⟨?_, trivial⟩⟩
  obtain rfl : s.word.1 + s.word.2.word.1 * 4294967296 = w :=
    congrArg Prod.fst (Except.ok.inj h)
  have hlow := hword s
  have hhigh := hword s.word.2
  show _ < 2 ^ 64
  omega

namespace Draw

open WordSource

theorem draw_ends {width bound n tries : Nat} (s : σ) :
    Ends (draw next32 width bound n tries s) (Excuses s) fun r => Keeps s r.2 := by
  induction tries generalizing s with
  | zero => exact fun P _ _ => rfl
  | succ tries ih =>
    unfold draw
    cases hnext : next32 s with
    | error e =>
      -- a reliable source would have handed out a word
      intro P hP hs
      obtain ⟨w, s', hw, -⟩ := hP s hs
      rw [hnext] at hw
      cases hw
    | ok r =>
      obtain ⟨w, s'⟩ := r
      have hkeeps : Keeps s s' := by
        intro P hP hs
        obtain ⟨w', s'', hw, hs''⟩ := hP s hs
        rw [hnext] at hw
        cases hw
        exact hs''
      simp only [bind, Except.bind]
      split
      · exact hkeeps
      · exact (ih s').mono (fun e he => he.of_keeps hkeeps) fun r hr => hkeeps.trans hr

/-- An element that is drawn belongs to the list. -/
theorem element_ends {α : Type} (l : List α) (s : σ) :
    Ends (element l s) (CanCause s) fun r => (∀ a, r.1 = some a → a ∈ l) ∧ Keeps s r.2 := by
  unfold element
  split
  · exact ⟨by simp, Keeps.refl s⟩
  · have hdraw : Ends (below32 l.length s) (CanCause s) fun r => Keeps s r.2 := by
      have hends : Ends (below32 l.length s) (Excuses s) fun r => Keeps s r.2 := draw_ends s
      cases hr : below32 l.length s with
      | ok r => exact hends.of_ok hr
      | error e =>
        refine ⟨hends.of_error hr, fun P hP hs => ?_⟩
        obtain ⟨r, hok⟩ := hP.draws s hs l.length
        rw [hr] at hok
        cases hok
    refine Ends.bind hdraw ?_
    rintro ⟨i, s'⟩ hs'
    exact ⟨fun a ha => List.mem_of_getElem? ha, hs'⟩

/-! ## Ranges -/

variable {P : σ → Prop} {s s' : σ} {n v : Nat}

/-- The number that is drawn from a word is below `n`. -/
theorem lt_of_accept? {width bound word : Nat} (hword : word < Nat.pow 2 width) (hn : 0 < n)
    (h : accept? width bound n word = some v) : v < n := by
  unfold accept? at h
  dsimp only at h
  split at h
  · cases h
    exact Nat.div_lt_of_lt_mul (Nat.mul_lt_mul_of_pos_right hword hn)
  · cases h

omit [WordSource σ] in
/-- What holds of every word that is handed out and of every state after it holds after a draw. -/
theorem draw_spec {next : σ → Except Fault (Nat × σ)} {Q : Nat → Prop}
    (hnext : ∀ s w s', P s → next s = .ok (w, s') → Q w ∧ P s') {width bound tries : Nat}
    (hs : P s) (h : draw next width bound n tries s = .ok (v, s')) :
    (∃ w, Q w ∧ accept? width bound n w = some v) ∧ P s' := by
  induction tries generalizing s with
  | zero => cases h
  | succ tries ih =>
    obtain ⟨⟨w, t⟩, hw, h⟩ := exists_of_bind_eq_ok h
    obtain ⟨hword, ht⟩ := hnext s w t hs hw
    dsimp only at h
    split at h
    · next haccept =>
      cases h
      exact ⟨⟨w, hword, haccept⟩, ht⟩
    · exact ih ht h

theorem below64_ranged (hP : Ranged P) (hs : P s) (hn : 0 < n) (h : below64 n s = .ok (v, s')) :
    v < n ∧ P s' := by
  obtain ⟨⟨w, hw, haccept⟩, hs'⟩ := draw_spec hP.next64 hs h
  exact ⟨lt_of_accept? hw hn haccept, hs'⟩

theorem weighted_ranged (hP : Ranged P) (hs : P s) {weights : List Nat} {r : Option Nat}
    (h : weighted weights s = .ok (r, s')) : P s' := by
  unfold Draw.weighted at h
  dsimp only at h
  split at h
  · cases h
    exact hs
  · obtain ⟨⟨c, t⟩, hc, h⟩ := exists_of_bind_eq_ok h
    cases h
    exact (draw_spec (fun s w s' hs hw => ⟨trivial, hP.next32 s w s' hs hw⟩) hs hc).2

/-! ## Shuffling -/

theorem exchange_perm {α : Type} (l : List α) (i j : Nat) : (exchange l i j).Perm l := by
  unfold exchange
  split
  · next a b ha hb =>
    obtain ⟨hi, rfl⟩ := List.getElem?_eq_some_iff.1 ha
    obtain ⟨hj, rfl⟩ := List.getElem?_eq_some_iff.1 hb
    exact List.set_set_perm hi hj
  · exact List.Perm.refl _

theorem shuffleBelow_perm {α : Type} {l l' : List α}
    (h : shuffleBelow n l s = .ok (l', s')) : l'.Perm l := by
  induction n generalizing l s with
  | zero =>
    cases h
    exact List.Perm.refl _
  | succ n ih =>
    cases n with
    | zero =>
      cases h
      exact List.Perm.refl _
    | succ n =>
      obtain ⟨⟨j, t⟩, -, h⟩ := exists_of_bind_eq_ok h
      exact (ih h).trans (exchange_perm l _ j)

/-- A list in random order has the elements of the list. -/
theorem shuffle_perm {α : Type} {l l' : List α} (h : shuffle l s = .ok (l', s')) : l'.Perm l :=
  shuffleBelow_perm h

end Draw

end LatticeSurgery
