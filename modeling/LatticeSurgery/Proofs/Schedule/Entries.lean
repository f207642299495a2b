import LatticeSurgery.Proofs.Packing.Rounds
import LatticeSurgery.Proofs.Schedule.Replenishing

/-!
# Where the entries of a schedule come from

Every entry of a schedule is what was done in one tick of its run (`Run.Reachable.exists_fill_of_log`).
A tick is packed afresh, or a packing of an earlier tick is used again, or the tick passes because only
π/8 rotations could be done (`Run.assigns_of_fill`). So what is true of both kinds of packings is true
of a schedule.
-/

namespace LatticeSurgery

open Ordered WordSource

namespace Run

variable {σ : Type} [WordSource σ] {conf : Configuration} {c : Circuit} {b : Board} {rng : σ}
  {done : Finset Nat} {s s' : Run σ} {t : Nat} {ps : List Packed}

/-! ## Filling a tick -/

/-- The packings of an earlier tick that fit the tick that begins in a state. -/
def reusable (conf : Configuration) (c : Circuit) (s : Run σ) : List Packed :=
  s.cache.find (PackingCache.key
      (s.board.withStatus .magic .ready ∪ s.board.withStatus .storage .ready) (offered conf c s))
    (offered conf c s) s.board

/-- What can be done in the tick that begins in a state. -/
inductive Assigns (conf : Configuration) (c : Circuit) (s : Run σ) : List Packed → Prop
  /-- The tick passes, because magic states are all that is missing. -/
  | waits (hpi8 : onlyPi8 (offered conf c s) = true) : Assigns conf c s []
  /-- No earlier packing fits, and the rotations are packed. -/
  | packs {r : Packer.Result σ} (hnone : s.reusable conf c = [])
    (hpack : s.packer.pack (offered conf c s) s.board (s.factories.takeStock s.board).2 s.rng =
      .ok r) : Assigns conf c s r.packed
  /-- An earlier packing is used again. -/
  | reuses (hsome : s.reusable conf c ≠ []) : Assigns conf c s (s.reusable conf c)

theorem assigns_of_packOrReuse {r : List Packed × Run σ}
    (h : ({ s with factories := (s.factories.takeStock s.board).2 } : Run σ).packOrReuse
      (s.board.withStatus .magic .ready ∪ s.board.withStatus .storage .ready) (offered conf c s) =
        .ok r) : Assigns conf c s r.1 := by
  unfold packOrReuse at h
  dsimp only at h
  split at h
  · next hnone =>
    obtain ⟨packed, hpack, h⟩ := exists_of_bind_eq_ok h
    cases h
    exact .packs hnone hpack
  · next hsome =>
    obtain ⟨hits, -, h⟩ := exists_of_bind_eq_ok h
    obtain ⟨⟨b', f'⟩, -, h⟩ := exists_of_bind_eq_ok h
    cases h
    exact .reuses hsome

/-- A tick is filled in one of three ways. -/
theorem assigns_of_fill {f : Filled σ} (h : s.fill conf c = .ok f) :
    Assigns conf c s f.assigned := by
  rcases cases_of_fill h with ⟨hnil, -, hpi8⟩ | ⟨r, hpack, rfl⟩
  · rw [hnil]
    exact .waits hpi8
  · exact assigns_of_packOrReuse hpack

/-! ## What is entered -/

/-- What is entered in a tick is what was done when that tick began. -/
theorem Reachable.exists_fill_of_log (hc : c.Numbered) (hb : b.Sound)
    (h : Reachable conf c b rng s) (hget : s.log.get? t = some ps) :
    ∃ s₀ f, Reachable conf c b rng s₀ ∧ s₀.factories.tick = t ∧ s₀.fill conf c = .ok f ∧
      f.assigned = ps := by
  induction h with
  | start hstart =>
    rw [((start_ends hc hb conf rng).of_ok hstart).1.log] at hget
    cases hget
  | step h _ hstep ih =>
    obtain ⟨done, hs⟩ := h.sound hc hb
    obtain ⟨f, hfill, hticks⟩ := exists_fill_of_step hc hs hstep
    rw [hticks.get?_log] at hget
    split at hget
    · next hnow => exact ⟨_, f, h, hnow.1.symm, hfill, Option.some.inj hget⟩
    · exact ih hget

/-- What was done in a tick is entered in every later state of the run. -/
theorem Reachable.exists_fill_of_lt (hc : c.Numbered) (hb : b.Sound)
    (h : Reachable conf c b rng s) (h' : Reachable conf c b rng s')
    (hlt : s.factories.tick < s'.factories.tick) :
    ∃ f, s.fill conf c = .ok f ∧ ∀ p ∈ f.assigned, Enters s'.log s.factories.tick p := by
  induction h' with
  | start hstart =>
    rw [((start_ends hc hb conf rng).of_ok hstart).1.setsUp.tick] at hlt
    cases hlt
  | @step s₁ s₂ h₁ _ hstep ih =>
    obtain ⟨done, hs₁, hlogs⟩ := h₁.logs hc hb
    obtain ⟨f₁, hfill, hticks⟩ := exists_fill_of_step hc hs₁ hstep
    rw [hticks.tick] at hlt
    rcases (Nat.lt_succ_iff.1 hlt).lt_or_eq with hbefore | hnow
    · obtain ⟨f, hf, henters⟩ := ih hbefore
      exact ⟨f, hf, fun p hp => (hticks.enters_iff hlogs).2 (Or.inr (henters p hp))⟩
    · obtain rfl := h.eq_of_tick hc hb h₁ hnow
      exact ⟨f₁, hfill, fun p hp => (hticks.enters_iff hlogs).2 (Or.inl ⟨rfl, hp⟩)⟩

end Run

end LatticeSurgery
