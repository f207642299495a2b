import LatticeSurgery.Factory
import LatticeSurgery.Proofs.Endings

/-!
# The clock of the factories

When time passes, the countdowns of the board come first, then the refills that are due, then the clock,
and last what was done is entered under the tick that passed (`Factories.exists_of_advance`).
-/

namespace LatticeSurgery

namespace Factories

variable {f f' : Factories} {b b' : Board} {τ : Type} {done : List τ} {log log' : Log τ} {elapsed : Nat}

theorem exists_of_advance (h : f.advance done b log elapsed = .ok (f', b', log')) :
    ∃ ticks f₁, refillCountdown f.replenishTicks = .ok ticks ∧
      refill ticks f.groups f (b.elapse elapsed) = .ok (f₁, b') ∧
      countPlus f₁.tick elapsed = .ok f'.tick ∧ f' = { f₁ with tick := f'.tick } ∧
      log' = if done.isEmpty then log else log.insert (f'.tick - 1) done := by
  unfold advance at h
  obtain ⟨ticks, hticks, h⟩ := exists_of_bind_eq_ok h
  obtain ⟨⟨f₁, b₁⟩, hrefill, h⟩ := exists_of_bind_eq_ok h
  obtain ⟨tick, htick, h⟩ := exists_of_bind_eq_ok h
  dsimp only at h
  by_cases hdone : done.isEmpty = true
  · rw [if_pos hdone] at h
    cases h
    exact ⟨ticks, f₁, hticks, hrefill, htick, rfl, (if_pos hdone).symm⟩
  · rw [if_neg hdone] at h
    split at h
    · cases h
    · cases h
      exact ⟨ticks, f₁, hticks, hrefill, htick, rfl, (if_neg hdone).symm⟩

end Factories

end LatticeSurgery
