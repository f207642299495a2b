import LatticeSurgery.Fault

/-!
# How computations end

A computation that can stop with an error is specified by two properties: `Ends x fail post` says
that a result of `x` satisfies `post` and that an error of `x` satisfies `fail`. With nothing to
satisfy `fail`, the computation is sure to have a result (`Ends.exists_ok`).
-/

namespace LatticeSurgery

variable {ε α β : Type}

/-- A result satisfies `post`, and an error satisfies `fail`. -/
def Ends (x : Except ε α) (fail : ε → Prop) (post : α → Prop) : Prop :=
  match x with
  | .ok a => post a
  | .error e => fail e

variable {x : Except ε α} {fail fail' : ε → Prop} {post post' : α → Prop}

instance [∀ e, Decidable (fail e)] [∀ a, Decidable (post a)] : Decidable (Ends x fail post) :=
  match x with
  | .ok a => inferInstanceAs (Decidable (post a))
  | .error e => inferInstanceAs (Decidable (fail e))

theorem Ends.mono (h : Ends x fail post) (hfail : ∀ e, fail e → fail' e)
    (hpost : ∀ a, post a → post' a) : Ends x fail' post' := by
  cases x with
  | ok a => exact hpost a h
  | error e => exact hfail e h

/-- A computation goes on with a result of its first part. -/
theorem Ends.bind {f : α → Except ε β} {q : β → Prop} (h : Ends x fail post)
    (hf : ∀ a, post a → Ends (f a) fail q) : Ends (x >>= f) fail q := by
  cases x with
  | ok a => exact hf a h
  | error e => exact h

theorem Ends.of_ok (h : Ends x fail post) {a : α} (hx : x = .ok a) : post a := by
  subst hx
  exact h

theorem Ends.of_error (h : Ends x fail post) {e : ε} (hx : x = .error e) : fail e := by
  subst hx
  exact h

/-- The property of the result is one of this result only. -/
theorem Ends.and_eq_ok (h : Ends x fail post) : Ends x fail fun a => post a ∧ x = .ok a := by
  cases x with
  | ok a => exact ⟨h, rfl⟩
  | error e => exact h

/-- A computation that does not stop has a result. -/
theorem Ends.exists_ok (h : Ends x (fun _ => False) post) : ∃ a, x = .ok a ∧ post a := by
  cases x with
  | ok a => exact ⟨a, rfl, h⟩
  | error e => exact h.elim

/-- A computation in two parts that has a result has one in each of them. -/
theorem exists_of_bind_eq_ok {f : α → Except ε β} {b : β} (h : x >>= f = .ok b) :
    ∃ a, x = .ok a ∧ f a = .ok b := by
  cases x with
  | error e => cases h
  | ok a => exact ⟨a, rfl, h⟩

/-- A result that passes a test is there. -/
theorem exists_of_any_toOption {p : α → Bool} (h : x.toOption.any p = true) :
    ∃ a, x = .ok a ∧ p a = true := by
  cases x with
  | error e => cases h
  | ok a => exact ⟨a, rfl, h⟩

theorem eq_ok_of_orHalt {x : Except Fault α} {a : α}
    (h : (orHalt x : Except (Halt ε) α) = .ok a) : x = .ok a := by
  cases x with
  | error e => cases h
  | ok a' =>
    cases h
    rfl

/-- A fault that is passed on is a fault of the whole. -/
theorem orHalt_ends {x : Except Fault α} {fail : Halt ε → Prop} {post : α → Prop}
    (h : Ends x (fun e => fail (.fault e)) post) : Ends (orHalt x) fail post := by
  cases x with
  | ok a => exact h
  | error e => exact h

/-- Passing on the faults of two parts is passing on the faults of the whole. -/
theorem orHalt_bind {x : Except Fault α} {f : α → Except (Halt ε) β} {g : α → Except Fault β}
    (h : ∀ a, x = .ok a → f a = orHalt (g a)) : orHalt x >>= f = orHalt (x >>= g) := by
  cases x with
  | ok a => exact h a rfl
  | error e => rfl

/-- What follows a part without refusals is what refuses. -/
theorem exists_of_orHalt_bind_refused {x : Except Fault α} {f : α → Except (Halt ε) β} {e : ε}
    (h : orHalt x >>= f = .error (.refused e)) : ∃ a, x = .ok a ∧ f a = .error (.refused e) := by
  cases x with
  | error e' => cases h
  | ok a => exact ⟨a, rfl, h⟩

/-- What comes before a part without refusals is what refuses. -/
theorem refused_of_bind_orHalt {x : Except (Halt ε) α} {g : α → Except Fault β} {e : ε}
    (h : (x >>= fun a => orHalt (g a)) = .error (.refused e)) : x = .error (.refused e) := by
  cases x with
  | error e' => exact congrArg Except.error (Except.error.inj h)
  | ok a =>
    replace h : orHalt (ε := ε) (g a) = .error (.refused e) := h
    cases hg : g a <;> rw [hg] at h <;> cases h

theorem eq_ok_of_orRefuse {x : Except ε α} {a : α} (h : orRefuse x = .ok a) :
    x = .ok a := by
  cases x with
  | error e => cases h
  | ok a' =>
    cases h
    rfl

theorem Ends.map {f : α → β} {q : β → Prop} (h : Ends x fail post) (hf : ∀ a, post a → q (f a)) :
    Ends (x.map f) fail q := by
  cases x with
  | ok a => exact hf a h
  | error e => exact h

theorem exists_of_map_eq_ok {f : α → β} {b : β} (h : x.map f = .ok b) : ∃ a, x = .ok a ∧ f a = b := by
  cases x with
  | error e => cases h
  | ok a => exact ⟨a, rfl, Except.ok.inj h⟩

/-- Rewording errors leaves the results alone. -/
theorem eq_ok_of_mapError {δ : Type} {f : ε → δ} {a : α} (h : x.mapError f = .ok a) : x = .ok a := by
  cases x with
  | error e => cases h
  | ok a' =>
    cases h
    rfl

/-! ## Counts -/

/-- A count is raised by exactly what is asked for, unless the sum is no 32-bit number. -/
theorem countPlus_ends (count more : Nat) :
    Ends (countPlus count more) (fun e => e = .countOutOfRange ∧ countLimit ≤ count + more)
      fun n => n = count + more ∧ n < countLimit := by
  unfold countPlus
  by_cases hfits : count + more < countLimit
  · rw [if_pos hfits]
    exact ⟨rfl, hfits⟩
  · rw [if_neg hfits]
    exact ⟨rfl, Nat.le_of_not_lt hfits⟩

end LatticeSurgery
