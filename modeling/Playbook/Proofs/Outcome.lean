import Mathlib
import Playbook.Diagnostic

/-!
Computations that yield a result or a diagnostic, taken apart at each step.
-/

namespace Playbook

variable {α β : Type}

theorem bind_eq_ok_iff {x : Except Diagnostic α} {f : α → Except Diagnostic β} {b : β} :
    x >>= f = .ok b ↔ ∃ a, x = .ok a ∧ f a = .ok b := by
  cases x with
  | error d =>
      constructor
      · intro h
        cases h
      · rintro ⟨a, ha, -⟩
        cases ha
  | ok a =>
      constructor
      · intro h
        exact ⟨a, rfl, h⟩
      · rintro ⟨a', ha, hf⟩
        cases ha
        exact hf

theorem bind_eq_error_iff {x : Except Diagnostic α} {f : α → Except Diagnostic β}
    {d : Diagnostic} :
    x >>= f = .error d ↔ x = .error d ∨ ∃ a, x = .ok a ∧ f a = .error d := by
  cases x with
  | error d' =>
      constructor
      · intro h
        cases h
        exact Or.inl rfl
      · rintro (h | ⟨a, ha, -⟩)
        · cases h
          rfl
        · cases ha
  | ok a =>
      constructor
      · intro h
        exact Or.inr ⟨a, rfl, h⟩
      · rintro (h | ⟨a', ha, hf⟩)
        · cases h
        · cases ha
          exact hf

@[simp] theorem pure_eq_ok (a : α) : (pure a : Except Diagnostic α) = .ok a := rfl

@[simp] theorem ok_bind (a : α) (f : α → Except Diagnostic β) : Except.ok a >>= f = f a := rfl

theorem map_eq_ok_iff {x : Except Diagnostic α} {f : α → β} {b : β} :
    f <$> x = .ok b ↔ ∃ a, x = .ok a ∧ f a = b := by
  cases x with
  | error d =>
      constructor
      · intro h
        cases h
      · rintro ⟨a, ha, -⟩
        cases ha
  | ok a =>
      constructor
      · intro h
        cases h
        exact ⟨a, rfl, rfl⟩
      · rintro ⟨a', ha, hf⟩
        cases ha
        rw [← hf]
        rfl

theorem exists_ok_of_isOk {x : Except Diagnostic α} (h : x.isOk = true) : ∃ a, x = .ok a := by
  cases x with
  | error d => cases h
  | ok a => exact ⟨a, rfl⟩

theorem exists_some_of_any {x : Except Diagnostic (Option α)} {p : α → Bool}
    (h : x.toOption.any (Option.any p) = true) : ∃ a, x = .ok (some a) ∧ p a = true := by
  cases x with
  | error d => cases h
  | ok found =>
      cases found with
      | none => cases h
      | some a => exact ⟨a, rfl, h⟩

/-- Every diagnostic that a computation can end with has the property. -/
def Faults (P : Diagnostic → Prop) (x : Except Diagnostic α) : Prop :=
  ∀ d, x = .error d → P d

variable {P : Diagnostic → Prop}

theorem faults_ok (a : α) : Faults P (.ok a) := by
  intro d h
  cases h

theorem faults_error {d : Diagnostic} (h : P d) : Faults P (.error d : Except Diagnostic α) := by
  intro d' hd
  cases hd
  exact h

theorem faults_bind {x : Except Diagnostic α} {f : α → Except Diagnostic β}
    (hx : Faults P x) (hf : ∀ a, Faults P (f a)) : Faults P (x >>= f) := by
  intro d h
  rcases bind_eq_error_iff.mp h with h | ⟨a, _, h⟩
  · exact hx d h
  · exact hf a d h

theorem faults_map {x : Except Diagnostic α} {f : α → β} (hx : Faults P x) :
    Faults P (f <$> x) :=
  faults_bind hx fun _ => faults_ok _

theorem faults_mapError {ε : Type} {x : Except ε α} {f : ε → Diagnostic} (h : ∀ e, P (f e)) :
    Faults P (x.mapError f) := by
  cases x with
  | error e => exact faults_error (h e)
  | ok a => exact faults_ok a

theorem faults_ite {c : Prop} [Decidable c] {x y : Except Diagnostic α}
    (hx : c → Faults P x) (hy : ¬c → Faults P y) : Faults P (if c then x else y) := by
  split_ifs with hc
  · exact hx hc
  · exact hy hc

/-- What a computation comes to: a result of one kind, or a diagnostic of another. -/
def EndsIn (Q : α → Prop) (P : Diagnostic → Prop) : Except Diagnostic α → Prop
  | .ok a => Q a
  | .error d => P d

variable {Q : α → Prop} {R : β → Prop}

theorem EndsIn.bind {x : Except Diagnostic α} {f : α → Except Diagnostic β} (hx : EndsIn Q P x)
    (hf : ∀ a, Q a → EndsIn R P (f a)) : EndsIn R P (x >>= f) := by
  cases x with
  | error d => exact hx
  | ok a => exact hf a hx

theorem EndsIn.map {x : Except Diagnostic α} {f : α → β} (hx : EndsIn Q P x)
    (hf : ∀ a, Q a → R (f a)) : EndsIn R P (f <$> x) :=
  hx.bind fun a ha => hf a ha

theorem EndsIn.imp {x : Except Diagnostic α} {Q' : α → Prop} (hx : EndsIn Q P x)
    (h : ∀ a, Q a → Q' a) : EndsIn Q' P x := by
  cases x with
  | error d => exact hx
  | ok a => exact h a hx

theorem EndsIn.faults {x : Except Diagnostic α} (h : EndsIn Q P x) : Faults P x := by
  rintro d rfl
  exact h

theorem EndsIn.faults_bind {x : Except Diagnostic α} {f : α → Except Diagnostic β}
    (hx : EndsIn Q P x) (hf : ∀ a, Q a → Faults P (f a)) : Faults P (x >>= f) := by
  cases x with
  | error d => exact faults_error hx
  | ok a => exact hf a hx

theorem Faults.endsIn {x : Except Diagnostic α} (h : Faults P x) (hok : ∀ a, x = .ok a → Q a) :
    EndsIn Q P x := by
  cases x with
  | error d => exact h d rfl
  | ok a => exact hok a rfl

end Playbook
