import Mathlib

/-!
Loops in rounds. A round goes on with another state or ends with a result. Loops of the model are
bounded: they take so many rounds and then give up. Without the bound the rounds come to a result,
or to a state that never changes again; a loop that is given enough rounds answers accordingly.
-/

namespace Playbook

section

variable {σ ρ : Type} {loop : Nat → σ → ρ} {round : σ → σ ⊕ ρ} {giveUp : σ → ρ} {size : σ → Nat}

/-- The loop takes at most so many rounds, and then gives up. -/
structure Loops (loop : Nat → σ → ρ) (round : σ → σ ⊕ ρ) (giveUp : σ → ρ) : Prop where
  zero : ∀ s, loop 0 s = giveUp s
  succ : ∀ n s, loop (n + 1) s = (round s).elim (loop n) id

/-- What the rounds come to if there is no bound on them. -/
inductive Comes (round : σ → σ ⊕ ρ) : σ → σ ⊕ ρ → Prop
  | done {s : σ} {r : ρ} (h : round s = .inr r) : Comes round s (.inr r)
  | stuck {s : σ} (h : round s = .inl s) : Comes round s (.inl s)
  | again {s s' : σ} {o : σ ⊕ ρ} (h : round s = .inl s') (h' : Comes round s' o) : Comes round s o

/-- Every round makes its state smaller or comes to one that does not change. -/
structure Shrinks (round : σ → σ ⊕ ρ) (giveUp : σ → ρ) (size : σ → Nat) : Prop where
  again : ∀ s s', round s = .inl s' → size s' < size s ∨ round s' = .inl s'
  last : ∀ s, size s = 0 → round s = .inr (giveUp s)

theorem shrinks_succ (h : ∀ s s', round s = .inl s' → size s' < size s ∨ round s' = .inl s') :
    Shrinks round giveUp fun s => size s + 1 := by
  refine ⟨fun s s' hround => ?_, fun s hzero => absurd hzero (Nat.succ_ne_zero _)⟩
  rcases h s s' hround with hlt | hstuck
  · exact Or.inl (Nat.succ_lt_succ hlt)
  · exact Or.inr hstuck

theorem Loops.stuck (h : Loops loop round giveUp) {s : σ} (hstuck : round s = .inl s) (n : Nat) :
    loop n s = giveUp s := by
  induction n with
  | zero => exact h.zero s
  | succ n ih =>
      rw [h.succ, hstuck]
      exact ih

/-- A loop that may take as many rounds as its state is large answers as if there were no bound. -/
theorem Loops.comes (h : Loops loop round giveUp) (hshrinks : Shrinks round giveUp size) {n : Nat}
    {s : σ} (hn : size s ≤ n) : ∃ o, Comes round s o ∧ loop n s = o.elim giveUp id := by
  induction n generalizing s with
  | zero => exact ⟨_, .done (hshrinks.last s (Nat.le_zero.mp hn)), h.zero s⟩
  | succ n ih =>
      rw [h.succ]
      cases hround : round s with
      | inr r => exact ⟨_, .done hround, rfl⟩
      | inl s' =>
          rcases hshrinks.again s s' hround with hlt | hstuck
          · obtain ⟨o, hcomes, hloop⟩ := ih (s := s') (by omega)
            exact ⟨o, .again hround hcomes, hloop⟩
          · exact ⟨_, .again hround (.stuck hstuck), h.stuck hstuck n⟩

/-- If every round that goes on makes the state smaller, then the rounds come to the result of the
loop. `P` is what holds in all states. -/
theorem Loops.ends (h : Loops loop round giveUp) (size : σ → Nat) {P : σ → Prop}
    (hagain : ∀ s s', P s → round s = .inl s' → P s' ∧ size s' < size s)
    (hlast : ∀ s, size s = 0 → round s = .inr (giveUp s)) {n : Nat} {s : σ} (hs : P s)
    (hn : size s ≤ n) : Comes round s (.inr (loop n s)) := by
  induction n generalizing s with
  | zero =>
      rw [h.zero]
      exact .done (hlast s (Nat.le_zero.mp hn))
  | succ n ih =>
      rw [h.succ]
      cases hround : round s with
      | inr r => exact .done hround
      | inl s' =>
          obtain ⟨hs', hlt⟩ := hagain s s' hs hround
          exact .again hround (ih hs' (by omega))

/-- A loop that makes its state smaller in every round needs one round more than it is large. -/
theorem Loops.ends_of_lt (h : Loops loop round giveUp)
    (hlt : ∀ {s s'}, round s = .inl s' → size s' < size s) {n : Nat} {s : σ} (hn : size s < n) :
    Comes round s (.inr (loop n s)) :=
  h.ends (fun s => size s + 1) (P := fun _ => True)
    (fun _ _ _ hround => ⟨trivial, Nat.succ_lt_succ (hlt hround)⟩)
    (fun _ hzero => absurd hzero (Nat.succ_ne_zero _)) trivial hn

/-- The result of a loop is that of its last round, in a state that has all that rounds keep. -/
theorem Comes.result_of {P : σ → Prop} {s : σ} {r : ρ} (h : Comes round s (.inr r))
    (hkeep : ∀ s s', P s → round s = .inl s' → P s') (hs : P s) :
    ∃ s', P s' ∧ round s' = .inr r := by
  generalize ho : Sum.inr r = o at h
  induction h with
  | done hdone =>
      cases ho
      exact ⟨_, hs, hdone⟩
  | stuck => cases ho
  | again hagain _ ih => exact ih (hkeep _ _ hs hagain) ho

theorem Comes.result {s : σ} {r : ρ} (h : Comes round s (.inr r)) : ∃ s', round s' = .inr r := by
  obtain ⟨s', -, hround⟩ := h.result_of (P := fun _ => True) (fun _ _ _ _ => trivial) trivial
  exact ⟨s', hround⟩

end

section Related

variable {σ ρ σ' ρ' : Type} {loop : Nat → σ → ρ} {round : σ → σ ⊕ ρ} {giveUp : σ → ρ}
  {loop' : Nat → σ' → ρ'} {round' : σ' → σ' ⊕ ρ'} {giveUp' : σ' → ρ'} {R : σ → σ' → Prop}
  {Q : ρ → ρ' → Prop}

/-- Related states come to related ends. Where the second one is stuck, the first one is too, as
only one state is related to it. -/
theorem Comes.related (hround : ∀ s s', R s s' → Sum.LiftRel R Q (round s) (round' s'))
    (hunique : ∀ s₁ s₂ s', round' s' = .inl s' → R s₁ s' → R s₂ s' → s₁ = s₂) {s : σ} {s' : σ'}
    {o' : σ' ⊕ ρ'} (h' : Comes round' s' o') (hs : R s s') :
    ∃ o, Comes round s o ∧ Sum.LiftRel R Q o o' := by
  induction h' generalizing s with
  | @done s' r' hdone =>
      have hrel := hround s s' hs
      rw [hdone] at hrel
      generalize hr : round s = x at hrel
      cases hrel with
      | inr hq => exact ⟨_, .done hr, .inr hq⟩
  | @stuck s' hstuck =>
      have hrel := hround s s' hs
      rw [hstuck] at hrel
      generalize hr : round s = x at hrel
      cases hrel with
      | inl hs' =>
          rw [hunique _ s s' hstuck hs' hs] at hr
          exact ⟨_, .stuck hr, .inl hs⟩
  | @again s' _ _ hagain _ ih =>
      have hrel := hround s s' hs
      rw [hagain] at hrel
      generalize hr : round s = x at hrel
      cases hrel with
      | inl hs' =>
          obtain ⟨o, hcomes, ho⟩ := ih hs'
          exact ⟨o, .again hr hcomes, ho⟩

theorem Comes.unique {s : σ} {o o' : σ ⊕ ρ} (h : Comes round s o) (h' : Comes round s o') :
    o = o' := by
  induction h with
  | done hdone =>
      cases h' with
      | done hdone' => rw [← hdone, ← hdone']
      | stuck hstuck => simp [hstuck] at hdone
      | again hagain => simp [hagain] at hdone
  | stuck hstuck =>
      induction h' with
      | done hdone => simp [hstuck] at hdone
      | stuck => rfl
      | again hagain _ ih =>
          rw [hstuck] at hagain
          cases hagain
          exact ih hstuck
  | again hagain hcomes ih =>
      cases h' with
      | done hdone => simp [hagain] at hdone
      | stuck hstuck =>
          rw [hstuck] at hagain
          cases hagain
          exact ih (.stuck hstuck)
      | again hagain' hcomes' =>
          rw [hagain] at hagain'
          cases hagain'
          exact ih hcomes'

/-- Loops whose rounds are related give related results, however many rounds they may take, if these
are enough. -/
theorem Loops.related (h : Loops loop round giveUp) (h' : Loops loop' round' giveUp')
    {size : σ → Nat} {size' : σ' → Nat} (hshrinks : Shrinks round giveUp size)
    (hshrinks' : Shrinks round' giveUp' size')
    (hround : ∀ s s', R s s' → Sum.LiftRel R Q (round s) (round' s'))
    (hunique : ∀ s₁ s₂ s', round' s' = .inl s' → R s₁ s' → R s₂ s' → s₁ = s₂)
    (hgiveUp : ∀ s s', R s s' → Q (giveUp s) (giveUp' s')) {n n' : Nat} {s : σ} {s' : σ'}
    (hs : R s s') (hn : size s ≤ n) (hn' : size' s' ≤ n') : Q (loop n s) (loop' n' s') := by
  obtain ⟨o, hcomes, hloop⟩ := h.comes hshrinks hn
  obtain ⟨o', hcomes', hloop'⟩ := h'.comes hshrinks' hn'
  obtain ⟨o₁, hcomes₁, hrel⟩ := hcomes'.related hround hunique hs
  rw [hloop, hloop', hcomes.unique hcomes₁]
  cases hrel with
  | inl hrel => exact hgiveUp _ _ hrel
  | inr hrel => exact hrel

/-- Loops that make their states smaller in every round only have to have related rounds. -/
theorem Loops.related_of_lt (h : Loops loop round giveUp) (h' : Loops loop' round' giveUp')
    {size : σ → Nat} {size' : σ' → Nat}
    (hlt : ∀ {s s₁}, round s = .inl s₁ → size s₁ < size s)
    (hlt' : ∀ {s s₁}, round' s = .inl s₁ → size' s₁ < size' s)
    (hround : ∀ s s', R s s' → Sum.LiftRel R Q (round s) (round' s')) {n n' : Nat} {s : σ} {s' : σ'}
    (hs : R s s') (hn : size s < n) (hn' : size' s' < n') : Q (loop n s) (loop' n' s') := by
  have hstuck : ∀ s', round' s' ≠ .inl s' := fun _ hstuck => Nat.lt_irrefl _ (hlt' hstuck)
  obtain ⟨o, hcomes, hrel⟩ := (h'.ends_of_lt hlt' hn').related hround
    (fun _ _ s' hround _ _ => absurd hround (hstuck s')) hs
  have hend := (h.ends_of_lt hlt hn).unique hcomes
  rw [← hend] at hrel
  cases hrel with
  | inr hrel => exact hrel

end Related

end Playbook
