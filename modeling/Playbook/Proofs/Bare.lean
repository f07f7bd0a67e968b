import Playbook.Proofs.Outcome
import Playbook.Proofs.Pairing
import Playbook.Feed

/-!
What remains of marks and diagnostics at corresponding places: an index shifts, but lines and
columns stay. A bare mark has no index, and a bare diagnostic shows a line feed where a carriage
return was found. Two computations match if their results are related, or if both end with a
diagnostic that tells the same of corresponding places.
-/

namespace Playbook

/-- The mark without its index. -/
def Mark.bare (m : Mark) : Mark := ⟨0, m.line, m.column⟩

def Span.bare (s : Span) : Span := ⟨s.start.bare, s.stop.bare⟩

def Problem.bare : Problem → Problem
  | .cannotStartToken c => .cannotStartToken (asFeed c)
  | .expectedWord c => .expectedWord (asFeed c)
  | .expectedAngle c => .expectedAngle (asFeed c)
  | .expectedSpace c => .expectedSpace (asFeed c)
  | .expectedBang c => .expectedBang (asFeed c)
  | .expectedUri c => .expectedUri (asFeed c)
  | .expectedBlockHeader c => .expectedBlockHeader (asFeed c)
  | .expectedLineEnd c => .expectedLineEnd (asFeed c)
  | .badEscapeCode digits c => .badEscapeCode digits (asFeed c)
  | .unknownEscape c => .unknownEscape (asFeed c)
  | problem => problem

def Diagnostic.bare (d : Diagnostic) : Diagnostic :=
  ⟨d.stage, d.context, d.contextMark.map Mark.bare, d.problem.bare, d.problemMark.bare⟩

theorem Mark.bare_eq_iff {m m' : Mark} : m.bare = m'.bare ↔ m.cursor = m'.cursor := by
  simp [Mark.bare, Mark.cursor]

theorem Mark.Mirrors.bare {K : Pairing} {m m' : Mark} (h : Mark.Mirrors K m m') :
    m.bare = m'.bare := by
  rw [Mark.bare, Mark.bare, h.line, h.column]

/-- Bare diagnostics tell the stage and the places of the diagnostic. -/
theorem Diagnostic.places_of_bare {d d' : Diagnostic} (h : d.bare = d'.bare) :
    d.stage = d'.stage ∧ d.contextMark.map Mark.cursor = d'.contextMark.map Mark.cursor ∧
      d.problemMark.cursor = d'.problemMark.cursor := by
  obtain ⟨stage, context, contextMark, problem, problemMark⟩ := d
  obtain ⟨stage', context', contextMark', problem', problemMark'⟩ := d'
  simp only [Diagnostic.bare, Diagnostic.mk.injEq] at h
  obtain ⟨rfl, rfl, hcontext, -, hproblem⟩ := h
  have hcursor : ∀ m : Option Mark, (m.map Mark.bare).map Mark.cursor = m.map Mark.cursor := by
    intro m
    rw [Option.map_map]
    rfl
  refine ⟨rfl, ?_, Mark.bare_eq_iff.mp hproblem⟩
  rw [← hcursor contextMark, hcontext, hcursor]

/-- The diagnostics tell the same of corresponding places. -/
structure Diagnostic.Mirrors (K : Pairing) (d d' : Diagnostic) : Prop where
  stage : d.stage = d'.stage
  context : d.context = d'.context
  contextMark : Option.Rel (Mark.Mirrors K) d.contextMark d'.contextMark
  problem : d.problem.bare = d'.problem.bare
  problemMark : Mark.Mirrors K d.problemMark d'.problemMark

theorem Diagnostic.Mirrors.bare {K : Pairing} {d d' : Diagnostic} (h : Diagnostic.Mirrors K d d') :
    d.bare = d'.bare := by
  have hcontext : d.contextMark.map Mark.bare = d'.contextMark.map Mark.bare := by
    have hmarks := h.contextMark
    generalize d.contextMark = context at hmarks
    generalize d'.contextMark = context' at hmarks
    cases hmarks with
    | none => rfl
    | some hm => exact congrArg some hm.bare
  rw [Diagnostic.bare, Diagnostic.bare, h.stage, h.context, hcontext, h.problem, h.problemMark.bare]

section

variable {α β γ δ : Type} {R : α → β → Prop} {Q : γ → δ → Prop} {K : Pairing}

/-- Both computations yield related results, or end with corresponding diagnostics. -/
inductive Matches (K : Pairing) (R : α → β → Prop) :
    Except Diagnostic α → Except Diagnostic β → Prop
  | ok {a : α} {b : β} (h : R a b) : Matches K R (.ok a) (.ok b)
  | error {d d' : Diagnostic} (h : Diagnostic.Mirrors K d d') : Matches K R (.error d) (.error d')

namespace Matches

theorem bind_ok {x : Except Diagnostic α} {y : Except Diagnostic β}
    {f : α → Except Diagnostic γ} {g : β → Except Diagnostic δ} (h : Matches K R x y)
    (hfg : ∀ a b, y = .ok b → R a b → Matches K Q (f a) (g b)) :
    Matches K Q (x >>= f) (y >>= g) := by
  cases h with
  | ok h => exact hfg _ _ rfl h
  | error h => exact .error h

theorem bind {x : Except Diagnostic α} {y : Except Diagnostic β}
    {f : α → Except Diagnostic γ} {g : β → Except Diagnostic δ} (h : Matches K R x y)
    (hfg : ∀ a b, R a b → Matches K Q (f a) (g b)) : Matches K Q (x >>= f) (y >>= g) :=
  h.bind_ok fun a b _ => hfg a b

theorem ite {x x₁ : Except Diagnostic α} {y y₁ : Except Diagnostic β} {c c' : Bool}
    (hc : c = c') (hx : c' = true → Matches K R x y) (hx₁ : Matches K R x₁ y₁) :
    Matches K R (if c then x else x₁) (if c' then y else y₁) := by
  rw [hc]
  split_ifs with hyes
  · exact hx hyes
  · exact hx₁

theorem map {x : Except Diagnostic α} {y : Except Diagnostic β} {f : α → γ} {g : β → δ}
    (h : Matches K R x y) (hfg : ∀ a b, R a b → Q (f a) (g b)) :
    Matches K Q (f <$> x) (g <$> y) :=
  h.bind fun a b hab => .ok (hfg a b hab)

theorem within {stage : Stage} {context : Activity} {problem problem' : Problem}
    {k k' m m' : Mark} (hk : Mark.Mirrors K k k') (hm : Mark.Mirrors K m m')
    (hproblem : problem.bare = problem'.bare) :
    Matches K R (.error (.within stage context k problem m))
      (.error (.within stage context k' problem' m')) :=
  .error ⟨rfl, rfl, .some hk, hproblem, hm⟩

theorem plain {stage : Stage} {problem : Problem} {m m' : Mark} (hm : Mark.Mirrors K m m') :
    Matches K R (.error (.plain stage problem m)) (.error (.plain stage problem m')) :=
  .error ⟨rfl, rfl, .none, rfl, hm⟩

end Matches

/-- The outcome with a bare diagnostic, and `f` applied to the result. -/
def bareOutcome (f : α → γ) : Except Diagnostic α → Except Diagnostic γ
  | .ok a => .ok (f a)
  | .error d => .error d.bare

@[simp] theorem bareOutcome_ok (f : α → γ) (a : α) : bareOutcome f (.ok a) = .ok (f a) := rfl

@[simp] theorem bareOutcome_error (f : α → γ) (d : Diagnostic) :
    bareOutcome f (.error d) = .error d.bare := rfl

/-- If the first step and the second do not look at what is left out, then neither do both in a
row. -/
theorem bareOutcome_bind {f : α → β} {g : γ → δ} {x : Except Diagnostic α}
    {x' : Except Diagnostic β} {k : α → Except Diagnostic γ} {k' : β → Except Diagnostic δ}
    (hx : x' = bareOutcome f x) (hk : ∀ a, k' (f a) = bareOutcome g (k a)) :
    x' >>= k' = bareOutcome g (x >>= k) := by
  rw [hx]
  cases x with
  | error d => rfl
  | ok a => exact hk a

end

end Playbook
