import Playbook.Proofs.NodePlaces
import Playbook.Repair

/-!
Diagnostics point into the text that they are about. So a repair, which is made where the marks of a
diagnostic stand, never has to bring them into the text first. What it may have to move is the end
of the line before a misplaced key: a repair finds lines by line feeds only, and where the text ends
them otherwise that line is found behind the key.
-/

namespace Playbook

/-! ### Lines -/

/-- Every line of the text ends with a line feed, alone or behind a carriage return. -/
def FeedLines (text : List Char) : Prop :=
  (lineFeeds text).countP isBreak = text.count '\n'

instance (text : List Char) : Decidable (FeedLines text) :=
  inferInstanceAs (Decidable (_ = _))

theorem count_feed_le (text : List Char) : text.count '\n' ≤ (lineFeeds text).countP isBreak := by
  induction text with
  | nil => exact Nat.le_refl _
  | cons c rest ih =>
      by_cases hc : c = '\r'
      · subst hc
        rw [lineFeeds, if_pos rfl, List.count_cons_of_ne (by decide)]
        split_ifs
        · exact ih
        · rw [List.countP_cons]
          omega
      · have hhead : (if c == '\n' then 1 else 0) ≤ if isBreak c then 1 else 0 := by
          by_cases hfeed : c = '\n'
          · subst hfeed
            exact Nat.le_refl _
          · simp [hfeed]
        rw [lineFeeds_cons hc, List.countP_cons, List.count_cons]
        exact Nat.add_le_add ih hhead

/-- Where lines end with line feeds, a line is counted for every line feed before its mark. -/
theorem Mark.StandsIn.line_le {text : List Char} {m : Mark} (h : m.StandsIn text)
    (hfeeds : FeedLines text) : m.line ≤ (text.take m.index).count '\n' := by
  have hline : m.line = (lineFeeds (text.take m.index)).countP isBreak :=
    congrArg Mark.line h.eq_behind
  have hsplit := lineFeeds_append h.apart
  rw [List.take_append_drop] at hsplit
  have hcount : text.count '\n' =
      (text.take m.index).count '\n' + (text.drop m.index).count '\n' := by
    rw [← List.count_append, List.take_append_drop]
  have hrest := count_feed_le (text.drop m.index)
  rw [FeedLines, hsplit, List.countP_append] at hfeeds
  omega

namespace Patch

/-- A place of the text lies before a line if fewer line feeds stand in front of it than in front
of the line. -/
theorem lt_lineOffset_iff {text : List Char} {line n : Nat} :
    n < lineOffset text line ↔ (text.take n).count '\n' < line ∧ n < text.length := by
  induction text generalizing line n with
  | nil => cases line <;> simp [lineOffset]
  | cons c rest ih =>
      cases line with
      | zero => simp [lineOffset]
      | succ line =>
          cases n with
          | zero => simp [lineOffset]
          | succ n =>
              rw [lineOffset, Nat.add_lt_add_iff_right, ih, List.take_succ_cons, List.count_cons,
                List.length_cons, Nat.add_lt_add_iff_right]
              split_ifs <;> omega

theorem lineOffset_le {text : List Char} {line n : Nat} (h : line ≤ (text.take n).count '\n') :
    lineOffset text line ≤ n :=
  Nat.le_of_not_lt fun hlt => Nat.not_lt.mpr h (lt_lineOffset_iff.mp hlt).1

theorem lineOffset_le_length (text : List Char) (line : Nat) :
    lineOffset text line ≤ text.length :=
  Nat.le_of_not_lt fun hlt => Nat.lt_irrefl _ (lt_lineOffset_iff.mp hlt).2

end Patch

/-! ### Repairs -/

theorem Problem.not_other_of_isMisplacedKey {problem : Problem}
    (h : problem.isMisplacedKey = true) :
    problem.isMissingColon = false ∧ problem.isUnexpectedEnd = false := by
  cases problem with
  | valueNotAllowed => exact ⟨rfl, rfl⟩
  | other text =>
      rcases Bool.or_eq_true_iff.mp h with htext | htext
      · rw [beq_iff_eq.mp htext]
        decide +kernel
      · rw [beq_iff_eq.mp htext]
        decide +kernel
  | _ => cases h

namespace Patch

variable {text : List Char} {d : Diagnostic}

/-- The repair by the marks as they are. Marks that do not bound a piece of the text call for none,
nor does a misplaced key in front of the line that is to end before it. -/
def atMarks? (text : List Char) (d : Diagnostic) : Option Patch :=
  let problem := d.problemMark.index
  let context := (d.contextMark.map Mark.index).getD 0
  let first := lineOffset text (d.problemMark.line - 1)
  if d.stage = .tokens ∧ context ≤ problem ∧ problem ≤ text.length then
    if d.problem.isMissingColon then some (closeKey text context problem)
    else if d.context.any Activity.isQuoted && d.problem.isUnexpectedEnd then
      closeQuote? text context problem
    else if d.problem.isMisplacedKey ∧ first ≤ problem then
      some ⟨first + (((text.take problem).drop first).takeWhile (· != '\n')).length, ':'⟩
    else none
  else none

/-- A misplaced key that lies in front of the line that is to end before it. -/
def Overtaken (text : List Char) (d : Diagnostic) : Prop :=
  d.stage = .tokens ∧ d.problem.isMisplacedKey = true ∧
    d.problemMark.index < lineOffset text (d.problemMark.line - 1)

theorem of?_of_not_tokens (h : d.stage ≠ .tokens) : of? text d = none := by
  rw [of?, if_pos (by simpa using h)]

/-- Marks in the text are used as they are. -/
theorem of?_of_bounds (hstage : d.stage = .tokens)
    (hcontext : (d.contextMark.map Mark.index).getD 0 ≤ d.problemMark.index)
    (hproblem : d.problemMark.index ≤ text.length) :
    of? text d =
      if d.problem.isMissingColon then
        some (closeKey text ((d.contextMark.map Mark.index).getD 0) d.problemMark.index)
      else if d.context.any Activity.isQuoted && d.problem.isUnexpectedEnd then
        closeQuote? text ((d.contextMark.map Mark.index).getD 0) d.problemMark.index
      else if d.problem.isMisplacedKey then
        some (closeItem text d.problemMark.line d.problemMark.index)
      else none := by
  have hscan : ¬ (d.stage != .tokens) = true := by simpa using hstage
  unfold of?
  dsimp only
  rw [Nat.min_eq_left hproblem, Nat.min_eq_left (hcontext.trans hproblem), if_neg hscan]

/-- A diagnostic that points into the text is repaired where its marks are, unless it is about a
misplaced key that its line has overtaken. -/
theorem of?_eq_atMarks?_iff
    (h : d.stage = .tokens → (d.contextMark.map Mark.index).getD 0 ≤ d.problemMark.index ∧
      d.problemMark.index ≤ text.length) :
    of? text d = atMarks? text d ↔ ¬ Overtaken text d := by
  by_cases hstage : d.stage = .tokens
  · obtain ⟨hcontext, hproblem⟩ := h hstage
    have hbounds := And.intro hstage (And.intro hcontext hproblem)
    rw [of?_of_bounds hstage hcontext hproblem, atMarks?, if_pos hbounds]
    by_cases hkey : d.problem.isMisplacedKey = true
    · obtain ⟨hcolon, hend⟩ := Problem.not_other_of_isMisplacedKey hkey
      by_cases hfirst : lineOffset text (d.problemMark.line - 1) ≤ d.problemMark.index
      · simp [hcolon, hend, hkey, hfirst, Overtaken, closeItem, Nat.not_lt.mpr hfirst]
      · simp [hcolon, hend, hkey, hfirst, Overtaken, hstage, Nat.lt_of_not_le hfirst]
    · simp [hkey, Overtaken]
  · simp [of?_of_not_tokens hstage, atMarks?, Overtaken, hstage]

end Patch

theorem Diagnostic.Points.context_le {text : List Char} {d : Diagnostic} (h : d.Points text) :
    (d.contextMark.map Mark.index).getD 0 ≤ d.problemMark.index := by
  cases hcontext : d.contextMark with
  | none => exact Nat.zero_le _
  | some m => exact (h.context m hcontext).2

namespace Document

/-- What is wrong with a text is told with marks of the text in order, or is a problem of values
and is told where nodes of the text start. -/
theorem ofText_points_or_blames {text : List Char} {cursor : Cursor} {d : Diagnostic}
    (h : ofText text cursor = .error d) :
    d.Points text ∨
      ∃ root, Node.ofEvents (Event.ofText text) = .ok (some root) ∧ root.Blames d := by
  rcases bind_eq_error_iff.mp h with hnodes | ⟨root, hroot, h⟩
  · have hpoints := Node.ofEvents_points (fun _ => Event.ofText_points) (Event.ofText_line text)
    exact Or.inl (hpoints d hnodes)
  · cases root with
    | none => cases h
    | some root => exact Or.inr ⟨root, hroot, ofNode_faults cursor root d h⟩

/-- Every diagnostic of a text points into it. Problem and context stand at places of the text, with
the line and the column that one counts there, and unless it is about values the context does not
lie behind the problem. So the marks of a repair lie in the text and in order, and it is made by
them as they are unless a misplaced key lies in front of the line that is to end before it. That is
so if fewer line feeds than the lines before that line stand in front of the key, and so never where
lines end with line feeds. -/
theorem ofText_error_places {text : List Char} {cursor : Cursor} {d : Diagnostic}
    (h : ofText text cursor = .error d) :
    d.problemMark.StandsIn text ∧
    (∀ m, d.contextMark = some m →
      m.StandsIn text ∧ (d.stage ≠ .values → m.index ≤ d.problemMark.index)) ∧
    (d.stage = .tokens → (d.contextMark.map Mark.index).getD 0 ≤ d.problemMark.index ∧
      d.problemMark.index ≤ text.length) ∧
    (Patch.of? text d = Patch.atMarks? text d ↔
      ¬ (d.stage = .tokens ∧ d.problem.isMisplacedKey = true ∧
        d.problemMark.index < Patch.lineOffset text (d.problemMark.line - 1))) ∧
    (d.problemMark.index < Patch.lineOffset text (d.problemMark.line - 1) ↔
      (text.take d.problemMark.index).count '\n' < d.problemMark.line - 1 ∧
        d.problemMark.index < text.length) ∧
    (FeedLines text → Patch.lineOffset text (d.problemMark.line - 1) ≤ d.problemMark.index) := by
  obtain ⟨hproblem, hcontext, hbounds⟩ : d.problemMark.StandsIn text ∧
      (∀ m, d.contextMark = some m →
        m.StandsIn text ∧ (d.stage ≠ .values → m.index ≤ d.problemMark.index)) ∧
      (d.stage = .tokens → (d.contextMark.map Mark.index).getD 0 ≤ d.problemMark.index ∧
        d.problemMark.index ≤ text.length) := by
    rcases ofText_points_or_blames h with hpoints | ⟨root, hroot, hblames⟩
    · refine ⟨hpoints.problem, fun m hm => ?_, fun _ => ?_⟩
      · exact ⟨(hpoints.context m hm).1, fun _ => (hpoints.context m hm).2⟩
      · exact ⟨hpoints.context_le, hpoints.problem.index_le⟩
    · have hstage := hblames.stage
      refine ⟨Node.ofText_hasStart hroot hblames.problem, fun m hm => ?_, fun htokens => ?_⟩
      · exact ⟨Node.ofText_hasStart hroot (hblames.context m hm),
          fun hvalues => absurd hstage hvalues⟩
      · rw [hstage] at htokens
        cases htokens
  refine ⟨hproblem, hcontext, hbounds, ?_, ?_, fun hfeeds => ?_⟩
  · exact Patch.of?_eq_atMarks?_iff hbounds
  · exact Patch.lt_lineOffset_iff
  · exact Patch.lineOffset_le ((Nat.sub_le _ _).trans (hproblem.line_le hfeeds))

/-- A key without its colon, between two carriage returns: it starts behind the first, the problem
is found behind the second, and the colon goes to the blank in it. -/
theorem ofText_error_places_missing_colon :
    ∃ d, ofText "a: 1\r\nb c\r\nd: 2".toList ⟨0, 0⟩ = .error d ∧
      d.contextMark = some ⟨6, 1, 0⟩ ∧ d.problemMark = ⟨11, 2, 0⟩ ∧
      d.problemMark.StandsIn "a: 1\r\nb c\r\nd: 2".toList ∧
      Patch.atMarks? "a: 1\r\nb c\r\nd: 2".toList d = some ⟨7, ':'⟩ := by
  have h : ofText "a: 1\r\nb c\r\nd: 2".toList ⟨0, 0⟩ =
      .error (.within .tokens .simpleKey ⟨6, 1, 0⟩ .missingColon ⟨11, 2, 0⟩) := by
    rfl
  obtain ⟨hstands, -, -, hmarks, -⟩ := ofText_error_places h
  refine ⟨_, h, rfl, rfl, hstands, ?_⟩
  rw [← hmarks.mpr fun hover => absurd hover.2.1 (by decide)]
  decide +kernel

/-- Lines that end with carriage returns. The key is misplaced on the third line, so the second is to
end with a colon. It starts at the fifth character, but no line feed says so, and the colon goes to
the end of the text. -/
theorem ofText_overtakes_key :
    ∃ d, ofText "- x\r- a\r  b: c\r".toList ⟨0, 0⟩ = .error d ∧
      d = .plain .tokens .valueNotAllowed ⟨11, 2, 3⟩ ∧
      (⟨4, 1, 0⟩ : Mark).StandsIn "- x\r- a\r  b: c\r".toList ∧
      Patch.lineOffset "- x\r- a\r  b: c\r".toList 1 = 15 ∧
      Patch.atMarks? "- x\r- a\r  b: c\r".toList d = none ∧
      Patch.of? "- x\r- a\r  b: c\r".toList d = some ⟨15, ':'⟩ := by
  refine ⟨_, rfl, rfl, ⟨by decide, by rfl, ?_⟩, ?_, ?_, ?_⟩
  · exact fun _ => by decide
  · decide +kernel
  · decide +kernel
  · decide +kernel

end Document

end Playbook
