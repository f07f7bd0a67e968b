import Playbook.Proofs.ScanLoops

/-!
Loops that look at one character after the other. None of them asks whether the text is at its end:
they see NUL there, and end because NUL fails their test. A test that NUL passes would be repeated
for ever.
-/

namespace Playbook

/-- Look one place further if the place passes the test. -/
def lookRound (test : Nat → Bool) (n : Nat) : Nat ⊕ Nat :=
  if test n then .inl (n + 1) else .inr n

/-- Looking ahead comes to the first place that fails the test. -/
theorem comes_look {test : Nat → Bool} {first stop : Nat} (hle : first ≤ stop)
    (hpass : ∀ n < stop, test n = true) (hstop : test stop = false) :
    Comes (lookRound test) first (.inr stop) := by
  induction hle using Nat.decreasingInduction with
  | self => exact .done (by simp [lookRound, hstop])
  | of_succ n hn ih => exact .again (by simp [lookRound, hpass n hn]) ih

namespace Reader

variable {p : Char → Bool}

/-- Read the next character if it passes the test. -/
def readRound (p : Char → Bool) (r : Reader) : Reader ⊕ Reader :=
  if p r.peek then .inl r.next else .inr r

theorem comes_skipWhile (hnul : p nul = false) (r : Reader) :
    Comes (readRound p) r (.inr (r.skipWhile p)) := by
  obtain ⟨rest, mark⟩ := r
  induction rest generalizing mark with
  | nil => exact .done (by simp [readRound, peek, hnul, skipWhile, advance])
  | cons c rest ih =>
      by_cases hc : p c = true
      · have hskip : skipWhile p ⟨c :: rest, mark⟩ = skipWhile p ⟨rest, mark.past c rest⟩ := by
          simp [skipWhile, hc, advance, next]
        rw [hskip]
        exact .again (by simp [readRound, peek, hc, next]) (ih _)
      · exact .done (by simp [readRound, peek, hc, skipWhile, advance])

theorem pass_of_lt_takeWhile (text : List Char) {n : Nat} (h : n < (text.takeWhile p).length) :
    p (text.getD n nul) = true := by
  induction text generalizing n with
  | nil => simp at h
  | cons c rest ih =>
      by_cases hc : p c = true
      · cases n with
        | zero => exact hc
        | succ n => exact ih (by simpa [hc] using h)
      · simp [hc] at h

theorem fail_takeWhile (hnul : p nul = false) (text : List Char) :
    p (text.getD (text.takeWhile p).length nul) = false := by
  induction text with
  | nil => exact hnul
  | cons c rest ih =>
      by_cases hc : p c = true
      · simpa [hc] using ih
      · simp [hc]

/-- The characters ahead that pass a test are counted up to the first that fails it. -/
theorem comes_takeWhile (p : Char → Bool) (hnul : p nul = false) (r : Reader) :
    Comes (lookRound fun n => p (r.peekAt n)) 0 (.inr (r.rest.takeWhile p).length) :=
  comes_look (Nat.zero_le _) (fun _ => pass_of_lt_takeWhile r.rest) (fail_takeWhile hnul r.rest)

/-! ### Loops with tests of their own -/

/-- Look for an exclamation mark before the next space. -/
def bangRound (r : Reader) (n : Nat) : Nat ⊕ Bool :=
  if isSpaceOrEnd (r.peekAt n) then .inr false
  else if r.peekAt n == '!' then .inr true
  else .inl (n + 1)

theorem comes_bang (r : Reader) (n : Nat) : Comes (bangRound r) n
    (.inr (((r.rest.drop n).takeWhile fun c => !isSpaceOrEnd c).contains '!')) := by
  generalize htext : r.rest.drop n = text
  induction text generalizing n with
  | nil =>
      have hpeek : r.peekAt n = nul := by
        rw [peekAt, List.getD_eq_default _ _ (List.drop_eq_nil_iff.mp htext)]
      exact .done (by simp [bangRound, hpeek, isSpaceOrEnd, isBreakOrEnd])
  | cons c rest ih =>
      have hpeek : r.peekAt n = c := by
        rw [peekAt, List.getD_eq_getElem?_getD, ← List.head?_drop, htext]
        rfl
      have hrest : r.rest.drop (n + 1) = rest := by
        rw [← List.tail_drop, htext, List.tail_cons]
      by_cases hspace : isSpaceOrEnd c = true
      · exact .done (by simp [bangRound, hpeek, hspace])
      · by_cases hbang : c = '!'
        · subst hbang
          exact .done (by simp [bangRound, hpeek, hspace])
        · have hne : ¬ '!' = c := fun heq => hbang heq.symm
          have hcontains : ((c :: rest).takeWhile fun c => !isSpaceOrEnd c).contains '!' =
              (rest.takeWhile fun c => !isSpaceOrEnd c).contains '!' := by
            simp [hspace, hne]
          rw [hcontains]
          exact .again (by simp [bangRound, hpeek, hspace, hbang]) (ih (n + 1) hrest)

/-- Read a space before the column `indent`. -/
def indentRound (indent : Nat) (r : Reader) : Reader ⊕ Reader :=
  if decide (r.mark.column < indent) && r.peek == ' ' then .inl r.next else .inr r

theorem comes_skipIndent (indent : Nat) (r : Reader) :
    Comes (indentRound indent) r (.inr (skipIndent indent r)) := by
  obtain ⟨rest, mark⟩ := r
  induction rest generalizing mark with
  | nil => exact .done (by simp [indentRound, peek, nul, skipIndent, advance])
  | cons c rest ih =>
      by_cases hround : mark.column < indent ∧ c = ' '
      · obtain ⟨hcolumn, rfl⟩ := hround
        have hpast : (mark.past ' ' rest).column = mark.column + 1 := by
          simp [Mark.past, endsLine]
        have hspaces : indent - mark.column = indent - (mark.column + 1) + 1 := by omega
        have hskip : skipIndent indent ⟨' ' :: rest, mark⟩ =
            skipIndent indent ⟨rest, mark.past ' ' rest⟩ := by
          simp [skipIndent, hpast, hspaces, Nat.add_min_add_right, advance, next]
        rw [hskip]
        exact .again (by simp [indentRound, hcolumn, peek, next]) (ih _)
      · have hskip : skipIndent indent ⟨c :: rest, mark⟩ = ⟨c :: rest, mark⟩ := by
          rw [skipIndent]
          by_cases hc : c = ' '
          · have hcolumn : indent - mark.column = 0 := by
              have hle := Nat.le_of_not_lt fun hlt => hround ⟨hlt, hc⟩
              omega
            simp [hcolumn, advance]
          · simp [hc, advance]
        rw [hskip]
        refine .done ?_
        simpa [indentRound, peek] using hround

end Reader

open Reader

/-! ### Plain and quoted scalars -/

theorem pass_of_lt_plainPiece {inFlow : Bool} (text : List Char) {n : Nat}
    (h : n < (plainPiece inFlow text).length) :
    plainStops inFlow (text.getD n nul) (text.getD (n + 1) nul) = false := by
  induction text generalizing n with
  | nil => simp [plainPiece] at h
  | cons c rest ih =>
      rw [plainPiece] at h
      split_ifs at h with hstops
      · simp at h
      · cases n with
        | zero => simpa [List.headD_eq_head?_getD, List.head?_eq_getElem?] using hstops
        | succ n => exact ih (by simpa using h)

theorem fail_plainPiece (inFlow : Bool) (text : List Char) :
    plainStops inFlow (text.getD (plainPiece inFlow text).length nul)
      (text.getD ((plainPiece inFlow text).length + 1) nul) = true := by
  induction text with
  | nil => rfl
  | cons c rest ih =>
      rw [plainPiece]
      split_ifs with hstops
      · simpa [List.headD_eq_head?_getD, List.head?_eq_getElem?] using hstops
      · simpa using ih

theorem comes_plainPiece (inFlow : Bool) (r : Reader) :
    Comes (lookRound fun n => !plainStops inFlow (r.peekAt n) (r.peekAt (n + 1))) 0
      (.inr (plainPiece inFlow r.rest).length) := by
  refine comes_look (Nat.zero_le _) (fun n hn => ?_) ?_
  · exact Bool.not_eq_true' _ |>.mpr (pass_of_lt_plainPiece r.rest hn)
  · exact Bool.not_eq_false' _ |>.mpr (fail_plainPiece inFlow r.rest)

/-- Characters that stand for themselves in quotes of either kind. -/
def isQuotedLetter (c : Char) : Bool :=
  !(c == '\'' || c == '"' || c == '\\' || isBlankOrEnd c)

theorem quotedPiece_of_letter {double : Bool} {start : Mark} {r : Reader}
    (h : isQuotedLetter r.peek = true) :
    quotedPiece double start r = .ok (some ([r.peek], r.next)) := by
  simp only [isQuotedLetter, Bool.not_eq_true', Bool.or_eq_false_iff] at h
  simp [quotedPiece, h]

/-- Letters between quotes are read together. -/
theorem quotedText_letters (double : Bool) (start : Mark) (n : Nat) (r : Reader)
    (text : List Char) :
    quotedText double start (n + (r.rest.takeWhile isQuotedLetter).length) r text =
      quotedText double start n (r.skipWhile isQuotedLetter)
        ((r.rest.takeWhile isQuotedLetter).reverse ++ text) := by
  obtain ⟨rest, mark⟩ := r
  induction rest generalizing mark text with
  | nil => simp [skipWhile, advance]
  | cons c rest ih =>
      by_cases hc : isQuotedLetter c = true
      · have hpiece : quotedPiece double start ⟨c :: rest, mark⟩ =
            .ok (some ([c], ⟨rest, mark.past c rest⟩)) :=
          quotedPiece_of_letter (r := ⟨c :: rest, mark⟩) (by simpa [peek] using hc)
        have hstep := ih ([c].reverse ++ text) (mark.past c rest)
        simp only [List.takeWhile_cons_of_pos hc, List.length_cons, ← Nat.add_assoc]
        rw [quotedText, hpiece]
        simpa [skipWhile, hc, advance, next] using hstep
      · simp [skipWhile, hc, advance]

/-! ### Open blocks -/

namespace TokenStream

/-- Close the innermost block if it is indented further than `column`. -/
def closeRound (column : Int) (mark : Mark) (s : Int × List Int × List Token) :
    (Int × List Int × List Token) ⊕ (Int × List Int × List Token) :=
  if s.1 > column then
    .inl (s.2.1.headD (-1), s.2.1.tail, s.2.2 ++ [⟨.blockEnd, mark, mark⟩])
  else .inr s

theorem comes_closeBlocks {column : Int} (hcolumn : -1 ≤ column) (mark : Mark) (indent : Int)
    (indents : List Int) (queue : List Token) :
    Comes (closeRound column mark) (indent, indents, queue)
      (.inr (closeBlocks column mark indent indents queue)) := by
  induction indents generalizing indent queue with
  | nil =>
      rw [closeBlocks]
      split_ifs with hindent
      · have hround : closeRound column mark (indent, [], queue) =
            .inl (-1, [], queue ++ [⟨.blockEnd, mark, mark⟩]) := if_pos hindent
        exact .again hround (.done (if_neg (Int.not_lt.mpr hcolumn)))
      · exact .done (if_neg hindent)
  | cons outer indents ih =>
      rw [closeBlocks]
      split_ifs with hindent
      · exact .again (if_pos hindent) (ih _ _)
      · exact .done (if_neg hindent)

end TokenStream

end Playbook
