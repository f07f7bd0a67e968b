import Playbook.Proofs.QuotedRoundTrip

/-!
Strings as literal scalars. The lines of a string, one column further in below a literal sign, are
read back as the string. The reader carries the text, the last line break and the empty lines
below it apart, and it puts them together only at the end: chomping is what is done there with the
line feeds behind the last line.
-/

namespace Playbook

open Reader

/-! ### Lines -/

/-- A line of a block, one column further in unless it is empty. -/
def indentLine (line : List Char) : List Char := if line = [] then [] else ' ' :: line

/-- The text with a space before every line that is not empty. -/
def indentLines (text : List Char) : List Char :=
  ['\n'].intercalate ((text.splitOn '\n').map indentLine)

/-- Lines, each behind a line feed. -/
def linesBelow (lines : List (List Char)) : List Char := lines.flatMap ('\n' :: ·)

theorem linesBelow_cons (line : List Char) (lines : List (List Char)) :
    linesBelow (line :: lines) = '\n' :: (line ++ linesBelow lines) := rfl

theorem linesBelow_append (lines lines' : List (List Char)) :
    linesBelow (lines ++ lines') = linesBelow lines ++ linesBelow lines' := List.flatMap_append

theorem linesBelow_replicate (k : Nat) :
    linesBelow (List.replicate k []) = List.replicate k '\n' := by
  induction k with
  | zero => rfl
  | succ k ih =>
      rw [List.replicate_succ, linesBelow_cons, ih]
      rfl

/-- Empty lines at the start are line feeds, and so is what comes before the next line. -/
theorem linesBelow_blank (k : Nat) (line : List Char) (more : List (List Char)) :
    linesBelow (List.replicate k [] ++ line :: more) =
      '\n' :: (List.replicate k '\n' ++ (line ++ linesBelow more)) := by
  rw [linesBelow_append, linesBelow_replicate, linesBelow_cons, List.append_cons,
    ← List.replicate_succ', List.replicate_succ]
  rfl

theorem linesBelow_eq {lines : List (List Char)} (h : lines ≠ []) :
    linesBelow lines = '\n' :: ['\n'].intercalate lines := by
  induction lines with
  | nil => exact absurd rfl h
  | cons line lines ih =>
      cases lines with
      | nil => simp [linesBelow]
      | cons next lines =>
          rw [linesBelow_cons, ih (by simp), List.intercalate_cons_cons]
          simp

theorem mem_splitOn {text line : List Char} (h : line ∈ text.splitOn '\n') :
    ∀ c ∈ line, c ∈ text ∧ c ≠ '\n' := by
  induction text generalizing line with
  | nil => simp_all
  | cons d text ih =>
      intro c hc
      rw [List.splitOn_cons_eq_if_modifyHead] at h
      split_ifs at h with hd
      · rcases List.mem_cons.mp h with rfl | h
        · cases hc
        · exact ⟨List.mem_cons_of_mem _ (ih h c hc).1, (ih h c hc).2⟩
      · cases hlines : text.splitOn '\n' with
        | nil => exact absurd hlines (List.splitOn_ne_nil _ _)
        | cons first lines =>
            rw [hlines, List.modifyHead_cons] at h
            rcases List.mem_cons.mp h with rfl | h
            · rcases List.mem_cons.mp hc with rfl | hc
              · exact ⟨List.mem_cons_self, by simpa using hd⟩
              · have hfirst := ih (by rw [hlines]; exact List.mem_cons_self) c hc
                exact ⟨List.mem_cons_of_mem _ hfirst.1, hfirst.2⟩
            · have hmore := ih (by rw [hlines]; exact List.mem_cons_of_mem _ h) c hc
              exact ⟨List.mem_cons_of_mem _ hmore.1, hmore.2⟩

/-- Lines start with empty ones. -/
theorem exists_blank_lines (lines : List (List Char)) :
    (∃ k, lines = List.replicate k []) ∨
      ∃ k line more, line ≠ [] ∧ lines = List.replicate k [] ++ line :: more := by
  induction lines with
  | nil => exact Or.inl ⟨0, rfl⟩
  | cons line lines ih =>
      by_cases hline : line = []
      · rw [hline]
        rcases ih with ⟨k, rfl⟩ | ⟨k, line, more, hne, rfl⟩
        · exact Or.inl ⟨k + 1, rfl⟩
        · exact Or.inr ⟨k + 1, line, more, hne, rfl⟩
      · exact Or.inr ⟨0, line, lines, hline, rfl⟩

/-! ### Reading lines -/

section Reading

variable {r : Reader} {rest : List Char}

theorem skipIndent_of_ne_space {indent : Nat} (h : r.peek ≠ ' ') : skipIndent indent r = r := by
  rw [skipIndent, takeWhile_space_eq_nil h]
  simp [advance]

theorem skipIndent_space (hrest : r.rest = ' ' :: rest) (hcolumn : r.mark.column = 0) :
    skipIndent 1 r = ⟨rest, r.mark.ahead 1⟩ := by
  have hcount : min (1 - r.mark.column) (r.rest.takeWhile (· == ' ')).length = 1 := by
    rw [hcolumn, hrest]
    simp
  have hspace : IsPrintable ' ' := by decide
  rw [skipIndent, hcount]
  simp only [advance, next, hrest, hspace.past]

theorem blankLinesFor_feeds {k n : Nat} (hn : k < n) (hcolumn : r.mark.column = 0)
    (hrest : r.rest = List.replicate k '\n' ++ rest)
    (hlast : ∀ r' : Reader, r'.rest = rest → r'.mark.column = 0 →
      (skipIndent 1 r').lineBreak? = none) (breaks : List Char) (stop : Mark) :
    ∃ r' stop', r'.rest = rest ∧ r'.mark.column = 0 ∧
      blankLinesFor 1 n ⟨breaks, stop, skipIndent 1 r⟩ =
        ⟨breaks ++ List.replicate k '\n', stop', skipIndent 1 r'⟩ := by
  obtain ⟨n, rfl⟩ : ∃ m, n = m + 1 := ⟨n - 1, by omega⟩
  induction k generalizing r n breaks stop with
  | zero =>
      refine ⟨r, stop, hrest, hcolumn, ?_⟩
      rw [blankLinesFor, hlast r hrest hcolumn]
      simp
  | succ k ih =>
      obtain ⟨n, rfl⟩ : ∃ m, n = m + 1 := ⟨n - 1, by omega⟩
      have hfeed : r.rest = '\n' :: (List.replicate k '\n' ++ rest) := hrest
      have hreader : r = ⟨'\n' :: (List.replicate k '\n' ++ rest), r.mark⟩ := by rw [← hfeed]
      have hskip : skipIndent 1 r = r := skipIndent_of_ne_space (by simp [peek, hfeed])
      have hbreak := lineBreak?_feed (List.replicate k '\n' ++ rest) r.mark
      rw [← hreader] at hbreak
      obtain ⟨r', stop', hr', hcolumn', hlines⟩ := ih (r := ⟨_, r.mark.nextLine⟩) rfl rfl
        (breaks ++ ['\n']) r.mark.nextLine n (by omega)
      refine ⟨r', stop', hr', hcolumn', ?_⟩
      rw [blankLinesFor, hskip, hbreak]
      dsimp only
      rw [hlines, List.append_assoc]
      rfl

/-- Blank lines are read up to the next line that is not empty, or to the end of the text. -/
theorem blankLines_feeds {k : Nat} (hcolumn : r.mark.column = 0)
    (hrest : r.rest = List.replicate k '\n' ++ rest)
    (hlast : ∀ r' : Reader, r'.rest = rest → r'.mark.column = 0 →
      (skipIndent 1 r').lineBreak? = none) :
    ∃ r' stop, r'.rest = rest ∧ r'.mark.column = 0 ∧
      blankLines 1 r = ⟨List.replicate k '\n', stop, skipIndent 1 r'⟩ := by
  have hk : k < r.rest.length + 1 := by
    rw [hrest, List.length_append, List.length_replicate]
    omega
  exact blankLinesFor_feeds hk hcolumn hrest hlast [] r.mark

theorem blankLines_end {k : Nat} (hcolumn : r.mark.column = 0)
    (hrest : r.rest = List.replicate k '\n') :
    ∃ stop r', r'.rest = [] ∧ blankLines 1 r = ⟨List.replicate k '\n', stop, r'⟩ := by
  have hskip : ∀ r' : Reader, r'.rest = [] → skipIndent 1 r' = r' := fun r' hr' =>
    skipIndent_of_ne_space (by simp [peek, hr', nul])
  obtain ⟨r', stop, hr', -, hlines⟩ := blankLines_feeds hcolumn
    (hrest.trans (List.append_nil _).symm) fun r' hr' _ => by
      rw [hskip r' hr']
      exact lineBreak?_eq_none (by simp [peek, hr', isBreak, nul])
  rw [hskip r' hr'] at hlines
  exact ⟨stop, r', hr', hlines⟩

theorem blankLines_line {k : Nat} {line tail : List Char} (hcolumn : r.mark.column = 0)
    (hline : line ≠ []) (hclean : ∀ c ∈ line, isBreakOrEnd c = false)
    (hrest : r.rest = List.replicate k '\n' ++ ' ' :: (line ++ tail)) :
    ∃ stop r', r'.rest = line ++ tail ∧ r'.mark.column = 1 ∧
      blankLines 1 r = ⟨List.replicate k '\n', stop, r'⟩ := by
  obtain ⟨c, more, rfl⟩ := List.exists_cons_of_ne_nil hline
  obtain ⟨r', stop, hr', hcolumn', hlines⟩ := blankLines_feeds hcolumn hrest
    fun r' hr' hcolumn' => by
      rw [skipIndent_space hr' hcolumn']
      have hc := hclean c List.mem_cons_self
      exact lineBreak?_eq_none (by simpa [peek] using (Bool.or_eq_false_iff.mp hc).2)
  rw [skipIndent_space hr' hcolumn'] at hlines
  exact ⟨stop, ⟨_, r'.mark.ahead 1⟩, rfl, by simp [Mark.ahead, hcolumn'], hlines⟩

theorem blankLines_of_nil (hrest : r.rest = []) : blankLines 1 r = ⟨[], r.mark, r⟩ := by
  have hskip : skipIndent 1 r = r := skipIndent_of_ne_space (by simp [peek, hrest, nul])
  have hnone : r.lineBreak? = none := lineBreak?_eq_none (by simp [peek, hrest, isBreak, nul])
  rw [blankLines, hskip, blankLinesFor, hnone]

variable {run : BlockRun} {line : List Char}

theorem line_of_feed (hclean : ∀ c ∈ line, isBreakOrEnd c = false)
    (hrest : run.blank.reader.rest = line ++ '\n' :: rest) :
    ∃ r', r'.rest = rest ∧ r'.mark.column = 0 ∧
      run.line 1 = ⟨run.text ++ run.blank.breaks ++ line, some '\n', blankLines 1 r'⟩ := by
  have hcontent : run.blank.reader.rest.takeWhile (fun c => !isBreakOrEnd c) = line := by
    rw [hrest, List.takeWhile_append_of_pos (by simpa using hclean)]
    simp [isBreakOrEnd, isBreak]
  have hleft : (run.blank.reader.advance line.length).rest = '\n' :: rest := by
    rw [advance_rest, hrest, List.drop_left]
  have hbreak := lineBreak?_feed rest (run.blank.reader.advance line.length).mark
  rw [← hleft] at hbreak
  refine ⟨⟨rest, (run.blank.reader.advance line.length).mark.nextLine⟩, rfl, rfl, ?_⟩
  simp only [BlockRun.line, hcontent, hbreak]

theorem line_of_end (hclean : ∀ c ∈ line, isBreakOrEnd c = false)
    (hrest : run.blank.reader.rest = line) :
    ∃ stop r', r'.rest = [] ∧
      run.line 1 = ⟨run.text ++ run.blank.breaks ++ line, none, ⟨[], stop, r'⟩⟩ := by
  have hcontent : run.blank.reader.rest.takeWhile (fun c => !isBreakOrEnd c) = line := by
    rw [hrest, List.takeWhile_eq_self_iff]
    simpa using hclean
  have hleft : (run.blank.reader.advance line.length).rest = [] := by
    rw [advance_rest, hrest, List.drop_length]
  have hbreak : (run.blank.reader.advance line.length).lineBreak? = none :=
    lineBreak?_eq_none (by simp [peek, hleft, isBreak, nul])
  refine ⟨(run.blank.reader.advance line.length).mark, _, hleft, ?_⟩
  simp only [BlockRun.line, hcontent, hbreak, blankLines_of_nil hleft]

end Reading

/-- The lines that are still to be read start with empty ones. Either there are no others, and then
this is the end of the text, or the reader comes to the first line that is not empty. -/
theorem blankLines_below {lines : List (List Char)} {r : Reader} {rest : List Char}
    (hclean : ∀ line ∈ lines, ∀ c ∈ line, isBreakOrEnd c = false)
    (hlines : linesBelow (lines.map indentLine) = '\n' :: rest)
    (hrest : r.rest = rest) (hcolumn : r.mark.column = 0) :
    (∃ k stop r', lines = List.replicate (k + 1) [] ∧ r'.rest = [] ∧
      blankLines 1 r = ⟨List.replicate k '\n', stop, r'⟩) ∨
    ∃ k line more stop r', line ≠ [] ∧ lines = List.replicate k [] ++ line :: more ∧
      r'.rest = line ++ linesBelow (more.map indentLine) ∧ r'.mark.column = 1 ∧
      blankLines 1 r = ⟨List.replicate k '\n', stop, r'⟩ := by
  subst hrest
  rcases exists_blank_lines lines with ⟨k, rfl⟩ | ⟨k, line, more, hline, rfl⟩
  · have hempty : indentLine [] = [] := rfl
    rw [List.map_replicate, hempty, linesBelow_replicate] at hlines
    cases k with
    | zero => cases hlines
    | succ k =>
        obtain ⟨stop, r', hr', hblank⟩ := blankLines_end hcolumn (List.cons.inj hlines).2.symm
        exact Or.inl ⟨k, stop, r', rfl, hr', hblank⟩
  · have hindent : indentLine line = ' ' :: line := if_neg hline
    have hempty : indentLine [] = [] := rfl
    rw [List.map_append, List.map_replicate, hempty, List.map_cons, hindent,
      linesBelow_blank] at hlines
    obtain ⟨stop, r', hr', hcolumn', hblank⟩ := blankLines_line hcolumn hline
      (hclean line (by simp)) (List.cons.inj hlines).2.symm
    exact Or.inr ⟨k, line, more, stop, r', hline, rfl, hr', hcolumn', hblank⟩

/-- All lines are read: the last of them, the line break behind it if there is one, and then
nothing but line feeds. -/
structure BlockRun.Ends (run : BlockRun) (text : List Char) : Prop where
  kept : run.text ++ run.lineBreak.toList ++ run.blank.breaks = text
  last : ∃ c ≠ '\n', run.text.getLast? = some c
  breaks : run.lineBreak = none ∧ run.blank.breaks = [] ∨
    run.lineBreak = some '\n' ∧ ∀ c ∈ run.blank.breaks, c = '\n'
  done : run.blank.reader.rest = []

/-- The reader stands at a line that is not empty, with more lines below. -/
structure BlockRun.Faces (run : BlockRun) (line : List Char) (more : List (List Char)) : Prop where
  nonempty : line ≠ []
  clean : ∀ l ∈ line :: more, ∀ c ∈ l, isBreakOrEnd c = false
  rest : run.blank.reader.rest = line ++ linesBelow (more.map indentLine)
  column : run.blank.reader.mark.column = 1

section Lines

variable {run : BlockRun} {line : List Char} {more : List (List Char)}

theorem atLine_of_nil (h : run.blank.reader.rest = []) : run.atLine 1 = false := by
  simp [BlockRun.atLine, atEnd, h]

theorem BlockRun.Faces.atLine (h : run.Faces line more) : run.atLine 1 = true := by
  simp [BlockRun.atLine, h.column, atEnd, h.rest, h.nonempty]

theorem BlockRun.Faces.peek_ne_nul (h : run.Faces line more) : run.blank.reader.peek ≠ nul := by
  obtain ⟨c, tail, rfl⟩ := List.exists_cons_of_ne_nil h.nonempty
  have hc := h.clean _ List.mem_cons_self c List.mem_cons_self
  rw [peek, h.rest]
  rintro rfl
  cases hc

theorem BlockRun.Faces.last (h : run.Faces line more) :
    ∃ c ≠ '\n', (run.text ++ run.blank.breaks ++ line).getLast? = some c := by
  have hlast := List.getLast?_eq_some_getLast h.nonempty
  have hclean := h.clean line List.mem_cons_self _ (List.getLast_mem h.nonempty)
  refine ⟨line.getLast h.nonempty, ?_, by simp [List.getLast?_append, hlast]⟩
  intro hfeed
  rw [hfeed] at hclean
  cases hclean

/-- Reading a line comes to the end of the text or to another line. -/
theorem BlockRun.Faces.line_cases (h : run.Faces line more) :
    (run.line 1).Ends (run.text ++ run.blank.breaks ++ line ++ linesBelow more) ∨
    ∃ k line' more', more = List.replicate k [] ++ line' :: more' ∧
      (run.line 1).Faces line' more' ∧ (run.line 1).lineBreak = some '\n' ∧
      (run.line 1).text = run.text ++ run.blank.breaks ++ line ∧
      (run.line 1).blank.breaks = List.replicate k '\n' := by
  obtain ⟨hfirst, hmore⟩ := List.forall_mem_cons.mp h.clean
  have hrest := h.rest
  cases more with
  | nil =>
      obtain ⟨stop, r', hr', hnext⟩ := line_of_end hfirst (hrest.trans (List.append_nil line))
      rw [hnext]
      exact Or.inl ⟨by simp [linesBelow], h.last, Or.inl ⟨rfl, rfl⟩, hr'⟩
  | cons second more =>
      obtain ⟨r', hr', hcolumn, hnext⟩ := line_of_feed hfirst hrest
      rw [hnext]
      rcases blankLines_below hmore rfl hr' hcolumn with
        ⟨k, stop, r'', hlines, hr'', hblank⟩ |
        ⟨k, line', more', stop, r'', hline', hlines, hr'', hcolumn', hblank⟩
      · rw [hblank, hlines, linesBelow_replicate]
        exact Or.inl ⟨by simp [List.replicate_succ], h.last,
          Or.inr ⟨rfl, fun c hc => List.eq_of_mem_replicate hc⟩, hr''⟩
      · rw [hblank, hlines]
        refine Or.inr ⟨k, line', more', rfl, ⟨hline', ?_, hr'', hcolumn'⟩, rfl, rfl, rfl⟩
        intro l hl
        exact hmore l (by rw [hlines]; exact List.mem_append_right _ hl)

theorem BlockRun.Faces.blockLines_ends {n : Nat} (start : Mark) (h : run.Faces line more)
    (hn : run.blank.reader.rest.length ≤ n) :
    ∃ final, blockLines false 1 start n run = .ok final ∧
      final.Ends (run.text ++ run.blank.breaks ++ line ++ linesBelow more) := by
  -- What is read and what is still below make up the same text after every line.
  induction n generalizing run line more with
  | zero =>
      rw [h.rest, List.length_append] at hn
      have hpos := List.length_pos_iff.mpr h.nonempty
      omega
  | succ n ih =>
      have hround : blockLines false 1 start (n + 1) run =
          if (run.line 1).atLine 1 then blockLines false 1 start n
            { run.line 1 with text := (run.line 1).text ++ run.joint false (run.line 1) }
          else .ok (run.line 1) := by
        rw [blockLines, h.atLine]
        rfl
      rw [hround]
      rcases h.line_cases with hends | ⟨k, line', more', rfl, hfaces, hbreak, htext, hblank⟩
      · rw [atLine_of_nil hends.done]
        exact ⟨_, rfl, hends⟩
      · have hlt : (run.line 1).blank.reader.rest.length < run.blank.reader.rest.length :=
          line_length h.peek_ne_nul
        have hfaces' : BlockRun.Faces
            { run.line 1 with text := (run.line 1).text ++ run.joint false (run.line 1) }
            line' more' := ⟨hfaces.nonempty, hfaces.clean, hfaces.rest, hfaces.column⟩
        have hn' : (run.line 1).blank.reader.rest.length ≤ n := by omega
        obtain ⟨final, hfinal, hends⟩ := ih hfaces' hn'
        have hjoint : run.joint false (run.line 1) = ['\n'] := by
          simp [BlockRun.joint, hbreak]
        rw [htext, hblank, hjoint] at hends
        rw [hfaces.atLine]
        refine ⟨final, hfinal, ?_⟩
        rw [linesBelow_blank]
        simpa using hends

end Lines

/-! ### Chomping -/

namespace Chomping

/-- The sign in the header. -/
def sign : Chomping → List Char
  | clip => []
  | keep => ['+']
  | strip => ['-']

/-- What chomping leaves of a text. -/
def leaves (chomping : Chomping) (text : List Char) : List Char :=
  match chomping with
  | keep => text
  | strip => text.rdropWhile (· == '\n')
  | clip =>
      text.rdropWhile (· == '\n') ++
        if (∃ line ∈ text.splitOn '\n', line ≠ []) ∧ text.getLast? = some '\n' then ['\n'] else []

end Chomping

theorem linesBelow_splitOn (text : List Char) : linesBelow (text.splitOn '\n') = '\n' :: text := by
  rw [linesBelow_eq (List.splitOn_ne_nil _ _), List.intercalate_splitOn]

theorem linesBelow_indentLines (text : List Char) :
    linesBelow ((text.splitOn '\n').map indentLine) = '\n' :: indentLines text :=
  linesBelow_eq (by simp)

theorem exists_line_iff {text : List Char} :
    (∃ line ∈ text.splitOn '\n', line ≠ []) ↔ ∃ c ∈ text, c ≠ '\n' := by
  constructor
  · rintro ⟨line, hline, hne⟩
    obtain ⟨c, hc⟩ := List.exists_mem_of_ne_nil line hne
    exact ⟨c, mem_splitOn hline c hc⟩
  · rintro ⟨c, hc, hne⟩
    by_contra hnone
    push Not at hnone
    have hlines := linesBelow_splitOn text
    rw [List.eq_replicate_of_mem hnone, linesBelow_replicate] at hlines
    have hmem : c ∈ '\n' :: text := List.mem_cons_of_mem _ hc
    rw [← hlines] at hmem
    exact hne (List.eq_of_mem_replicate hmem)

theorem rdropWhile_feeds {text feeds : List Char} (htext : ∀ c ∈ text.getLast?, c ≠ '\n')
    (hfeeds : ∀ c ∈ feeds, c = '\n') : (text ++ feeds).rdropWhile (· == '\n') = text := by
  have hself : text.rdropWhile (· == '\n') = text :=
    List.rdropWhile_eq_self_iff.mpr fun hne => by
      simpa using htext _ (List.getLast?_eq_some_getLast hne)
  rw [List.rdropWhile, List.reverse_append, List.dropWhile_append_of_pos (by simpa using hfeeds)]
  exact hself

theorem BlockRun.Ends.chomp_eq {run : BlockRun} {text : List Char} (h : run.Ends text)
    (chomping : Chomping) : run.chomp chomping = chomping.leaves text := by
  obtain ⟨c, hc, hlast⟩ := h.last
  have hkept := h.kept
  have hmem : c ∈ text := by
    rw [← hkept]
    simp [List.mem_of_getLast? hlast]
  have hstrip : text.rdropWhile (· == '\n') = run.text := by
    rw [← hkept, List.append_assoc]
    refine rdropWhile_feeds (by simpa [hlast] using hc) ?_
    rcases h.breaks with ⟨hnone, hblank⟩ | ⟨hsome, hblank⟩
    · simp [hnone, hblank]
    · simpa [hsome] using hblank
  cases chomping with
  | keep => exact hkept
  | strip => exact hstrip.symm
  | clip =>
      have hline : ∃ line ∈ text.splitOn '\n', line ≠ [] := exists_line_iff.mpr ⟨c, hmem, hc⟩
      rw [Chomping.leaves, hstrip, BlockRun.chomp]
      congr 1
      rcases h.breaks with ⟨hnone, hblank⟩ | ⟨hsome, hblank⟩
      · obtain rfl : run.text = text := by simpa [hnone, hblank] using hkept
        have hne : run.text.getLast? ≠ some '\n' := by simpa [hlast] using hc
        rw [hnone, if_neg fun hends => hne hends.2]
        rfl
      · have hends : text.getLast? = some '\n' := by
          rw [← hkept, hsome, List.eq_replicate_of_mem hblank]
          simp [List.getLast?_append, ← List.replicate_succ, List.getLast?_replicate]
        rw [hsome, if_pos ⟨hline, hends⟩]
        rfl

theorem leaves_of_feeds {chomping : Chomping} {text : List Char} (hkeep : chomping ≠ .keep)
    (htext : ∀ c ∈ text, c = '\n') : chomping.leaves text = [] := by
  have hstrip : text.rdropWhile (· == '\n') = [] :=
    List.rdropWhile_eq_nil_iff.mpr (by simpa using htext)
  have hline : ¬∃ line ∈ text.splitOn '\n', line ≠ [] := by
    rw [exists_line_iff]
    rintro ⟨c, hc, hne⟩
    exact hne (htext c hc)
  cases chomping with
  | keep => exact absurd rfl hkeep
  | strip => exact hstrip
  | clip => rw [Chomping.leaves, hstrip, if_neg fun h => hline h.1, List.append_nil]

/-! ### The header -/

theorem blockHeader_literal (chomping : Chomping) (rest : List Char) (m start : Mark) :
    ∃ m', blockHeader start ⟨'1' :: (chomping.sign ++ '\n' :: rest), m⟩ =
      .ok (⟨chomping, some 1⟩, ⟨'\n' :: rest, m'⟩) := by
  cases chomping <;> exact ⟨_, rfl⟩

theorem headerLineEnd_feed (start : Mark) (rest : List Char) (m : Mark) :
    headerLineEnd start ⟨'\n' :: rest, m⟩ = .ok ⟨rest, m.nextLine⟩ := rfl

/-- The text written as a literal scalar. -/
def literalText (chomping : Chomping) (text : List Char) : List Char :=
  '|' :: '1' :: (chomping.sign ++ '\n' :: indentLines text)

theorem blockLines_literal {text : List Char} (start : Mark) {r : Reader}
    (hclean : ∀ line ∈ text.splitOn '\n', ∀ c ∈ line, isBreakOrEnd c = false)
    (hrest : r.rest = indentLines text) (hcolumn : r.mark.column = 0) :
    ∃ final, blockLines false 1 start r.rest.length ⟨[], none, blankLines 1 r⟩ = .ok final ∧
      final.blank.reader.rest = [] ∧ ∀ chomping, final.chomp chomping = chomping.leaves text := by
  have hlines := linesBelow_splitOn text
  -- Either all lines are blank, or some are before the first that is not.
  rcases blankLines_below hclean (linesBelow_indentLines text) hrest hcolumn with
    ⟨k, stop, r', hblank, hr', hread⟩ |
    ⟨k, line, more, stop, r', hline, hblank, hr', hcolumn', hread⟩
  · obtain rfl : text = List.replicate k '\n' := by
      rw [hblank, linesBelow_replicate] at hlines
      exact (List.cons.inj hlines).2.symm
    rw [hread]
    refine ⟨⟨[], none, ⟨List.replicate k '\n', stop, r'⟩⟩, ?_, hr', fun chomping => ?_⟩
    · have hline : BlockRun.atLine 1 ⟨[], none, ⟨List.replicate k '\n', stop, r'⟩⟩ = false :=
        atLine_of_nil hr'
      rw [blockLines.eq_def]
      simp [hline]
    · by_cases hkeep : chomping = .keep
      · rw [hkeep]
        rfl
      · rw [leaves_of_feeds hkeep fun c hc => List.eq_of_mem_replicate hc]
        cases chomping with
        | keep => exact absurd rfl hkeep
        | strip => rfl
        | clip => rfl
  · have hfaces : BlockRun.Faces ⟨[], none, blankLines 1 r⟩ line more := by
      refine ⟨hline, fun l hl => hclean l ?_, ?_, ?_⟩
      · rw [hblank]
        exact List.mem_append_right _ hl
      · rw [hread]
        exact hr'
      · rw [hread]
        exact hcolumn'
    have hn : (blankLines 1 r).reader.rest.length ≤ r.rest.length :=
      (blankLines_leads 1 r).length_le
    obtain ⟨final, hfinal, hends⟩ := hfaces.blockLines_ends start hn
    have htext : [] ++ (blankLines 1 r).breaks ++ line ++ linesBelow more = text := by
      rw [hblank, linesBelow_blank] at hlines
      rw [hread]
      simpa using (List.cons.inj hlines).2
    rw [htext] at hends
    exact ⟨final, hfinal, hends.done, hends.chomp_eq⟩

theorem readBlockScalar_literal {text : List Char} (chomping : Chomping) (m : Mark)
    (hclean : ∀ line ∈ text.splitOn '\n', ∀ c ∈ line, isBreakOrEnd c = false) :
    ∃ stop r', readBlockScalar false (-1) ⟨literalText chomping text, m⟩ =
      .ok (⟨.scalar (String.ofList (chomping.leaves text)) .literal, m, stop⟩, r') ∧
        r'.rest = [] := by
  obtain ⟨m', hheader⟩ := blockHeader_literal chomping (indentLines text) (m.ahead 1) m
  have hend := headerLineEnd_feed m (indentLines text) m'
  obtain ⟨final, hfinal, hdone, hchomp⟩ := blockLines_literal m
    (r := ⟨indentLines text, m'.nextLine⟩) hclean rfl rfl
  refine ⟨final.blank.stop, final.blank.reader, ?_, hdone⟩
  have hnext : (⟨literalText chomping text, m⟩ : Reader).next =
      ⟨'1' :: (chomping.sign ++ '\n' :: indentLines text), m.ahead 1⟩ := rfl
  rw [readBlockScalar, hnext, hheader, ok_bind]
  dsimp only
  rw [hend, ok_bind]
  have hindent : (max (-1 + 1 : Int) 1).toNat + 1 - 1 = 1 := rfl
  rw [hindent, hfinal, ok_bind, hchomp]
  rfl

/-! ### The document -/

section Texts

open TokenStream

variable {text : List Char}

theorem fetchSign_literal {s : TokenStream} {rest : List Char} (hrest : s.reader.rest = '|' :: rest)
    (hflow : s.inFlow = false) : s.fetchSign = s.fetchBlockScalar false := by
  have hstarts : Starts ('|' :: rest) := starts_cons (by decide) (by decide) (by decide)
  obtain ⟨hpeek, -, hend, hdashes, hdots⟩ := faces hrest hstarts
  simp [fetchSign, hpeek, hend, hdashes, hdots, hflow]

theorem tokens_literal (chomping : Chomping)
    (hclean : ∀ line ∈ text.splitOn '\n', ∀ c ∈ line, isBreakOrEnd c = false) :
    ∃ tokens, Token.ofText (literalText chomping text) = ⟨tokens, none⟩ ∧ tokens.map Token.kind =
      [.streamStart, .scalar (String.ofList (chomping.leaves text)) .literal, .streamEnd] := by
  have hstarts : Starts (literalText chomping text) :=
    starts_cons (by decide) (by decide) (by decide)
  obtain ⟨keys, hfetch, hs₁⟩ := (start_shows (literalText chomping text)).fetch_eq hstarts
    (by simp [View.Within])
  obtain ⟨s₂, hremove, hdropped⟩ := exists_removeKey hs₁.keys
  have hs₂ := hs₁.keysDropped hdropped
  have hindent : s₂.indent = -1 := hs₂.indent_eq
  obtain ⟨stop, r', hread, hr'⟩ := readBlockScalar_literal chomping s₂.mark hclean
  rw [fetchSign_literal hs₁.text rfl, fetchBlockScalar, hremove, ok_bind, hindent, hs₂.reader_eq,
    hread, ok_bind] at hfetch
  exact tokens_of_scalar hs₂ hr' hfetch

end Texts

/-- A string without line breaks other than line feeds is read back from its lines, one column
further in below a literal sign, but for the line feeds at its end, which the sign decides on. -/
theorem Document.literal_roundTrip (s : String)
    (hs : ∀ c ∈ s.toList, c ∉ [nul, '\r', '\u0085', '\u2028', '\u2029']) (chomping : Chomping)
    (cursor : Cursor) :
    (∃ document, ofText (literalText chomping s.toList) cursor = .ok document ∧
      document.root = .str (String.ofList (chomping.leaves s.toList))) ∧
    ((∀ c ∈ s.toList, c = '\n') → chomping ≠ .keep → chomping.leaves s.toList = []) := by
  have hclean : ∀ line ∈ s.toList.splitOn '\n', ∀ c ∈ line, isBreakOrEnd c = false := by
    intro line hline c hc
    obtain ⟨hmem, hfeed⟩ := mem_splitOn hline c hc
    have hother := hs c hmem
    simp_all [isBreakOrEnd, isBreak]
  refine ⟨?_, fun hfeeds hkeep => leaves_of_feeds hkeep hfeeds⟩
  obtain ⟨tokens, htokens, hkinds⟩ := tokens_literal chomping hclean
  exact document_of_scalar htokens hkinds rfl cursor

/-- Empty lines at the start, inside and at the end, a line of spaces and a line further in. -/
theorem Document.literal_roundTrip_lines :
    (∃ document, ofText "|1+\n\n a\n\n   \n  b\n\n".toList .origin = .ok document ∧
      document.root = .str "\na\n\n  \n b\n\n") ∧
    (∃ document, ofText "|1-\n\n a\n\n   \n  b\n\n".toList .origin = .ok document ∧
      document.root = .str "\na\n\n  \n b") ∧
    (∃ document, ofText "|1\n\n a\n\n   \n  b\n\n".toList .origin = .ok document ∧
      document.root = .str "\na\n\n  \n b\n") ∧
    ∃ document, ofText "|1\n\n\n".toList .origin = .ok document ∧ document.root = .str "" := by
  have hread := literal_roundTrip "\na\n\n  \n b\n\n" (by simp [nul])
  exact ⟨(hread .keep .origin).1, (hread .strip .origin).1, (hread .clip .origin).1,
    (literal_roundTrip "\n\n" (by simp [nul]) .clip .origin).1⟩

end Playbook
