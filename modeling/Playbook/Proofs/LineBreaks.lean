import Playbook.Proofs.ScanLoops

/-!
Line breaks, however they are written. Between a text and the same text with line feeds for its
carriage returns there is a correspondence of places: both have the same line and column, and what
is still to be read from the one is what is still to be read from the other, with line feeds. No
place of the second corresponds to one between a carriage return and its line feed.
-/

namespace Playbook

/-! ### Texts -/

/-- The text with a line feed for each carriage return and for each pair of a carriage return and a
line feed. -/
def lineFeeds : List Char → List Char
  | [] => []
  | c :: rest =>
      if c = '\r' then
        if rest.head? = some '\n' then lineFeeds rest else '\n' :: lineFeeds rest
      else c :: lineFeeds rest

@[simp] theorem lineFeeds_nil : lineFeeds [] = [] := rfl

theorem lineFeeds_cons {c : Char} (hc : c ≠ '\r') (rest : List Char) :
    lineFeeds (c :: rest) = c :: lineFeeds rest := by
  rw [lineFeeds, if_neg hc]

theorem lineFeeds_pair (rest : List Char) :
    lineFeeds ('\r' :: '\n' :: rest) = '\n' :: lineFeeds rest := by
  simp [lineFeeds]

theorem lineFeeds_return {rest : List Char} (h : rest.head? ≠ some '\n') :
    lineFeeds ('\r' :: rest) = '\n' :: lineFeeds rest := by
  simp [lineFeeds, h]

/-- A carriage return is a line feed, with a line feed behind it or without. -/
theorem lineFeeds_return_cons (rest : List Char) :
    ∃ more, lineFeeds ('\r' :: rest) = '\n' :: more := by
  cases rest with
  | nil => exact ⟨[], rfl⟩
  | cons d rest =>
      by_cases hd : d = '\n'
      · rw [hd, lineFeeds_pair]
        exact ⟨_, rfl⟩
      · rw [lineFeeds_return (by simpa using hd)]
        exact ⟨_, rfl⟩

theorem return_notMem_lineFeeds (text : List Char) : '\r' ∉ lineFeeds text := by
  induction text with
  | nil => simp
  | cons c rest ih =>
      unfold lineFeeds
      split_ifs with hc hfeed
      · exact ih
      · simp [ih]
      · simp [ih, Ne.symm hc]

theorem lineFeeds_eq_self {text : List Char} (h : '\r' ∉ text) : lineFeeds text = text := by
  induction text with
  | nil => rfl
  | cons c rest ih =>
      rw [List.mem_cons, not_or] at h
      obtain ⟨hc, hrest⟩ := h
      rw [lineFeeds_cons (Ne.symm hc), ih hrest]

theorem lineFeeds_eq_nil {text : List Char} : lineFeeds text = [] ↔ text = [] := by
  induction text with
  | nil => simp
  | cons c rest ih =>
      unfold lineFeeds
      split_ifs with hc hfeed
      · rw [ih]
        cases rest <;> simp_all
      · simp
      · simp

/-- The two parts do not divide a carriage return from its line feed. -/
def Apart (read rest : List Char) : Prop :=
  read.getLast? = some '\r' → rest.head? ≠ some '\n'

theorem lineFeeds_append {read rest : List Char} (h : Apart read rest) :
    lineFeeds (read ++ rest) = lineFeeds read ++ lineFeeds rest := by
  induction read with
  | nil => rfl
  | cons c read ih =>
      cases read with
      | nil =>
          by_cases hc : c = '\r'
          · have hrest : rest.head? ≠ some '\n' := h (by simp [hc])
            rw [hc, List.singleton_append, lineFeeds_return hrest]
            rfl
          · rw [List.singleton_append, lineFeeds_cons hc, lineFeeds_cons hc]
            rfl
      | cons d read =>
          have hread := ih (by simpa [Apart] using h)
          have hhead : (d :: read ++ rest).head? = (d :: read).head? := rfl
          rw [List.cons_append, lineFeeds, lineFeeds, hhead, hread]
          split_ifs <;> rfl

theorem apart_of_not_return {read rest : List Char} (h : '\r' ∉ read) : Apart read rest := by
  intro hlast
  exact absurd (List.mem_of_getLast? hlast) h

theorem apart_of_not_feed {read rest : List Char} (h : rest.head? ≠ some '\n') : Apart read rest :=
  fun _ => h

theorem Apart.left {read stretch rest : List Char} (h : Apart read (stretch ++ rest)) :
    Apart read stretch := by
  intro hlast hfeed
  refine h hlast ?_
  rw [List.head?_append, hfeed]
  rfl

/-- What stands for a character where carriage returns are line feeds. -/
def asFeed (c : Char) : Char := if c = '\r' then '\n' else c

theorem head?_lineFeeds (text : List Char) : (lineFeeds text).head? = text.head?.map asFeed := by
  cases text with
  | nil => rfl
  | cons c rest =>
      by_cases hc : c = '\r'
      · obtain ⟨more, hmore⟩ := lineFeeds_return_cons rest
        rw [hc, hmore]
        rfl
      · rw [lineFeeds_cons hc]
        simp [asFeed, hc]

theorem headD_lineFeeds (text : List Char) :
    (lineFeeds text).headD nul = asFeed (text.headD nul) := by
  rw [List.headD_eq_head?_getD, head?_lineFeeds]
  cases text <;> rfl

/-- Stretches without line breaks are the same. -/
theorem takeWhile_lineFeeds {p : Char → Bool} (hreturn : p '\r' = false) (hfeed : p '\n' = false)
    (text : List Char) : (lineFeeds text).takeWhile p = text.takeWhile p := by
  induction text with
  | nil => rfl
  | cons c rest ih =>
      by_cases hc : c = '\r'
      · obtain ⟨more, hmore⟩ := lineFeeds_return_cons rest
        rw [hc, hmore, List.takeWhile_cons, List.takeWhile_cons, hreturn, hfeed]
        rfl
      · rw [lineFeeds_cons hc, List.takeWhile_cons, List.takeWhile_cons, ih]

/-- Stretches at the start without line breaks are the same. -/
theorem isPrefixOf_lineFeeds {word : List Char} (hreturn : '\r' ∉ word) (hfeed : '\n' ∉ word)
    (text : List Char) : word.isPrefixOf (lineFeeds text) = word.isPrefixOf text := by
  induction word generalizing text with
  | nil => simp
  | cons d word ih =>
      rw [List.mem_cons, not_or] at hreturn hfeed
      cases text with
      | nil => rfl
      | cons c rest =>
          by_cases hc : c = '\r'
          · obtain ⟨more, hmore⟩ := lineFeeds_return_cons rest
            rw [hc, hmore, List.isPrefixOf_cons_cons, List.isPrefixOf_cons_cons,
              beq_false_of_ne (Ne.symm hfeed.1), beq_false_of_ne (Ne.symm hreturn.1),
              Bool.false_and, Bool.false_and]
          · rw [lineFeeds_cons hc, List.isPrefixOf_cons_cons, List.isPrefixOf_cons_cons,
              ih hreturn.2 hfeed.2]

/-- A break stays a break. -/
theorem exists_break_lineFeeds {text : List Char} (h : ∃ c ∈ text, isBreak c = true) :
    ∃ c ∈ lineFeeds text, isBreak c = true := by
  induction text with
  | nil => simp at h
  | cons c rest ih =>
      by_cases hc : c = '\r'
      · obtain ⟨more, hmore⟩ := lineFeeds_return_cons rest
        rw [hc, hmore]
        exact ⟨'\n', by simp, rfl⟩
      · rw [lineFeeds_cons hc]
        obtain ⟨d, hd, hbreak⟩ := h
        rcases List.mem_cons.mp hd with rfl | hd
        · exact ⟨d, by simp, hbreak⟩
        · obtain ⟨e, he, hbreak⟩ := ih ⟨d, hd, hbreak⟩
          exact ⟨e, by simp [he], hbreak⟩

/-! ### Marks -/

/-- The mark behind the characters that were read: how many they are, how many lines they end, and
how many stand on the last line. A byte order mark takes no column. -/
def Mark.behind (read : List Char) : Mark where
  index := read.length
  line := (lineFeeds read).countP isBreak
  column := (read.rtakeWhile fun c => !isBreak c).countP (· != '\ufeff')

namespace Mark

theorem line_snoc {read : List Char} {c : Char} (hapart : Apart read [c]) :
    (behind (read ++ [c])).line = (behind read).line + if isBreak c then 1 else 0 := by
  have hsingle : (lineFeeds [c]).countP isBreak = if isBreak c then 1 else 0 := by
    by_cases hc : c = '\r'
    · subst hc
      rfl
    · rw [lineFeeds_cons hc, lineFeeds_nil, List.countP_singleton]
  change (lineFeeds (read ++ [c])).countP isBreak = _
  rw [lineFeeds_append hapart, List.countP_append, hsingle]
  rfl

theorem column_snoc (read : List Char) (c : Char) : (behind (read ++ [c])).column =
    if isBreak c then 0 else if c = '\ufeff' then (behind read).column
    else (behind read).column + 1 := by
  change ((read ++ [c]).rtakeWhile _).countP _ = _
  rw [List.rtakeWhile_concat]
  by_cases hmark : c = '\ufeff'
  · have hbreak : isBreak '\ufeff' = false := by decide
    simp [hbreak, hmark, behind]
  · by_cases hbreak : isBreak c = true <;> simp [hbreak, hmark, behind]

theorem column_of_break (read : List Char) {c : Char} (h : isBreak c = true) :
    (behind (read ++ [c])).column = 0 := by
  rw [column_snoc, if_pos h]

/-- Reading a character that is not the first of a pair. -/
theorem past_behind {read rest : List Char} {c : Char} (hapart : Apart read [c])
    (hpair : c = '\r' → rest.head? ≠ some '\n') :
    (behind read).past c rest = behind (read ++ [c]) := by
  have hends : endsLine c rest = isBreak c := by
    by_cases hc : c = '\r'
    · simp [endsLine, isBreak, hc, hpair hc]
    · have hc : (c == '\r') = false := by simpa using hc
      simp [endsLine, isBreak, hc]
  have hmark : behind (read ++ [c]) = ⟨(behind read).index + 1,
      (behind read).line + if isBreak c then 1 else 0, if isBreak c then 0 else
      if c = '\ufeff' then (behind read).column else (behind read).column + 1⟩ := by
    rw [← line_snoc hapart, ← column_snoc]
    simp [behind]
  rw [past, hends, hmark]
  by_cases hbom : c = '\ufeff'
  · have hbreak : isBreak '\ufeff' = false := by decide
    simp [hbreak, hbom]
  · by_cases hbreak : isBreak c = true <;> simp [hbreak, hbom]

/-- Reading a carriage return and its line feed. -/
theorem past_past_behind (read rest : List Char) :
    ((behind read).past '\r' ('\n' :: rest)).past '\n' rest = behind (read ++ ['\r', '\n']) := by
  have hline : (behind (read ++ ['\r', '\n'])).line = (behind read).line + 1 := by
    change (lineFeeds (read ++ ['\r', '\n'])).countP isBreak = _
    rw [lineFeeds_append (apart_of_not_feed (by simp)), List.countP_append]
    rfl
  have hcolumn : (behind (read ++ ['\r', '\n'])).column = 0 := by
    have hsplit : read ++ ['\r', '\n'] = (read ++ ['\r']) ++ ['\n'] := by simp
    rw [hsplit, column_of_break _ rfl]
  have hmark : behind (read ++ ['\r', '\n']) =
      ⟨(behind read).index + 2, (behind read).line + 1, 0⟩ := by
    rw [← hline, ← hcolumn]
    simp [behind]
  rw [hmark]
  simp [past, endsLine]

theorem line_lineFeeds (read : List Char) :
    (behind (lineFeeds read)).line = (behind read).line := by
  change (lineFeeds (lineFeeds read)).countP isBreak = _
  rw [lineFeeds_eq_self (return_notMem_lineFeeds read)]
  rfl

theorem column_lineFeeds (read : List Char) :
    (behind (lineFeeds read)).column = (behind read).column := by
  induction read using List.reverseRecOn with
  | nil => rfl
  | append_singleton read c ih =>
      by_cases hapart : Apart read [c]
      · rw [lineFeeds_append hapart]
        by_cases hc : c = '\r'
        · subst hc
          exact (column_of_break _ rfl).trans (column_of_break _ rfl).symm
        · rw [lineFeeds_cons hc, lineFeeds_nil, column_snoc, column_snoc, ih]
      · obtain ⟨hlast, rfl⟩ : read.getLast? = some '\r' ∧ c = '\n' := by simpa [Apart] using hapart
        obtain ⟨read, rfl⟩ := List.getLast?_eq_some_iff.mp hlast
        have hpair : lineFeeds (read ++ ['\r', '\n']) = lineFeeds read ++ ['\n'] :=
          lineFeeds_append (apart_of_not_feed (by simp))
        rw [List.append_assoc, List.singleton_append, hpair, column_of_break _ rfl,
          ← List.singleton_append, ← List.append_assoc, column_of_break _ rfl]

end Mark

namespace Reader

theorem lineBreak?_behind_feed {read rest : List Char} (hapart : Apart read ['\n']) :
    (⟨'\n' :: rest, .behind read⟩ : Reader).lineBreak? =
      some ('\n', ⟨rest, .behind (read ++ ['\n'])⟩) := by
  have hpast : (Mark.behind read).past '\n' rest = .behind (read ++ ['\n']) :=
    Mark.past_behind hapart nofun
  simp [lineBreak?, startsWith, peek, next, hpast]

theorem lineBreak?_behind_return {read rest : List Char} (hrest : rest.head? ≠ some '\n') :
    (⟨'\r' :: rest, .behind read⟩ : Reader).lineBreak? =
      some ('\n', ⟨rest, .behind (read ++ ['\r'])⟩) := by
  have hpast : (Mark.behind read).past '\r' rest = .behind (read ++ ['\r']) :=
    Mark.past_behind (apart_of_not_feed (by simp)) fun _ => hrest
  have hpair : ['\n'].isPrefixOf rest = false := by
    cases rest with
    | nil => rfl
    | cons c rest =>
        have hc : '\n' ≠ c := fun h => hrest (by rw [← h]; rfl)
        simp [List.isPrefixOf, hc]
  simp [lineBreak?, startsWith, peek, next, hpast, hpair]

theorem lineBreak?_behind_pair (read rest : List Char) :
    (⟨'\r' :: '\n' :: rest, .behind read⟩ : Reader).lineBreak? =
      some ('\n', ⟨rest, .behind (read ++ ['\r', '\n'])⟩) := by
  simp [lineBreak?, startsWith, advance, next, Mark.past_past_behind]

theorem lineBreak?_of_ne_return {r : Reader} (h : r.peek ≠ '\r') : r.lineBreak? =
    if r.peek == '\n' || r.peek == '\u0085' then some ('\n', r.next)
    else if r.peek == '\u2028' || r.peek == '\u2029' then some (r.peek, r.next) else none := by
  have hpair : r.startsWith ['\r', '\n'] = false := by
    obtain ⟨rest, m⟩ := r
    cases rest with
    | nil => rfl
    | cons c rest =>
        have hc : '\r' ≠ c := Ne.symm h
        simp [startsWith, List.isPrefixOf, hc]
  have hreturn : (r.peek == '\r') = false := by simpa using h
  simp [lineBreak?, hpair, hreturn]

end Reader

/-! ### Places -/

/-- The mark, where line feeds stand for carriage returns, of the place that the second mark has. -/
inductive Mark.WithFeeds (text : List Char) : Mark → Mark → Prop
  | behind {read rest : List Char} (htext : text = read ++ rest) (hapart : Apart read rest) :
      Mark.WithFeeds text (.behind (lineFeeds read)) (.behind read)

/-- The two places correspond: the first in the text with line feeds, the second in the text. -/
inductive Reader.WithFeeds (text : List Char) : Reader → Reader → Prop
  | behind {read rest : List Char} (htext : text = read ++ rest) (hapart : Apart read rest) :
      Reader.WithFeeds text ⟨lineFeeds rest, .behind (lineFeeds read)⟩ ⟨rest, .behind read⟩

namespace Mark.WithFeeds

variable {text : List Char} {m m' k k' : Mark}

theorem line (h : Mark.WithFeeds text m m') : m.line = m'.line := by
  cases h
  exact line_lineFeeds _

theorem column (h : Mark.WithFeeds text m m') : m.column = m'.column := by
  cases h
  exact column_lineFeeds _

theorem index_eq_zero (h : Mark.WithFeeds text m m') : m.index = 0 ↔ m'.index = 0 := by
  cases h
  simp [Mark.behind, lineFeeds_eq_nil]

/-- Only one mark corresponds to a mark. -/
theorem unique {m₁ m₂ : Mark} (h₁ : Mark.WithFeeds text m₁ m') (h₂ : Mark.WithFeeds text m₂ m') :
    m₁ = m₂ := by
  generalize hm : m' = n at h₂
  cases h₁ with
  | @behind read₁ rest₁ htext₁ _ =>
      cases h₂ with
      | @behind read₂ rest₂ htext₂ _ =>
          have hlength : read₁.length = read₂.length := congrArg Mark.index hm
          rw [(List.append_inj (htext₁.symm.trans htext₂) hlength).1]

/-- On one line, marks are as far from each other as those that they correspond to. -/
theorem distance (hk : Mark.WithFeeds text k k') (hm : Mark.WithFeeds text m m')
    (hline : k.line = m.line) : m.index - k.index = m'.index - k'.index := by
  cases hk with
  | @behind readK restK htextK hapartK =>
      cases hm with
      | @behind readM restM htextM hapartM =>
          rcases List.append_eq_append_iff.mp (htextK.symm.trans htextM) with
            ⟨w, rfl, rfl⟩ | ⟨w, rfl, rfl⟩
          · -- Between the two there is no break, so that nothing is written otherwise.
            have happend := lineFeeds_append hapartK.left
            have hnone : ¬ ∃ c ∈ w, isBreak c = true := by
              intro hbreak
              obtain ⟨c, hc, hbreak⟩ := exists_break_lineFeeds hbreak
              have hpos : 0 < (lineFeeds w).countP isBreak :=
                List.countP_pos_iff.mpr ⟨c, hc, hbreak⟩
              rw [line_lineFeeds, line_lineFeeds] at hline
              simp only [Mark.behind, happend, List.countP_append] at hline
              omega
            have hw : lineFeeds w = w := lineFeeds_eq_self fun hreturn => hnone ⟨_, hreturn, rfl⟩
            simp [Mark.behind, happend, hw]
          · simp [Mark.behind, lineFeeds_append hapartM.left]

end Mark.WithFeeds

namespace Reader.WithFeeds

variable {text : List Char} {r r' : Reader}

theorem start (text : List Char) : WithFeeds text (.start (lineFeeds text)) (.start text) := by
  have hnil : Apart [] text := nofun
  exact .behind rfl hnil

theorem mark (h : WithFeeds text r r') : Mark.WithFeeds text r.mark r'.mark := by
  cases h with
  | behind htext hapart => exact .behind htext hapart

theorem rest (h : WithFeeds text r r') : r.rest = lineFeeds r'.rest := by
  cases h
  rfl

theorem unique {r₁ r₂ : Reader} (h₁ : WithFeeds text r₁ r') (h₂ : WithFeeds text r₂ r') :
    r₁ = r₂ := by
  have hrest : r₁.rest = r₂.rest := h₁.rest.trans h₂.rest.symm
  have hmark : r₁.mark = r₂.mark := h₁.mark.unique h₂.mark
  cases r₁
  cases r₂
  cases hrest
  cases hmark
  rfl

theorem peek (h : WithFeeds text r r') : r.peek = asFeed r'.peek := by
  rw [Reader.peek, Reader.peek, h.rest, headD_lineFeeds]

theorem next (h : WithFeeds text r r') (hpeek : r'.peek ≠ '\r') :
    WithFeeds text r.next r'.next := by
  cases h with
  | @behind read rest htext hapart =>
      cases rest with
      | nil => exact .behind htext hapart
      | cons c rest =>
          have hc : c ≠ '\r' := hpeek
          have hread : Apart read [c] := @Apart.left read [c] rest hapart
          have hrest : Apart (read ++ [c]) rest := by
            intro hlast
            simp only [List.getLast?_concat, Option.some.injEq] at hlast
            exact absurd hlast hc
          have hfeeds : Apart (lineFeeds read) [c] :=
            apart_of_not_return (return_notMem_lineFeeds read)
          simp only [Reader.next, lineFeeds_cons hc]
          rw [Mark.past_behind hread fun heq => absurd heq hc,
            Mark.past_behind hfeeds fun heq => absurd heq hc]
          have happend : lineFeeds read ++ [c] = lineFeeds (read ++ [c]) := by
            rw [lineFeeds_append hread, lineFeeds_cons hc, lineFeeds_nil]
          rw [happend]
          exact .behind (by simp [htext]) hrest

/-- Both places stand at a line break of the same kind, or neither does. -/
theorem lineBreak (h : WithFeeds text r r') :
    (r.lineBreak? = none ∧ r'.lineBreak? = none) ∨
      ∃ c r₁ r₁', r.lineBreak? = some (c, r₁) ∧ r'.lineBreak? = some (c, r₁') ∧
        WithFeeds text r₁ r₁' := by
  by_cases hreturn : r'.peek = '\r'
  · cases h with
    | @behind read rest htext hapart =>
        cases rest with
        | nil => cases hreturn
        | cons c rest =>
            obtain rfl : c = '\r' := hreturn
            have hfeeds : Apart (lineFeeds read) ['\n'] :=
              apart_of_not_return (return_notMem_lineFeeds read)
            by_cases hpair : rest.head? = some '\n'
            · obtain ⟨rest, rfl⟩ := List.head?_eq_some_iff.mp hpair
              have happend : lineFeeds (read ++ ['\r', '\n']) = lineFeeds read ++ ['\n'] :=
                lineFeeds_append (apart_of_not_feed (by simp))
              have hrest : Apart (read ++ ['\r', '\n']) rest := by
                intro hlast
                simp at hlast
              refine Or.inr ⟨'\n', _, _, ?_, lineBreak?_behind_pair read rest,
                .behind (by simp [htext]) hrest⟩
              rw [lineFeeds_pair, lineBreak?_behind_feed hfeeds, happend]
            · have happend : lineFeeds (read ++ ['\r']) = lineFeeds read ++ ['\n'] :=
                lineFeeds_append (apart_of_not_feed (by simp))
              refine Or.inr ⟨'\n', _, _, ?_, lineBreak?_behind_return hpair,
                .behind (by simp [htext]) (apart_of_not_feed hpair)⟩
              rw [lineFeeds_return hpair, lineBreak?_behind_feed hfeeds, happend]
  · have hpeek : r.peek = r'.peek := by rw [h.peek, asFeed, if_neg hreturn]
    have hnext := h.next hreturn
    rw [lineBreak?_of_ne_return hreturn, lineBreak?_of_ne_return (hpeek ▸ hreturn), hpeek]
    split_ifs
    · exact Or.inr ⟨_, _, _, rfl, rfl, hnext⟩
    · exact Or.inr ⟨_, _, _, rfl, rfl, hnext⟩
    · exact Or.inl ⟨rfl, rfl⟩

theorem opening (h : WithFeeds text r r') :
    (r.mark.index == 0 && r.peek == '\ufeff') = (r'.mark.index == 0 && r'.peek == '\ufeff') := by
  have hfirst : (r.mark.index == 0) = (r'.mark.index == 0) := by
    rw [Bool.eq_iff_iff, beq_iff_eq, beq_iff_eq]
    exact h.mark.index_eq_zero
  rw [hfirst, h.peek, asFeed]
  split_ifs with hpeek
  · rw [hpeek]
    rfl
  · rfl

end Reader.WithFeeds

end Playbook
