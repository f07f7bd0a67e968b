import Playbook.Proofs.Pairing
import Playbook.Text.Lines

/-!
The places that an editor counts and those that a reader counts. An editor ends lines at line feeds,
drops the carriage return before one, and counts units of UTF-16; a reader counts characters. In a
text without other line breaks and without byte order marks the two agree: the cursor of an editor
at a place of the text has the line and the column that reading up to there comes to.
-/

namespace Playbook

open Reader

/-! ### Units of UTF-16 -/

/-- How many units of UTF-16 characters take. -/
def units (text : List Char) : Nat := (text.map unitsOf).sum

theorem units_cons (c : Char) (text : List Char) : units (c :: text) = unitsOf c + units text := rfl

theorem unitsOf_pos (c : Char) : 0 < unitsOf c := by
  unfold unitsOf
  split_ifs <;> decide

/-- The least column with at least `u` units before it, or the end of the line if there is none. -/
def Fills (line : List Char) (u column : Nat) : Prop :=
  u ≤ units (line.take column) ∧ (∀ k, u ≤ units (line.take k) → column ≤ k) ∨
    units line < u ∧ column = line.length

theorem charsFilling_fills (line : List Char) (u : Nat) : Fills line u (charsFilling line u) := by
  fun_induction charsFilling line u with
  | case1 line => exact Or.inl ⟨Nat.zero_le _, fun _ _ => Nat.zero_le _⟩
  | case2 u => exact Or.inr ⟨Nat.succ_pos u, rfl⟩
  | case3 c line u ih =>
      rcases ih with ⟨hfills, hleast⟩ | ⟨hshort, hlength⟩
      · refine Or.inl ⟨?_, fun k hk => ?_⟩
        · rw [List.take_succ_cons, units_cons]
          omega
        · cases k with
          | zero => simp [units] at hk
          | succ k =>
              rw [List.take_succ_cons, units_cons] at hk
              exact Nat.succ_le_succ (hleast k (by omega))
      · refine Or.inr ⟨?_, ?_⟩
        · rw [units_cons]
          omega
        · rw [hlength, List.length_cons]

theorem charsFilling_units (before behind : List Char) :
    charsFilling (before ++ behind) (units before) = before.length := by
  induction before with
  | nil =>
      rw [List.nil_append]
      unfold charsFilling
      rfl
  | cons c before ih =>
      have hpos := unitsOf_pos c
      obtain ⟨u, hu⟩ : ∃ u, units (c :: before) = u + 1 :=
        Nat.exists_eq_succ_of_ne_zero (by rw [units_cons]; omega)
      have hleft : u + 1 - unitsOf c = units before := by
        rw [← hu, units_cons]
        omega
      rw [hu, List.cons_append, charsFilling, hleft, ih, List.length_cons]

/-! ### Lines -/

theorem splitAtChar_ne_nil (sep : Char) (text : List Char) : splitAtChar sep text ≠ [] := by
  unfold splitAtChar
  split
  · simp
  · split
    · simp
    · split_ifs <;> simp

theorem splitAtChar_of_not_mem {sep : Char} {line : List Char} (h : sep ∉ line) :
    splitAtChar sep line = [line] := by
  induction line with
  | nil => rfl
  | cons c line ih =>
      rw [List.mem_cons, not_or] at h
      have hc : (c == sep) = false := by simpa using Ne.symm h.1
      simp [splitAtChar, ih h.2, hc]

theorem splitAtChar_append {sep : Char} {line : List Char} (h : sep ∉ line) (rest : List Char) :
    splitAtChar sep (line ++ sep :: rest) = line :: splitAtChar sep rest := by
  induction line with
  | nil =>
      rw [List.nil_append, splitAtChar]
      cases hrest : splitAtChar sep rest with
      | nil => exact absurd hrest (splitAtChar_ne_nil sep rest)
      | cons piece pieces => simp
  | cons c line ih =>
      rw [List.mem_cons, not_or] at h
      have hc : (c == sep) = false := by simpa using Ne.symm h.1
      simp [splitAtChar, ih h.2, hc]

theorem textLines_of_not_mem {line : List Char} (h : '\n' ∉ line) :
    textLines line = if line = [] then [] else [line] := by
  rw [textLines, splitAtChar_of_not_mem h]
  by_cases hline : line = [] <;> simp [hline, Option.filter_some]

theorem textLines_feed {line : List Char} (h : '\n' ∉ line) (rest : List Char) :
    textLines (line ++ '\n' :: rest) = dropReturn line :: textLines rest := by
  have hne := splitAtChar_ne_nil '\n' rest
  rw [textLines, splitAtChar_append h, textLines, List.dropLast_cons_of_ne_nil hne]
  obtain ⟨piece, pieces, hpieces⟩ := List.exists_cons_of_ne_nil hne
  rw [hpieces, List.getLast?_cons_cons, List.map_cons, List.cons_append]

/-- Lines end with a line feed, alone or behind a carriage return, and there are no other breaks. -/
inductive FeedText : List Char → Prop
  | last {line : List Char} (hline : ∀ c ∈ line, isBreak c = false) : FeedText line
  | ended {line ending rest : List Char} (hline : ∀ c ∈ line, isBreak c = false)
      (hending : ending = ['\n'] ∨ ending = ['\r', '\n']) (hrest : FeedText rest) :
      FeedText (line ++ (ending ++ rest))

section

variable {text line ending rest : List Char}

theorem feed_not_mem (hline : ∀ c ∈ line, isBreak c = false) : '\n' ∉ line := by
  intro hmem
  cases hline _ hmem

theorem getLast?_ne_return (hline : ∀ c ∈ line, isBreak c = false) : line.getLast? ≠ some '\r' := by
  intro hlast
  cases hline _ (List.mem_of_getLast? hlast)

theorem textLines_ended (hline : ∀ c ∈ line, isBreak c = false)
    (hending : ending = ['\n'] ∨ ending = ['\r', '\n']) :
    textLines (line ++ (ending ++ rest)) = line :: textLines rest := by
  rcases hending with rfl | rfl
  · have hdrop : dropReturn line = line := if_neg (by simpa using getLast?_ne_return hline)
    rw [List.singleton_append, textLines_feed (feed_not_mem hline), hdrop]
  · have hdrop : dropReturn (line ++ ['\r']) = line := by simp [dropReturn]
    have hfeed : '\n' ∉ line ++ ['\r'] := by simpa using feed_not_mem hline
    have hsplit : line ++ (['\r', '\n'] ++ rest) = (line ++ ['\r']) ++ '\n' :: rest := by simp
    rw [hsplit, textLines_feed hfeed, hdrop]

/-- Every line break of the text is a line feed, or a carriage return before one. -/
def FeedBreaks (text : List Char) : Prop :=
  ∀ (i : Nat) (c : Char), text[i]? = some c → isBreak c = true →
    c = '\n' ∨ c = '\r' ∧ text[i + 1]? = some '\n'

theorem FeedBreaks.behind (line : List Char) (h : FeedBreaks (line ++ rest)) : FeedBreaks rest := by
  intro i c hc hbreak
  have hindex : ∀ k, (line ++ rest)[line.length + k]? = rest[k]? := by
    intro k
    rw [List.getElem?_append_right (Nat.le_add_right _ _), Nat.add_sub_cancel_left]
  rcases h (line.length + i) c (by rw [hindex, hc]) hbreak with hfeed | ⟨hreturn, hfeed⟩
  · exact Or.inl hfeed
  · exact Or.inr ⟨hreturn, by rw [← hindex, ← Nat.add_assoc, hfeed]⟩

theorem FeedBreaks.feedText (h : FeedBreaks text) : FeedText text := by
  -- The line up to the first break, and the rest by induction on the length.
  induction hn : text.length using Nat.strong_induction_on generalizing text with
  | h n ih =>
      have hsplit : text.takeWhile (fun c => !isBreak c) ++ text.dropWhile (fun c => !isBreak c) =
          text := List.takeWhile_append_dropWhile
      have hline : ∀ c ∈ text.takeWhile (fun c => !isBreak c), isBreak c = false := by
        intro c hc
        simpa using List.mem_takeWhile_imp hc
      generalize text.takeWhile (fun c => !isBreak c) = line at hsplit hline
      cases hdrop : text.dropWhile (fun c => !isBreak c) with
      | nil =>
          rw [hdrop, List.append_nil] at hsplit
          exact hsplit ▸ .last hline
      | cons c rest =>
          have hbreak : isBreak c = true := by
            have hhead := List.head_dropWhile_not (fun c => !isBreak c) (l := text)
              (by simp [hdrop])
            simpa [hdrop] using hhead
          rw [hdrop] at hsplit
          subst hsplit
          have hrest := h.behind line
          have hc := hrest 0 c rfl hbreak
          rcases hc with rfl | ⟨rfl, hfeed⟩
          · have hlater : FeedBreaks rest := FeedBreaks.behind ['\n'] hrest
            exact .ended hline (Or.inl rfl) (ih rest.length (by simp [← hn]; omega) hlater rfl)
          · obtain ⟨rest, rfl⟩ : ∃ rest', rest = '\n' :: rest' := by
              cases rest with
              | nil => simp at hfeed
              | cons d rest => exact ⟨rest, by simpa using hfeed⟩
            have hlater : FeedBreaks rest := FeedBreaks.behind ['\r', '\n'] hrest
            exact .ended hline (Or.inr rfl) (ih rest.length (by simp [← hn]; omega) hlater rfl)

/-! ### Places -/

/-- The mark that reading comes to before the character number `i`. -/
def markAt (text : List Char) (i : Nat) : Mark := ((start text).advance i).mark

/-- What stands on the line of the character number `i` before it. -/
def lineBefore (text : List Char) (i : Nat) : List Char :=
  (text.take i).rtakeWhile fun c => !isBreak c

/-- The rest of that line. -/
def lineBehind (text : List Char) (i : Nat) : List Char :=
  (text.drop i).takeWhile fun c => !isBreak c

theorem advance_line (rest : List Char) (hline : ∀ c ∈ line, isBreak c = false)
    (hbom : '\ufeff' ∉ line) (m : Mark) :
    (⟨line ++ rest, m⟩ : Reader).advance line.length =
      ⟨rest, ⟨m.index + line.length, m.line, m.column + line.length⟩⟩ := by
  induction line generalizing m with
  | nil => rfl
  | cons c line ih =>
      obtain ⟨hc, hline⟩ := List.forall_mem_cons.mp hline
      rw [List.mem_cons, not_or] at hbom
      have hends : endsLine c (line ++ rest) = false := by
        simp only [isBreak, Bool.or_eq_false_iff] at hc
        simp [endsLine, hc]
      have hpast : m.past c (line ++ rest) = ⟨m.index + 1, m.line, m.column + 1⟩ := by
        simp [Mark.past, hends, Ne.symm hbom.1]
      have hnext : (⟨c :: (line ++ rest), m⟩ : Reader).next =
          ⟨line ++ rest, ⟨m.index + 1, m.line, m.column + 1⟩⟩ := by rw [← hpast]; rfl
      rw [List.cons_append, List.length_cons, advance, hnext, ih hline hbom.2]
      simp only [Nat.add_assoc, Nat.add_comm 1]

theorem markAt_line (rest : List Char) (hline : ∀ c ∈ line, isBreak c = false)
    (hbom : '\ufeff' ∉ line) {i : Nat} (hi : i ≤ line.length) :
    markAt (line ++ rest) i = ⟨i, 0, i⟩ := by
  have hread := advance_line (line.drop i ++ rest)
    (fun c hc => hline c (List.mem_of_mem_take (i := i) hc))
    (fun hmem => hbom (List.mem_of_mem_take hmem)) .origin
  rw [← List.append_assoc, List.take_append_drop, List.length_take_of_le hi] at hread
  rw [markAt, start, hread]
  simp [Mark.origin]

theorem markAt_ended (hline : ∀ c ∈ line, isBreak c = false) (hbom : '\ufeff' ∉ line)
    (hending : ending = ['\n'] ∨ ending = ['\r', '\n']) (j : Nat) :
    markAt (line ++ (ending ++ rest)) (line.length + ending.length + j) =
      (markAt rest j).shifted (line.length + ending.length) 1 := by
  have hread : (start (line ++ (ending ++ rest))).advance (line.length + ending.length) =
      (start rest).shifted (line.length + ending.length) 1 := by
    rw [advance_add, start, advance_line _ hline hbom]
    rcases hending with rfl | rfl
    · simp [advance, next, Mark.past, endsLine, start, shifted, Mark.shifted, Mark.origin]
    · simp [advance, next, Mark.past, endsLine, start, shifted, Mark.shifted, Mark.origin]
  rw [markAt, advance_add, hread, advance_shifted]
  rfl

theorem rtakeWhile_feed (before behind : List Char) :
    (before ++ '\n' :: behind).rtakeWhile (fun c => !isBreak c) =
      behind.rtakeWhile fun c => !isBreak c := by
  induction behind using List.reverseRecOn with
  | nil => exact List.rtakeWhile_concat _ _ _
  | append_singleton behind c ih =>
      rw [← List.cons_append, ← List.append_assoc, List.rtakeWhile_concat, List.rtakeWhile_concat,
        ih]

theorem lineBefore_line (rest : List Char) (hline : ∀ c ∈ line, isBreak c = false) {i : Nat}
    (hi : i ≤ line.length) : lineBefore (line ++ rest) i = line.take i := by
  rw [lineBefore, List.take_append_of_le_length hi, List.rtakeWhile_eq_self_iff]
  intro c hc
  simp [hline c (List.mem_of_mem_take hc)]

theorem lineBehind_line (hline : ∀ c ∈ line, isBreak c = false)
    (hrest : rest.head?.all isBreak = true) {i : Nat} (hi : i ≤ line.length) :
    lineBehind (line ++ rest) i = line.drop i := by
  have hdrop : ∀ c ∈ line.drop i, (!isBreak c) = true := fun c hc => by
    simp [hline c (List.mem_of_mem_drop hc)]
  rw [lineBehind, List.drop_append_of_le_length hi, List.takeWhile_append_of_pos hdrop]
  cases rest with
  | nil => simp
  | cons c rest =>
      have hc : isBreak c = true := hrest
      simp [hc]

theorem lineBefore_ended (hending : ending = ['\n'] ∨ ending = ['\r', '\n']) (j : Nat) :
    lineBefore (line ++ (ending ++ rest)) (line.length + ending.length + j) =
      lineBefore rest j := by
  have htake : (line ++ (ending ++ rest)).take (line.length + ending.length + j) =
      line ++ (ending ++ rest.take j) := by
    rw [Nat.add_assoc, List.take_length_add_append, List.take_length_add_append]
  rw [lineBefore, htake, lineBefore]
  rcases hending with rfl | rfl
  · exact rtakeWhile_feed line _
  · have hfeed := rtakeWhile_feed (line ++ ['\r']) (rest.take j)
    rwa [List.append_assoc] at hfeed

theorem lineBehind_ended (j : Nat) :
    lineBehind (line ++ (ending ++ rest)) (line.length + ending.length + j) =
      lineBehind rest j := by
  rw [lineBehind, Nat.add_assoc, List.drop_length_add_append, List.drop_length_add_append]
  rfl

theorem apart_ended {j : Nat}
    (h : Apart ((line ++ (ending ++ rest)).take (line.length + ending.length + j))
      ((line ++ (ending ++ rest)).drop (line.length + ending.length + j))) :
    Apart (rest.take j) (rest.drop j) := by
  intro hlast
  rw [Nat.add_assoc, List.take_length_add_append, List.take_length_add_append,
    List.drop_length_add_append, List.drop_length_add_append] at h
  refine h ?_
  rw [List.getLast?_append, List.getLast?_append, hlast]
  rfl

/-- Every place of the text has as many characters before it on its line as the reader counts
columns, and the editor has the same line, unless nothing stands there at all. -/
theorem FeedText.place (h : FeedText text) (hbom : '\ufeff' ∉ text) {i : Nat}
    (hi : i ≤ text.length) (hapart : Apart (text.take i) (text.drop i)) :
    (lineBefore text i).length = (markAt text i).column ∧
      ((textLines text)[(markAt text i).line]? = some (lineBefore text i ++ lineBehind text i) ∨
        i = text.length ∧ lineBefore text i = [] ∧
          (textLines text)[(markAt text i).line]? = none) := by
  induction h generalizing i with
  | @last line hline =>
      have hmark := markAt_line [] hline hbom hi
      have hbefore := lineBefore_line [] hline hi
      have hbehind : lineBehind (line ++ []) i = line.drop i := lineBehind_line hline rfl hi
      rw [List.append_nil] at hmark hbefore hbehind
      rw [hmark, hbefore, hbehind, List.take_append_drop, textLines_of_not_mem (feed_not_mem hline)]
      refine ⟨List.length_take_of_le hi, ?_⟩
      by_cases hempty : line = []
      · subst hempty
        exact Or.inr ⟨Nat.le_zero.mp hi, List.take_nil, rfl⟩
      · exact Or.inl (by rw [if_neg hempty]; rfl)
  | @ended line ending rest hline hending hrest ih =>
      have hbomLine : '\ufeff' ∉ line := fun hmem => hbom (List.mem_append_left _ hmem)
      have hbomRest : '\ufeff' ∉ rest := fun hmem =>
        hbom (List.mem_append_right _ (List.mem_append_right _ hmem))
      rw [textLines_ended hline hending]
      by_cases hfirst : i ≤ line.length
      · have hhead : (ending ++ rest).head?.all isBreak = true := by
          rcases hending with rfl | rfl <;> rfl
        rw [markAt_line _ hline hbomLine hfirst, lineBefore_line _ hline hfirst,
          lineBehind_line hline hhead hfirst, List.take_append_drop]
        exact ⟨List.length_take_of_le hfirst, Or.inl rfl⟩
      · have hending_le : line.length + ending.length ≤ i := by
          rcases hending with rfl | rfl
          · exact Nat.lt_of_not_le hfirst
          · -- The place between the carriage return and the line feed is left out.
            by_contra hlt
            have hbetween : i = line.length + 1 := by simp at hlt; omega
            subst hbetween
            rw [List.take_length_add_append, List.drop_length_add_append] at hapart
            exact hapart (by simp) rfl
        obtain ⟨j, rfl⟩ := Nat.exists_eq_add_of_le hending_le
        have hj : j ≤ rest.length := by
          simp only [List.length_append] at hi
          omega
        obtain ⟨hcolumn, hplace⟩ := ih hbomRest hj (apart_ended hapart)
        rw [markAt_ended hline hbomLine hending, lineBefore_ended hending, lineBehind_ended]
        refine ⟨hcolumn, hplace.imp id fun ⟨hend, hnone⟩ => ⟨?_, hnone⟩⟩
        rw [hend, List.length_append, List.length_append, Nat.add_assoc]

/-! ### The end of the text -/

/-- The index at which the last line ends, before its line break if it has one. -/
def contentEnd (text : List Char) : Nat :=
  match text.reverse with
  | '\n' :: '\r' :: before => before.length
  | '\n' :: before => before.length
  | before => before.length

theorem contentEnd_of_not_mem (h : '\n' ∉ line) : contentEnd line = line.length := by
  have hmem : '\n' ∉ line.reverse := by simpa using h
  rw [← List.length_reverse, contentEnd]
  generalize line.reverse = before at hmem
  split
  · exact absurd List.mem_cons_self hmem
  · exact absurd List.mem_cons_self hmem
  · rfl

/-- Only the last two characters matter for where the last line ends. -/
theorem contentEnd_append {before : List Char} (hbefore : before.getLast? ≠ some '\r')
    (hrest : rest ≠ []) : contentEnd (before ++ rest) = before.length + contentEnd rest := by
  have hhead : before.reverse.head? ≠ some '\r' := by rwa [List.head?_reverse]
  have hne : rest.reverse ≠ [] := by simpa using hrest
  rw [contentEnd, contentEnd, List.reverse_append, ← @List.length_reverse _ before]
  generalize before.reverse = before at hhead
  generalize rest.reverse = rest at hne
  obtain ⟨c, rest, rfl⟩ := List.exists_cons_of_ne_nil hne
  by_cases hc : c = '\n'
  · subst hc
    cases rest with
    | nil =>
        rw [List.cons_append, List.nil_append]
        split
        · rename_i hcons
          rw [List.cons_eq_cons] at hcons
          rw [hcons.2] at hhead
          exact absurd rfl hhead
        · rename_i hcons
          rw [List.cons_eq_cons] at hcons
          rw [hcons.2]
          rfl
        · rename_i hfeed
          exact absurd rfl (hfeed before)
    | cons d rest =>
        by_cases hd : d = '\r'
        · subst hd
          simp [Nat.add_comm]
        · simp [hd, Nat.add_comm, Nat.add_assoc]
  · simp [hc, Nat.add_comm, Nat.add_assoc]

theorem contentEnd_ending (hline : ∀ c ∈ line, isBreak c = false)
    (hending : ending = ['\n'] ∨ ending = ['\r', '\n']) :
    contentEnd (line ++ ending) = line.length := by
  have hreturn := getLast?_ne_return hline
  rcases hending with rfl | rfl
  · exact contentEnd_append hreturn (List.cons_ne_nil _ _)
  · exact contentEnd_append hreturn (List.cons_ne_nil _ _)

theorem textLines_eq_nil_iff (h : FeedText text) : textLines text = [] ↔ text = [] := by
  cases h with
  | last hline =>
      rw [textLines_of_not_mem (feed_not_mem hline)]
      split_ifs with hempty <;> simp [hempty]
  | ended hline hending hrest =>
      rw [textLines_ended hline hending]
      rcases hending with rfl | rfl <;> simp

theorem endOf_of_textLines (before : List (List Char)) (h : textLines text = before ++ [line]) :
    Cursor.endOf text = ⟨before.length, line.length⟩ := by
  simp [Cursor.endOf, h]

/-- The end of the last line is where reading up to there comes to. -/
theorem FeedText.endOf (h : FeedText text) (hbom : '\ufeff' ∉ text) :
    Cursor.endOf text = (markAt text (contentEnd text)).cursor := by
  induction h with
  | @last line hline =>
      have hmark := markAt_line [] hline hbom (Nat.le_refl line.length)
      rw [List.append_nil] at hmark
      rw [contentEnd_of_not_mem (feed_not_mem hline), hmark]
      have hlines := textLines_of_not_mem (feed_not_mem hline)
      split_ifs at hlines with hempty
      · subst hempty
        rfl
      · exact endOf_of_textLines [] hlines
  | @ended line ending rest hline hending hrest ih =>
      have hbomLine : '\ufeff' ∉ line := fun hmem => hbom (List.mem_append_left _ hmem)
      have hlines : textLines (line ++ (ending ++ rest)) = line :: textLines rest :=
        textLines_ended hline hending
      by_cases hempty : rest = []
      · subst hempty
        have hmark := markAt_line ending hline hbomLine (Nat.le_refl line.length)
        rw [List.append_nil] at hlines ⊢
        rw [contentEnd_ending hline hending, hmark]
        exact endOf_of_textLines [] hlines
      · have hbomRest : '\ufeff' ∉ rest := fun hmem =>
          hbom (List.mem_append_right _ (List.mem_append_right _ hmem))
        have hfeed : (line ++ ending).getLast? ≠ some '\r' := by
          rcases hending with rfl | rfl <;> simp
        rw [← List.append_assoc, contentEnd_append hfeed hempty, List.length_append,
          List.append_assoc, markAt_ended hline hbomLine hending]
        have hne : textLines rest ≠ [] := fun h => hempty ((textLines_eq_nil_iff hrest).mp h)
        obtain ⟨before, last, hlast⟩ := (List.eq_nil_or_concat (textLines rest)).resolve_left hne
        rw [List.concat_eq_append] at hlast
        have hrest := ih hbomRest
        rw [endOf_of_textLines _ hlast] at hrest
        rw [endOf_of_textLines (line :: before) (by rw [hlines, hlast]; rfl)]
        simp only [Mark.cursor, Cursor.mk.injEq] at hrest
        simp [Mark.cursor, Mark.shifted, hrest]

end

/-! ### Both counts agree -/

/-- In a text whose lines end with line feeds, alone or behind carriage returns, and without byte
order marks: the units before a place on its line lead the editor to the line and the column that
the reader has there, and what stands around a character up to the line breaks is the editor's line.
On each of its lines whatever number of units leads the editor to the least column with as many
before it, or to the end of the line. The default cursor is where reading comes to before the last
line break. -/
theorem Cursor.ofUnits_agrees {text : List Char} (hbreaks : FeedBreaks text)
    (hbom : '\ufeff' ∉ text) :
    (∀ i ≤ text.length, Apart (text.take i) (text.drop i) →
      (lineBefore text i).length = (markAt text i).column ∧
        ofUnits text (markAt text i).line (units (lineBefore text i)) = (markAt text i).cursor) ∧
    (∀ i < text.length, Apart (text.take i) (text.drop i) →
      (textLines text)[(markAt text i).line]? = some (lineBefore text i ++ lineBehind text i)) ∧
    (∀ l line, (textLines text)[l]? = some line →
      ∀ u, ∃ column, ofUnits text l u = ⟨l, column⟩ ∧ Fills line u column) ∧
    endOf text = (markAt text (contentEnd text)).cursor ∧ endOf [] = ⟨0, 0⟩ := by
  have htext := hbreaks.feedText
  refine ⟨fun i hi hapart => ?_, fun i hi hapart => ?_, fun l line hline u => ?_,
    htext.endOf hbom, rfl⟩
  · obtain ⟨hcolumn, hplace⟩ := htext.place hbom hi hapart
    refine ⟨hcolumn, ?_⟩
    rcases hplace with hline | ⟨-, hempty, hnone⟩
    · rw [ofUnits, hline]
      dsimp only
      rw [charsFilling_units, hcolumn]
      rfl
    · rw [ofUnits, hnone, Mark.cursor, ← hcolumn, hempty]
      rfl
  · obtain ⟨-, hline | ⟨hend, -⟩⟩ := htext.place hbom hi.le hapart
    · exact hline
    · exact absurd hend hi.ne
  · exact ⟨charsFilling line u, by rw [ofUnits, hline], charsFilling_fills line u⟩

/-- Behind a character of two units and a carriage return with its line feed. -/
theorem Cursor.ofUnits_agrees_astral :
    markAt "a😀\r\nb".toList 5 = ⟨5, 1, 1⟩ ∧
      ofUnits "a😀\r\nb".toList 1 (units (lineBefore "a😀\r\nb".toList 5)) = ⟨1, 1⟩ ∧
      ofUnits "a😀\r\nb".toList 0 (units (lineBefore "a😀\r\nb".toList 2)) = ⟨0, 2⟩ ∧
      units (lineBefore "a😀\r\nb".toList 2) = 3 ∧ endOf "a😀\r\nb".toList = ⟨1, 1⟩ := by
  have hbreaks : FeedBreaks "a😀\r\nb".toList := by
    intro i c hc hbreak
    rcases i with _ | _ | _ | _ | _ | i
    all_goals simp at hc
    all_goals subst hc
    all_goals first | exact Or.inl rfl | exact Or.inr ⟨rfl, rfl⟩ | cases hbreak
  obtain ⟨hplaces, -, -, hend, -⟩ := Cursor.ofUnits_agrees hbreaks (by decide)
  have hlast := (hplaces 5 (by decide) (by unfold Apart; decide)).2
  have hastral := (hplaces 2 (by decide) (by unfold Apart; decide)).2
  exact ⟨by decide, hlast, hastral, by decide, hend⟩

end Playbook
