import Playbook.Proofs.OpenQuote
import Playbook.Proofs.RepairPlaces

/-!
What a repair does to the lines of a text. The character that it puts in ends no line, so the lines
stay as they are, unless it comes between a carriage return and its line feed: then there are two
line breaks where one was. A missing colon never comes there. A quote does if the text ends with
such a pair, and the colon of a bare item does if the line of the item ends with one, as both are
put before a line feed.
-/

namespace Playbook

open Reader

/-! ### The lines of a text -/

/-- The line of the character number `i`. -/
def lineAt (text : List Char) (i : Nat) : Nat := ((start text).advance i).mark.line

theorem lineAt_mono {text : List Char} {i j : Nat} (h : i ≤ j) : lineAt text i ≤ lineAt text j := by
  obtain ⟨n, rfl⟩ := Nat.exists_eq_add_of_le h
  rw [lineAt, lineAt, advance_add]
  exact (Leads.advance _ n).line_le

/-- How many lines end in `read` if `rest` stands behind it. -/
def lineEnds : List Char → List Char → Nat
  | [], _ => 0
  | c :: read, rest => (if endsLine c (read ++ rest) then 1 else 0) + lineEnds read rest

theorem lineAt_append (read rest : List Char) :
    lineAt (read ++ rest) read.length = lineEnds read rest := by
  have hline : ∀ m : Mark, ((⟨read ++ rest, m⟩ : Reader).advance read.length).mark.line =
      m.line + lineEnds read rest := by
    induction read with
    | nil => exact fun _ => rfl
    | cons c read ih =>
        intro m
        have hpast : (m.past c (read ++ rest)).line =
            m.line + if endsLine c (read ++ rest) then 1 else 0 := by
          unfold Mark.past
          split_ifs <;> rfl
        change
          ((⟨read ++ rest, m.past c (read ++ rest)⟩ : Reader).advance read.length).mark.line = _
        rw [ih, hpast, lineEnds, Nat.add_assoc]
  simpa [lineAt, start, Mark.origin] using hline .origin

theorem lineEnds_append (read stretch rest : List Char) :
    lineEnds (read ++ stretch) rest = lineEnds read (stretch ++ rest) + lineEnds stretch rest := by
  induction read with
  | nil => simp [lineEnds]
  | cons c read ih => simp [lineEnds, ih, Nat.add_assoc]

theorem endsLine_congr (c : Char) {rest rest' : List Char} (h : rest.head? = rest'.head?) :
    endsLine c rest = endsLine c rest' := by
  simp [endsLine, h]

/-- Of what stands behind, the first character matters. -/
theorem lineEnds_congr (read : List Char) {rest rest' : List Char}
    (h : rest.head? = rest'.head?) : lineEnds read rest = lineEnds read rest' := by
  induction read with
  | nil => rfl
  | cons c read ih =>
      have hhead : (read ++ rest).head? = (read ++ rest').head? := by
        rw [List.head?_append, List.head?_append, h]
      rw [lineEnds, lineEnds, ih, endsLine_congr c hhead]

/-- A character put in between ends one more line exactly if it parts a carriage return from its
line feed. -/
theorem lineEnds_cons_iff {read rest : List Char} {c : Char} (hc : c ≠ '\n') :
    lineEnds read (c :: rest) = lineEnds read rest ↔ Apart read rest := by
  rcases List.eq_nil_or_concat read with rfl | ⟨read, last, rfl⟩
  · simp [lineEnds, Apart]
  · have hsame : lineEnds read (last :: c :: rest) = lineEnds read (last :: rest) :=
      lineEnds_congr read rfl
    rw [List.concat_eq_append, lineEnds_append, lineEnds_append]
    by_cases hlast : last = '\r'
    · subst hlast
      by_cases hfeed : rest.head? = some '\n' <;>
        simp [hsame, lineEnds, endsLine, Apart, hfeed, hc]
    · simp [hsame, lineEnds, endsLine, Apart, hlast]

theorem lineEnds_eq_behind {read rest : List Char} (h : Apart read rest) :
    lineEnds read rest = (Mark.behind read).line := by
  change _ = (lineFeeds read).countP isBreak
  induction read with
  | nil => rfl
  | cons c read ih =>
      have hread : Apart read rest := by
        intro hlast
        apply h
        rw [List.getLast?_cons, hlast]
        rfl
      rw [lineEnds, ih hread]
      by_cases hc : c = '\r'
      · subst hc
        by_cases hfeed : read.head? = some '\n'
        · have hends : endsLine '\r' (read ++ rest) = false := by
            simp [endsLine, List.head?_append, hfeed]
          simp [lineFeeds, hfeed, hends]
        · have hhead : (read ++ rest).head? ≠ some '\n' := by
            rcases read with _ | ⟨d, read⟩
            · exact h rfl
            · exact hfeed
          have hends : endsLine '\r' (read ++ rest) = true := by
            generalize read ++ rest = ahead at hhead
            simp [endsLine, hhead]
          rw [lineFeeds_return hfeed, List.countP_cons, hends, Nat.add_comm]
          rfl
      · have hends : endsLine c (read ++ rest) = isBreak c := by
          have hreturn : (c == '\r') = false := by simpa using hc
          simp [endsLine, isBreak, hreturn]
        rw [lineFeeds_cons hc, List.countP_cons, hends, Nat.add_comm]

theorem lineAt_eq_lineEnds {text : List Char} {i : Nat} (h : i ≤ text.length) :
    lineAt text i = lineEnds (text.take i) (text.drop i) := by
  have hline := lineAt_append (text.take i) (text.drop i)
  rwa [List.take_append_drop, List.length_take_of_le h] at hline

theorem Mark.StandsIn.lineAt_index {text : List Char} {m : Mark} (h : m.StandsIn text) :
    lineAt text m.index = m.line := by
  rw [lineAt_eq_lineEnds h.index_le, lineEnds_eq_behind h.apart, ← h.eq_behind]

/-! ### Counting line feeds -/

section Feeds

variable {text : List Char}

/-- The line feed with `n` others before it stands at `i`. -/
def FeedAt (text : List Char) (n i : Nat) : Prop :=
  text[i]? = some '\n' ∧ (text.take i).count '\n' = n

theorem FeedAt.unique {n i j : Nat} (hi : FeedAt text n i) (hj : FeedAt text n j) : i = j := by
  have hlt : ∀ {i j}, FeedAt text n i → FeedAt text n j → ¬ i < j := by
    intro i j hi hj hlt
    obtain ⟨hlength, hfeed⟩ := List.getElem?_eq_some_iff.mp hi.1
    have hsucc : (text.take (i + 1)).count '\n' = n + 1 := by
      rw [List.take_succ_eq_append_getElem hlength, List.count_append, hi.2, hfeed]
      rfl
    have hle := ((List.take_sublist_take_left (l := text) hlt).count_le '\n')
    rw [hsucc, hj.2] at hle
    omega
  have hleft := hlt hi hj
  have hright := hlt hj hi
  omega

theorem exists_feedAt {n k : Nat} (h : n < (text.take k).count '\n') :
    ∃ i < k, FeedAt text n i := by
  induction text generalizing n k with
  | nil => simp at h
  | cons c rest ih =>
      cases k with
      | zero => simp at h
      | succ k =>
          rw [List.take_succ_cons, List.count_cons] at h
          by_cases hc : c = '\n'
          · subst hc
            cases n with
            | zero => exact ⟨0, Nat.succ_pos k, rfl, rfl⟩
            | succ n =>
                obtain ⟨i, hi, hfeed, hcount⟩ := ih (n := n) (k := k) (by simpa using h)
                exact ⟨i + 1, Nat.succ_lt_succ hi, hfeed, by simp [hcount]⟩
          · obtain ⟨i, hi, hfeed, hcount⟩ := ih (n := n) (k := k) (by simpa [hc] using h)
            exact ⟨i + 1, Nat.succ_lt_succ hi, hfeed, by simp [hcount, hc]⟩

/-- The line break that ends a line begins at `i`. -/
def BreakAt (text : List Char) (line i : Nat) : Prop :=
  lineAt text i = line ∧ (∃ c, text[i]? = some c ∧ isBreak c = true) ∧
    Apart (text.take i) (text.drop i)

/-! Texts whose lines end with line feeds alone. -/

variable (hfeeds : ∀ c ∈ text, isBreak c = true → c = '\n')

include hfeeds

theorem return_notMem : '\r' ∉ text := by
  intro hmem
  cases hfeeds _ hmem rfl

theorem lineAt_eq_count {i : Nat} (h : i ≤ text.length) :
    lineAt text i = (text.take i).count '\n' := by
  have hreturn : '\r' ∉ text.take i := fun hmem =>
    return_notMem hfeeds (List.mem_of_mem_take hmem)
  have hbreaks : (text.take i).countP isBreak = (text.take i).countP (· == '\n') := by
    apply List.countP_congr
    intro c hc
    constructor
    · intro hbreak
      simpa using hfeeds c (List.mem_of_mem_take hc) hbreak
    · intro hfeed
      rw [beq_iff_eq.mp hfeed]
      rfl
  rw [lineAt_eq_lineEnds h, lineEnds_eq_behind (apart_of_not_return hreturn), Mark.behind,
    lineFeeds_eq_self hreturn]
  exact hbreaks

/-- Every line but the last ends with a line feed. -/
theorem exists_breakAt {problem line : Nat} (h : problem ≤ text.length)
    (hline : lineAt text problem = line) (hpos : 0 < line) :
    ∃ i, BreakAt text (line - 1) i ∧ FeedAt text (line - 1) i := by
  rw [lineAt_eq_count hfeeds h] at hline
  have hlt : line - 1 < (text.take problem).count '\n' := by omega
  obtain ⟨i, hi, hfeed⟩ := exists_feedAt hlt
  refine ⟨i, ⟨?_, ⟨_, hfeed.1, rfl⟩, ?_⟩, hfeed⟩
  · rw [lineAt_eq_count hfeeds (hi.le.trans h), hfeed.2]
  · exact apart_of_not_return fun hmem => return_notMem hfeeds (List.mem_of_mem_take hmem)

end Feeds

/-! ### Putting in one character -/

namespace Patch

variable {patch : Patch} {text : List Char}

/-- Where the character number `i` stands after the repair. -/
def moved (patch : Patch) (i : Nat) : Nat := if i < patch.index then i else i + 1

/-- Every character of the text is on the line that it was on before the repair. -/
def KeepsLines (patch : Patch) (text : List Char) : Prop :=
  ∀ i < text.length, (patch.apply text)[patch.moved i]? = text[i]? ∧
    lineAt (patch.apply text) (patch.moved i) = lineAt text i

theorem getElem?_moved (hindex : patch.index ≤ text.length) (i : Nat) :
    (patch.apply text)[patch.moved i]? = text[i]? := by
  unfold moved
  split_ifs with hi
  · exact getElem?_apply hi hindex
  · have hlength : (text.take patch.index).length = patch.index := by simp [hindex]
    obtain ⟨n, rfl⟩ := Nat.exists_eq_add_of_le (Nat.le_of_not_lt hi)
    rw [apply, List.getElem?_append_right (by omega), hlength,
      show patch.index + n + 1 - patch.index = n + 1 by omega, List.getElem?_cons_succ,
      List.getElem?_drop]

/-- Before the repair, nothing changes. -/
theorem lineAt_apply_of_lt (hindex : patch.index ≤ text.length) {i : Nat} (hi : i < patch.index) :
    lineAt (patch.apply text) i = lineAt text i := by
  have htake : (patch.apply text).take i = text.take i := by
    rw [apply, List.take_append_of_le_length (by simp; omega), List.take_take,
      Nat.min_eq_left hi.le]
  have hhead : ((patch.apply text).drop i).head? = (text.drop i).head? := by
    rw [List.head?_drop, List.head?_drop, getElem?_apply hi hindex]
  have hlength : i ≤ (patch.apply text).length := by
    simp [apply]
    omega
  rw [lineAt_eq_lineEnds hlength, lineAt_eq_lineEnds (hi.le.trans hindex), htake,
    lineEnds_congr _ hhead]

/-- Behind it, the lines stay unless a carriage return is parted from its line feed. -/
theorem lineAt_apply_of_le (hbreak : isBreak patch.insert = false) {i : Nat}
    (hi : patch.index ≤ i) (hlength : i ≤ text.length) :
    lineAt (patch.apply text) (i + 1) = lineAt text i ↔
      Apart (text.take patch.index) (text.drop patch.index) := by
  obtain ⟨n, rfl⟩ := Nat.exists_eq_add_of_le hi
  have hfeed : patch.insert ≠ '\n' := by
    intro hfeed
    rw [hfeed] at hbreak
    cases hbreak
  have hends : ∀ rest, endsLine patch.insert rest = false := by
    simp only [isBreak, Bool.or_eq_false_iff] at hbreak
    simp [endsLine, hbreak]
  generalize hstretch : (text.drop patch.index).take n = stretch
  generalize hrest : text.drop (patch.index + n) = rest
  have hdrop : text.drop patch.index = stretch ++ rest := by
    rw [← hstretch, ← hrest, ← List.drop_drop, List.take_append_drop]
  have htext : text = text.take patch.index ++ stretch ++ rest := by
    rw [List.append_assoc, ← hdrop, List.take_append_drop]
  have happly : patch.apply text = text.take patch.index ++ patch.insert :: stretch ++ rest := by
    rw [apply, hdrop]
    simp
  have hread : (text.take patch.index ++ stretch).length = patch.index + n := by
    rw [← hstretch]
    simp
    omega
  have hread' : (text.take patch.index ++ patch.insert :: stretch).length =
      patch.index + n + 1 := by
    rw [← hread]
    simp
    omega
  have hline : lineAt text (patch.index + n) =
      lineEnds (text.take patch.index) (stretch ++ rest) + lineEnds stretch rest := by
    rw [← lineEnds_append, ← lineAt_append, ← htext, hread]
  have hline' : lineAt (patch.apply text) (patch.index + n + 1) =
      lineEnds (text.take patch.index) (patch.insert :: (stretch ++ rest)) +
        lineEnds stretch rest := by
    rw [happly, ← hread', lineAt_append, lineEnds_append, lineEnds, hends]
    simp
  rw [hline, hline', Nat.add_right_cancel_iff, lineEnds_cons_iff hfeed, hdrop]

theorem keepsLines_iff (hindex : patch.index ≤ text.length)
    (hbreak : isBreak patch.insert = false) :
    patch.KeepsLines text ↔ Apart (text.take patch.index) (text.drop patch.index) := by
  constructor
  · intro h
    by_cases hend : patch.index = text.length
    · apply apart_of_not_feed
      simp [hend]
    · have hlt : patch.index < text.length := Nat.lt_of_le_of_ne hindex hend
      have hline := (h patch.index hlt).2
      rw [moved, if_neg (Nat.lt_irrefl _)] at hline
      exact (lineAt_apply_of_le hbreak (Nat.le_refl _) hindex).mp hline
  · intro hapart i hi
    refine ⟨getElem?_moved hindex i, ?_⟩
    unfold moved
    split_ifs with hlt
    · exact lineAt_apply_of_lt hindex hlt
    · exact (lineAt_apply_of_le hbreak (Nat.le_of_not_lt hlt) hi.le).mpr hapart

/-! ### Where lines start -/

theorem count_lineOffset {n : Nat} (h : lineOffset text n < text.length) :
    (text.take (lineOffset text n)).count '\n' = n := by
  induction text generalizing n with
  | nil => simp at h
  | cons c rest ih =>
      cases n with
      | zero => simp [lineOffset]
      | succ n =>
          rw [lineOffset, List.length_cons, Nat.add_lt_add_iff_right] at h
          rw [lineOffset, List.take_succ_cons, List.count_cons, ih h]
          by_cases hc : c = '\n' <;> simp [hc]

/-- A line does not start between a carriage return and its line feed. -/
theorem apart_lineOffset (text : List Char) (n : Nat) :
    Apart (text.take (lineOffset text n)) (text.drop (lineOffset text n)) := by
  induction text generalizing n with
  | nil => simp [Apart]
  | cons c rest ih =>
      cases n with
      | zero => simp [Apart, lineOffset]
      | succ n =>
          rw [lineOffset, List.take_succ_cons, List.drop_succ_cons]
          intro hlast
          cases rest with
          | nil => simp
          | cons d rest =>
              apply ih
              by_cases hc : c = '\r'
              · subst hc
                rw [← hlast, if_neg (by decide), lineOffset, List.take_succ_cons,
                  List.getLast?_cons_cons]
              · rw [List.getLast?_cons] at hlast
                rcases hread : (List.take _ (d :: rest)).getLast? with _ | last
                · rw [hread] at hlast
                  exact absurd (Option.some.inj hlast) hc
                · rwa [hread] at hlast

/-! ### Where repairs are made -/

section Stretch

variable {first last : Nat} {p : Char → Bool}

theorem take_add_takeWhile :
    text.take (first + (((text.take last).drop first).takeWhile p).length) =
      text.take first ++ ((text.take last).drop first).takeWhile p := by
  have hinitial : ((text.take last).drop first).takeWhile p <+: text.drop first := by
    apply (List.takeWhile_prefix p).trans
    rw [List.drop_take]
    exact List.take_prefix _ _
  rw [List.take_add, ← List.prefix_iff_eq_take.mp hinitial]

/-- What ends a stretch inside of bounds. -/
theorem getElem?_add_takeWhile
    (h : (((text.take last).drop first).takeWhile p).length <
      ((text.take last).drop first).length) :
    ∃ c, text[first + (((text.take last).drop first).takeWhile p).length]? = some c ∧
      p c = false := by
  generalize hwindow : (text.take last).drop first = window at h ⊢
  have hsplit : window.takeWhile p ++ window.dropWhile p = window := List.takeWhile_append_dropWhile
  have hne : window.dropWhile p ≠ [] := by
    intro hnil
    rw [hnil, List.append_nil] at hsplit
    rw [hsplit] at h
    exact Nat.lt_irrefl _ h
  obtain ⟨c, rest, hrest⟩ := List.exists_cons_of_ne_nil hne
  refine ⟨c, ?_, by simpa [hrest] using List.head_dropWhile_not p hne⟩
  have hget :
      (window.takeWhile p ++ window.dropWhile p)[(window.takeWhile p).length]? = some c := by
    rw [List.getElem?_append_right (Nat.le_refl _), hrest, Nat.sub_self, List.getElem?_cons_zero]
  rw [hsplit, ← hwindow, List.getElem?_drop, List.getElem?_take] at hget
  rw [← hwindow]
  split_ifs at hget
  exact hget

end Stretch

/-- The colon of a key is put before white space, or where the problem is. -/
theorem apart_closeKey {context problem : Nat}
    (hcontext : Apart (text.take context) (text.drop context))
    (hproblem : Apart (text.take problem) (text.drop problem)) :
    Apart (text.take (closeKey text context problem).index)
      (text.drop (closeKey text context problem).index) := by
  unfold closeKey
  dsimp only
  split_ifs with hword
  · generalize hstretch : ((text.take problem).drop context).takeWhile _ = word
    have htake : text.take (context + word.length) = text.take context ++ word := by
      rw [← hstretch]
      exact take_add_takeWhile
    rcases List.eq_nil_or_concat word with rfl | ⟨word, c, rfl⟩
    · exact hcontext
    · intro hlast
      rw [htake, List.concat_eq_append, ← List.append_assoc, List.getLast?_concat] at hlast
      have hc : (!isWhiteSpace c) = true :=
        List.mem_takeWhile_imp (p := fun c => !isWhiteSpace c) (by rw [hstretch]; simp)
      rw [Option.some.inj hlast] at hc
      cases hc
  · exact hproblem

/-- The colon of a bare item is put before the line feed that ends its line, or else where the
problem is or where the line starts. -/
theorem closeItem_cases (line : Nat) {problem : Nat} (hlength : problem ≤ text.length) :
    (closeItem text line problem).index = max problem (lineOffset text (line - 1)) ∧
        (∀ i < problem, ¬ FeedAt text (line - 1) i) ∨
      FeedAt text (line - 1) (closeItem text line problem).index ∧
        (closeItem text line problem).index < problem := by
  generalize hfirst : lineOffset text (line - 1) = first
  generalize hlast : max problem first = last
  have hle : last ≤ text.length := by
    rw [← hlast, ← hfirst]
    exact Nat.max_le.mpr ⟨hlength, lineOffset_le_length text _⟩
  have hwindow : ((text.take last).drop first).length = last - first := by simp [hle]
  generalize hitem : ((text.take last).drop first).takeWhile (· != '\n') = item
  have hindex : (closeItem text line problem).index = first + item.length := by
    rw [closeItem, ← hitem, ← hlast, ← hfirst]
  have hfeeds : '\n' ∉ item := by
    intro hmem
    rw [← hitem] at hmem
    cases List.mem_takeWhile_imp hmem
  rw [hindex]
  -- The search stops at a line feed in the window, or comes to the end of it.
  by_cases hstop : item.length < last - first
  · right
    obtain ⟨c, hc, hfeed⟩ : ∃ c, text[first + item.length]? = some c ∧ (c != '\n') = false := by
      rw [← hwindow, ← hitem] at hstop
      rw [← hitem]
      exact getElem?_add_takeWhile hstop
    have hcount : (text.take (first + item.length)).count '\n' = line - 1 := by
      have htake : text.take (first + item.length) = text.take first ++ item := by
        rw [← hitem]
        exact take_add_takeWhile
      rw [htake, List.count_append, List.count_eq_zero_of_not_mem hfeeds, ← hfirst,
        count_lineOffset (by omega), Nat.add_zero]
    refine ⟨⟨?_, hcount⟩, by omega⟩
    rw [hc, show c = '\n' by simpa using hfeed]
  · left
    have hall : item = (text.take last).drop first := by
      have hinitial : item <+: (text.take last).drop first := hitem ▸ List.takeWhile_prefix _
      exact hinitial.eq_of_length_le (by omega)
    refine ⟨by rw [hall, hwindow]; omega, fun i hi hfeed => hfeeds ?_⟩
    have hstart : first ≤ i := by
      rw [← hfirst]
      exact lineOffset_le (Nat.le_of_eq hfeed.2.symm)
    obtain ⟨n, rfl⟩ := Nat.exists_eq_add_of_le hstart
    rw [hall]
    apply List.mem_of_getElem? (i := n)
    rw [List.getElem?_drop, List.getElem?_take_of_lt (by omega), hfeed.1]

theorem closeItem_of_feedAt {line problem i : Nat} (h : FeedAt text (line - 1) i)
    (hi : i < problem) (hlength : problem ≤ text.length) :
    (closeItem text line problem).index = i := by
  rcases closeItem_cases line hlength with ⟨-, hnone⟩ | ⟨hfeed, -⟩
  · exact absurd h (hnone i hi)
  · exact hfeed.unique h

/-! ### What repairs do to lines -/

theorem closeKey_keepsLines {context problem : Nat} (hle : context ≤ problem)
    (hlength : problem ≤ text.length)
    (hcontext : Apart (text.take context) (text.drop context))
    (hproblem : Apart (text.take problem) (text.drop problem)) :
    (closeKey text context problem).KeepsLines text := by
  have hindex : (closeKey text context problem).index ≤ text.length := by
    unfold closeKey
    dsimp only
    split_ifs with hword
    · rw [List.length_drop, List.length_take_of_le hlength] at hword
      omega
    · exact hlength
  exact (keepsLines_iff hindex rfl).mpr (apart_closeKey hcontext hproblem)

theorem ClosesAt.keepsLines_iff {m : Mark} (h : patch.ClosesAt text m)
    (hbreak : isBreak patch.insert = false) :
    patch.KeepsLines text ↔ ¬ ['\r', '\n'] <:+ text := by
  have hsplit : text.take patch.index ++ text.drop patch.index = text := List.take_append_drop _ _
  have hrest := h.rest
  rw [Patch.keepsLines_iff h.index_le hbreak]
  generalize text.take patch.index = read at hsplit ⊢
  rw [hrest] at hsplit ⊢
  by_cases hfeed : text.getLast? = some '\n'
  · rw [if_pos hfeed] at hsplit ⊢
    have hsuffix : ['\r'] ++ ['\n'] <:+ read ++ ['\n'] ↔ ['\r'] <:+ read :=
      List.suffix_append_self_iff
    rw [List.singleton_append] at hsuffix
    rw [← hsplit, hsuffix, Apart, List.getLast?_eq_some_iff]
    constructor
    · rintro hapart ⟨ahead, rfl⟩
      exact hapart ⟨ahead, rfl⟩ rfl
    · rintro hfree ⟨ahead, rfl⟩
      exact absurd (List.suffix_append ahead _) hfree
  · rw [if_neg hfeed]
    constructor
    · rintro - ⟨ahead, rfl⟩
      simp at hfeed
    · rintro - -
      simp

theorem closeItem_keepsLines_iff {line problem : Nat} (hlength : problem ≤ text.length)
    (hproblem : Apart (text.take problem) (text.drop problem)) :
    (closeItem text line problem).KeepsLines text ↔
      ¬ ∃ i < problem, FeedAt text (line - 1) i ∧ (text.take i).getLast? = some '\r' := by
  have hindex : (closeItem text line problem).index ≤ text.length := by
    rcases closeItem_cases line hlength with ⟨hend, -⟩ | ⟨-, hlt⟩
    · rw [hend]
      exact Nat.max_le.mpr ⟨hlength, lineOffset_le_length text _⟩
    · exact hlt.le.trans hlength
  rw [Patch.keepsLines_iff hindex rfl]
  constructor
  · rintro hapart ⟨i, hi, hfeed, hlast⟩
    rw [closeItem_of_feedAt hfeed hi hlength] at hapart
    apply hapart hlast
    rw [List.head?_drop, hfeed.1]
  · intro hnone
    rcases closeItem_cases line hlength with ⟨hend, -⟩ | ⟨hfeed, hlt⟩
    · rw [hend]
      rcases Nat.le_total (lineOffset text (line - 1)) problem with hle | hle
      · rwa [Nat.max_eq_left hle]
      · rw [Nat.max_eq_right hle]
        exact apart_lineOffset text _
    · intro hlast
      exact absurd ⟨_, hlt, hfeed, hlast⟩ hnone

/-- The colon of a bare item stands at the end of its line exactly if the line ends with a line feed
alone, and every line before it with a line feed or a pair. -/
theorem closeItem_breakAt_iff {line problem : Nat} (hlength : problem ≤ text.length)
    (hline : lineAt text problem = line) (hpos : 0 < line) :
    BreakAt text (line - 1) (closeItem text line problem).index ↔
      ∃ i, BreakAt text (line - 1) i ∧ FeedAt text (line - 1) i := by
  constructor
  · intro hbreak
    rcases closeItem_cases line hlength with ⟨hend, -⟩ | ⟨hfeed, -⟩
    · have hmono : lineAt text problem ≤ lineAt text (closeItem text line problem).index := by
        rw [hend]
        exact lineAt_mono (Nat.le_max_left _ _)
      rw [hline, hbreak.1] at hmono
      omega
    · exact ⟨_, hbreak, hfeed⟩
  · rintro ⟨i, hbreak, hfeed⟩
    have hlt : i < problem := by
      by_contra hge
      have hmono : lineAt text problem ≤ lineAt text i := lineAt_mono (Nat.le_of_not_lt hge)
      rw [hline, hbreak.1] at hmono
      omega
    rwa [closeItem_of_feedAt hfeed hlt hlength]

end Patch

/-! ### The repair of a text -/

namespace Patch

variable {text : List Char} {d : Diagnostic} {patch : Patch}

theorem stage_of_of? (h : of? text d = some patch) : d.stage = .tokens := by
  by_contra hstage
  rw [of?, if_pos (by simpa using hstage)] at h
  cases h

theorem problem_of_of? (h : of? text d = some patch) : d.problem.isMissingColon = true ∨
    d.problem.isUnexpectedEnd = true ∨ d.problem.isMisplacedKey = true := by
  unfold of? at h
  dsimp only at h
  split_ifs at h with hstage hcolon hquoted hkey
  · exact Or.inl hcolon
  · exact Or.inr (Or.inl (Bool.and_eq_true_iff.mp hquoted).2)
  · exact Or.inr (Or.inr hkey)

theorem of?_closeKey (hpoints : d.Points text) (hcolon : d.problem.isMissingColon = true)
    (h : of? text d = some patch) :
    patch = closeKey text ((d.contextMark.map Mark.index).getD 0) d.problemMark.index := by
  rw [of?_of_bounds (stage_of_of? h) hpoints.context_le hpoints.problem.index_le,
    if_pos hcolon] at h
  exact (Option.some.inj h).symm

theorem of?_closeItem (hpoints : d.Points text) (hkey : d.problem.isMisplacedKey = true)
    (h : of? text d = some patch) :
    patch = closeItem text d.problemMark.line d.problemMark.index := by
  obtain ⟨hcolon, hend⟩ := Problem.not_other_of_isMisplacedKey hkey
  rw [of?_of_bounds (stage_of_of? h) hpoints.context_le hpoints.problem.index_le,
    if_neg (by simp [hcolon]), if_neg (by simp [hend]), if_pos hkey] at h
  exact (Option.some.inj h).symm

theorem quoted_of_isUnexpectedEnd (hend : d.problem.isUnexpectedEnd = true)
    (h : of? text d = some patch) : d.context.any Activity.isQuoted = true := by
  have hcolon := Problem.isMissingColon_of_isUnexpectedEnd hend
  by_contra hquoted
  have hkey : d.problem.isMisplacedKey = false := by
    by_contra hkey
    rw [(Problem.not_other_of_isMisplacedKey (by simpa using hkey)).2] at hend
    cases hend
  simp [of?, hcolon, hquoted, hkey] at h

end Patch

theorem Diagnostic.Points.apart_context {text : List Char} {d : Diagnostic} (h : d.Points text) :
    Apart (text.take ((d.contextMark.map Mark.index).getD 0))
      (text.drop ((d.contextMark.map Mark.index).getD 0)) := by
  cases hmark : d.contextMark with
  | none => exact apart_of_not_return (by simp)
  | some m => exact (h.context m hmark).1.apart

namespace Document

variable {text : List Char} {cursor : Cursor} {d : Diagnostic} {patch : Patch}

theorem ofText_points (h : ofText text cursor = .error d) (hstage : d.stage = .tokens) :
    d.Points text := by
  rcases ofText_points_or_blames h with hpoints | ⟨root, -, hblames⟩
  · exact hpoints
  · cases hstage.symm.trans hblames.stage

theorem missingColon_keepsLines (h : ofText text cursor = .error d)
    (hpatch : Patch.of? text d = some patch) (hcolon : d.problem.isMissingColon = true) :
    patch.KeepsLines text := by
  have hpoints := ofText_points h (Patch.stage_of_of? hpatch)
  rw [Patch.of?_closeKey hpoints hcolon hpatch]
  exact Patch.closeKey_keepsLines hpoints.context_le hpoints.problem.index_le hpoints.apart_context
    hpoints.problem.apart

theorem unexpectedEnd_keepsLines_iff (h : ofText text cursor = .error d)
    (hpatch : Patch.of? text d = some patch) (hend : d.problem.isUnexpectedEnd = true) :
    patch.KeepsLines text ↔ ¬ ['\r', '\n'] <:+ text := by
  have hquoted := Patch.quoted_of_isUnexpectedEnd hend hpatch
  obtain ⟨c, hunclosed⟩ := (ofText_blames h (Patch.stage_of_of? hpatch)).unclosed hquoted hend
  obtain ⟨m, patch', hmark, hpatch', hcloses⟩ := hunclosed.exists_patch hquoted
  obtain rfl : patch' = patch := Option.some.inj (hpatch'.symm.trans hpatch)
  apply hcloses.keepsLines_iff
  rcases Patch.insert_of_blames (ofText_blames h) hpatch with hcolon | ⟨double, -, -, -, hquote, -⟩
  · rw [hcolon]
    rfl
  · rw [hquote]
    cases double <;> rfl

theorem misplacedKey_keepsLines_iff (h : ofText text cursor = .error d)
    (hpatch : Patch.of? text d = some patch) (hkey : d.problem.isMisplacedKey = true) :
    patch.KeepsLines text ↔ ¬ ∃ i < d.problemMark.index,
      FeedAt text (d.problemMark.line - 1) i ∧ (text.take i).getLast? = some '\r' := by
  have hpoints := ofText_points h (Patch.stage_of_of? hpatch)
  rw [Patch.of?_closeItem hpoints hkey hpatch]
  exact Patch.closeItem_keepsLines_iff hpoints.problem.index_le hpoints.problem.apart

theorem misplacedKey_breakAt_iff (h : ofText text cursor = .error d)
    (hpatch : Patch.of? text d = some patch) (hkey : d.problem.isMisplacedKey = true)
    (hline : 0 < d.problemMark.line) :
    BreakAt text (d.problemMark.line - 1) patch.index ↔
      ∃ i, BreakAt text (d.problemMark.line - 1) i ∧ FeedAt text (d.problemMark.line - 1) i := by
  have hpoints := ofText_points h (Patch.stage_of_of? hpatch)
  rw [Patch.of?_closeItem hpoints hkey hpatch]
  exact Patch.closeItem_breakAt_iff hpoints.problem.index_le hpoints.problem.lineAt_index hline

/-- Repairs and lines. A colon that was missing leaves every character on its line. A quote does
unless the text ends with a carriage return and a line feed. So does the colon of a bare item,
unless the line feed by which the line of the item is looked for is one of such a pair; and it
stands at the end of that line exactly if the line ends with a line feed alone, and each line before
it with a line feed or a pair. So all is well where lines end with line feeds alone. -/
theorem repair_keepsLines_iff (h : ofText text cursor = .error d)
    (hpatch : Patch.of? text d = some patch) :
    (d.problem.isMissingColon = true ∨ d.problem.isUnexpectedEnd = true ∨
      d.problem.isMisplacedKey = true) ∧
    (d.problem.isMissingColon = true → patch.KeepsLines text) ∧
    (d.problem.isUnexpectedEnd = true → (patch.KeepsLines text ↔ ¬ ['\r', '\n'] <:+ text)) ∧
    (d.problem.isMisplacedKey = true →
      (patch.KeepsLines text ↔ ¬ ∃ i < d.problemMark.index,
        FeedAt text (d.problemMark.line - 1) i ∧ (text.take i).getLast? = some '\r') ∧
      (0 < d.problemMark.line → (BreakAt text (d.problemMark.line - 1) patch.index ↔
        ∃ i, BreakAt text (d.problemMark.line - 1) i ∧ FeedAt text (d.problemMark.line - 1) i))) ∧
    ((∀ c ∈ text, isBreak c = true → c = '\n') → patch.KeepsLines text ∧
      (d.problem.isMisplacedKey = true → 0 < d.problemMark.line →
        BreakAt text (d.problemMark.line - 1) patch.index)) := by
  have hpoints := ofText_points h (Patch.stage_of_of? hpatch)
  refine ⟨Patch.problem_of_of? hpatch, missingColon_keepsLines h hpatch,
    unexpectedEnd_keepsLines_iff h hpatch, fun hkey => ⟨misplacedKey_keepsLines_iff h hpatch hkey,
    misplacedKey_breakAt_iff h hpatch hkey⟩, fun hfeeds => ⟨?_, fun hkey hline => ?_⟩⟩
  · have hreturn := return_notMem hfeeds
    rcases Patch.problem_of_of? hpatch with hcolon | hend | hkey
    · exact missingColon_keepsLines h hpatch hcolon
    · rw [unexpectedEnd_keepsLines_iff h hpatch hend]
      intro hsuffix
      exact hreturn (hsuffix.subset (by simp))
    · rw [misplacedKey_keepsLines_iff h hpatch hkey]
      rintro ⟨i, -, -, hlast⟩
      exact hreturn (List.mem_of_mem_take (List.mem_of_getLast? hlast))
  · rw [misplacedKey_breakAt_iff h hpatch hkey hline]
    exact exists_breakAt hfeeds hpoints.problem.index_le hpoints.problem.lineAt_index hline

/-- The colon of a bare item, before the line feed that ends its line. -/
theorem repair_keepsLines_iff_bare_item :
    ∃ d patch, ofText "- a\n  b: c\n".toList .origin = .error d ∧
      d.problem = .valueNotAllowed ∧ d.problemMark.line = 1 ∧
      Patch.of? "- a\n  b: c\n".toList d = some patch ∧
      patch.KeepsLines "- a\n  b: c\n".toList ∧
      BreakAt "- a\n  b: c\n".toList 0 patch.index := by
  obtain ⟨d, hread, hproblem, hline, hpatch⟩ :
      ∃ d, ofText "- a\n  b: c\n".toList .origin = .error d ∧ d.problem = .valueNotAllowed ∧
        d.problemMark.line = 1 ∧ Patch.of? "- a\n  b: c\n".toList d = some ⟨3, ':'⟩ := by
    refine ⟨.plain .tokens .valueNotAllowed ⟨7, 1, 3⟩, ?_, rfl, rfl, ?_⟩
    · rfl
    · decide +kernel
  obtain ⟨-, -, -, -, hfeeds⟩ := repair_keepsLines_iff hread hpatch
  obtain ⟨hkeeps, hbreak⟩ := hfeeds (by simp [isBreak])
  rw [hproblem, hline] at hbreak
  exact ⟨d, _, hread, hproblem, hline, hpatch, hkeeps, hbreak rfl (by decide)⟩

/-- A quote and a colon that come between a carriage return and its line feed, which is on the next
line then. Nor does the colon stand at the end of the line. -/
theorem repair_parts_pair :
    (∃ d patch, ofText "'a\r\n".toList .origin = .error d ∧
      Patch.of? "'a\r\n".toList d = some patch ∧ ¬ patch.KeepsLines "'a\r\n".toList) ∧
    (∃ d patch, ofText "- a\r\n  b: c\r\n".toList .origin = .error d ∧
      d.problem = .valueNotAllowed ∧ d.problemMark.line = 1 ∧
      Patch.of? "- a\r\n  b: c\r\n".toList d = some patch ∧
      ¬ patch.KeepsLines "- a\r\n  b: c\r\n".toList ∧
      ¬ BreakAt "- a\r\n  b: c\r\n".toList 0 patch.index) := by
  constructor
  · refine ⟨.within .tokens .quoted ⟨0, 0, 0⟩ .unexpectedEnd ⟨4, 1, 0⟩, ⟨3, '\''⟩, rfl,
      by decide +kernel, fun hkeeps => ?_⟩
    have hline := (hkeeps 3 (by decide)).2
    revert hline
    decide
  · refine ⟨.plain .tokens .valueNotAllowed ⟨8, 1, 3⟩, ⟨4, ':'⟩, rfl, rfl, rfl, by decide +kernel,
      fun hkeeps => ?_, fun hbreak => hbreak.2.2 rfl rfl⟩
    have hline := (hkeeps 4 (by decide)).2
    revert hline
    decide

end Document

end Playbook
