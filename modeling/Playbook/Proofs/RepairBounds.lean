import Playbook.Proofs.RepairLines

/-!
Repairs stay within the text. Whatever a diagnostic says, its marks are brought into the text before
anything is looked up, so a repair can be found by accesses that fail out of range, and none does.
It is put in at a place of the text, which is the start of a character or the end also among bytes.
-/

namespace Playbook

/-- An access that a text does not admit. -/
inductive OutOfRange
  | character (index : Nat)
  | piece (first last : Nat)
  | byte (offset : Nat)
  deriving Repr, DecidableEq

namespace Patch

variable {text : List Char} {context problem line : Nat} {d : Diagnostic}

/-! ### Finding a repair -/

/-- A character of a text. -/
def characterAt (text : List Char) (index : Nat) : Except OutOfRange Char :=
  match text[index]? with
  | some c => .ok c
  | none => .error (.character index)

/-- The characters between two places of a text. -/
def piece (text : List Char) (first last : Nat) : Except OutOfRange (List Char) :=
  if first ≤ last ∧ last ≤ text.length then .ok ((text.take last).drop first)
  else .error (.piece first last)

theorem piece_eq {first last : Nat} (hle : first ≤ last) (hlength : last ≤ text.length) :
    piece text first last = .ok ((text.take last).drop first) :=
  if_pos ⟨hle, hlength⟩

/-- A colon at the first white space between two places, or at the second. There is nothing between
places in reverse order. -/
def closeKeyWithin (text : List Char) (context problem : Nat) : Patch :=
  let key := (piece text context problem).toOption.getD []
  ⟨(key.findIdx? isWhiteSpace).elim problem (context + ·), ':'⟩

/-- The quote at the first place, if a character stands there. It is put in before the second place
or, behind a line feed, before that. -/
def closeQuoteWithin (text : List Char) (context problem : Nat) :
    Except OutOfRange (Option Patch) :=
  match text[context]? with
  | none => .ok none
  | some quote =>
      if context < problem then do
        let last ← characterAt text (problem - 1)
        return some ⟨if last == '\n' then problem - 1 else problem, quote⟩
      else .ok (some ⟨problem, quote⟩)

/-- Where the line before a line starts. Nothing comes before the first. -/
def startBefore (text : List Char) : Nat → Nat
  | 0 => 0
  | line + 1 => lineOffset text line

/-- A colon at the first line feed behind the start of the line before, or at the given place. -/
def closeItemWithin (text : List Char) (line problem : Nat) : Except OutOfRange Patch := do
  let first := startBefore text line
  let last := max problem first
  let item ← piece text first last
  return ⟨(item.findIdx? (· == '\n')).elim last (first + ·), ':'⟩

/-- The repair for a diagnostic by accesses that fail out of range. -/
def ofWithin (text : List Char) (d : Diagnostic) : Except OutOfRange (Option Patch) :=
  let problem := min d.problemMark.index text.length
  let context := min ((d.contextMark.map Mark.index).getD 0) text.length
  if d.stage != .tokens then .ok none
  else if d.problem.isMissingColon then .ok (some (closeKeyWithin text context problem))
  else if d.context.any Activity.isQuoted && d.problem.isUnexpectedEnd then
    closeQuoteWithin text context problem
  else if d.problem.isMisplacedKey then
    some <$> closeItemWithin text d.problemMark.line problem
  else .ok none

/-- The first item that passes a test stands behind those that do not. -/
theorem findIdx?_eq_takeWhile {α : Type} (p : α → Bool) (items : List α) :
    items.findIdx? p =
      if (items.takeWhile fun a => !p a).length < items.length then
        some (items.takeWhile fun a => !p a).length
      else none := by
  induction items with
  | nil => rfl
  | cons a rest ih =>
      rw [List.findIdx?_cons, List.takeWhile_cons]
      cases p a with
      | true => simp
      | false => simp [ih]

/-- Where no item passes, the end is as far behind the start as there are items. -/
theorem findIdx?_elim {α : Type} {p : α → Bool} {items : List α} {first last : Nat}
    (hlast : last = first + items.length) :
    (items.findIdx? p).elim last (first + ·) = first + (items.takeWhile fun a => !p a).length := by
  have hle := (List.takeWhile_prefix (l := items) fun a => !p a).length_le
  rw [findIdx?_eq_takeWhile]
  split_ifs with hfound
  · rfl
  · change last = _
    omega

theorem closeKeyWithin_eq (hproblem : problem ≤ text.length) :
    closeKeyWithin text context problem = closeKey text context problem := by
  -- Out of order the piece is refused, and the characters between the places are none.
  have hkey : (piece text context problem).toOption.getD [] = (text.take problem).drop context := by
    by_cases hle : context ≤ problem
    · rw [piece_eq hle hproblem]
      rfl
    · have hnone : (text.take problem).drop context = [] := by
        apply List.drop_eq_nil_of_le
        rw [List.length_take_of_le hproblem]
        omega
      rw [piece, if_neg fun h => hle h.1, hnone]
      rfl
  unfold closeKeyWithin closeKey
  dsimp only
  rw [hkey, findIdx?_eq_takeWhile]
  congr 1
  split_ifs <;> rfl

theorem closeQuoteWithin_eq (hproblem : problem ≤ text.length) :
    closeQuoteWithin text context problem = .ok (closeQuote? text context problem) := by
  unfold closeQuoteWithin closeQuote?
  cases text[context]? with
  | none => rfl
  | some quote =>
      by_cases hlt : context < problem
      · obtain ⟨last, hlast⟩ : ∃ last, text[problem - 1]? = some last :=
          ⟨_, List.getElem?_eq_getElem (by omega)⟩
        have hcharacter : characterAt text (problem - 1) = .ok last := by rw [characterAt, hlast]
        rw [Option.map_some, hcharacter, hlast]
        simp only [hlt, if_true, decide_true, Bool.true_and]
        rfl
      · simp [hlt]

theorem startBefore_eq (text : List Char) (line : Nat) :
    startBefore text line = lineOffset text (line - 1) := by
  cases line with
  | zero => cases text <;> rfl
  | succ line => rfl

theorem closeItemWithin_eq (hproblem : problem ≤ text.length) :
    closeItemWithin text line problem = .ok (closeItem text line problem) := by
  unfold closeItemWithin closeItem
  dsimp only
  rw [startBefore_eq]
  generalize hfirst : lineOffset text (line - 1) = first
  generalize hlast : max problem first = last
  have hle : first ≤ last := hlast ▸ Nat.le_max_right problem first
  have hlength : last ≤ text.length := by
    rw [← hlast, ← hfirst]
    exact Nat.max_le.mpr ⟨hproblem, lineOffset_le_length text _⟩
  have hitem : last = first + ((text.take last).drop first).length := by
    rw [List.length_drop, List.length_take_of_le hlength]
    omega
  rw [piece_eq hle hlength]
  change Except.ok _ = Except.ok _
  rw [findIdx?_elim hitem]
  rfl

theorem ofWithin_eq (text : List Char) (d : Diagnostic) : ofWithin text d = .ok (of? text d) := by
  have hproblem := Nat.min_le_right d.problemMark.index text.length
  unfold ofWithin of?
  dsimp only
  rw [closeKeyWithin_eq hproblem, closeQuoteWithin_eq hproblem, closeItemWithin_eq hproblem]
  split_ifs <;> rfl

/-! ### Where it is put in -/

theorem closeKey_index_le (hproblem : problem ≤ text.length) :
    (closeKey text context problem).index ≤ text.length := by
  unfold closeKey
  dsimp only
  split_ifs with hword
  · have hkey : ((text.take problem).drop context).length = problem - context := by
      rw [List.length_drop, List.length_take_of_le hproblem]
    omega
  · exact hproblem

theorem closeQuote?_index_le {patch : Patch} (hproblem : problem ≤ text.length)
    (h : closeQuote? text context problem = some patch) : patch.index ≤ text.length := by
  obtain ⟨quote, -, rfl⟩ := Option.map_eq_some_iff.mp h
  dsimp only
  split_ifs <;> omega

theorem closeItem_index_le (hproblem : problem ≤ text.length) :
    (closeItem text line problem).index ≤ text.length := by
  have hfirst := lineOffset_le_length text (line - 1)
  rcases closeItem_cases line hproblem with ⟨hindex, -⟩ | ⟨-, hindex⟩ <;> omega

theorem of?_eq_some {patch : Patch} (h : of? text d = some patch) :
    d.stage = .tokens ∧ patch.index ≤ text.length := by
  have hproblem := Nat.min_le_right d.problemMark.index text.length
  unfold of? at h
  dsimp only at h
  split_ifs at h with hstage
  all_goals refine ⟨by simpa using hstage, ?_⟩
  · cases h
    exact closeKey_index_le hproblem
  · exact closeQuote?_index_le hproblem h
  · cases h
    exact closeItem_index_le hproblem

/-! ### Among bytes -/

/-- The offsets at which the characters of a text start, the first at the given one. -/
def startsFrom (offset : Nat) : List Char → List Nat
  | [] => []
  | c :: rest => offset :: startsFrom (offset + c.utf8Size) rest

/-- Put a character in at an offset, which has to be the start of a character or the end. -/
def insertAt (s : String) (offset : Nat) (c : Char) : Except OutOfRange String :=
  if h : (⟨offset⟩ : String.Pos.Raw).IsValid s then
    .ok ((s.sliceTo (s.pos ⟨offset⟩ h)).copy ++ c.toString ++ (s.sliceFrom (s.pos ⟨offset⟩ h)).copy)
  else .error (.byte offset)

/-- Where a character is put in. Behind the last one it is the end. -/
def offsetIn (patch : Patch) (s : String) : Nat :=
  (startsFrom 0 s.toList)[patch.index]?.getD s.utf8ByteSize

/-- Apply a patch to the bytes of a text. -/
def applyBytes (patch : Patch) (s : String) : Except OutOfRange String :=
  insertAt s (patch.offsetIn s) patch.insert

theorem utf8ByteSize_ofList_cons (c : Char) (text : List Char) :
    (String.ofList (c :: text)).utf8ByteSize =
      c.utf8Size + (String.ofList text).utf8ByteSize := by
  rw [String.ofList_cons, String.utf8ByteSize_append, String.utf8ByteSize_singleton]

/-- The characters before one fill the bytes up to its start. -/
theorem getElem?_startsFrom (offset index : Nat) (text : List Char) :
    (startsFrom offset text)[index]?.getD (offset + (String.ofList text).utf8ByteSize) =
      offset + (String.ofList (text.take index)).utf8ByteSize := by
  induction text generalizing offset index with
  | nil =>
      rw [List.take_nil]
      rfl
  | cons c rest ih =>
      cases index with
      | zero => rfl
      | succ index =>
          rw [startsFrom, List.getElem?_cons_succ, List.take_succ_cons, utf8ByteSize_ofList_cons,
            utf8ByteSize_ofList_cons, ← Nat.add_assoc, ← Nat.add_assoc, ih]

theorem offsetIn_eq (patch : Patch) (s : String) :
    patch.offsetIn s = (String.ofList (s.toList.take patch.index)).utf8ByteSize := by
  have hstarts := getElem?_startsFrom 0 patch.index s.toList
  rwa [Nat.zero_add, Nat.zero_add, String.ofList_toList] at hstarts

theorem applyBytes_eq (patch : Patch) (s : String) :
    patch.applyBytes s = .ok (String.ofList (patch.apply s.toList)) := by
  have hsplit : s = String.ofList (s.toList.take patch.index) ++
      String.ofList (s.toList.drop patch.index) := by
    rw [← String.ofList_append, List.take_append_drop, String.ofList_toList]
  have hvalid : (⟨patch.offsetIn s⟩ : String.Pos.Raw).IsValid s :=
    String.Pos.Raw.isValid_iff_exists_take_toList.mpr ⟨patch.index, offsetIn_eq patch s⟩
  have hsplits : (s.pos ⟨patch.offsetIn s⟩ hvalid).Splits
      (String.ofList (s.toList.take patch.index)) (String.ofList (s.toList.drop patch.index)) :=
    ⟨hsplit, String.Pos.Raw.ext (offsetIn_eq patch s)⟩
  obtain ⟨hbefore, hbehind⟩ := (String.Pos.splits _).eq hsplits
  rw [applyBytes, insertAt, dif_pos hvalid, hbefore, hbehind, apply, String.ofList_append,
    String.ofList_cons, String.append_assoc, Char.toString_eq_singleton]

/-- A repair for any diagnostic at all, with marks in any place and order. It is found without an
access out of range, only for problems of the tokens, and lies within the text. To put it in at its
byte is to put it in between the characters before and behind it. -/
theorem of?_within_text (s : String) (d : Diagnostic) :
    ofWithin s.toList d = .ok (of? s.toList d) ∧
    ∀ patch, of? s.toList d = some patch →
      d.stage = .tokens ∧ patch.index ≤ s.toList.length ∧
      patch.applyBytes s = .ok (String.ofList (patch.apply s.toList)) ∧
      patch.apply s.toList =
        s.toList.take patch.index ++ [patch.insert] ++ s.toList.drop patch.index := by
  refine ⟨ofWithin_eq s.toList d, fun patch h => ?_⟩
  obtain ⟨hstage, hindex⟩ := of?_eq_some h
  refine ⟨hstage, hindex, applyBytes_eq patch s, ?_⟩
  rw [apply, List.append_assoc, List.singleton_append]

/-- An open quote behind and before characters of two to four bytes, with the problem far behind the
end and lines and columns that are not there. -/
theorem of?_within_text_wide :
    let text := "ä: 'ö€😀\n"
    let d : Diagnostic := ⟨.tokens, some (.other "while scanning a quoted scalar"), some ⟨3, 70, 9⟩,
      .other "found unexpected end of stream", ⟨99, 0, 5⟩⟩
    of? text.toList d = some ⟨7, '\''⟩ ∧
      (⟨7, '\''⟩ : Patch).applyBytes text = .ok "ä: 'ö€😀'\n" ∧ 7 ≤ text.toList.length := by
  intro text d
  have h : of? text.toList d = some ⟨7, '\''⟩ := by decide +kernel
  have hpatched : String.ofList ((⟨7, '\''⟩ : Patch).apply text.toList) = "ä: 'ö€😀'\n" := by
    decide +kernel
  obtain ⟨-, hindex, hbytes, -⟩ := (of?_within_text text d).2 _ h
  exact ⟨h, hpatched ▸ hbytes, hindex⟩

end Patch

end Playbook
