import Playbook.Proofs.FlowScan

/-!
The tokens of a value as a block. A collection inside another one is closed by the first line that
is indented less, so what is read depends on the lines behind the value.
-/

namespace Playbook

open TokenStream Value

/-- The text is a line, or the end of the text, and indented by at most `n`. -/
def Line (n : Nat) (text : List Char) : Prop :=
  ∃ k rest, text = spaces k ++ rest ∧ k ≤ n ∧ Starts rest

/-- The view of a stream that has come to the first token of a line. -/
def atLine (text : List Char) (blocks : List Nat) (kinds : List TokenKind) : View :=
  ⟨text.dropWhile (· == ' '), (text.takeWhile (· == ' ')).length, 0, blocks, true, kinds⟩

section Block

variable {n column : Nat} {text rest : List Char} {blocks : List Nat} {allowed : Bool}
  {kinds : List TokenKind}

theorem atLine_spaces (k : Nat) (hrest : Starts rest) :
    atLine (spaces k ++ rest) blocks kinds = ⟨rest, k, 0, blocks, true, kinds⟩ := by
  have htake := Reader.takeWhile_spaces k hrest.head_ne_space
  have hdrop : (spaces k ++ rest).dropWhile (· == ' ') = rest := by
    have hsplit := List.takeWhile_append_dropWhile (p := (· == ' ')) (l := spaces k ++ rest)
    rw [htake] at hsplit
    exact List.append_cancel_left hsplit
  rw [atLine, htake, hdrop, spaces, List.length_replicate]

theorem Line.mono {m : Nat} (h : Line n text) (hle : n ≤ m) : Line m text := by
  obtain ⟨k, rest, htext, hk, hrest⟩ := h
  exact ⟨k, rest, htext, hk.trans hle, hrest⟩

theorem blockTail_blank (value : Value) (n : Nat) (text : List Char) :
    isBlankOrEnd ((value.blockTail n ++ text).headD nul) = true := by
  have hspace : ∀ text, isBlankOrEnd ((' ' :: text).headD nul) = true := fun _ => rfl
  have hbreak : ∀ text, isBlankOrEnd (('\n' :: text).headD nul) = true := fun _ => rfl
  cases value with
  | seq items =>
      cases items with
      | nil => exact hspace _
      | cons item items => exact hbreak _
  | map entries =>
      cases entries with
      | nil => exact hspace _
      | cons entry entries => exact hbreak _
  | null | bool | int | float | str => exact hspace _

theorem line_blockItems (items : List Value) (htext : Line n text) :
    Line n (blockItems n items ++ text) := by
  cases items with
  | nil => exact htext
  | cons item items =>
      refine ⟨n, '-' :: (item.blockTail n ++ (blockItems n items ++ text)), ?_, Nat.le_refl n, ?_⟩
      · simp [blockItems]
      · exact starts_dash (blockTail_blank item n _)

theorem line_blockEntries {entries : List (Key × Value)}
    (hkeys : ∀ entry ∈ entries, entry.1.Simple) (htext : Line n text) :
    Line n (blockEntries n entries ++ text) := by
  cases entries with
  | nil => exact htext
  | cons entry entries =>
      obtain ⟨key, value⟩ := entry
      have hkey : key.Simple := hkeys _ List.mem_cons_self
      refine ⟨n, key.text ++ ':' :: (value.blockTail n ++ (blockEntries n entries ++ text)), ?_,
        Nat.le_refl n, Key.text_starts hkey.1 _⟩
      simp [blockEntries]

theorem scans_break (htext : Line n text) :
    Scans ⟨'\n' :: text, column, 0, blocks, allowed, kinds⟩ (atLine text blocks kinds) := by
  obtain ⟨k, rest, rfl, -, hrest⟩ := htext
  rw [atLine_spaces k hrest]
  exact scans_line k hrest

theorem scans_close_line {m : Nat} (htext : Line n text) (hlt : n < m) :
    Scans (atLine text (m :: blocks) kinds) (atLine text blocks (kinds ++ [.blockEnd])) := by
  obtain ⟨k, rest, rfl, hk, hrest⟩ := htext
  rw [atLine_spaces k hrest, atLine_spaces k hrest]
  exact scans_close hrest (by omega)

/-- A value behind a dash or a colon is read as its tokens, up to the first token of the line behind
it. -/
def ScansBlock (value : Value) : Prop :=
  ∀ {n column : Nat} {text : List Char} {blocks : List Nat} {allowed : Bool}
    {kinds : List TokenKind}, Line n text → n < column →
    Scans ⟨value.blockTail n ++ text, column, 0, n :: blocks, allowed, kinds⟩
      (atLine text (n :: blocks) (kinds ++ value.blockTokens))

theorem scansBlock_scalar {key : Key} (hkey : key.Writable) : ScansBlock key.toValue := by
  intro n column text blocks allowed kinds htext hcolumn
  obtain ⟨k, rest, rfl, hk, hrest⟩ := htext
  have htext : key.toValue.blockTail n ++ (spaces k ++ rest) =
      spaces 1 ++ (key.text ++ '\n' :: (spaces k ++ rest)) := by
    simp [spaces]
  rw [htext, atLine_spaces k hrest, blockTokens_toValue]
  apply Scans.trans (scans_spaces 1 (Key.text_starts hkey _))
  exact scans_scalar_line hkey hrest hk (by omega)

theorem scans_empty_line (bracket : Bracket) (htext : Line n text) (hcolumn : n < column) :
    Scans ⟨' ' :: bracket.opening :: bracket.closing :: '\n' :: text, column, 0, n :: blocks,
        allowed, kinds⟩
      (atLine text (n :: blocks) (kinds ++ [bracket.start, bracket.stop])) := by
  have hinside : 0 = 0 → ∀ m ∈ (n :: blocks).head?, m < column + 1 := by
    rintro - m ⟨⟩
    omega
  apply Scans.trans (scans_spaces 1 (bracket.opening_starts _))
  apply Scans.trans (scans_empty bracket hinside)
  exact scans_break htext

theorem scans_blockItems {items : List Value} (hitems : ∀ item ∈ items, ScansBlock item)
    (htext : Line n text) :
    Scans (atLine (blockItems n items ++ text) (n :: blocks) kinds)
      (atLine text (n :: blocks) (kinds ++ blockItemTokens items)) := by
  induction items generalizing kinds with
  | nil =>
      rw [blockItemTokens, List.append_nil]
      exact Scans.refl _
  | cons item items ih =>
      obtain ⟨hitem, hitems⟩ := List.forall_mem_cons.mp hitems
      have hblank := blockTail_blank item n (blockItems n items ++ text)
      have hlines : blockItems n (item :: items) ++ text =
          spaces n ++ '-' :: (item.blockTail n ++ (blockItems n items ++ text)) := by
        simp [blockItems]
      have hkinds : kinds ++ blockItemTokens (item :: items) =
          kinds ++ [.blockEntry] ++ item.blockTokens ++ blockItemTokens items := by
        simp [blockItemTokens]
      rw [hlines, hkinds, atLine_spaces n (starts_dash hblank)]
      apply Scans.trans (scans_dash hblank)
      apply Scans.trans (hitem (line_blockItems items htext) (Nat.lt_succ_self n))
      exact ih hitems

/-- The items of a sequence that is not open yet. -/
theorem scans_blockItems_first {item : Value} {items : List Value} (hitem : ScansBlock item)
    (hitems : ∀ item ∈ items, ScansBlock item) (htext : Line n text)
    (hinside : ∀ m ∈ blocks.head?, m < n) :
    Scans (atLine (blockItems n (item :: items) ++ text) blocks kinds)
      (atLine text (n :: blocks)
        (kinds ++ .blockSequenceStart :: blockItemTokens (item :: items))) := by
  have hblank := blockTail_blank item n (blockItems n items ++ text)
  have hlines : blockItems n (item :: items) ++ text =
      spaces n ++ '-' :: (item.blockTail n ++ (blockItems n items ++ text)) := by
    simp [blockItems]
  have hkinds : kinds ++ .blockSequenceStart :: blockItemTokens (item :: items) =
      kinds ++ [.blockSequenceStart, .blockEntry] ++ item.blockTokens ++ blockItemTokens items := by
    simp [blockItemTokens]
  rw [hlines, hkinds, atLine_spaces n (starts_dash hblank)]
  apply Scans.trans (scans_dash_first hinside hblank)
  apply Scans.trans (hitem (line_blockItems items htext) (Nat.lt_succ_self n))
  exact scans_blockItems hitems htext

/-- A collection in lines of its own that are indented further. -/
theorem scans_nested {lines : List Char} {tokens : List TokenKind} (htext : Line n text)
    (hlines : Line (n + 2) (lines ++ text))
    (hscan : Scans (atLine (lines ++ text) (n :: blocks) kinds)
      (atLine text ((n + 2) :: n :: blocks) (kinds ++ tokens))) :
    Scans ⟨'\n' :: lines ++ text, column, 0, n :: blocks, allowed, kinds⟩
      (atLine text (n :: blocks) (kinds ++ tokens ++ [.blockEnd])) := by
  apply Scans.trans (scans_break hlines)
  apply Scans.trans hscan
  exact scans_close_line htext (by omega)

theorem scansBlock_seq {items : List Value} (hitems : ∀ item ∈ items, ScansBlock item) :
    ScansBlock (.seq items) := by
  intro n column text blocks allowed kinds htext hcolumn
  cases items with
  | nil => exact scans_empty_line .square htext hcolumn
  | cons item items =>
      obtain ⟨hitem, hitems⟩ := List.forall_mem_cons.mp hitems
      have hnested : Line (n + 2) text := htext.mono (Nat.le_add_right n 2)
      have hinside : ∀ m ∈ (n :: blocks).head?, m < n + 2 := by
        rintro m ⟨⟩
        omega
      have hkinds : kinds ++ blockTokens (.seq (item :: items)) =
          kinds ++ .blockSequenceStart :: blockItemTokens (item :: items) ++ [.blockEnd] := by
        simp [blockTokens]
      rw [hkinds]
      exact scans_nested htext (line_blockItems _ hnested)
        (scans_blockItems_first hitem hitems hnested hinside)

theorem scans_blockEntries {entries : List (Key × Value)}
    (hkeys : ∀ entry ∈ entries, entry.1.Simple) (hvalues : ∀ entry ∈ entries, ScansBlock entry.2)
    (htext : Line n text) :
    Scans (atLine (blockEntries n entries ++ text) (n :: blocks) kinds)
      (atLine text (n :: blocks) (kinds ++ blockEntryTokens entries)) := by
  induction entries generalizing kinds with
  | nil =>
      rw [blockEntryTokens, List.append_nil]
      exact Scans.refl _
  | cons entry entries ih =>
      obtain ⟨key, value⟩ := entry
      obtain ⟨hkey, hkeys⟩ := List.forall_mem_cons.mp hkeys
      obtain ⟨hvalue, hvalues⟩ := List.forall_mem_cons.mp hvalues
      have hblank := blockTail_blank value n (blockEntries n entries ++ text)
      have hlines : blockEntries n ((key, value) :: entries) ++ text =
          spaces n ++
            (key.text ++ ':' :: (value.blockTail n ++ (blockEntries n entries ++ text))) := by
        simp [blockEntries]
      have hkinds : kinds ++ blockEntryTokens ((key, value) :: entries) =
          kinds ++ [.key, key.token, .value] ++ value.blockTokens ++ blockEntryTokens entries := by
        simp [blockEntryTokens]
      rw [hlines, hkinds, atLine_spaces n (Key.text_starts hkey.1 _)]
      apply Scans.trans (scans_key hkey hblank fun _ => rfl)
      apply Scans.trans (hvalue (line_blockEntries hkeys htext) (by omega))
      exact ih hkeys hvalues

/-- The entries of a mapping that is not open yet. -/
theorem scans_blockEntries_first {key : Key} {value : Value} {entries : List (Key × Value)}
    (hkey : key.Simple) (hvalue : ScansBlock value) (hkeys : ∀ entry ∈ entries, entry.1.Simple)
    (hvalues : ∀ entry ∈ entries, ScansBlock entry.2) (htext : Line n text)
    (hinside : ∀ m ∈ blocks.head?, m < n) :
    Scans (atLine (blockEntries n ((key, value) :: entries) ++ text) blocks kinds)
      (atLine text (n :: blocks)
        (kinds ++ .blockMappingStart :: blockEntryTokens ((key, value) :: entries))) := by
  have hblank := blockTail_blank value n (blockEntries n entries ++ text)
  have hlines : blockEntries n ((key, value) :: entries) ++ text =
      spaces n ++ (key.text ++ ':' :: (value.blockTail n ++ (blockEntries n entries ++ text))) := by
    simp [blockEntries]
  have hkinds : kinds ++ .blockMappingStart :: blockEntryTokens ((key, value) :: entries) =
      kinds ++ [.blockMappingStart, .key, key.token, .value] ++ value.blockTokens ++
        blockEntryTokens entries := by
    simp [blockEntryTokens]
  rw [hlines, hkinds, atLine_spaces n (Key.text_starts hkey.1 _)]
  apply Scans.trans (scans_key_first hkey hblank hinside)
  apply Scans.trans (hvalue (line_blockEntries hkeys htext) (by omega))
  exact scans_blockEntries hkeys hvalues htext

theorem scansBlock_map {entries : List (Key × Value)}
    (hkeys : ∀ entry ∈ entries, entry.1.Simple) (hvalues : ∀ entry ∈ entries, ScansBlock entry.2) :
    ScansBlock (.map entries) := by
  intro n column text blocks allowed kinds htext hcolumn
  cases entries with
  | nil => exact scans_empty_line .curly htext hcolumn
  | cons entry entries =>
      obtain ⟨key, value⟩ := entry
      have hnested : Line (n + 2) text := htext.mono (Nat.le_add_right n 2)
      have hlines := line_blockEntries hkeys hnested
      obtain ⟨hkey, hkeys⟩ := List.forall_mem_cons.mp hkeys
      obtain ⟨hvalue, hvalues⟩ := List.forall_mem_cons.mp hvalues
      have hinside : ∀ m ∈ (n :: blocks).head?, m < n + 2 := by
        rintro m ⟨⟩
        omega
      have hkinds : kinds ++ blockTokens (.map ((key, value) :: entries)) =
          kinds ++ .blockMappingStart :: blockEntryTokens ((key, value) :: entries) ++
            [.blockEnd] := by
        simp [blockTokens]
      rw [hkinds]
      exact scans_nested htext hlines
        (scans_blockEntries_first hkey hvalue hkeys hvalues hnested hinside)

theorem scansBlock {value : Value} (hvalue : value.Writable) : ScansBlock value := by
  induction hvalue with
  | scalar hkey => exact scansBlock_scalar hkey
  | seq _ ih => exact scansBlock_seq ih
  | map _ hkeys _ ih => exact scansBlock_map hkeys ih

end Block

end Playbook
