import Playbook.Proofs.TokenScan

/-!
The tokens of a value on one line. Whatever brackets and blocks are around it, the value is read up
to what follows, and its tokens join those that were read before.
-/

namespace Playbook

open TokenStream Value

/-- The text behind a value on one line: its end, or a sign that ends plain scalars. -/
structure Ends (level : Nat) (text : List Char) : Prop where
  starts : Starts text
  plainPiece : plainPiece (level != 0) text = []

theorem ends_nil (level : Nat) : Ends level [] := ⟨⟨by simp, rfl, rfl⟩, rfl⟩

theorem ends_comma (level : Nat) (text : List Char) : Ends (level + 1) (',' :: text) :=
  ⟨starts_cons (by decide) (by decide) (by decide), rfl⟩

theorem ends_closing (bracket : Bracket) (level : Nat) (text : List Char) :
    Ends (level + 1) (bracket.closing :: text) := by
  refine ⟨bracket.closing_starts text, ?_⟩
  cases bracket <;> rfl

theorem ends_flowItems (items : List Value) (level : Nat) (text : List Char) :
    Ends (level + 1) (flowItems items ++ text) := by
  cases items with
  | nil => exact ends_closing .square level text
  | cons item items => exact ends_comma level _

theorem ends_flowEntries (entries : List (Key × Value)) (level : Nat) (text : List Char) :
    Ends (level + 1) (flowEntries entries ++ text) := by
  cases entries with
  | nil => exact ends_closing .curly level text
  | cons entry entries => exact ends_comma level _

theorem flowText_starts {value : Value} (hvalue : value.Writable) (rest : List Char) :
    Starts (value.flowText ++ rest) := by
  cases hvalue with
  | scalar hkey =>
      rw [flowText_toValue]
      exact Key.text_starts hkey rest
  | @seq items _ => cases items <;> exact Bracket.square.opening_starts _
  | @map entries _ _ _ => cases entries <;> exact Bracket.curly.opening_starts _

/-- A value on one line is read as its tokens. -/
def ScansFlow (value : Value) : Prop :=
  ∀ {rest : List Char} {column level : Nat} {blocks : List Nat} {allowed : Bool}
    {kinds : List TokenKind}, Ends level rest → (level = 0 → ∀ n ∈ blocks.head?, n < column) →
    Scans ⟨value.flowText ++ rest, column, level, blocks, allowed, kinds⟩
      ⟨rest, column + value.flowText.length, level, blocks, false, kinds ++ value.flowTokens⟩

section Flow

variable {rest : List Char} {column level : Nat} {blocks : List Nat} {allowed : Bool}
  {kinds : List TokenKind}

theorem scans_flowItems {items : List Value} (hwritable : ∀ item ∈ items, item.Writable)
    (hitems : ∀ item ∈ items, ScansFlow item) :
    Scans ⟨flowItems items ++ rest, column, level + 1, blocks, allowed, kinds⟩
      ⟨rest, column + (flowItems items).length, level, blocks, false,
        kinds ++ flowItemTokens items⟩ := by
  induction items generalizing column allowed kinds with
  | nil => exact scans_closing .square
  | cons item items ih =>
      obtain ⟨hitem, hitems⟩ := List.forall_mem_cons.mp hitems
      obtain ⟨hfirst, hwritable⟩ := List.forall_mem_cons.mp hwritable
      have htext : flowItems (item :: items) ++ rest =
          ',' :: (spaces 1 ++ (item.flowText ++ (flowItems items ++ rest))) := by
        simp [flowItems, spaces]
      have hlength : column + (flowItems (item :: items)).length =
          column + 1 + 1 + item.flowText.length + (flowItems items).length := by
        simp only [flowItems, List.length_cons, List.length_append]
        omega
      have hkinds : kinds ++ flowItemTokens (item :: items) =
          kinds ++ [.flowEntry] ++ item.flowTokens ++ flowItemTokens items := by
        simp [flowItemTokens]
      rw [htext, hlength, hkinds]
      apply Scans.trans scans_comma
      apply Scans.trans (scans_spaces 1 (flowText_starts hfirst _))
      apply Scans.trans (hitem (ends_flowItems items level rest) (by rintro ⟨⟩))
      exact ih hwritable hitems

theorem scansFlow_seq {items : List Value} (hwritable : ∀ item ∈ items, item.Writable)
    (hitems : ∀ item ∈ items, ScansFlow item) : ScansFlow (.seq items) := by
  intro rest column level blocks allowed kinds _ hinside
  cases items with
  | nil => exact scans_empty .square hinside
  | cons item items =>
      obtain ⟨hitem, hitems⟩ := List.forall_mem_cons.mp hitems
      obtain ⟨-, hwritable⟩ := List.forall_mem_cons.mp hwritable
      have htext : flowText (.seq (item :: items)) ++ rest =
          '[' :: (item.flowText ++ (flowItems items ++ rest)) := by
        simp [flowText]
      have hlength : column + (flowText (.seq (item :: items))).length =
          column + 1 + item.flowText.length + (flowItems items).length := by
        simp only [flowText, List.length_cons, List.length_append]
        omega
      have hkinds : kinds ++ flowTokens (.seq (item :: items)) =
          kinds ++ [.flowSequenceStart] ++ item.flowTokens ++ flowItemTokens items := by
        simp [flowTokens]
      rw [htext, hlength, hkinds]
      apply Scans.trans (scans_opening .square hinside)
      apply Scans.trans (hitem (ends_flowItems items level rest) (by rintro ⟨⟩))
      exact scans_flowItems hwritable hitems

/-- One entry of a mapping. -/
theorem scans_flowEntry {key : Key} {value : Value} (hkey : key.Simple) (hwritable : value.Writable)
    (hvalue : ScansFlow value) (hrest : Ends (level + 1) rest) :
    Scans ⟨key.text ++ ':' :: ' ' :: (value.flowText ++ rest), column, level + 1, blocks, true,
        kinds⟩
      ⟨rest, column + key.text.length + 1 + 1 + value.flowText.length, level + 1, blocks, false,
        kinds ++ [.key, key.token, .value] ++ value.flowTokens⟩ := by
  apply Scans.trans (scans_key hkey rfl (by rintro ⟨⟩))
  apply Scans.trans (scans_spaces 1 (flowText_starts hwritable rest))
  exact hvalue hrest (by rintro ⟨⟩)

theorem scans_flowEntries {entries : List (Key × Value)}
    (hkeys : ∀ entry ∈ entries, entry.1.Simple)
    (hwritable : ∀ entry ∈ entries, entry.2.Writable)
    (hvalues : ∀ entry ∈ entries, ScansFlow entry.2) :
    Scans ⟨flowEntries entries ++ rest, column, level + 1, blocks, allowed, kinds⟩
      ⟨rest, column + (flowEntries entries).length, level, blocks, false,
        kinds ++ flowEntryTokens entries⟩ := by
  induction entries generalizing column allowed kinds with
  | nil => exact scans_closing .curly
  | cons entry entries ih =>
      obtain ⟨key, value⟩ := entry
      obtain ⟨hkey, hkeys⟩ := List.forall_mem_cons.mp hkeys
      obtain ⟨hfirst, hwritable⟩ := List.forall_mem_cons.mp hwritable
      obtain ⟨hvalue, hvalues⟩ := List.forall_mem_cons.mp hvalues
      have htext : flowEntries ((key, value) :: entries) ++ rest =
          ',' :: (spaces 1 ++
            (key.text ++ ':' :: ' ' :: (value.flowText ++ (flowEntries entries ++ rest)))) := by
        simp [flowEntries, spaces]
      have hlength : column + (flowEntries ((key, value) :: entries)).length =
          column + 1 + 1 + key.text.length + 1 + 1 + value.flowText.length +
            (flowEntries entries).length := by
        simp only [flowEntries, List.length_cons, List.length_append]
        omega
      have hkinds : kinds ++ flowEntryTokens ((key, value) :: entries) =
          kinds ++ [.flowEntry] ++ [.key, key.token, .value] ++ value.flowTokens ++
            flowEntryTokens entries := by
        simp [flowEntryTokens]
      rw [htext, hlength, hkinds]
      apply Scans.trans scans_comma
      apply Scans.trans (scans_spaces 1 (Key.text_starts hkey.1 _))
      apply Scans.trans (scans_flowEntry hkey hfirst hvalue
        (ends_flowEntries entries level rest))
      exact ih hkeys hwritable hvalues

theorem scansFlow_map {entries : List (Key × Value)}
    (hkeys : ∀ entry ∈ entries, entry.1.Simple)
    (hwritable : ∀ entry ∈ entries, entry.2.Writable)
    (hvalues : ∀ entry ∈ entries, ScansFlow entry.2) : ScansFlow (.map entries) := by
  intro rest column level blocks allowed kinds _ hinside
  cases entries with
  | nil => exact scans_empty .curly hinside
  | cons entry entries =>
      obtain ⟨key, value⟩ := entry
      obtain ⟨hkey, hkeys⟩ := List.forall_mem_cons.mp hkeys
      obtain ⟨hfirst, hwritable⟩ := List.forall_mem_cons.mp hwritable
      obtain ⟨hvalue, hvalues⟩ := List.forall_mem_cons.mp hvalues
      have htext : flowText (.map ((key, value) :: entries)) ++ rest =
          '\x7b' :: (key.text ++ ':' :: ' ' ::
            (value.flowText ++ (flowEntries entries ++ rest))) := by
        simp [flowText]
      have hlength : column + (flowText (.map ((key, value) :: entries))).length =
          column + 1 + key.text.length + 1 + 1 + value.flowText.length +
            (flowEntries entries).length := by
        simp only [flowText, List.length_cons, List.length_append]
        omega
      have hkinds : kinds ++ flowTokens (.map ((key, value) :: entries)) =
          kinds ++ [.flowMappingStart] ++ [.key, key.token, .value] ++ value.flowTokens ++
            flowEntryTokens entries := by
        simp [flowTokens]
      rw [htext, hlength, hkinds]
      apply Scans.trans (scans_opening .curly hinside)
      apply Scans.trans (scans_flowEntry hkey hfirst hvalue
        (ends_flowEntries entries level rest))
      exact scans_flowEntries hkeys hwritable hvalues

theorem scansFlow {value : Value} (hvalue : value.Writable) : ScansFlow value := by
  induction hvalue with
  | @scalar key hkey =>
      intro rest column level blocks allowed kinds hrest hinside
      rw [flowText_toValue, flowTokens_toValue]
      exact scans_scalar hkey hrest.starts hrest.plainPiece hinside
  | seq hitems ih => exact scansFlow_seq hitems ih
  | map _ hkeys hvalues ih => exact scansFlow_map hkeys hvalues ih

end Flow

end Playbook
