import Playbook.Proofs.Outcome
import Playbook.Document

/-!
Writing values. The flow form puts a value on one line, as in JSON; the block form gives each item
of a collection lines of its own, two columns further in than the collection around it. Scalars are
written the same way in both.
-/

namespace Playbook

/-- The last `width` digits of a number in base sixteen. -/
def hexChars : Nat → Nat → List Char
  | 0, _ => []
  | width + 1, n => hexChars width (n / 16) ++ [Nat.digitChar (n % 16)]

/-- A character between double quotes. Quotes, backslashes and all but the printable characters of
ASCII are written as escapes. -/
def escapeChar (c : Char) : List Char :=
  if c = '"' then ['\\', '"']
  else if c = '\\' then ['\\', '\\']
  else if 0x20 ≤ c.toNat ∧ c.toNat < 0x7f then [c]
  else if c.toNat < 0x100 then '\\' :: 'x' :: hexChars 2 c.toNat
  else if c.toNat < 0x10000 then '\\' :: 'u' :: hexChars 4 c.toNat
  else '\\' :: 'U' :: hexChars 8 c.toNat

def intText (n : Int) : List Char :=
  if n < 0 then '-' :: Nat.toDigits 10 n.natAbs else Nat.toDigits 10 n.natAbs

namespace Key

/-- The text of a scalar. Numbers with a point have none. -/
def text : Key → List Char
  | null => ['n', 'u', 'l', 'l']
  | bool true => ['t', 'r', 'u', 'e']
  | bool false => ['f', 'a', 'l', 's', 'e']
  | int n => intText n
  | float _ => []
  | str s => '"' :: (s.toList.flatMap escapeChar ++ ['"'])

/-- Strings are quoted, all other scalars are plain. -/
def style : Key → Style
  | str _ => .double
  | _ => .plain

/-- The text of a scalar without its quotes. -/
def content : Key → String
  | str s => s
  | key => String.ofList key.text

/-- The token of a scalar. -/
def token (key : Key) : TokenKind := .scalar key.content key.style

/-- The scalars that can be written: whole numbers have 64 bits, without the smallest of them. -/
def Writable : Key → Prop
  | int n => Number.smallest < n ∧ n ≤ Number.largest
  | float _ => False
  | _ => True

instance : DecidablePred Writable
  | int n => inferInstanceAs (Decidable (Number.smallest < n ∧ n ≤ Number.largest))
  | float _ => inferInstanceAs (Decidable False)
  | null | bool _ | str _ => inferInstanceAs (Decidable True)

/-- The scalars that can be written as keys: they are short enough to be recognised. -/
def Simple (key : Key) : Prop := key.Writable ∧ key.text.length ≤ SimpleKey.maxLength

instance : DecidablePred Simple := fun _ => inferInstanceAs (Decidable (_ ∧ _))

end Key

namespace Value

/-- The text of a value that is a scalar. -/
def scalarText (value : Value) : List Char := (value.key?.map Key.text).getD []

mutual

/-- A value on one line. -/
def flowText : Value → List Char
  | seq [] => ['[', ']']
  | seq (item :: items) => '[' :: (item.flowText ++ flowItems items)
  | map [] => ['\x7b', '\x7d']
  | map ((key, value) :: entries) =>
      '\x7b' :: (key.text ++ ':' :: ' ' :: (value.flowText ++ flowEntries entries))
  | scalar => scalar.scalarText

/-- What follows an item of a sequence on its line. -/
def flowItems : List Value → List Char
  | [] => [']']
  | item :: items => ',' :: ' ' :: (item.flowText ++ flowItems items)

/-- What follows an entry of a mapping on its line. -/
def flowEntries : List (Key × Value) → List Char
  | [] => ['\x7d']
  | (key, value) :: entries =>
      ',' :: ' ' :: (key.text ++ ':' :: ' ' :: (value.flowText ++ flowEntries entries))

end

def spaces (n : Nat) : List Char := List.replicate n ' '

mutual

/-- What follows the dash or the colon before a value, in a collection at indentation `n`. -/
def blockTail (n : Nat) : Value → List Char
  | seq [] => [' ', '[', ']', '\n']
  | seq items => '\n' :: blockItems (n + 2) items
  | map [] => [' ', '\x7b', '\x7d', '\n']
  | map entries => '\n' :: blockEntries (n + 2) entries
  | scalar => ' ' :: (scalar.scalarText ++ ['\n'])

/-- The lines of the items of a sequence at indentation `n`. -/
def blockItems (n : Nat) : List Value → List Char
  | [] => []
  | item :: items => spaces n ++ '-' :: (item.blockTail n ++ blockItems n items)

/-- The lines of the entries of a mapping at indentation `n`. -/
def blockEntries (n : Nat) : List (Key × Value) → List Char
  | [] => []
  | (key, value) :: entries =>
      spaces n ++ (key.text ++ ':' :: (value.blockTail n ++ blockEntries n entries))

end

/-- A value as a block. A scalar or an empty collection has no lines of its own. -/
def blockText : Value → List Char
  | seq (item :: items) => blockItems 0 (item :: items)
  | map (entry :: entries) => blockEntries 0 (entry :: entries)
  | inline => inline.flowText

/-- The values that can be written: their scalars and their keys can, and the keys of a mapping are
distinct. -/
inductive Writable : Value → Prop
  | scalar {key : Key} (hkey : key.Writable) : Writable key.toValue
  | seq {items : List Value} (hitems : ∀ item ∈ items, Writable item) : Writable (seq items)
  | map {entries : List (Key × Value)} (hdistinct : (entries.map Prod.fst).Nodup)
      (hkeys : ∀ entry ∈ entries, entry.1.Simple) (hvalues : ∀ entry ∈ entries, Writable entry.2) :
      Writable (map entries)

/-- The token of a value that is a scalar. -/
def scalarTokens (value : Value) : List TokenKind := (value.key?.map Key.token).toList

mutual

/-- The tokens of a value on one line. -/
def flowTokens : Value → List TokenKind
  | seq [] => [.flowSequenceStart, .flowSequenceEnd]
  | seq (item :: items) => .flowSequenceStart :: (item.flowTokens ++ flowItemTokens items)
  | map [] => [.flowMappingStart, .flowMappingEnd]
  | map ((key, value) :: entries) =>
      .flowMappingStart :: .key :: key.token :: .value ::
        (value.flowTokens ++ flowEntryTokens entries)
  | scalar => scalar.scalarTokens

def flowItemTokens : List Value → List TokenKind
  | [] => [.flowSequenceEnd]
  | item :: items => .flowEntry :: (item.flowTokens ++ flowItemTokens items)

def flowEntryTokens : List (Key × Value) → List TokenKind
  | [] => [.flowMappingEnd]
  | (key, value) :: entries =>
      .flowEntry :: .key :: key.token :: .value :: (value.flowTokens ++ flowEntryTokens entries)

end

mutual

/-- The tokens of a value as a block. -/
def blockTokens : Value → List TokenKind
  | seq [] => [.flowSequenceStart, .flowSequenceEnd]
  | seq items => .blockSequenceStart :: (blockItemTokens items ++ [.blockEnd])
  | map [] => [.flowMappingStart, .flowMappingEnd]
  | map entries => .blockMappingStart :: (blockEntryTokens entries ++ [.blockEnd])
  | scalar => scalar.scalarTokens

def blockItemTokens : List Value → List TokenKind
  | [] => []
  | item :: items => .blockEntry :: (item.blockTokens ++ blockItemTokens items)

def blockEntryTokens : List (Key × Value) → List TokenKind
  | [] => []
  | (key, value) :: entries =>
      .key :: key.token :: .value :: (value.blockTokens ++ blockEntryTokens entries)

end

@[simp] theorem flowText_toValue (key : Key) : key.toValue.flowText = key.text := by
  cases key <;> rfl

@[simp] theorem flowTokens_toValue (key : Key) : key.toValue.flowTokens = [key.token] := by
  cases key <;> rfl

@[simp] theorem blockTokens_toValue (key : Key) : key.toValue.blockTokens = [key.token] := by
  cases key <;> rfl

@[simp] theorem blockTail_toValue (n : Nat) (key : Key) :
    key.toValue.blockTail n = ' ' :: (key.text ++ ['\n']) := by
  cases key <;> rfl

@[simp] theorem blockText_toValue (key : Key) : key.toValue.blockText = key.text := by
  cases key <;> rfl

end Value

end Playbook
