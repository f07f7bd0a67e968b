import Playbook.Proofs.BlockScan

/-!
The tokens of a rendered value.
-/

namespace Playbook

open TokenStream

namespace Value

/-! ### How many tokens there are -/

mutual

theorem length_flowTokens (value : Value) :
    value.flowTokens.length ≤ 4 * value.flowText.length + 1 := by
  match value with
  | seq [] => simp [flowTokens, flowText]
  | seq (item :: items) =>
      have hitem := length_flowTokens item
      have hitems := length_flowItemTokens items
      simp only [flowTokens, flowText, List.length_cons, List.length_append]
      omega
  | map [] => simp [flowTokens, flowText]
  | map ((key, value) :: entries) =>
      have hvalue := length_flowTokens value
      have hentries := length_flowEntryTokens entries
      simp only [flowTokens, flowText, List.length_cons, List.length_append]
      omega
  | null | bool _ | int _ | float _ | str _ => exact Nat.le_add_left 1 _
termination_by structural value

theorem length_flowItemTokens (items : List Value) :
    (flowItemTokens items).length ≤ 4 * (flowItems items).length := by
  match items with
  | [] => decide
  | item :: items =>
      have hitem := length_flowTokens item
      have hitems := length_flowItemTokens items
      simp only [flowItemTokens, flowItems, List.length_cons, List.length_append]
      omega
termination_by structural items

theorem length_flowEntryTokens (entries : List (Key × Value)) :
    (flowEntryTokens entries).length ≤ 4 * (flowEntries entries).length := by
  match entries with
  | [] => decide
  | (key, value) :: entries =>
      have hvalue := length_flowTokens value
      have hentries := length_flowEntryTokens entries
      simp only [flowEntryTokens, flowEntries, List.length_cons, List.length_append]
      omega
termination_by structural entries

end

mutual

theorem length_blockTokens (value : Value) (n : Nat) :
    value.blockTokens.length ≤ 4 * (value.blockTail n).length + 1 := by
  match value with
  | seq [] => simp [blockTokens, blockTail]
  | seq (item :: items) =>
      have hitems := length_blockItemTokens (item :: items) (n + 2)
      simp only [blockTokens, blockTail, List.length_cons, List.length_append, List.length_nil]
      omega
  | map [] => simp [blockTokens, blockTail]
  | map (entry :: entries) =>
      have hentries := length_blockEntryTokens (entry :: entries) (n + 2)
      simp only [blockTokens, blockTail, List.length_cons, List.length_append, List.length_nil]
      omega
  | null | bool _ | int _ | float _ | str _ => exact Nat.le_add_left 1 _
termination_by structural value

theorem length_blockItemTokens (items : List Value) (n : Nat) :
    (blockItemTokens items).length ≤ 4 * (blockItems n items).length := by
  match items with
  | [] => exact Nat.zero_le _
  | item :: items =>
      have hitem := length_blockTokens item n
      have hitems := length_blockItemTokens items n
      simp only [blockItemTokens, blockItems, List.length_cons, List.length_append]
      omega
termination_by structural items

theorem length_blockEntryTokens (entries : List (Key × Value)) (n : Nat) :
    (blockEntryTokens entries).length ≤ 4 * (blockEntries n entries).length := by
  match entries with
  | [] => exact Nat.zero_le _
  | (key, value) :: entries =>
      have hvalue := length_blockTokens value n
      have hentries := length_blockEntryTokens entries n
      simp only [blockEntryTokens, blockEntries, List.length_cons, List.length_append]
      omega
termination_by structural entries

end

end Value

/-! ### Whole texts -/

theorem start_shows (text : List Char) :
    (TokenStream.start text).Shows ⟨text, 0, 0, [], true, [.streamStart]⟩ :=
  ⟨rfl, rfl, rfl, rfl, rfl, fun _ => rfl, rfl, by simp [TokenStream.start]⟩

theorem ofText_of_scans {text : List Char} {column : Nat} {blocks : List Nat} {allowed : Bool}
    {kinds : List TokenKind}
    (hscan : Scans ⟨text, 0, 0, [], true, [.streamStart]⟩ ⟨[], column, 0, blocks, allowed, kinds⟩)
    (hwithin : ∀ n ∈ blocks.head?, n ≤ column)
    (hlength : kinds.length + blocks.length + 1 < 4 * text.length + 8) :
    ∃ tokens, Token.ofText text = ⟨tokens, none⟩ ∧ tokens.map Token.kind =
      kinds ++ List.replicate blocks.length .blockEnd ++ [.streamEnd] := by
  obtain ⟨s₁, ⟨s₂, hfetches, hsettled⟩, hs₁⟩ := hscan _ (start_shows text)
  obtain ⟨s', hfetch, hdone, hkinds⟩ := hs₁.fetch_end hwithin
  have hrun : (TokenStream.start text).Fetches s' := hfetches.tail (hfetch.of_settled hsettled)
  have hqueue : s'.queue.length < 4 * text.length + 8 := by
    rw [← List.length_map (f := Token.kind), hkinds]
    simp only [List.length_append, List.length_replicate, List.length_singleton]
    exact hlength
  exact ⟨s'.queue, Token.ofText_of_fetches hrun hdone hqueue, hkinds⟩

theorem ofText_flowText {value : Value} (hvalue : value.Writable) :
    ∃ tokens, Token.ofText value.flowText = ⟨tokens, none⟩ ∧
      tokens.map Token.kind = .streamStart :: (value.flowTokens ++ [.streamEnd]) := by
  have hscan : Scans ⟨value.flowText ++ [], 0, 0, [], true, [.streamStart]⟩
      ⟨[], 0 + value.flowText.length, 0, [], false, [.streamStart] ++ value.flowTokens⟩ :=
    scansFlow hvalue (ends_nil 0) (by simp)
  rw [List.append_nil] at hscan
  have hlength := value.length_flowTokens
  obtain ⟨tokens, htokens, hkinds⟩ := ofText_of_scans hscan (by simp) (by
    simp only [List.singleton_append, List.length_cons, List.length_nil]
    omega)
  exact ⟨tokens, htokens, by simpa using hkinds⟩

/-- The block of a collection at the start of the text is closed by the end of the text. -/
theorem ofText_lines {text : List Char} {tokens : List TokenKind}
    (hstart : atLine text [] [.streamStart] = ⟨text, 0, 0, [], true, [.streamStart]⟩)
    (hlength : tokens.length ≤ 4 * text.length + 1)
    (hscan : Scans (atLine (text ++ []) [] [.streamStart])
      (atLine [] [0] ([.streamStart] ++ tokens))) :
    ∃ ts, Token.ofText text = ⟨ts, none⟩ ∧
      ts.map Token.kind = .streamStart :: (tokens ++ [.blockEnd] ++ [.streamEnd]) := by
  rw [List.append_nil, hstart] at hscan
  obtain ⟨ts, hts, hkinds⟩ := ofText_of_scans hscan (by simp) (by
    simp only [List.singleton_append, List.length_cons, List.length_nil]
    omega)
  exact ⟨ts, hts, by simpa using hkinds⟩

theorem ofText_blockText {value : Value} (hvalue : value.Writable) :
    ∃ tokens, Token.ofText value.blockText = ⟨tokens, none⟩ ∧
      tokens.map Token.kind = .streamStart :: (value.blockTokens ++ [.streamEnd]) := by
  have hflow := ofText_flowText hvalue
  have hend : Line 0 [] := ⟨0, [], rfl, Nat.le_refl 0, by simp, rfl, rfl⟩
  cases hvalue with
  | @scalar key hkey =>
      rw [Value.flowText_toValue, Value.flowTokens_toValue] at hflow
      rw [Value.blockText_toValue, Value.blockTokens_toValue]
      exact hflow
  | @seq items hitems =>
      cases items with
      | nil => exact hflow
      | cons item items =>
          obtain ⟨hitem, hitems⟩ := List.forall_mem_cons.mp hitems
          have hlength := Value.length_blockItemTokens (item :: items) 0
          refine ofText_lines ?_ ?_ (scans_blockItems_first (scansBlock hitem)
            (fun item hmem => scansBlock (hitems item hmem)) hend (by simp))
          · exact atLine_spaces 0 (starts_dash (blockTail_blank _ _ _))
          · rw [List.length_cons]
            exact Nat.succ_le_succ hlength
  | @map entries hdistinct hkeys hvalues =>
      cases entries with
      | nil => exact hflow
      | cons entry entries =>
          obtain ⟨key, value⟩ := entry
          obtain ⟨hkey, hkeys⟩ := List.forall_mem_cons.mp hkeys
          obtain ⟨hvalue, hvalues⟩ := List.forall_mem_cons.mp hvalues
          have hlength := Value.length_blockEntryTokens ((key, value) :: entries) 0
          refine ofText_lines ?_ ?_ (scans_blockEntries_first hkey (scansBlock hvalue) hkeys
            (fun entry hmem => scansBlock (hvalues entry hmem)) hend (by simp))
          · exact atLine_spaces 0 (Key.text_starts hkey.1 _)
          · rw [List.length_cons]
            exact Nat.succ_le_succ hlength

end Playbook
