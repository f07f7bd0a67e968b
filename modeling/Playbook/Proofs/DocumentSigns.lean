import Playbook.Proofs.FetchActs

/-!
No key is pending at a document indicator. An indicator stands at the start of a line, and keys from
lines before are stale there. A key of the same line would have its token before the indicator, and
behind such a token no indicator starts on this line, neither inside of brackets nor outside. So
the indicator need not ask whether a key is required.
-/

namespace Playbook

namespace TokenStream

open Reader

variable {s s' t : TokenStream}

/-- Where a key of this line is pending, no document indicator follows on the line. -/
def Secluded (s : TokenStream) : Prop :=
  ∀ key ∈ s.keys, key.mark.line ≤ s.mark.line ∧
    (key.mark.line = s.mark.line → s.reader.Parted)

theorem Secluded.leads (h : s.Secluded) (hleads : s.reader.Leads s'.reader)
    (hkeys : ∀ key ∈ s'.keys, key ∈ s.keys) : s'.Secluded := by
  intro key hkey
  obtain ⟨hle, hparted⟩ := h key (hkeys key hkey)
  have hline : s.mark.line ≤ s'.mark.line := hleads.line_le
  refine ⟨Nat.le_trans hle hline, fun hsame => ?_⟩
  have hhere : key.mark.line = s.mark.line := by omega
  exact (hparted hhere).leads hleads (hsame.symm.trans hhere)

theorem Secluded.act (hact : s.Act s') (h : s.Secluded) : s'.Secluded := by
  cases hact with
  | skip _ hleads => exact h.leads hleads fun _ => id
  | drop => exact h.leads (.refl _) fun _ hkey => (List.mem_filter.mp hkey).1
  | @unwind column =>
      have hsame := (s.unwind_moved column).same
      refine h.leads ?_ ?_
      all_goals rw [hsame]
      · exact .refl _
      · exact fun _ => id
  | indent => exact h.leads (.refl _) fun _ => id
  | @insert key =>
      have hsame := s.forgetKey.insertKey_moved key
      refine h.leads ?_ ?_
      all_goals rw [hsame]
      · exact .refl _
      · exact s.forgetKey_dropped.keys
  | read _ _ hleads => exact h.leads hleads fun _ => id
  | @note token reader _ keyAllowed _ _ hleads hparts =>
      have hrest : Secluded { s.forgetKey.pushRead token reader with keyAllowed } :=
        h.leads hleads s.forgetKey_dropped.keys
      exact List.forall_mem_cons.mpr
        ⟨⟨hleads.line_le, fun hline => hparts hline.symm⟩, hrest⟩
  | enter => exact h.leads (.refl _) fun _ => id
  | leave => exact h.leads (.refl _) fun _ => id
  | finish => exact fun _ hkey => (List.not_mem_nil hkey).elim

theorem Reached.secluded {text : List Char} {handed : List Token} (h : Reached text handed s) :
    s.Secluded := by
  apply h.keeps (P := fun _ s => s.Secluded)
  · exact fun _ hkey => (List.not_mem_nil hkey).elim
  · exact fun _ _ _ _ hact hs => hs.act hact
  · exact fun _ _ _ _ _ _ hs => hs

/-- Keys that are pending where a token starts lie on its line. -/
theorem approach_line (h : s.approach = .ok t) : ∀ key ∈ t.keys, key.mark.line = t.mark.line := by
  obtain ⟨s₁, hdrop, h⟩ := bind_eq_ok_iff.mp h
  obtain ⟨-, rfl⟩ := dropStaleKeys_eq_ok_iff.mp hdrop
  cases h
  rw [(unwind_moved _ _).same]
  intro key hkey
  have hfresh := (List.mem_filter.mp hkey).2
  simp only [SimpleKey.isStale, Bool.not_or, Bool.and_eq_true, Bool.not_eq_true',
    bne_eq_false_iff_eq] at hfresh
  exact hfresh.1

theorem rest_of_atDocumentSign {c : Char} {sign : List Char}
    (h : s.atDocumentSign (c :: sign) = true) :
    s.mark.column = 0 ∧ ∃ rest, s.reader.rest = c :: rest := by
  simp only [atDocumentSign, startsWith, Bool.and_eq_true, beq_iff_eq,
    List.isPrefixOf_iff_prefix] at h
  obtain ⟨⟨hcolumn, rest, hrest⟩, -⟩ := h
  exact ⟨hcolumn, _, hrest.symm⟩

/-- A document indicator stands where the line is not parted. -/
theorem not_parted_of_sign
    (h : t.atDocumentSign ['-', '-', '-'] = true ∨ t.atDocumentSign ['.', '.', '.'] = true) :
    ¬ t.reader.Parted := by
  rintro (hcolumn | ⟨hdash, hdot, -⟩)
  · rcases h with h | h
    all_goals
      have hzero : t.reader.mark.column = 0 := (rest_of_atDocumentSign h).1
      omega
  · rcases h with h | h
    all_goals obtain ⟨-, rest, hrest⟩ := rest_of_atDocumentSign h
    · exact hdash (by simp [Reader.peek, hrest])
    · exact hdot (by simp [Reader.peek, hrest])

theorem fetchSign_of_sign
    (h : t.atDocumentSign ['-', '-', '-'] = true ∨ t.atDocumentSign ['.', '.', '.'] = true) :
    t.fetchSign = .ok (t.fetchDocumentSign .documentStart) ∨
      t.fetchSign = .ok (t.fetchDocumentSign .documentEnd) := by
  obtain ⟨hend, hpeek⟩ : t.reader.atEnd = false ∧ t.reader.peek ≠ '%' := by
    rcases h with h | h
    all_goals
      obtain ⟨-, rest, hrest⟩ := rest_of_atDocumentSign h
      simp [Reader.atEnd, Reader.peek, hrest]
  rw [fetchSign, if_neg (by simp [hend]), if_neg (by simp [hpeek])]
  by_cases hdashes : t.atDocumentSign ['-', '-', '-'] = true
  · rw [if_pos hdashes]
    exact Or.inl rfl
  · rw [if_neg hdashes, if_pos (h.resolve_left hdashes)]
    exact Or.inr rfl

/-- Where a document indicator is read, no key is pending at any level. So to forget the key of the
current level, as is done there, changes nothing, and neither would asking for a required one. -/
theorem Reached.no_key_at_sign {text : List Char} {handed : List Token} (h : Reached text handed s)
    (hdone : s.done = false) (happroach : s.approach = .ok t)
    (hsign : t.atDocumentSign ['-', '-', '-'] = true ∨ t.atDocumentSign ['.', '.', '.'] = true) :
    t.keys = [] ∧
    (t.fetchSign = .ok (t.fetchDocumentSign .documentStart) ∨
      t.fetchSign = .ok (t.fetchDocumentSign .documentEnd)) ∧
    (t.unwind (-1)).forgetKey = t.unwind (-1) ∧
    (t.unwind (-1)).removeKey = .ok (t.unwind (-1)) := by
  have hsecluded : t.Secluded := (approach_acts hdone happroach).1.keeps
    (fun _ _ _ hact hs => hs.act hact) h.secluded
  have hnone : t.keys = [] := by
    rw [List.eq_nil_iff_forall_not_mem]
    intro key hkey
    exact not_parted_of_sign hsign ((hsecluded key hkey).2 (approach_line happroach key hkey))
  have hunwound : (t.unwind (-1)).keys = [] := by
    rw [(t.unwind_moved (-1)).same]
    exact hnone
  refine ⟨hnone, fetchSign_of_sign hsign, ?_, ?_⟩
  · rw [forgetKey, hunwound, List.filter_nil, ← hunwound]
  · rw [removeKey, key?, hunwound, List.find?_nil]

/-- Behind an open bracket, whose key is pending until the line ends, there is an indicator on the
next line. -/
theorem Reached.no_key_at_sign_in_brackets :
    ∃ s t, Reached "[\n--- a".toList [⟨.streamStart, .origin, .origin⟩] s ∧ s.keys.length = 1 ∧
      s.done = false ∧ s.approach = .ok t ∧ t.flowLevel = 1 ∧
      t.atDocumentSign ['-', '-', '-'] = true ∧ t.keys = [] := by
  obtain ⟨s₁, s, t, hnext, hmore, hfetch, hkeys, hdone, happroach, hflow, hsign⟩ :
      ∃ s₁ s t, (TokenStream.start "[\n--- a".toList).next =
          .ok (some ⟨.streamStart, .origin, .origin⟩, s₁) ∧
        s₁.needsMore = .ok (true, s₁) ∧ s₁.fetch = .ok s ∧ s.keys.length = 1 ∧ s.done = false ∧
        s.approach = .ok t ∧ t.flowLevel = 1 ∧ t.atDocumentSign ['-', '-', '-'] = true :=
    ⟨_, _, _, rfl, rfl, rfl, rfl, rfl, rfl, rfl, rfl⟩
  have hs := (Reached.start.next hnext).fetch hmore hfetch
  exact ⟨s, t, hs, hkeys, hdone, happroach, hflow, hsign,
    (hs.no_key_at_sign hdone happroach (Or.inl hsign)).1⟩

end TokenStream

end Playbook
