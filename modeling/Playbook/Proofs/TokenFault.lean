import Playbook.Proofs.TokenBudget
import Playbook.Proofs.TokenQueue

/-!
What cuts the tokens of a text short. Tokens are handed out while later ones are still unread, and
keys are looked at more often than tokens are read; but what goes wrong then goes wrong just so if
the text is read and no token is handed out. As reading is deterministic, there is one run to look
at.
-/

namespace Playbook

namespace TokenStream

variable {s s' s₁ : TokenStream} {d : Diagnostic}

/-! ### The run -/

theorem fetch_rightUnique : Relator.RightUnique Fetch := by
  intro s s₁ s₂ h₁ h₂
  exact Except.ok.inj (h₁.2.symm.trans h₂.2)

/-- Of two states of a run one comes first. -/
theorem Fetches.total {s₂ : TokenStream} (h₁ : s.Fetches s₁) (h₂ : s.Fetches s₂) :
    s₁.Fetches s₂ ∨ s₂.Fetches s₁ :=
  Relation.ReflTransGen.total_of_right_unique fetch_rightUnique h₁ h₂

theorem Fetches.keyed (h : s.Fetches s') (hs : s.Keyed) : s'.Keyed := by
  induction h with
  | refl => exact hs
  | tail _ hfetch ih => exact ih.fetch hfetch.2

theorem Fetches.leads (h : s.Fetches s') : s.reader.Leads s'.reader := by
  induction h with
  | refl => exact .refl _
  | tail _ hfetch ih => exact ih.trans (fetch_fetched hfetch.2).reader

theorem Fetches.taken (h : s.Fetches s') : s'.taken = s.taken := by
  induction h with
  | refl => rfl
  | tail _ hfetch ih => exact (fetch_fetched hfetch.2).taken.trans ih

theorem Fetches.hold {token : Token} (h : s.Fetches s') (hs : s.Keyed) (htaken : 0 < s.taken) :
    (s.hold token).Fetches (s'.hold token) := by
  induction h with
  | refl => exact .refl
  | @tail s₁ s₂ hfetches hfetch ih =>
      have htaken₁ : 0 < s₁.taken := by rwa [Fetches.taken hfetches]
      have hkeyed : s₁.Keyed := Fetches.keyed hfetches hs
      refine ih.tail ⟨hfetch.1, ?_⟩
      rw [fetch_hold htaken₁ hkeyed.taken_le, hfetch.2]
      rfl

/-- Reading on goes wrong: at the next token, or with the keys that are pending. -/
def Breaks (s : TokenStream) (d : Diagnostic) : Prop :=
  ∃ e, s.Fetches e ∧ e.done = false ∧ (e.fetch = .error d ∨ e.dropStaleKeys = .error d)

theorem Breaks.of_fetches (h : s.Fetches s') (hbreaks : s'.Breaks d) : s.Breaks d := by
  obtain ⟨e, hfetches, he⟩ := hbreaks
  exact ⟨e, h.trans hfetches, he⟩

theorem Breaks.not_done (h : s.Breaks d) : s.done = false := by
  obtain ⟨e, hfetches, hopen, -⟩ := h
  rcases Relation.ReflTransGen.cases_head hfetches with rfl | ⟨s₁, hfirst, -⟩
  · exact hopen
  · exact hfirst.1

/-- Once the stale keys are dropped, none is left. -/
theorem Breaks.of_dropStaleKeys (hs : s.Keyed) (hdone : s.done = false)
    (h : s.dropStaleKeys = .ok s₁) (hbreaks : s₁.Breaks d) : s.Breaks d := by
  have hfetch := fetch_of_dropStaleKeys hs h
  obtain ⟨e, hfetches, hopen, he⟩ := hbreaks
  rcases Relation.ReflTransGen.cases_head hfetches with rfl | ⟨s₂, hfirst, hrest⟩
  · refine ⟨s, .refl, hdone, he.imp (fun herror => hfetch ▸ herror) fun herror => ?_⟩
    cases (dropStaleKeys_again h).symm.trans herror
  · exact ⟨e, .head ⟨hdone, hfetch ▸ hfirst.2⟩ hrest, hopen, he⟩

/-- What goes wrong behind a token that was handed out goes wrong if it is held back, too. -/
theorem Breaks.hold {token : Token} (hs : s.Keyed) (htaken : 0 < s.taken) (h : s.Breaks d) :
    (s.hold token).Breaks d := by
  obtain ⟨e, hfetches, hopen, he⟩ := h
  have hkeyed := hfetches.keyed hs
  have htaken' : 0 < e.taken := by rwa [hfetches.taken]
  refine ⟨e.hold token, hfetches.hold hs htaken, hopen, he.imp (fun herror => ?_) fun herror => ?_⟩
  · rw [fetch_hold htaken' hkeyed.taken_le, herror]
    rfl
  · rw [dropStaleKeys_hold, herror]
    rfl

/-! ### Handing tokens out -/

theorem fillFor_breaks {n : Nat} (hs : s.Keyed) (h : fillFor n s = .error d)
    (hcontext : d.context ≠ none) : s.Breaks d := by
  induction n generalizing s with
  | zero =>
      cases h
      exact absurd rfl hcontext
  | succ n ih =>
      -- What follows a look at the keys, which leaves the next token as it is.
      have hnext : ∀ {s₁ : TokenStream}, s.done = false → s₁.fetch = s.fetch →
          (s₁.fetch >>= fillFor n) = .error d → s.Breaks d := by
        intro s₁ hdone hfetch hrest
        rw [hfetch] at hrest
        rcases bind_eq_error_iff.mp hrest with herror | ⟨s₂, hok, hrest⟩
        · exact ⟨s, .refl, hdone, Or.inl herror⟩
        · exact (ih (hs.fetch hok) hrest).of_fetches (.single ⟨hdone, hok⟩)
      rw [fillFor, needsMore] at h
      split_ifs at h with hdone hempty
      · cases h
      · exact hnext (by simpa using hdone) rfl h
      · have hdone : s.done = false := by simpa using hdone
        cases hdrop : s.dropStaleKeys with
        | error d' =>
            rw [hdrop] at h
            cases h
            exact ⟨s, .refl, hdone, Or.inr hdrop⟩
        | ok s₁ =>
            rw [hdrop, ok_bind, pure_eq_ok, ok_bind] at h
            dsimp only at h
            split_ifs at h
            · exact hnext hdone (fetch_of_dropStaleKeys hs hdrop) h
            · cases h

theorem fill_eq_error (h : s.next = .error d) : s.fill = .error d := by
  rcases bind_eq_error_iff.mp h with hfill | ⟨s₁, -, hhand⟩
  · exact hfill
  · cases hqueue : s₁.queue <;> simp [hqueue] at hhand

/-- The stream comes of one that only reads, but for stale keys. -/
def ComesOf (s s₁ : TokenStream) : Prop :=
  s₁.Keyed ∧ ∃ s', s.Fetches s' ∧ (s₁ = s' ∨ s'.dropStaleKeys = .ok s₁)

theorem ComesOf.dropped {s₂ : TokenStream} (h : s.ComesOf s₁) (hdrop : s₁.dropStaleKeys = .ok s₂) :
    s.ComesOf s₂ := by
  obtain ⟨hkeyed, s', hfetches, hdropped⟩ := h
  refine ⟨hkeyed.dropped (dropStaleKeys_dropped hdrop), s', hfetches, Or.inr ?_⟩
  rcases hdropped with rfl | hdropped
  · exact hdrop
  · cases (dropStaleKeys_again hdropped).symm.trans hdrop
    exact hdropped

theorem ComesOf.fetch {s₂ : TokenStream} (hs : s.Keyed) (h : s.ComesOf s₁) (hdone : s₁.done = false)
    (hfetch : s₁.fetch = .ok s₂) : s.ComesOf s₂ := by
  obtain ⟨hkeyed, s', hfetches, hdropped⟩ := h
  refine ⟨hkeyed.fetch hfetch, s₂, hfetches.tail ?_, Or.inl rfl⟩
  rcases hdropped with rfl | hdropped
  · exact ⟨hdone, hfetch⟩
  · have hdone' : s'.done = false := by
      rw [(dropStaleKeys_dropped hdropped).same] at hdone
      exact hdone
    exact ⟨hdone', (fetch_of_dropStaleKeys (hfetches.keyed hs) hdropped).symm.trans hfetch⟩

theorem fill_comesOf (hs : s.Keyed) (h : s.fill = .ok s₁) :
    s.ComesOf s₁ ∧ (s₁.done = false → s₁.queue ≠ [] ∧ s₁.frontIsOpen = false) :=
  fillFor_keeps (P := s.ComesOf) (fun _ _ hdrop hcomes => hcomes.dropped hdrop)
    (fun _ _ hdone hfetch hcomes => hcomes.fetch hs hdone hfetch) ⟨hs, s, .refl, Or.inl rfl⟩ h

theorem ComesOf.breaks (hs : s.Keyed) (h : s.ComesOf s₁) (hbreaks : s₁.Breaks d) : s.Breaks d := by
  obtain ⟨-, s', hfetches, rfl | hdropped⟩ := h
  · exact hbreaks.of_fetches hfetches
  · have hdone : s'.done = s₁.done := by rw [(dropStaleKeys_dropped hdropped).same]
    have hopen : s'.done = false := hdone.trans hbreaks.not_done
    exact (hbreaks.of_dropStaleKeys (hfetches.keyed hs) hopen hdropped).of_fetches hfetches

/-- Whatever cuts the tokens short goes wrong if none is handed out, too. -/
theorem collect_breaks {n : Nat} (hs : s.done = false → s.Keyed)
    (h : (s.collect n).fault = some d) (hcontext : d.context ≠ none) : s.Breaks d := by
  induction n generalizing s with
  | zero =>
      cases h
      exact absurd rfl hcontext
  | succ n ih =>
      rw [collect] at h
      cases hnext : s.next with
      | error d' =>
          rw [hnext] at h
          cases h
          have hfill := fill_eq_error hnext
          cases hdone : s.done with
          | true => cases (fill_of_done hdone).symm.trans hfill
          | false => exact fillFor_breaks (hs hdone) hfill hcontext
      | ok found =>
          obtain ⟨_ | token, s₂⟩ := found
          · rw [hnext] at h
            cases h
          rw [hnext] at h
          obtain ⟨s₁, queue, hfill, hqueue, rfl⟩ := next_eq_some hnext
          have hopen : s₁.done = false → s.done = false := by
            intro hdone₁
            by_contra hdone
            cases (fill_of_done (by simpa using hdone)).symm.trans hfill
            exact hdone hdone₁
          have hkeyed : s₁.done = false → Keyed { s₁ with queue, taken := s₁.taken + 1 } := by
            intro hdone₁
            obtain ⟨hcomes, hfront⟩ := fill_comesOf (hs (hopen hdone₁)) hfill
            exact hcomes.1.handed (hfront hdone₁).2 queue
          have hbreaks := ih hkeyed h
          have hdone₁ : s₁.done = false := hbreaks.not_done
          have hheld : hold token { s₁ with queue, taken := s₁.taken + 1 } = s₁ := by
            rw [hold, ← hqueue]
            rfl
          have hbreaks₁ : s₁.Breaks d := hheld ▸ hbreaks.hold (hkeyed hdone₁) (Nat.succ_pos _)
          exact (fill_comesOf (hs (hopen hdone₁)) hfill).1.breaks (hs (hopen hdone₁)) hbreaks₁

end TokenStream

theorem Token.ofText_breaks {text : List Char} {d : Diagnostic} (h : (ofText text).fault = some d)
    (hcontext : d.context ≠ none) : (TokenStream.start text).Breaks d :=
  TokenStream.collect_breaks (fun _ => TokenStream.keyed_start text) h hcontext

/-! ### What goes wrong cuts the tokens short -/

namespace TokenStream

variable {s s' s₁ : TokenStream} {d : Diagnostic}

/-- Reading on goes wrong at the next token that is read, and not with the keys that are pending. -/
def Stops (s : TokenStream) (d : Diagnostic) : Prop :=
  ∃ e, s.Fetches e ∧ e.done = false ∧ (∃ e₁, e.dropStaleKeys = .ok e₁) ∧ e.fetch = .error d

theorem Stops.breaks (h : s.Stops d) : s.Breaks d := by
  obtain ⟨e, hfetches, hopen, -, herror⟩ := h
  exact ⟨e, hfetches, hopen, Or.inl herror⟩

theorem Stops.of_fetches (h : s.Fetches s') (hstops : s'.Stops d) : s.Stops d := by
  obtain ⟨e, hfetches, he⟩ := hstops
  exact ⟨e, h.trans hfetches, he⟩

/-- The next token is read, or it is what goes wrong. -/
theorem Stops.fetch (h : s.Stops d) :
    s.fetch = .error d ∨ ∃ s', s.fetch = .ok s' ∧ s'.Stops d := by
  obtain ⟨e, hfetches, hopen, hdrop, herror⟩ := h
  rcases Relation.ReflTransGen.cases_head hfetches with rfl | ⟨s', hfirst, hrest⟩
  · exact Or.inl herror
  · exact Or.inr ⟨s', hfirst.2, e, hrest, hopen, hdrop, herror⟩

theorem Stops.exists_dropStaleKeys (hs : s.Keyed) (h : s.Stops d) :
    ∃ s₁, s.dropStaleKeys = .ok s₁ ∧ s₁.Stops d := by
  have hdone := h.breaks.not_done
  obtain ⟨e, hfetches, hopen, ⟨e₁, hdrop⟩, herror⟩ := h
  rcases Relation.ReflTransGen.cases_head hfetches with rfl | ⟨s', hfirst, hrest⟩
  · have hopen₁ : e₁.done = false := by rw [(dropStaleKeys_dropped hdrop).same, hdone]
    refine ⟨e₁, hdrop, e₁, .refl, hopen₁, ⟨e₁, dropStaleKeys_again hdrop⟩, ?_⟩
    rw [fetch_of_dropStaleKeys hs hdrop, herror]
  · obtain ⟨s₁, hdrop₁, hfetch₁⟩ := fetch_dropStaleKeys hs hfirst.2
    have hdone₁ : s₁.done = false := by rw [(dropStaleKeys_dropped hdrop₁).same, hdone]
    exact ⟨s₁, hdrop₁, e, .head ⟨hdone₁, hfetch₁⟩ hrest, hopen, ⟨e₁, hdrop⟩, herror⟩

theorem Stops.of_hold {token : Token} (hs : s.Keyed) (htaken : 0 < s.taken)
    (h : (s.hold token).Stops d) : s.Stops d := by
  obtain ⟨e, hfetches, hopen, ⟨e₁, hdrop⟩, herror⟩ := h
  obtain ⟨e₀, hfetches₀, rfl⟩ := fetches_of_hold (fun _ => hs) htaken hfetches
  have htaken₀ : 0 < e₀.taken := by rwa [hfetches₀.taken]
  rw [dropStaleKeys_hold] at hdrop
  rw [fetch_hold htaken₀ (hfetches₀.keyed hs).taken_le] at herror
  obtain ⟨e₂, hdrop₂, -⟩ := map_eq_ok_iff.mp hdrop
  refine ⟨e₀, hfetches₀, hopen, ⟨e₂, hdrop₂⟩, ?_⟩
  cases hfetch : e₀.fetch with
  | error d' =>
      rw [hfetch] at herror
      cases herror
      rfl
  | ok e₃ =>
      rw [hfetch] at herror
      cases herror

theorem fillFor_eq_error_of_stops {n : Nat} {d' : Diagnostic} (hs : s.Keyed) (hstops : s.Stops d)
    (hn : s.unread < n) (h : fillFor n s = .error d') : d' = d := by
  induction n generalizing s with
  | zero => omega
  | succ n ih =>
      -- What follows a look at the keys, if the first token cannot be handed out yet.
      have hnext : ∀ {s₁ : TokenStream}, s₁.fetch = s.fetch →
          (s₁.fetch >>= fillFor n) = .error d' → d' = d := by
        intro s₁ hfetch hrest
        rw [hfetch] at hrest
        rcases hstops.fetch with herror | ⟨s₂, hok, hstops₂⟩
        · rw [herror] at hrest
          cases hrest
          rfl
        · have hlt := unread_lt_of_fetch ⟨hstops.breaks.not_done, hok⟩
          rw [hok, ok_bind] at hrest
          exact ih (hs.fetch hok) hstops₂ (by omega) hrest
      obtain ⟨s₁, hdrop, -⟩ := hstops.exists_dropStaleKeys hs
      rw [fillFor, needsMore, if_neg (by simp [hstops.breaks.not_done])] at h
      split_ifs at h with hempty
      · exact hnext rfl h
      · rw [hdrop, ok_bind, pure_eq_ok, ok_bind] at h
        dsimp only at h
        split_ifs at h
        · exact hnext (fetch_of_dropStaleKeys hs hdrop) h
        · cases h

theorem fill_stops (hs : s.Keyed) (h : s.Stops d) (hfill : s.fill = .ok s₁) :
    s₁.Keyed ∧ s₁.Stops d ∧ s₁.frontIsOpen = false := by
  have hkeeps := fillFor_keeps (P := fun s => s.Keyed ∧ s.Stops d) ?_ ?_ ⟨hs, h⟩ hfill
  · obtain ⟨⟨hkeyed, hstops⟩, hfront⟩ := hkeeps
    exact ⟨hkeyed, hstops, (hfront hstops.breaks.not_done).2⟩
  · rintro s s' hdrop ⟨hkeyed, hstops⟩
    obtain ⟨s₂, hdrop₂, hstops₂⟩ := hstops.exists_dropStaleKeys hkeyed
    cases hdrop.symm.trans hdrop₂
    exact ⟨hkeyed.dropped (dropStaleKeys_dropped hdrop), hstops₂⟩
  · rintro s s' - hfetch ⟨hkeyed, hstops⟩
    refine ⟨hkeyed.fetch hfetch, ?_⟩
    rcases hstops.fetch with herror | ⟨s₂, hok, hstops₂⟩
    · cases hfetch.symm.trans herror
    · cases hfetch.symm.trans hok
      exact hstops₂

theorem Hands.stops {tokens : List Token} (h : s.Hands tokens s') (hs : s.Keyed)
    (hstops : s.Stops d) : s'.Keyed ∧ s'.Stops d := by
  induction h with
  | nil => exact ⟨hs, hstops⟩
  | @cons s s' last token tokens hnext _ ih =>
      obtain ⟨s₁, queue, hfill, hqueue, rfl⟩ := next_eq_some hnext
      obtain ⟨hkeyed, hstops₁, hfront⟩ := fill_stops hs hstops hfill
      have hhanded := hkeyed.handed hfront queue
      have hheld : hold token { s₁ with queue, taken := s₁.taken + 1 } = s₁ := by
        rw [hold, ← hqueue]
        rfl
      exact ih hhanded (Stops.of_hold hhanded (Nat.succ_pos _) (by rwa [hheld]))

end TokenStream

/-- What goes wrong at a token that is read is what cuts the tokens short. -/
theorem Token.ofText_fault_of_stops {text : List Char} {d : Diagnostic}
    (h : (TokenStream.start text).Stops d) : (ofText text).fault = some d := by
  have hbudget : (TokenStream.start text).budget < 4 * text.length + 8 := by
    rw [TokenStream.budget_start]
    omega
  obtain ⟨last, hhands, hend⟩ := TokenStream.collect_hands (TokenStream.based_start text) hbudget
  obtain ⟨hkeyed, hstops⟩ := hhands.stops (TokenStream.keyed_start text) h
  rcases hend with ⟨-, s', hnone⟩ | ⟨d', hfault, hnext⟩
  · cases hstops.breaks.not_done.symm.trans (TokenStream.next_none hnone).2.1
  · have hunread : last.unread < last.reader.rest.length + 2 := by
      unfold TokenStream.unread
      split_ifs <;> omega
    rw [ofText, hfault,
      TokenStream.fillFor_eq_error_of_stops hkeyed hstops hunread (TokenStream.fill_eq_error hnext)]

end Playbook
