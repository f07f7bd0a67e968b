import Playbook.Proofs.TokenStep

/-!
Whole runs of a token stream. Whatever goes wrong in one is a fault of the tokens, and unless
something does the tokens go on to the end of the stream.
-/

namespace Playbook

namespace Reader

/-- A problem with the tokens ahead. If it was found in a quoted scalar, then it is what reading on
from the opening quote of that scalar ends with. -/
structure Blames (r : Reader) (d : Diagnostic) : Prop where
  stage : d.stage = .tokens
  quoted : d.context = some .quoted → ∃ double quote, r.Leads quote ∧
    quote.peek = (if double then '"' else '\'') ∧ readQuoted double quote = .error d
  other : ∀ words, d.context ≠ some (.other words)

theorem Blames.mono {r r' : Reader} {d : Diagnostic} (hd : r'.Blames d) (h : r.Leads r') :
    r.Blames d := by
  refine ⟨hd.stage, fun hcontext => ?_, hd.other⟩
  obtain ⟨double, quote, hleads, hread⟩ := hd.quoted hcontext
  exact ⟨double, quote, h.trans hleads, hread⟩

theorem Blames.plain {r : Reader} (problem : Problem) (mark : Mark) :
    r.Blames (.plain .tokens problem mark) :=
  ⟨rfl, nofun, nofun⟩

end Reader

theorem FaultsAmid.blames {α : Type} {x : Except Diagnostic α} {activities : List Activity}
    {start : Mark} {r : Reader} (h : FaultsAmid activities start x)
    (hquoted : .quoted ∉ activities) (hother : ∀ words, .other words ∉ activities) :
    Faults r.Blames x := by
  intro d hd
  obtain ⟨activity, hactivity, problem, mark, rfl⟩ := h d hd
  refine ⟨rfl, fun hcontext => ?_, fun words hcontext => ?_⟩
  · cases hcontext
    exact absurd hactivity hquoted
  · cases hcontext
    exact absurd hactivity (hother words)

theorem readQuoted_blamed {double : Bool} {r : Reader}
    (hpeek : r.peek = if double then '"' else '\'') : Faults r.Blames (readQuoted double r) := by
  intro d hd
  obtain ⟨activity, hactivity, problem, mark, rfl⟩ := readQuoted_faults double r d hd
  refine ⟨rfl, fun _ => ⟨double, r, .refl r, hpeek, hd⟩, fun words hcontext => ?_⟩
  cases hcontext
  simp at hactivity

namespace TokenStream

/-! ### Filling the queue -/

/-- Filling keeps whatever dropping stale keys and fetching keep, and ends with a token that cannot
turn out to be a key unless the text is at its end. -/
theorem fillFor_keeps {P : TokenStream → Prop}
    (hdrop : ∀ s s', s.dropStaleKeys = .ok s' → P s → P s')
    (hfetch : ∀ s s', s.done = false → s.fetch = .ok s' → P s → P s')
    {n : Nat} {s s' : TokenStream} (hs : P s) (h : fillFor n s = .ok s') :
    P s' ∧ (s'.done = false → s'.queue ≠ [] ∧ s'.frontIsOpen = false) := by
  induction n generalizing s with
  | zero => cases h
  | succ n ih =>
      obtain ⟨⟨more, s₁⟩, hmore, h⟩ := bind_eq_ok_iff.mp h
      unfold needsMore at hmore
      split_ifs at hmore with hdone hempty
      · cases hmore
        cases h
        refine ⟨hs, fun hopen => ?_⟩
        rw [hdone] at hopen
        cases hopen
      · cases hmore
        obtain ⟨s₂, hfetched, h⟩ := bind_eq_ok_iff.mp h
        exact ih (hfetch s s₂ (by simpa using hdone) hfetched hs) h
      · obtain ⟨s₂, hdropped, hmore⟩ := bind_eq_ok_iff.mp hmore
        cases hmore
        have hs₁ := hdrop s s₁ hdropped hs
        have hsame := (dropStaleKeys_dropped hdropped).same
        dsimp only at h
        split_ifs at h with hfront
        · obtain ⟨s₂, hfetched, h⟩ := bind_eq_ok_iff.mp h
          refine ih (hfetch s₁ s₂ ?_ hfetched hs₁) h
          rw [hsame]
          simpa using hdone
        · cases h
          refine ⟨hs₁, fun _ => ⟨fun hnil => ?_, by simpa using hfront⟩⟩
          rw [hsame] at hnil
          rw [List.isEmpty_iff] at hempty
          exact absurd hnil hempty

theorem fill_leads {s s' : TokenStream} (h : s.fill = .ok s') : s.reader.Leads s'.reader := by
  refine (fillFor_keeps (P := fun s' => s.reader.Leads s'.reader) ?_ ?_ (.refl _) h).1
  · intro s₁ s₂ hdrop hs
    rw [(dropStaleKeys_dropped hdrop).same]
    exact hs
  · intro s₁ s₂ _ hfetch hs
    exact hs.trans (fetch_fetched hfetch).reader

theorem next_eq_none {s s' : TokenStream} (h : s.next = .ok (none, s')) :
    s.fill = .ok s' ∧ s'.queue = [] := by
  obtain ⟨s₁, hfill, h⟩ := bind_eq_ok_iff.mp h
  cases hqueue : s₁.queue with
  | nil =>
      simp only [hqueue, pure_eq_ok, Except.ok.injEq, Prod.mk.injEq, true_and] at h
      subst h
      exact ⟨hfill, hqueue⟩
  | cons token queue => simp [hqueue] at h

theorem next_eq_some {s s' : TokenStream} {token : Token} (h : s.next = .ok (some token, s')) :
    ∃ s₁ queue, s.fill = .ok s₁ ∧ s₁.queue = token :: queue ∧
      s' = { s₁ with queue, taken := s₁.taken + 1 } := by
  obtain ⟨s₁, hfill, h⟩ := bind_eq_ok_iff.mp h
  refine ⟨s₁, ?_⟩
  cases hqueue : s₁.queue with
  | nil => simp [hqueue] at h
  | cons token' queue =>
      simp only [hqueue, pure_eq_ok, Except.ok.injEq, Prod.mk.injEq, Option.some.injEq] at h
      obtain ⟨rfl, rfl⟩ := h
      exact ⟨queue, hfill, rfl, rfl⟩

/-! ### Faults -/

theorem missingColon_blamed {r : Reader} (s : TokenStream) (key : SimpleKey) :
    r.Blames (s.missingColon key) :=
  ⟨rfl, nofun, nofun⟩

theorem removeKey_faults {r : Reader} (s : TokenStream) : Faults r.Blames s.removeKey := by
  unfold removeKey
  split
  · split_ifs
    · exact faults_error (s.missingColon_blamed _)
    · exact faults_ok _
  · exact faults_ok _

theorem dropStaleKeys_faults {r : Reader} (s : TokenStream) :
    Faults r.Blames s.dropStaleKeys := by
  unfold dropStaleKeys
  split
  · exact faults_error (s.missingColon_blamed _)
  · exact faults_ok _

theorem saveKey_faults {r : Reader} (s : TokenStream) : Faults r.Blames s.saveKey := by
  unfold saveKey
  split_ifs
  · exact faults_bind s.removeKey_faults fun _ => faults_ok _
  · exact faults_ok _

theorem openBlock_faults {r : Reader} (s : TokenStream) (kind : TokenKind) (refusal : Problem) :
    Faults r.Blames (s.openBlock kind refusal) := by
  unfold openBlock
  split_ifs
  · exact faults_ok _
  · exact faults_error (.plain _ _)
  · split <;> exact faults_ok _

theorem fetchKeyed_faults {s : TokenStream} {read : Reader → Except Diagnostic (Token × Reader)}
    (hread : Faults s.reader.Blames (read s.reader)) :
    Faults s.reader.Blames (s.fetchKeyed read) := by
  intro d h
  rcases bind_eq_error_iff.mp h with h | ⟨s₁, hsave, h⟩
  · exact s.saveKey_faults d h
  · rw [(saveKey_saved hsave).prepared.reader] at h
    exact faults_bind hread (fun _ => faults_ok _) d h

theorem fetchBlockScalar_faults {r : Reader} (s : TokenStream) (folded : Bool) :
    Faults r.Blames (s.fetchBlockScalar folded) :=
  faults_bind s.removeKey_faults fun _ =>
    faults_bind ((readBlockScalar_faults _ _ _).blames (by simp) (by simp)) fun _ => faults_ok _

theorem fetchValue_faults {r : Reader} (s : TokenStream) : Faults r.Blames s.fetchValue := by
  unfold fetchValue
  split
  · exact faults_ok _
  · exact faults_bind (openBlock_faults _ _ _) fun _ => faults_ok _

theorem fetchSign_faults (s : TokenStream) : Faults s.reader.Blames s.fetchSign := by
  have hremove : ∀ {f : TokenStream → Except Diagnostic TokenStream} {s₁ : TokenStream},
      (∀ s₂, Faults s.reader.Blames (f s₂)) → Faults s.reader.Blames (s₁.removeKey >>= f) :=
    fun hf => faults_bind (removeKey_faults _) hf
  have hopen : ∀ {f : TokenStream → Except Diagnostic TokenStream} {kind : TokenKind}
      {refusal : Problem}, (∀ s₂, Faults s.reader.Blames (f s₂)) →
      Faults s.reader.Blames (s.openBlock kind refusal >>= f) :=
    fun hf => faults_bind (openBlock_faults _ _ _) hf
  have hflowStart : ∀ kind, Faults s.reader.Blames (s.fetchFlowStart kind) :=
    fun _ => faults_bind s.saveKey_faults fun _ => faults_ok _
  have hflowEnd : ∀ kind, Faults s.reader.Blames (s.fetchFlowEnd kind) :=
    fun _ => hremove fun _ => faults_ok _
  have hname : ∀ {context : Activity} {kind : String → TokenKind}, context ≠ .quoted →
      (∀ words, context ≠ .other words) →
      Faults s.reader.Blames (s.fetchKeyed (readName context kind)) :=
    fun hquoted hother => fetchKeyed_faults
      ((readName_faults _ _ _).blames (by simpa using hquoted.symm)
        (by simpa [eq_comm] using hother))
  have htag : Faults s.reader.Blames (s.fetchKeyed readTag) :=
    fetchKeyed_faults ((readTag_faults _).blames (by simp) (by simp))
  rw [fetchSign]
  refine faults_ite (fun _ => hremove fun _ => faults_ok _) fun _ => ?_
  refine faults_ite (fun _ => hremove fun _ => faults_bind
    ((readDirective_faults _).blames (by simp) (by simp)) fun _ => faults_ok _) fun _ => ?_
  refine faults_ite (fun _ => faults_ok _) fun _ => ?_
  refine faults_ite (fun _ => faults_ok _) fun _ => ?_
  refine faults_ite (fun _ => hflowStart _) fun _ => ?_
  refine faults_ite (fun _ => hflowStart _) fun _ => ?_
  refine faults_ite (fun _ => hflowEnd _) fun _ => ?_
  refine faults_ite (fun _ => hflowEnd _) fun _ => ?_
  refine faults_ite (fun _ => hremove fun _ => faults_ok _) fun _ => ?_
  refine faults_ite (fun _ => hopen fun _ => hremove fun _ => faults_ok _) fun _ => ?_
  refine faults_ite (fun _ => hopen fun _ => hremove fun _ => faults_ok _) fun _ => ?_
  refine faults_ite (fun _ => s.fetchValue_faults) fun _ => ?_
  refine faults_ite (fun _ => hname (by simp) (by simp)) fun _ => ?_
  refine faults_ite (fun _ => hname (by simp) (by simp)) fun _ => ?_
  refine faults_ite (fun _ => htag) fun _ => ?_
  refine faults_ite (fun _ => s.fetchBlockScalar_faults _) fun _ => ?_
  refine faults_ite (fun _ => s.fetchBlockScalar_faults _) fun _ => ?_
  refine faults_ite (fun hquote => fetchKeyed_faults (readQuoted_blamed ?_)) fun _ => ?_
  · simpa using hquote
  refine faults_ite (fun hquote => fetchKeyed_faults (readQuoted_blamed ?_)) fun _ => ?_
  · simpa using hquote
  refine faults_ite (fun _ => faults_bind s.saveKey_faults fun _ => faults_ok _) fun _ => ?_
  exact faults_error ⟨rfl, by simp, by simp⟩

theorem fetch_faults (s : TokenStream) : Faults s.reader.Blames s.fetch := by
  intro d h
  rcases bind_eq_error_iff.mp h with h | ⟨s₁, hdrop, h⟩
  · exact dropStaleKeys_faults _ d h
  · have hprepared := (dropStaleKeys_dropped hdrop).prepared.trans
      (s₁.unwind_moved s₁.mark.column).prepared
    have hblamed := fetchSign_faults _ d h
    rw [hprepared.reader] at hblamed
    exact hblamed.mono s.skipToToken_leads

theorem needsMore_faults {r : Reader} (s : TokenStream) : Faults r.Blames s.needsMore := by
  unfold needsMore
  split_ifs
  · exact faults_ok _
  · exact faults_ok _
  · exact faults_bind s.dropStaleKeys_faults fun _ => faults_ok _

theorem needsMore_reader {s s' : TokenStream} {more : Bool}
    (h : s.needsMore = .ok (more, s')) : s'.reader = s.reader := by
  unfold needsMore at h
  split_ifs at h
  · cases h
    rfl
  · cases h
    rfl
  · obtain ⟨s₁, hdropped, h⟩ := bind_eq_ok_iff.mp h
    cases h
    rw [(dropStaleKeys_dropped hdropped).same]

theorem fillFor_faults (n : Nat) (s : TokenStream) : Faults s.reader.Blames (fillFor n s) := by
  induction n generalizing s with
  | zero => exact faults_error (.plain _ _)
  | succ n ih =>
      intro d h
      rcases bind_eq_error_iff.mp h with h | ⟨⟨more, s₁⟩, hmore, h⟩
      · exact s.needsMore_faults d h
      · dsimp only at h
        split_ifs at h
        · rw [← needsMore_reader hmore]
          rcases bind_eq_error_iff.mp h with h | ⟨s₂, hfetch, h⟩
          · exact s₁.fetch_faults d h
          · exact (ih s₂ d h).mono (fetch_fetched hfetch).reader
        · cases h

theorem next_faults (s : TokenStream) : Faults s.reader.Blames s.next := by
  refine faults_bind (fillFor_faults _ s) fun s₁ => ?_
  cases s₁.queue with
  | nil => exact faults_ok _
  | cons token queue => exact faults_ok _

theorem collect_faults {n : Nat} {s : TokenStream} {d : Diagnostic}
    (h : (s.collect n).fault = some d) : s.reader.Blames d := by
  induction n generalizing s with
  | zero =>
      cases h
      exact .plain _ _
  | succ n ih =>
      unfold collect at h
      split at h
      · rename_i hnext
        cases h
        exact s.next_faults _ hnext
      · cases h
      · rename_i hnext
        obtain ⟨s₁, queue, hfill, -, rfl⟩ := next_eq_some hnext
        have hleads : s.reader.Leads s₁.reader := fill_leads hfill
        exact (ih h).mono hleads

/-! ### Running to the end -/

/-- Whether a list of tokens ends with the end of the stream. -/
def Closed (tokens : List Token) : Prop :=
  ∃ t, tokens.getLast? = some t ∧ t.kind = .streamEnd

/-- At the end of the text the last token so far, of those handed out and those in the queue, is
the end of the stream. -/
def Closing (handed : List Token) (s : TokenStream) : Prop :=
  s.done = true → Closed (handed ++ s.queue)

theorem fill_closing {handed : List Token} {s s' : TokenStream} (hs : s.Closing handed)
    (h : s.fill = .ok s') : s'.Closing handed ∧ (s'.queue = [] → s'.done = true) := by
  have hkeeps := fillFor_keeps (P := Closing handed) ?_ ?_ hs h
  · refine ⟨hkeeps.1, fun hnil => ?_⟩
    by_contra hopen
    exact (hkeeps.2 (by simpa using hopen)).1 hnil
  · intro s s' hdrop hs
    rw [(dropStaleKeys_dropped hdrop).same]
    exact hs
  · intro s s' hdone hfetch hs hdone'
    rcases (fetch_fetched hfetch).ending with hsame | ⟨t, hlast, hkind⟩
    · rw [hdone', hdone] at hsame
      cases hsame
    · exact ⟨t, by simp [List.getLast?_append, hlast], hkind⟩

/-- Tokens that are not cut short by a fault go on to the end of the stream. -/
theorem collect_closed {n : Nat} (handed : List Token) {s : TokenStream} (hs : s.Closing handed)
    (hfault : (s.collect n).fault = none) : Closed (handed ++ (s.collect n).items) := by
  induction n generalizing handed s with
  | zero => cases hfault
  | succ n ih =>
      unfold collect at hfault ⊢
      split at hfault
      · cases hfault
      · rename_i s' hnext
        obtain ⟨hfill, hempty⟩ := next_eq_none hnext
        obtain ⟨hclosing, hdone⟩ := fill_closing hs hfill
        have hclosed := hclosing (hdone hempty)
        rwa [hempty] at hclosed
      · rename_i token s' hnext
        obtain ⟨s₁, queue, hfill, hqueue, rfl⟩ := next_eq_some hnext
        obtain ⟨hclosing, -⟩ := fill_closing hs hfill
        have hnext : Closing (handed ++ [token]) { s₁ with queue, taken := s₁.taken + 1 } := by
          intro hdone
          have hclosed := hclosing hdone
          rwa [hqueue, List.append_cons] at hclosed
        have hclosed := ih _ hnext hfault
        rwa [← List.append_cons] at hclosed

end TokenStream

namespace Token

theorem ofText_first (text : List Char) :
    ∃ rest, (ofText text).items = ⟨.streamStart, .origin, .origin⟩ :: rest :=
  ⟨_, rfl⟩

theorem ofText_closed {text : List Char} (hfault : (ofText text).fault = none) :
    TokenStream.Closed (ofText text).items :=
  TokenStream.collect_closed [] (fun hdone => by cases hdone) hfault

theorem ofText_faults {text : List Char} {d : Diagnostic} (h : (ofText text).fault = some d) :
    (Reader.start text).Blames d :=
  TokenStream.collect_faults h

end Token

end Playbook
