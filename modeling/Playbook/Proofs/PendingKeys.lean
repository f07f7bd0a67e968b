import Playbook.Proofs.RepairLoop
import Playbook.Proofs.TokenFault
import Playbook.Proofs.TokenScan

/-!
Keys whose colon is still to come. A key is noted where its first token starts, and only one that is
pending and required is ever said to lack its colon. A colon outside of brackets leaves none of them
pending. So if reading comes to one while a key is not stale yet, then no key that starts in the
same place is blamed, neither before the colon nor behind it.
-/

namespace Playbook

namespace Reader

theorem skipTrivia_self {r : Reader} (hspace : r.peek ≠ ' ') (hhash : r.peek ≠ '#')
    (hbreak : isBreak r.peek = false) : r.skipTrivia = (r, false) := by
  have hskip : r.skipWhile (· == ' ') = r := by
    rw [skipWhile, takeWhile_space_eq_nil hspace]
    rfl
  have hcomment : r.skipComment = r := by simp [skipComment, hhash]
  simp [skipTrivia, skipTriviaFor, hskip, hcomment, lineBreak?_eq_none hbreak]

end Reader

namespace TokenStream

variable {s s' s₁ : TokenStream} {d : Diagnostic} {key : SimpleKey}

/-! ### Which keys are pending, and which are blamed -/

/-- The key starts where the stream stands. Only outside of brackets it can be required. -/
def Notes (s : TokenStream) (key : SimpleKey) : Prop :=
  key.mark = s.mark ∧ (key.required = true → s.flowLevel = 0 ∧ key.level = 0)

/-- If a key is said to lack its colon, then it is pending and required. -/
def Accuses (s : TokenStream) (d : Diagnostic) : Prop :=
  d.context = some .simpleKey →
    ∃ key ∈ s.keys, key.required = true ∧ d.contextMark = some key.mark

theorem Accuses.mono (h : s₁.Accuses d) (hkeys : s₁.keys ⊆ s.keys) : s.Accuses d := by
  intro hcontext
  obtain ⟨key, hkey, hrequired, hmark⟩ := h hcontext
  exact ⟨key, hkeys hkey, hrequired, hmark⟩

theorem accuses_of_ne (h : d.context ≠ some .simpleKey) : s.Accuses d :=
  fun hcontext => absurd hcontext h

/-- What may come of a stream: one whose keys are old or start here, or a key that is blamed with
good reason. -/
def Accounts (s : TokenStream) : Except Diagnostic TokenStream → Prop :=
  EndsIn (fun s' => ∀ key ∈ s'.keys, key ∈ s.keys ∨ s.Notes key) s.Accuses

theorem accounts_of_subset (h : s'.keys ⊆ s.keys) : s.Accounts (.ok s') :=
  fun _ hkey => Or.inl (h hkey)

variable {f : TokenStream → Except Diagnostic TokenStream}

theorem removeKey_accuses (s : TokenStream) : Faults s.Accuses s.removeKey := by
  unfold removeKey
  split
  · rename_i key hkey
    split_ifs with hrequired
    · apply faults_error
      intro _
      exact ⟨key, List.mem_of_find?_eq_some hkey, hrequired, rfl⟩
    · exact faults_ok _
  · exact faults_ok _

theorem accounts_removeKey (hkeys : s₁.keys = s.keys)
    (hf : ∀ s₂, s₂.keys ⊆ s.keys → s.Accounts (f s₂)) : s.Accounts (s₁.removeKey >>= f) := by
  have hfaults : Faults s.Accuses s₁.removeKey := by
    intro d hd
    exact (s₁.removeKey_accuses d hd).mono (hkeys ▸ List.Subset.refl _)
  apply (hfaults.endsIn (Q := fun s₂ => s₂.keys ⊆ s.keys) _).bind hf
  intro s₂ hremove key hkey
  exact hkeys ▸ (removeKey_dropped hremove).keys key hkey

theorem accounts_openBlock {kind : TokenKind} {refusal : Problem}
    (hf : ∀ s₂, s₂.keys = s.keys → s.Accounts (f s₂)) :
    s.Accounts (s.openBlock kind refusal >>= f) := by
  have hfaults : Faults s.Accuses (s.openBlock kind refusal) := by
    unfold openBlock
    split_ifs
    · exact faults_ok _
    · exact faults_error (accuses_of_ne (by simp [Diagnostic.plain]))
    · split <;> exact faults_ok _
  apply (hfaults.endsIn (Q := fun s₂ => s₂.keys = s.keys) _).bind hf
  intro s₂ hopen
  rw [(openBlock_moved hopen).same]

theorem accounts_saveKey
    (hf : ∀ s₂, (∀ key ∈ s₂.keys, key ∈ s.keys ∨ s.Notes key) → s.Accounts (f s₂)) :
    s.Accounts (s.saveKey >>= f) := by
  have hsave : s.Accounts s.saveKey := by
    unfold saveKey
    split_ifs
    · apply accounts_removeKey rfl
      intro s₂ hsubset key hkey
      rcases List.mem_cons.mp hkey with rfl | hkey
      · refine Or.inr ⟨rfl, fun hrequired => ?_⟩
        have hlevel : s.flowLevel = 0 := by
          simp only [inFlow, Bool.and_eq_true, Bool.not_eq_true'] at hrequired
          simpa using hrequired.1
        exact ⟨hlevel, hlevel⟩
      · exact Or.inl (hsubset hkey)
    · exact accounts_of_subset (List.Subset.refl _)
  exact EndsIn.bind hsave hf

theorem accounts_read {α : Type} {x : Except Diagnostic α} {g : α → Except Diagnostic TokenStream}
    {activities : List Activity} {start : Mark} (hx : FaultsAmid activities start x)
    (hkey : .simpleKey ∉ activities) (hg : ∀ a, s.Accounts (g a)) : s.Accounts (x >>= g) := by
  have hfaults : Faults s.Accuses x := by
    intro d hd
    obtain ⟨activity, hactivity, problem, mark, rfl⟩ := hx d hd
    apply accuses_of_ne
    rintro ⟨⟩
    exact hkey hactivity
  exact (hfaults.endsIn (Q := fun _ => True) fun _ _ => trivial).bind fun a _ => hg a

theorem accounts_keyed {read : Reader → Except Diagnostic (Token × Reader)}
    {activities : List Activity} (hread : ∀ r, FaultsAmid activities r.mark (read r))
    (hkey : .simpleKey ∉ activities) : s.Accounts (s.fetchKeyed read) := by
  apply accounts_saveKey
  intro s₂ hkeys
  exact accounts_read (hread _) hkey fun _ => hkeys

theorem unwind_keys_eq (s : TokenStream) (column : Int) : (s.unwind column).keys = s.keys := by
  rw [(s.unwind_moved column).same]

/-- Before a token is read, only keys and blocks change. -/
theorem KeysDropped.unwind_same (h : s.KeysDropped s₁) (column : Int) :
    s₁.unwind column = { s with
      keys := (s₁.unwind column).keys, indent := (s₁.unwind column).indent,
      indents := (s₁.unwind column).indents, queue := (s₁.unwind column).queue } := by
  rw [(s₁.unwind_moved _).same, h.same]

theorem fetchValue_accounts (s : TokenStream) : s.Accounts s.fetchValue := by
  unfold fetchValue
  split
  · rename_i key hkey
    apply accounts_of_subset
    have hkeys : (s.forgetKey.insertKey key).keys = s.forgetKey.keys := by
      rw [insertKey_moved]
    intro key' hkey'
    have hmem : key' ∈ (s.forgetKey.insertKey key).keys := hkey'
    rw [hkeys] at hmem
    exact s.forgetKey_dropped.keys key' hmem
  · apply accounts_openBlock
    intro s₂ hkeys
    exact accounts_of_subset (hkeys ▸ List.Subset.refl s₂.keys)

theorem fetchSign_accounts (s : TokenStream) : s.Accounts s.fetchSign := by
  have hbranch := s.fetchSign_branch
  have hremove : ∀ {f : TokenStream → Except Diagnostic TokenStream},
      (∀ s₂, s₂.keys ⊆ s.keys → s.Accounts (f s₂)) → s.Accounts (s.removeKey >>= f) :=
    fun hf => accounts_removeKey rfl hf
  generalize s.fetchSign = x at hbranch
  cases hbranch with
  | atEnd =>
      apply accounts_removeKey (s.unwind_keys_eq _)
      exact fun _ _ => accounts_of_subset (List.nil_subset _)
  | directive =>
      apply accounts_removeKey (s.unwind_keys_eq _)
      intro s₂ hsubset
      exact accounts_read (readDirective_faults _) (by simp) fun _ => accounts_of_subset hsubset
  | documentSign =>
      apply accounts_of_subset
      intro key hkey
      have hmem := (forgetKey_dropped _).keys key hkey
      rwa [s.unwind_keys_eq] at hmem
  | flowStart => exact accounts_saveKey fun _ hkeys => hkeys
  | flowEnd => exact hremove fun _ hsubset => accounts_of_subset hsubset
  | flowEntry => exact hremove fun _ hsubset => accounts_of_subset hsubset
  | blockEntry =>
      apply accounts_openBlock
      exact fun _ hkeys => accounts_removeKey hkeys fun _ hsubset => accounts_of_subset hsubset
  | key =>
      apply accounts_openBlock
      exact fun _ hkeys => accounts_removeKey hkeys fun _ hsubset => accounts_of_subset hsubset
  | value => exact s.fetchValue_accounts
  | name _ _ hcontext =>
      apply accounts_keyed fun r => readName_faults _ _ r
      rcases hcontext with rfl | rfl <;> simp
  | tag => exact accounts_keyed readTag_faults (by simp)
  | blockScalar =>
      apply hremove
      intro s₂ hsubset
      exact accounts_read (readBlockScalar_faults _ _ _) (by simp) fun _ =>
        accounts_of_subset hsubset
  | quoted _ double => exact accounts_keyed (readQuoted_faults double) (by simp)
  | plain => exact accounts_saveKey fun _ hkeys => hkeys
  | none => exact accuses_of_ne (by simp)

/-- A stale key is blamed only if it is required. -/
theorem dropStaleKeys_eq_error (h : s.dropStaleKeys = .error d) :
    ∃ key ∈ s.keys, key.isStale s.mark = true ∧ key.required = true ∧ d = s.missingColon key := by
  unfold dropStaleKeys at h
  split at h
  · rename_i key hfound
    cases h
    have hkey := List.find?_some hfound
    rw [Bool.and_eq_true] at hkey
    obtain ⟨hstale, hrequired⟩ := hkey
    exact ⟨key, List.mem_of_find?_eq_some hfound, hstale, hrequired, rfl⟩
  · cases h

theorem dropStaleKeys_accuses (h : s.dropStaleKeys = .error d) : s.Accuses d := by
  obtain ⟨key, hkey, -, hrequired, rfl⟩ := dropStaleKeys_eq_error h
  exact fun _ => ⟨key, hkey, hrequired, rfl⟩

/-- The keys that are pending behind a token are those that were before, and the one that the token
may be. -/
theorem fetch_accounts (s : TokenStream) :
    EndsIn (fun s' => ∀ key ∈ s'.keys, key ∈ s.keys ∨ s.skipToToken.Notes key) s.Accuses
      s.fetch := by
  have hfaults : Faults s.Accuses s.skipToToken.dropStaleKeys :=
    fun d hd => (dropStaleKeys_accuses hd).mono (List.Subset.refl _)
  apply (hfaults.endsIn fun _ hdrop => dropStaleKeys_dropped hdrop).bind
  intro s₁ hdropped
  have hsame := hdropped.unwind_same s₁.mark.column
  have hkeys : (s₁.unwind s₁.mark.column).keys ⊆ s.keys := by
    rw [s₁.unwind_keys_eq]
    exact hdropped.keys
  have hmark : (s₁.unwind s₁.mark.column).mark = s.skipToToken.mark := by
    rw [hsame]
    rfl
  have hlevel : (s₁.unwind s₁.mark.column).flowLevel = s.skipToToken.flowLevel := by rw [hsame]
  have haccounts := (s₁.unwind s₁.mark.column).fetchSign_accounts
  cases hfetch : (s₁.unwind s₁.mark.column).fetchSign with
  | error d =>
      rw [hfetch] at haccounts
      exact Accuses.mono haccounts hkeys
  | ok s' =>
      rw [hfetch] at haccounts
      intro key hkey
      apply (haccounts key hkey).imp
      · exact fun hold => hkeys hold
      · intro hnotes
        rwa [Notes, hmark, hlevel] at hnotes

/-! ### Keys along a run -/

/-- A pending key was noted by one of the tokens that were read. -/
theorem Fetches.exists_notes {text : List Char} (h : (start text).Fetches s) (hkey : key ∈ s.keys) :
    ∃ t t', (start text).Fetches t ∧ t.Fetch t' ∧ t'.Fetches s ∧ t.skipToToken.Notes key ∧
      key ∉ t.keys ∧ key ∈ t'.keys := by
  induction h with
  | refl => cases hkey
  | @tail s₁ s₂ hfetches hfetch ih =>
      by_cases hold : key ∈ s₁.keys
      · obtain ⟨t, t', ht, htt', ht', hnotes⟩ := ih hold
        exact ⟨t, t', ht, htt', ht'.tail hfetch, hnotes⟩
      · have haccounts := s₁.fetch_accounts
        rw [hfetch.2] at haccounts
        exact ⟨s₁, s₂, hfetches, hfetch, .refl, (haccounts key hkey).resolve_left hold, hold, hkey⟩

theorem Fetches.level_eq_zero {text : List Char} (h : (start text).Fetches s) (hkey : key ∈ s.keys)
    (hrequired : key.required = true) : key.level = 0 := by
  obtain ⟨t, t', -, -, -, hnotes, -⟩ := h.exists_notes hkey
  exact (hnotes.2 hrequired).2

/-- Reading goes wrong with a key that is pending and required. -/
theorem Breaks.exists_key {text : List Char} (h : (start text).Breaks d)
    (hcontext : d.context = some .simpleKey) :
    ∃ e key, (start text).Fetches e ∧ e.done = false ∧
      (e.fetch = .error d ∨ e.dropStaleKeys = .error d) ∧ key ∈ e.keys ∧ key.required = true ∧
      d.contextMark = some key.mark := by
  obtain ⟨e, hfetches, hdone, herror⟩ := h
  have haccuses : e.Accuses d := by
    rcases herror with herror | herror
    · have haccounts := e.fetch_accounts
      rwa [herror] at haccounts
    · exact dropStaleKeys_accuses herror
  obtain ⟨key, hkey, hrequired, hmark⟩ := haccuses hcontext
  exact ⟨e, key, hfetches, hdone, herror, hkey, hrequired, hmark⟩

/-- The next token leaves no key pending outside of brackets, and blames none that is not stale. -/
def ClosesKeys (s : TokenStream) : Prop :=
  EndsIn (fun s' => ∀ key ∈ s'.keys, key.level ≠ 0)
    (fun d => d.context = some .simpleKey →
      ∃ key ∈ s.keys, key.isStale s.mark = true ∧ d.contextMark = some key.mark) s.fetch

/-- Keys that are noted behind a place start behind it. -/
theorem Fetches.index_lt {n : Nat} (h : s.Fetches s') (hn : n < s.mark.index)
    (hkeys : ∀ key ∈ s.keys, key.required = true → n < key.mark.index) :
    ∀ key ∈ s'.keys, key.required = true → n < key.mark.index := by
  induction h with
  | refl => exact hkeys
  | @tail s₁ s₂ hfetches hfetch ih =>
      intro key hkey hrequired
      have haccounts := s₁.fetch_accounts
      rw [hfetch.2] at haccounts
      rcases haccounts key hkey with hold | hnotes
      · exact ih key hold hrequired
      · have hleads : s.reader.Leads s₁.skipToToken.reader :=
          (Fetches.leads hfetches).trans s₁.skipToToken_leads
        rw [hnotes.1]
        exact Nat.lt_of_lt_of_le hn hleads.index_le

/-- Reading past a token that takes up some text. -/
theorem Fetches.index_lt_of_fetch {text : List Char} (hs : (start text).Fetches s)
    (h : s.Fetch s₁) (hopen : s₁.done = false) : s.mark.index < s₁.mark.index := by
  have hrest := Reader.Leads.rest_eq hs.leads
  have hrest₁ := Reader.Leads.rest_eq (Fetches.leads (Relation.ReflTransGen.tail hs h))
  rcases (fetch_fetched h.2).progress with hdone | hlt
  · cases hopen.symm.trans hdone
  · rw [hrest, hrest₁, List.length_drop, List.length_drop] at hlt
    change s.reader.mark.index < s₁.reader.mark.index
    omega

variable {text : List Char} {m : Mark}

/-- If reading comes to a token that leaves no key pending while the key that starts at `m` is not
stale, then that key is never blamed. -/
theorem ClosesKeys.not_breaks (hcloses : s.ClosesKeys) (hs : (start text).Fetches s)
    (hle : m.index ≤ s.mark.index) (hline : m.line = s.mark.line)
    (hlength : s.mark.index ≤ m.index + SimpleKey.maxLength)
    (hcontext : d.context = some .simpleKey) (hmark : d.contextMark = some m) :
    ¬ (start text).Breaks d := by
  intro hbreaks
  obtain ⟨e, key, he, hopen, herror, hkey, hrequired, hkeymark⟩ := hbreaks.exists_key hcontext
  obtain rfl : m = key.mark := Option.some.inj (hmark.symm.trans hkeymark)
  have hfresh : ∀ key' : SimpleKey, key'.mark = key.mark → key'.isStale s.mark = false := by
    intro key' hsame
    have hindex : s.mark.index - key.mark.index ≤ SimpleKey.maxLength := by omega
    simp [SimpleKey.isStale, hsame, hline, hindex]
  have hhere : ¬ (s.fetch = .error d ∨ s.dropStaleKeys = .error d) := by
    rintro (herror | herror)
    · rw [ClosesKeys, herror] at hcloses
      obtain ⟨key', -, hstale, hmark'⟩ := hcloses hcontext
      rw [hfresh key' (Option.some.inj (hmark'.symm.trans hmark))] at hstale
      cases hstale
    · obtain ⟨key', -, hstale, -, rfl⟩ := dropStaleKeys_eq_error herror
      rw [hfresh key' (Option.some.inj hmark)] at hstale
      cases hstale
  rcases Fetches.total hs he with hahead | hbehind
  · rcases Relation.ReflTransGen.cases_head hahead with rfl | ⟨s₁, hfetch, hrest⟩
    · exact hhere herror
    · have hs₁ : (start text).Fetches s₁ := Relation.ReflTransGen.tail hs hfetch
      have hopen₁ : s₁.done = false := Breaks.not_done ⟨e, hrest, hopen, herror⟩
      rw [ClosesKeys, hfetch.2] at hcloses
      have hnone : ∀ key' ∈ s₁.keys, key'.required = true → s.mark.index < key'.mark.index := by
        intro key' hkey' hrequired'
        exact absurd (hs₁.level_eq_zero hkey' hrequired') (hcloses key' hkey')
      have hpast := hs.index_lt_of_fetch hfetch hopen₁
      have hlt := Fetches.index_lt hrest hpast hnone key hkey hrequired
      omega
  · rcases Relation.ReflTransGen.cases_head hbehind with rfl | ⟨e₁, hfetch, -⟩
    · exact hhere herror
    · rcases herror with herror | herror
      · cases hfetch.2.symm.trans herror
      · obtain ⟨e₂, hdrop, -⟩ := fetch_dropStaleKeys (he.keyed (keyed_start text)) hfetch.2
        cases hdrop.symm.trans herror

/-! ### Where a key is settled -/

/-- A colon that a blank follows, or a NUL, with which no token starts. -/
def EndsKey (rest : List Char) : Prop :=
  ∃ c tail, rest = c :: tail ∧ (c = nul ∨ c = ':' ∧ isBlankOrEnd (tail.headD nul) = true)

theorem skipToToken_of_endsKey (h : EndsKey s.reader.rest) : s.skipToToken = s := by
  obtain ⟨c, tail, hrest, hc⟩ := h
  have hpeek : s.reader.peek = c := by simp [Reader.peek, hrest]
  have htoken : c ≠ '\ufeff' ∧ c ≠ ' ' ∧ c ≠ '#' ∧ isBreak c = false := by
    rcases hc with rfl | ⟨rfl, -⟩ <;> decide
  rw [← hpeek] at htoken
  obtain ⟨hmark, hspace, hhash, hbreak⟩ := htoken
  rw [skipToToken_eq hmark (Reader.skipTrivia_self hspace hhash hbreak)]
  simp

theorem fetchSign_nul {tail : List Char} (hrest : s.reader.rest = nul :: tail) :
    s.fetchSign = .error ⟨.tokens, some .nextToken, none, .cannotStartToken nul, s.mark⟩ := by
  have hpeek : s.reader.peek = nul := by simp [Reader.peek, hrest]
  have hplain : ¬ s.atPlain = true := by
    simp [atPlain, hpeek, isBlankOrEnd, isSpaceOrEnd, isBreakOrEnd, nul]
  rw [fetchSign_of_not_indicator hrest (by decide) (by decide), if_neg hplain]

theorem fetchValue_closes (hlevel : s.flowLevel = 0) :
    EndsIn (fun s' => ∀ key ∈ s'.keys, key.level ≠ 0) (fun d => d.context ≠ some .simpleKey)
      s.fetchValue := by
  unfold fetchValue
  split
  · rename_i key _
    have hkeys : (s.forgetKey.insertKey key).keys = s.forgetKey.keys := by rw [insertKey_moved]
    intro key' hkey'
    have hmem : key' ∈ (s.forgetKey.insertKey key).keys := hkey'
    rw [hkeys] at hmem
    simpa [hlevel] using (List.mem_filter.mp hmem).2
  · rename_i hnone
    have hfaults : Faults (fun d => d.context ≠ some .simpleKey)
        (s.openBlock .blockMappingStart .valueNotAllowed) := by
      unfold openBlock
      split_ifs
      · exact faults_ok _
      · exact faults_error (by simp [Diagnostic.plain])
      · split <;> exact faults_ok _
    apply (hfaults.endsIn fun _ hopen => openBlock_moved hopen).bind
    intro s₁ hmoved key hkey
    have hmem : key ∈ s₁.keys := hkey
    rw [hmoved.same] at hmem
    simpa [hlevel] using List.find?_eq_none.mp hnone key hmem

theorem fetchSign_closes (hlevel : s.flowLevel = 0) (h : EndsKey s.reader.rest) :
    EndsIn (fun s' => ∀ key ∈ s'.keys, key.level ≠ 0) (fun d => d.context ≠ some .simpleKey)
      s.fetchSign := by
  obtain ⟨c, tail, hrest, rfl | ⟨rfl, hblank⟩⟩ := h
  · rw [fetchSign_nul hrest]
    simp [EndsIn]
  · rw [fetchSign_colon hrest hblank]
    exact fetchValue_closes hlevel

theorem closesKeys_of_endsKey (hlevel : s.flowLevel = 0) (h : EndsKey s.reader.rest) :
    s.ClosesKeys := by
  unfold ClosesKeys fetch
  rw [skipToToken_of_endsKey h]
  cases hdrop : s.dropStaleKeys with
  | error d =>
      obtain ⟨key, hkey, hstale, -, rfl⟩ := dropStaleKeys_eq_error hdrop
      exact fun _ => ⟨key, hkey, hstale, rfl⟩
  | ok s₁ =>
      have hsame := (dropStaleKeys_dropped hdrop).unwind_same s₁.mark.column
      have hcloses := fetchSign_closes (s := s₁.unwind s₁.mark.column)
        (by rw [hsame]; exact hlevel) (by rw [hsame]; exact h)
      change EndsIn _ _ (s₁.unwind s₁.mark.column).fetchSign
      generalize (s₁.unwind s₁.mark.column).fetchSign = x at hcloses
      cases x with
      | error d => exact fun hcontext => absurd hcontext hcloses
      | ok s' => exact hcloses

end TokenStream

end Playbook
