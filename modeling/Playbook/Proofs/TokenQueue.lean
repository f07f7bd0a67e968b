import Playbook.Proofs.TokenRun

/-!
Tokens are handed out while later ones are still unread. The order in which this happens does not
matter: a stream hands out the tokens that it would have in its queue if it read the whole text
first and handed none out before.
-/

namespace Playbook

namespace TokenStream

/-- One more token is read. -/
def Fetch (s s' : TokenStream) : Prop := s.done = false ∧ s.fetch = .ok s'

/-- More tokens are read, and none is handed out. -/
def Fetches : TokenStream → TokenStream → Prop := Relation.ReflTransGen Fetch

/-- The stream as it was before a token was handed out. -/
def hold (token : Token) (s : TokenStream) : TokenStream :=
  { s with queue := token :: s.queue, taken := s.taken - 1 }

/-! ### A token that is still held back does not change what is read -/

section Hold

variable {token : Token} {s : TokenStream}

theorem bind_hold {x x' : Except Diagnostic TokenStream}
    {f f' : TokenStream → Except Diagnostic TokenStream} (hx : x' = hold token <$> x)
    (hf : ∀ s, x = .ok s → f' (hold token s) = hold token <$> f s) :
    x' >>= f' = hold token <$> (x >>= f) := by
  subst hx
  cases x with
  | error d => rfl
  | ok s => exact hf s rfl

theorem ite_hold {c : Prop} [Decidable c] {x x' y y' : Except Diagnostic TokenStream}
    (hx : x' = hold token <$> x) (hy : y' = hold token <$> y) :
    (if c then x' else y') = hold token <$> (if c then x else y) := by
  split_ifs
  · exact hx
  · exact hy

theorem removeKey_hold : (s.hold token).removeKey = hold token <$> s.removeKey := by
  have hkey : (s.hold token).key? = s.key? := rfl
  unfold removeKey
  rw [hkey]
  cases s.key? with
  | none => rfl
  | some key =>
      dsimp only
      split_ifs <;> rfl

theorem dropStaleKeys_hold : (s.hold token).dropStaleKeys = hold token <$> s.dropStaleKeys := by
  have hkeys : (s.hold token).keys = s.keys := rfl
  have hmark : (s.hold token).mark = s.mark := rfl
  unfold dropStaleKeys
  rw [hkeys, hmark]
  cases s.keys.find? fun key => key.isStale s.mark && key.required with
  | none => rfl
  | some key => rfl

theorem saveKey_hold (htaken : 0 < s.taken) :
    (s.hold token).saveKey = hold token <$> s.saveKey := by
  have hnumber : (s.hold token).taken + (s.hold token).queue.length =
      s.taken + s.queue.length := by
    simp only [hold, List.length_cons]
    omega
  unfold saveKey
  refine ite_hold (bind_hold removeKey_hold fun s' _ => ?_) rfl
  rw [hnumber]
  rfl

theorem unwind_hold (column : Int) :
    (s.hold token).unwind column = hold token (s.unwind column) := by
  unfold unwind
  by_cases hflow : s.inFlow = true
  · have hflow' : (s.hold token).inFlow = true := hflow
    rw [if_pos hflow, if_pos hflow']
  · have hflow' : ¬ (s.hold token).inFlow = true := hflow
    rw [if_neg hflow, if_neg hflow', closeBlocks_queue _ _ _ _ (s.hold token).queue,
      closeBlocks_queue _ _ _ _ s.queue]
    rfl

theorem openBlock_hold (kind : TokenKind) (refusal : Problem) :
    (s.hold token).openBlock kind refusal = hold token <$> s.openBlock kind refusal := by
  refine ite_hold rfl (ite_hold rfl ?_)
  have hindent : (s.hold token).indentTo (s.hold token).mark.column =
      (s.indentTo s.mark.column).map (hold token) := by
    unfold indentTo
    by_cases hlt : s.indent < (s.mark.column : Int)
    · have hlt' : (s.hold token).indent < ((s.hold token).mark.column : Int) := hlt
      rw [if_pos hlt, if_pos hlt']
      rfl
    · have hlt' : ¬ (s.hold token).indent < ((s.hold token).mark.column : Int) := hlt
      rw [if_neg hlt, if_neg hlt']
      rfl
  rw [hindent]
  cases s.indentTo s.mark.column with
  | none => rfl
  | some s' => rfl

/-- The place where the tokens of a key go does not depend on how many were handed out before. -/
theorem insertKey_hold {key : SimpleKey} (htaken : 0 < s.taken) (hkey : s.taken ≤ key.number) :
    (s.hold token).insertKey key = hold token (s.insertKey key) := by
  have hposition : key.number - (s.hold token).taken = key.number - s.taken + 1 := by
    simp only [hold]
    omega
  have hindent : (if (s.hold token).inFlow then none else (s.hold token).indentTo key.mark.column) =
      (if s.inFlow then none else s.indentTo key.mark.column).map (hold token) := by
    unfold indentTo
    by_cases hflow : s.inFlow = true
    · have hflow' : (s.hold token).inFlow = true := hflow
      rw [if_pos hflow, if_pos hflow']
      rfl
    · have hflow' : ¬ (s.hold token).inFlow = true := hflow
      rw [if_neg hflow, if_neg hflow']
      by_cases hlt : s.indent < (key.mark.column : Int)
      · have hlt' : (s.hold token).indent < (key.mark.column : Int) := hlt
        rw [if_pos hlt, if_pos hlt']
        rfl
      · have hlt' : ¬ (s.hold token).indent < (key.mark.column : Int) := hlt
        rw [if_neg hlt, if_neg hlt']
        rfl
  unfold insertKey
  dsimp only
  rw [hposition, hindent]
  cases (if s.inFlow then none else s.indentTo key.mark.column) with
  | none => rfl
  | some s' => rfl

theorem fetchFlowStart_hold (htaken : 0 < s.taken) (kind : TokenKind) :
    (s.hold token).fetchFlowStart kind = hold token <$> s.fetchFlowStart kind :=
  bind_hold (saveKey_hold htaken) fun _ _ => rfl

theorem fetchBlockEntry_hold :
    (s.hold token).fetchBlockEntry = hold token <$> s.fetchBlockEntry :=
  bind_hold (openBlock_hold _ _) fun _ _ => bind_hold removeKey_hold fun _ _ => rfl

theorem fetchKey_hold : (s.hold token).fetchKey = hold token <$> s.fetchKey :=
  bind_hold (openBlock_hold _ _) fun _ _ => bind_hold removeKey_hold fun _ _ => rfl

theorem fetchValue_hold (htaken : 0 < s.taken) (hkeys : ∀ key ∈ s.keys, s.taken ≤ key.number) :
    (s.hold token).fetchValue = hold token <$> s.fetchValue := by
  have hkey : (s.hold token).key? = s.key? := rfl
  unfold fetchValue
  rw [hkey]
  cases hfound : s.key? with
  | none => exact bind_hold (openBlock_hold _ _) fun _ _ => rfl
  | some key =>
      have hnumber := hkeys key (List.mem_of_find?_eq_some hfound)
      have hinsert : (s.hold token).forgetKey.insertKey key =
          hold token (s.forgetKey.insertKey key) :=
        insertKey_hold (s := s.forgetKey) htaken hnumber
      dsimp only
      rw [hinsert]
      rfl

theorem fetchKeyed_hold (htaken : 0 < s.taken)
    (read : Reader → Except Diagnostic (Token × Reader)) :
    (s.hold token).fetchKeyed read = hold token <$> s.fetchKeyed read := by
  refine bind_hold (saveKey_hold htaken) fun s' _ => ?_
  have hreader : (s'.hold token).reader = s'.reader := rfl
  rw [hreader]
  cases read s'.reader with
  | error d => rfl
  | ok result => rfl

theorem fetchDirective_hold :
    (s.hold token).fetchDirective = hold token <$> s.fetchDirective := by
  unfold fetchDirective
  rw [unwind_hold]
  refine bind_hold removeKey_hold fun s' _ => ?_
  have hreader : (s'.hold token).reader = s'.reader := rfl
  rw [hreader]
  cases readDirective s'.reader with
  | error d => rfl
  | ok result => rfl

theorem fetchEnd_hold : (s.hold token).fetchEnd = hold token <$> s.fetchEnd := by
  unfold fetchEnd
  rw [unwind_hold]
  exact bind_hold removeKey_hold fun _ _ => rfl

theorem fetchDocumentSign_hold (kind : TokenKind) :
    (s.hold token).fetchDocumentSign kind = hold token (s.fetchDocumentSign kind) := by
  unfold fetchDocumentSign
  rw [unwind_hold]
  rfl

theorem fetchBlockScalar_hold (folded : Bool) :
    (s.hold token).fetchBlockScalar folded = hold token <$> s.fetchBlockScalar folded := by
  refine bind_hold removeKey_hold fun s' _ => ?_
  have hreader : (s'.hold token).reader = s'.reader := rfl
  have hindent : (s'.hold token).indent = s'.indent := rfl
  rw [hreader, hindent]
  cases readBlockScalar folded s'.indent s'.reader with
  | error d => rfl
  | ok result => rfl

theorem fetchSign_hold (htaken : 0 < s.taken) (hkeys : ∀ key ∈ s.keys, s.taken ≤ key.number) :
    (s.hold token).fetchSign = hold token <$> s.fetchSign := by
  have hremove : ∀ {f f' : TokenStream → Except Diagnostic TokenStream},
      (∀ s', f' (hold token s') = hold token <$> f s') →
      (s.hold token).removeKey >>= f' = hold token <$> (s.removeKey >>= f) :=
    fun hf => bind_hold removeKey_hold fun s' _ => hf s'
  rw [fetchSign, fetchSign]
  refine ite_hold fetchEnd_hold ?_
  refine ite_hold fetchDirective_hold ?_
  refine ite_hold (congrArg Except.ok (fetchDocumentSign_hold _)) ?_
  refine ite_hold (congrArg Except.ok (fetchDocumentSign_hold _)) ?_
  refine ite_hold (fetchFlowStart_hold htaken _) ?_
  refine ite_hold (fetchFlowStart_hold htaken _) ?_
  refine ite_hold (hremove fun _ => rfl) ?_
  refine ite_hold (hremove fun _ => rfl) ?_
  refine ite_hold (hremove fun _ => rfl) ?_
  refine ite_hold fetchBlockEntry_hold ?_
  refine ite_hold fetchKey_hold ?_
  refine ite_hold (fetchValue_hold htaken hkeys) ?_
  refine ite_hold (fetchKeyed_hold htaken _) ?_
  refine ite_hold (fetchKeyed_hold htaken _) ?_
  refine ite_hold (fetchKeyed_hold htaken _) ?_
  refine ite_hold (fetchBlockScalar_hold _) ?_
  refine ite_hold (fetchBlockScalar_hold _) ?_
  refine ite_hold (fetchKeyed_hold htaken _) ?_
  refine ite_hold (fetchKeyed_hold htaken _) ?_
  refine ite_hold (bind_hold (saveKey_hold htaken) fun _ _ => rfl) ?_
  rfl

theorem fetch_hold (htaken : 0 < s.taken) (hkeys : ∀ key ∈ s.keys, s.taken ≤ key.number) :
    (s.hold token).fetch = hold token <$> s.fetch := by
  have hskip : (s.hold token).skipToToken = hold token s.skipToToken := rfl
  unfold fetch
  rw [hskip]
  refine bind_hold dropStaleKeys_hold fun s' hdrop => ?_
  have hdropped := dropStaleKeys_dropped hdrop
  have hunwind := s'.unwind_moved s'.mark.column
  have htaken' := (hdropped.prepared.trans hunwind.prepared).taken
  have hmark : (s'.hold token).mark = s'.mark := rfl
  rw [hmark, unwind_hold]
  refine fetchSign_hold ?_ fun key hkey => ?_
  · rw [htaken']
    exact htaken
  · rw [htaken']
    rw [hunwind.same] at hkey
    exact hkeys key (hdropped.keys key hkey)

end Hold

/-! ### Stale keys -/

/-- What the pending keys of a stream keep to. -/
structure Keyed (s : TokenStream) : Prop where
  /-- Their tokens are still in the queue. -/
  taken_le : ∀ key ∈ s.keys, s.taken ≤ key.number
  /-- They lie behind. -/
  line_le : ∀ key ∈ s.keys, key.mark.line ≤ s.mark.line

theorem Keyed.dropped {s s' : TokenStream} (hs : s.Keyed) (h : s.KeysDropped s') : s'.Keyed := by
  obtain ⟨hsame, hkeys⟩ := h
  rw [hsame]
  exact ⟨fun key hkey => hs.taken_le key (hkeys key hkey),
    fun key hkey => hs.line_le key (hkeys key hkey)⟩

theorem Keyed.fetch {s s' : TokenStream} (hs : s.Keyed) (h : s.fetch = .ok s') : s'.Keyed := by
  have hfetched := fetch_fetched h
  refine ⟨fun key hkey => ?_, fun key hkey => ?_⟩
  · rw [hfetched.taken]
    rcases hfetched.keys key hkey with hold | ⟨hnumber, -⟩
    · exact hs.taken_le key hold
    · omega
  · rcases hfetched.keys key hkey with hold | ⟨-, hline⟩
    · exact Nat.le_trans (hs.line_le key hold) hfetched.reader.line_le
    · exact hline

/-- A key that is stale stays so. -/
theorem isStale_of_leads {key : SimpleKey} {r r' : Reader} (hleads : r.Leads r')
    (hline : key.mark.line ≤ r.mark.line) (h : key.isStale r.mark = true) :
    key.isStale r'.mark = true := by
  have hline' := hleads.line_le
  have hindex := hleads.index_le
  simp only [SimpleKey.isStale, Bool.or_eq_true, bne_iff_ne, decide_eq_true_eq] at h ⊢
  omega

theorem dropStaleKeys_eq_ok_iff {s s' : TokenStream} :
    s.dropStaleKeys = .ok s' ↔
      (∀ key ∈ s.keys, key.isStale s.mark = true → key.required = false) ∧
        s' = { s with keys := s.keys.filter fun key => !key.isStale s.mark } := by
  unfold dropStaleKeys
  cases hfound : s.keys.find? fun key => key.isStale s.mark && key.required with
  | none =>
      have hnone : ∀ key ∈ s.keys, key.isStale s.mark = true → key.required = false := by
        simpa using hfound
      constructor
      · intro h
        cases h
        exact ⟨hnone, rfl⟩
      · rintro ⟨-, rfl⟩
        rfl
  | some key =>
      have hkey := List.find?_some hfound
      rw [Bool.and_eq_true] at hkey
      constructor
      · intro h
        cases h
      · rintro ⟨hnone, -⟩
        have hrequired := hnone key (List.mem_of_find?_eq_some hfound) hkey.1
        rw [hkey.2] at hrequired
        cases hrequired

theorem dropStaleKeys_congr {s : TokenStream} {keys : List SimpleKey}
    (hfind : keys.find? (fun key => key.isStale s.mark && key.required) =
      s.keys.find? fun key => key.isStale s.mark && key.required)
    (hfilter : keys.filter (fun key => !key.isStale s.mark) =
      s.keys.filter fun key => !key.isStale s.mark) :
    ({ s with keys }).dropStaleKeys = s.dropStaleKeys := by
  have hmark : ({ s with keys }).mark = s.mark := rfl
  unfold dropStaleKeys
  rw [hmark, hfind, hfilter]
  cases s.keys.find? fun key => key.isStale s.mark && key.required with
  | none => rfl
  | some key => rfl

/-- Keys that are dropped before the next token is read would be dropped then. -/
theorem fetch_of_dropStaleKeys {s s₁ : TokenStream} (hs : s.Keyed) (h : s.dropStaleKeys = .ok s₁) :
    s₁.fetch = s.fetch := by
  obtain ⟨hrequired, rfl⟩ := dropStaleKeys_eq_ok_iff.mp h
  have hstale : ∀ key ∈ s.keys, key.isStale s.mark = true →
      key.isStale s.skipToToken.mark = true := by
    intro key hkey
    exact isStale_of_leads s.skipToToken_leads (hs.line_le key hkey)
  have hfind : (s.keys.filter fun key => !key.isStale s.mark).find?
      (fun key => key.isStale s.skipToToken.mark && key.required) =
        s.keys.find? fun key => key.isStale s.skipToToken.mark && key.required := by
    rw [List.find?_filter]
    apply List.find?_congr
    intro key hkey
    cases hnow : key.isStale s.mark with
    | false => simp
    | true => simp [hrequired key hkey hnow]
  have hfilter : (s.keys.filter fun key => !key.isStale s.mark).filter
      (fun key => !key.isStale s.skipToToken.mark) =
        s.keys.filter fun key => !key.isStale s.skipToToken.mark := by
    rw [List.filter_filter]
    apply List.filter_congr
    intro key hkey
    cases hnow : key.isStale s.mark with
    | false => simp
    | true => simp [hstale key hkey hnow]
  have hdrop : ({ s with keys := s.keys.filter fun key => !key.isStale s.mark } :
      TokenStream).skipToToken.dropStaleKeys = s.skipToToken.dropStaleKeys :=
    dropStaleKeys_congr (s := s.skipToToken) hfind hfilter
  unfold fetch
  rw [hdrop]

/-- Where no required key is stale before the next token, none is yet. -/
theorem exists_dropStaleKeys {s s₁ : TokenStream} (hs : s.Keyed)
    (h : s.skipToToken.dropStaleKeys = .ok s₁) : ∃ s₂, s.dropStaleKeys = .ok s₂ := by
  obtain ⟨hrequired, -⟩ := dropStaleKeys_eq_ok_iff.mp h
  refine ⟨_, dropStaleKeys_eq_ok_iff.mpr ⟨fun key hkey hstale => ?_, rfl⟩⟩
  exact hrequired key hkey (isStale_of_leads s.skipToToken_leads (hs.line_le key hkey) hstale)

theorem fetch_dropStaleKeys {s s' : TokenStream} (hs : s.Keyed) (h : s.fetch = .ok s') :
    ∃ s₁, s.dropStaleKeys = .ok s₁ ∧ s₁.fetch = .ok s' := by
  obtain ⟨s₂, hdrop, -⟩ := bind_eq_ok_iff.mp h
  obtain ⟨s₁, hok⟩ := exists_dropStaleKeys hs hdrop
  exact ⟨s₁, hok, (fetch_of_dropStaleKeys hs hok).trans h⟩

/-! ### Handing tokens out -/

/-- How often more can be read. -/
def unread (s : TokenStream) : Nat := if s.done then 0 else s.reader.rest.length + 1

theorem unread_lt_of_fetch {s s' : TokenStream} (h : s.Fetch s') : s'.unread < s.unread := by
  obtain ⟨hdone, hfetch⟩ := h
  have hunread : s.unread = s.reader.rest.length + 1 := by simp [unread, hdone]
  rw [hunread, unread]
  rcases (fetch_fetched hfetch).progress with hdone' | hlength
  · rw [hdone', if_pos rfl]
    omega
  · split_ifs <;> omega

/-- A stream that can be read to the end can hand a token out. -/
theorem fillFor_of_fetches {n : Nat} {s s' : TokenStream} (hs : s.done = false → s.Keyed)
    (h : s.Fetches s') (hdone' : s'.done = true) (hn : s.unread < n) :
    ∃ s₁, fillFor n s = .ok s₁ ∧ s₁.Fetches s' ∧
      (s₁.done = false → s₁.Keyed ∧ s₁.queue ≠ [] ∧ s₁.frontIsOpen = false) := by
  induction n generalizing s with
  | zero => omega
  | succ n ih =>
      rw [fillFor, needsMore]
      rcases Relation.ReflTransGen.cases_head h with rfl | ⟨s₂, hfetch, hrest⟩
      · refine ⟨s, ?_, .refl, fun hdone => ?_⟩
        · rw [if_pos hdone']
          rfl
        · rw [hdone'] at hdone
          cases hdone
      · obtain ⟨hdone, hok⟩ := hfetch
        have hkeyed := hs hdone
        have hlt := unread_lt_of_fetch ⟨hdone, hok⟩
        have hfill := ih (fun _ => hkeyed.fetch hok) hrest (by omega)
        rw [hdone, if_neg (by decide)]
        by_cases hempty : s.queue.isEmpty = true
        · rw [if_pos hempty, ok_bind]
          dsimp only
          rw [if_pos rfl, hok, ok_bind]
          exact hfill
        · obtain ⟨s₁, hdrop, hok₁⟩ := fetch_dropStaleKeys hkeyed hok
          have hdropped := dropStaleKeys_dropped hdrop
          have hdone₁ : s₁.done = false := by rw [hdropped.same, hdone]
          rw [if_neg hempty, hdrop, ok_bind]
          cases hfront : s₁.frontIsOpen with
          | true =>
              rw [pure_eq_ok, ok_bind]
              dsimp only
              rw [if_pos rfl, hok₁, ok_bind]
              exact hfill
          | false =>
              refine ⟨s₁, rfl, .head ⟨hdone₁, hok₁⟩ hrest, fun _ => ?_⟩
              refine ⟨hkeyed.dropped hdropped, ?_, hfront⟩
              rw [hdropped.same]
              simpa using hempty

theorem fetches_of_hold {token : Token} {s s' : TokenStream} (hs : s.done = false → s.Keyed)
    (htaken : 0 < s.taken) (h : (s.hold token).Fetches s') :
    ∃ s₁, s.Fetches s₁ ∧ s' = s₁.hold token := by
  generalize hheld : s.hold token = held at h
  induction h using Relation.ReflTransGen.head_induction_on generalizing s with
  | refl => exact ⟨s, .refl, hheld.symm⟩
  | head hfetch _ ih =>
      subst hheld
      obtain ⟨hdone, hok⟩ := hfetch
      have hkeyed := hs hdone
      rw [fetch_hold htaken hkeyed.taken_le] at hok
      obtain ⟨s₂, hok, hheld⟩ := map_eq_ok_iff.mp hok
      have htaken' : 0 < s₂.taken := by
        rw [(fetch_fetched hok).taken]
        exact htaken
      obtain ⟨s₁, hfetches, hs'⟩ := ih (fun _ => hkeyed.fetch hok) htaken' hheld
      exact ⟨s₁, .head ⟨hdone, hok⟩ hfetches, hs'⟩

/-- Once a token that cannot turn out to be a key is handed out, the pending keys are behind it. -/
theorem Keyed.handed {s : TokenStream} (hs : s.Keyed) (hfront : s.frontIsOpen = false)
    (queue : List Token) : Keyed { s with queue, taken := s.taken + 1 } := by
  refine ⟨fun key hkey => ?_, hs.line_le⟩
  have hall : s.keys.all (s.taken ≤ ·.number) = true := by simpa using hs.taken_le
  have hany : s.keys.any (·.number == s.taken) = false := by
    simpa [frontIsOpen, hall] using hfront
  have hne : key.number ≠ s.taken := by simpa using List.any_eq_false.mp hany key hkey
  have hle := hs.taken_le key hkey
  change s.taken + 1 ≤ key.number
  omega

/-- The tokens handed out are those of the queue at the end. -/
theorem collect_of_fetches {n : Nat} {s s' : TokenStream} (hs : s.done = false → s.Keyed)
    (h : s.Fetches s') (hdone' : s'.done = true) (hn : s'.queue.length < n) :
    s.collect n = ⟨s'.queue, none⟩ := by
  induction n generalizing s s' with
  | zero => omega
  | succ n ih =>
      have hunread : s.unread < s.reader.rest.length + 2 := by
        unfold unread
        split_ifs <;> omega
      obtain ⟨s₁, hfill, hfetches, hfront⟩ := fillFor_of_fetches hs h hdone' hunread
      rw [collect, next, fill, hfill, ok_bind]
      cases hqueue : s₁.queue with
      | nil =>
          have hdone : s₁.done = true := by
            by_contra hdone
            exact (hfront (by simpa using hdone)).2.1 hqueue
          rcases Relation.ReflTransGen.cases_head hfetches with rfl | ⟨s₂, hfetch, -⟩
          · rw [hqueue]
            rfl
          · have hopen := hfetch.1
            rw [hdone] at hopen
            cases hopen
      | cons token queue =>
          have hheld : s₁ = hold token { s₁ with queue, taken := s₁.taken + 1 } := by
            rw [hold, ← hqueue]
            rfl
          rw [hheld] at hfetches
          have hkeyed : s₁.done = false → Keyed { s₁ with queue, taken := s₁.taken + 1 } :=
            fun hdone => (hfront hdone).1.handed (hfront hdone).2.2 queue
          obtain ⟨s₂, hrest, rfl⟩ := fetches_of_hold hkeyed (Nat.succ_pos _) hfetches
          have hdone : s₂.done = true := hdone'
          have hlength : s₂.queue.length < n := by simpa [hold] using hn
          have hcollect := ih hkeyed hrest hdone hlength
          simp only [pure_eq_ok, hcollect]
          rfl

theorem keyed_start (text : List Char) : (start text).Keyed := by
  constructor
  · intro key hkey
    cases hkey
  · intro key hkey
    cases hkey

end TokenStream

theorem Token.ofText_of_fetches {text : List Char} {s : TokenStream}
    (h : (TokenStream.start text).Fetches s) (hdone : s.done = true)
    (hlength : s.queue.length < 4 * text.length + 8) : Token.ofText text = ⟨s.queue, none⟩ :=
  TokenStream.collect_of_fetches (fun _ => TokenStream.keyed_start text) h hdone hlength

end Playbook
