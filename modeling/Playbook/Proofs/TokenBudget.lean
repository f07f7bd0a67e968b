import Playbook.Proofs.TokenRun
import Playbook.Token.Scan

/-!
How many tokens a text can yield. A character pays for at most four: for its own token, and for the
start and the end of a block and a key that are put in front of it. An open block holds the pay for
its end. So the tokens come to an end, and only the last of them is the end of the stream.
-/

namespace Playbook

/-! ### What is read is not the end of the stream -/

theorem readName_kind {context : Activity} {kind : String → TokenKind} {r r' : Reader}
    {token : Token} (h : readName context kind r = .ok (token, r')) :
    ∃ name, token.kind = kind name := by
  unfold readName at h
  dsimp only at h
  split_ifs at h
  cases h
  exact ⟨_, rfl⟩

theorem readTag_kind {r r' : Reader} {token : Token} (h : readTag r = .ok (token, r')) :
    ∃ handle suffix, token.kind = .tag handle suffix := by
  obtain ⟨⟨handle, suffix, r₁⟩, -, h⟩ := bind_eq_ok_iff.mp h
  dsimp only at h
  split_ifs at h
  cases h
  exact ⟨_, _, rfl⟩

theorem readDirective_kind {r r' : Reader} {token : Token}
    (h : readDirective r = .ok (token, r')) :
    ∃ name params, token.kind = .directive name params := by
  unfold readDirective at h
  dsimp only at h
  split_ifs at h
  split at h <;> cases h <;> exact ⟨_, _, rfl⟩

theorem readQuoted_kind {double : Bool} {r r' : Reader} {token : Token}
    (h : readQuoted double r = .ok (token, r')) :
    ∃ text style, token.kind = .scalar text style := by
  obtain ⟨_, -, h⟩ := bind_eq_ok_iff.mp h
  cases h
  exact ⟨_, _, rfl⟩

theorem readBlockScalar_kind {folded : Bool} {outer : Int} {r r' : Reader} {token : Token}
    (h : readBlockScalar folded outer r = .ok (token, r')) :
    ∃ text style, token.kind = .scalar text style := by
  unfold readBlockScalar at h
  obtain ⟨_, -, h⟩ := bind_eq_ok_iff.mp h
  obtain ⟨_, -, h⟩ := bind_eq_ok_iff.mp h
  obtain ⟨_, -, h⟩ := bind_eq_ok_iff.mp h
  cases h
  exact ⟨_, _, rfl⟩

namespace TokenStream

/-! ### Growth of the queue and of the open blocks -/

/-- Outside of all open blocks the column is `-1`. -/
def Based (s : TokenStream) : Prop := (s.indent :: s.indents).getLast? = some (-1)

/-- At most `k` tokens and blocks are added, none of them the end of the stream. -/
structure Grown (k : Nat) (s s' : TokenStream) : Prop where
  based : s.Based → s'.Based
  size : s.Based →
    s'.queue.length + s'.indents.length ≤ s.queue.length + s.indents.length + k
  added : s.Based → ∀ token ∈ s'.queue, token ∈ s.queue ∨ token.kind ≠ .streamEnd

variable {s s' s'' : TokenStream} {j k : Nat}

theorem Grown.trans (h : s.Grown j s') (h' : s'.Grown k s'') : s.Grown (j + k) s'' := by
  refine ⟨fun hs => h'.based (h.based hs), fun hs => ?_, fun hs token htoken => ?_⟩
  · have hsize := h.size hs
    have hsize' := h'.size (h.based hs)
    omega
  · rcases h'.added (h.based hs) token htoken with hold | hkind
    · exact h.added hs token hold
    · exact Or.inr hkind

theorem Grown.mono (h : s.Grown j s') (hle : j ≤ k) : s.Grown k s' := by
  refine ⟨h.based, fun hs => ?_, h.added⟩
  have hsize := h.size hs
  omega

theorem grown_of_same (hqueue : s'.queue = s.queue) (hindent : s'.indent = s.indent)
    (hindents : s'.indents = s.indents) : s.Grown 0 s' := by
  refine ⟨fun hs => ?_, fun _ => by simp [hqueue, hindents], fun _ token htoken => ?_⟩
  · unfold Based
    rw [hindent, hindents]
    exact hs
  · rw [hqueue] at htoken
    exact Or.inl htoken

theorem grown_of_insert (token : Token) (position : Nat) (hkind : token.kind ≠ .streamEnd)
    (hqueue : s'.queue = s.queue.insertIdx position token) (hindent : s'.indent = s.indent)
    (hindents : s'.indents = s.indents) : s.Grown 1 s' := by
  refine ⟨fun hs => ?_, fun _ => ?_, fun _ token' htoken => ?_⟩
  · unfold Based
    rw [hindent, hindents]
    exact hs
  · rw [hqueue, hindents, List.length_insertIdx]
    split_ifs <;> omega
  · rw [hqueue] at htoken
    rcases List.eq_or_mem_of_mem_insertIdx htoken with rfl | hold
    · exact Or.inr hkind
    · exact Or.inl hold

theorem grown_of_push (token : Token) (hkind : token.kind ≠ .streamEnd)
    (hqueue : s'.queue = s.queue ++ [token]) (hindent : s'.indent = s.indent)
    (hindents : s'.indents = s.indents) : s.Grown 1 s' := by
  refine grown_of_insert token s.queue.length hkind ?_ hindent hindents
  rw [hqueue, List.insertIdx_length_self]

theorem grown_of_indent {column : Int} (hqueue : s'.queue = s.queue) (hindent : s'.indent = column)
    (hindents : s'.indents = s.indent :: s.indents) : s.Grown 1 s' := by
  refine ⟨fun hs => ?_, fun _ => ?_, fun _ token htoken => ?_⟩
  · unfold Based
    rw [hindent, hindents]
    simpa [Based] using hs
  · rw [hqueue, hindents, List.length_cons]
    omega
  · rw [hqueue] at htoken
    exact Or.inl htoken

theorem KeysDropped.grown (h : s.KeysDropped s') : s.Grown 0 s' :=
  grown_of_same (by rw [h.same]) (by rw [h.same]) (by rw [h.same])

theorem KeysSaved.grown (h : s.KeysSaved s') : s.Grown 0 s' :=
  grown_of_same (by rw [h.same]) (by rw [h.same]) (by rw [h.same])

/-- Every block that is closed takes its end from the blocks to the queue. -/
theorem closeBlocks_size {column indent : Int} {indents : List Int} (mark : Mark)
    (hcolumn : -1 ≤ column) (hbased : (indent :: indents).getLast? = some (-1)) :
    ∃ indent' indents' ends, closeBlocks column mark indent indents [] = (indent', indents', ends) ∧
      (indent' :: indents').getLast? = some (-1) ∧
      ends.length + indents'.length = indents.length ∧ ∀ token ∈ ends, token.kind = .blockEnd := by
  induction indents generalizing indent with
  | nil =>
      have hindent : indent = -1 := by simpa using hbased
      have hle : ¬ indent > column := by omega
      exact ⟨indent, [], [], by rw [closeBlocks, if_neg hle], hbased, rfl, by simp⟩
  | cons outer indents ih =>
      unfold closeBlocks
      split_ifs with hgt
      · have houter : (outer :: indents).getLast? = some (-1) := by simpa using hbased
        obtain ⟨indent', indents', ends, hclose, hbased', hsize, hkind⟩ := ih houter
        refine ⟨indent', indents', ⟨.blockEnd, mark, mark⟩ :: ends, ?_, hbased', ?_, ?_⟩
        · rw [closeBlocks_queue, hclose]
          rfl
        · rw [List.length_cons, List.length_cons]
          omega
        · exact List.forall_mem_cons.mpr ⟨rfl, hkind⟩
      · exact ⟨indent, outer :: indents, [], rfl, hbased, by simp, by simp⟩

theorem unwind_grown (s : TokenStream) (column : Int) (hcolumn : -1 ≤ column) :
    s.Grown 0 (s.unwind column) := by
  unfold unwind
  split_ifs
  · exact grown_of_same rfl rfl rfl
  · by_cases hs : s.Based
    · obtain ⟨indent', indents', ends, hclose, hbased, hsize, hkind⟩ :=
        closeBlocks_size s.mark hcolumn hs
      dsimp only
      rw [closeBlocks_queue, hclose]
      refine ⟨fun _ => hbased, fun _ => ?_, fun _ token htoken => ?_⟩
      · dsimp only
        rw [List.length_append]
        omega
      · rcases List.mem_append.mp htoken with hold | hnew
        · exact Or.inl hold
        · simp [hkind token hnew]
    · exact ⟨fun h => absurd h hs, fun h => absurd h hs, fun h => absurd h hs⟩

theorem indentTo_eq_some {column : Nat} (h : s.indentTo column = some s') :
    s' = { s with indent := column, indents := s.indent :: s.indents } := by
  unfold indentTo at h
  split_ifs at h
  cases h
  rfl

theorem openBlock_grown {kind : TokenKind} {refusal : Problem} (hkind : kind ≠ .streamEnd)
    (h : s.openBlock kind refusal = .ok s') : s.Grown 2 s' := by
  unfold openBlock at h
  split_ifs at h
  · cases h
    exact (grown_of_same rfl rfl rfl).mono (by omega)
  · split at h
    · rename_i s₁ hindent
      cases h
      have hopened : s.Grown 1 s₁ := by
        rw [indentTo_eq_some hindent]
        exact grown_of_indent rfl rfl rfl
      have hpushed : s₁.Grown 1 (s₁.pushHere kind) := grown_of_push _ hkind rfl rfl rfl
      exact hopened.trans hpushed
    · cases h
      exact (grown_of_same rfl rfl rfl).mono (by omega)

theorem insertKey_grown (s : TokenStream) (key : SimpleKey) : s.Grown 3 (s.insertKey key) := by
  let queue := s.queue.insertIdx (key.number - s.taken) ⟨.key, key.mark, key.mark⟩
  have hkey : s.Grown 1 { s with queue } := grown_of_insert _ _ (by simp) rfl rfl rfl
  unfold insertKey
  dsimp only
  split
  · rename_i s₁ hindent
    have hindent : s.indentTo key.mark.column = some s₁ := by
      split_ifs at hindent
      exact hindent
    rw [indentTo_eq_some hindent]
    have hopened : { s with queue }.Grown 1
        { s with queue, indent := key.mark.column, indents := s.indent :: s.indents } :=
      grown_of_indent rfl rfl rfl
    refine (hkey.trans hopened).trans (k := 1) ?_
    exact grown_of_insert _ _ (by simp) rfl rfl rfl
  · exact hkey.mono (by omega)

/-! ### One fetch -/

/-- What a fetch adds: a few tokens, or the end of the stream behind the ends of blocks. -/
inductive Adds (s s' : TokenStream) : Prop
  | more (hdone : s'.done = s.done) (hgrown : s.Grown 4 s')
  | last {s₁ : TokenStream} {token : Token} (hdone : s'.done = true) (hgrown : s.Grown 0 s₁)
      (hkind : token.kind = .streamEnd) (hqueue : s'.queue = s₁.queue ++ [token])
      (hindent : s'.indent = s₁.indent) (hindents : s'.indents = s₁.indents)

theorem Prepared.more {s₁ : TokenStream} {token : Token} (h : s.Prepared s₁)
    (hgrown : s.Grown k s₁) (hk : k ≤ 3) (hkind : token.kind ≠ .streamEnd)
    (hdone : s'.done = s₁.done) (hqueue : s'.queue = s₁.queue ++ [token])
    (hindent : s'.indent = s₁.indent) (hindents : s'.indents = s₁.indents) : s.Adds s' :=
  .more (hdone.trans h.done)
    ((hgrown.trans (grown_of_push token hkind hqueue hindent hindents)).mono (by omega))

theorem Prepared.more_sign {s₁ : TokenStream} {kind : TokenKind} {length : Nat}
    (h : s.Prepared s₁) (hgrown : s.Grown k s₁) (hk : k ≤ 3) (hkind : kind ≠ .streamEnd)
    (hdone : s'.done = s₁.done) (hqueue : s'.queue = (s₁.pushSign kind length).queue)
    (hindent : s'.indent = s₁.indent) (hindents : s'.indents = s₁.indents) : s.Adds s' :=
  h.more hgrown hk hkind hdone hqueue hindent hindents

theorem fetchEnd_adds (h : s.fetchEnd = .ok s') : s.Adds s' := by
  obtain ⟨s₁, hremove, h⟩ := bind_eq_ok_iff.mp h
  cases h
  have hgrown := (s.unwind_grown (-1) (by omega)).trans (removeKey_dropped hremove).grown
  exact .last rfl hgrown (rfl : (⟨.streamEnd, s₁.mark, s₁.mark⟩ : Token).kind = _) rfl rfl rfl

theorem fetchDirective_adds (h : s.fetchDirective = .ok s') : s.Adds s' := by
  obtain ⟨s₁, hremove, h⟩ := bind_eq_ok_iff.mp h
  obtain ⟨⟨token, reader⟩, hread, h⟩ := bind_eq_ok_iff.mp h
  cases h
  have hdropped := removeKey_dropped hremove
  obtain ⟨name, params, hkind⟩ := readDirective_kind hread
  exact ((s.unwind_moved (-1)).prepared.trans hdropped.prepared).more
    ((s.unwind_grown (-1) (by omega)).trans hdropped.grown) (by omega) (by simp [hkind])
    rfl rfl rfl rfl

theorem fetchDocumentSign_adds {kind : TokenKind} (hkind : kind ≠ .streamEnd) :
    s.Adds (s.fetchDocumentSign kind) := by
  have hdropped := (s.unwind (-1)).forgetKey_dropped
  exact ((s.unwind_moved (-1)).prepared.trans hdropped.prepared).more_sign
    ((s.unwind_grown (-1) (by omega)).trans hdropped.grown) (by omega) hkind rfl rfl rfl rfl

theorem fetchFlowStart_adds {kind : TokenKind} (hkind : kind ≠ .streamEnd)
    (h : s.fetchFlowStart kind = .ok s') : s.Adds s' := by
  obtain ⟨s₁, hsave, h⟩ := bind_eq_ok_iff.mp h
  cases h
  have hsaved := saveKey_saved hsave
  exact hsaved.prepared.more_sign hsaved.grown (by omega) hkind rfl rfl rfl rfl

theorem fetchFlowEnd_adds {kind : TokenKind} (hkind : kind ≠ .streamEnd)
    (h : s.fetchFlowEnd kind = .ok s') : s.Adds s' := by
  obtain ⟨s₁, hremove, h⟩ := bind_eq_ok_iff.mp h
  cases h
  have hdropped := removeKey_dropped hremove
  exact hdropped.prepared.more_sign hdropped.grown (by omega) hkind rfl rfl rfl rfl

theorem fetchFlowEntry_adds (h : s.fetchFlowEntry = .ok s') : s.Adds s' := by
  obtain ⟨s₁, hremove, h⟩ := bind_eq_ok_iff.mp h
  cases h
  have hdropped := removeKey_dropped hremove
  exact hdropped.prepared.more_sign hdropped.grown (by omega) (by simp) rfl rfl rfl rfl

theorem fetchBlockEntry_adds (h : s.fetchBlockEntry = .ok s') : s.Adds s' := by
  obtain ⟨s₁, hopen, h⟩ := bind_eq_ok_iff.mp h
  obtain ⟨s₂, hremove, h⟩ := bind_eq_ok_iff.mp h
  cases h
  have hdropped := removeKey_dropped hremove
  exact ((openBlock_moved hopen).prepared.trans hdropped.prepared).more_sign
    ((openBlock_grown (by simp) hopen).trans hdropped.grown) (by omega) (by simp) rfl rfl rfl rfl

theorem fetchKey_adds (h : s.fetchKey = .ok s') : s.Adds s' := by
  obtain ⟨s₁, hopen, h⟩ := bind_eq_ok_iff.mp h
  obtain ⟨s₂, hremove, h⟩ := bind_eq_ok_iff.mp h
  cases h
  have hdropped := removeKey_dropped hremove
  exact ((openBlock_moved hopen).prepared.trans hdropped.prepared).more_sign
    ((openBlock_grown (by simp) hopen).trans hdropped.grown) (by omega) (by simp) rfl rfl rfl rfl

theorem fetchValue_adds (h : s.fetchValue = .ok s') : s.Adds s' := by
  unfold fetchValue at h
  split at h
  · cases h
    exact (s.forgetKey_dropped.prepared.trans (insertKey_prepared _ _)).more_sign
      (s.forgetKey_dropped.grown.trans (insertKey_grown _ _)) (by omega) (by simp) rfl rfl rfl rfl
  · obtain ⟨s₁, hopen, h⟩ := bind_eq_ok_iff.mp h
    cases h
    exact (openBlock_moved hopen).prepared.more_sign (openBlock_grown (by simp) hopen) (by omega)
      (by simp) rfl rfl rfl rfl

theorem fetchKeyed_adds {read : Reader → Except Diagnostic (Token × Reader)}
    (hread : ∀ r token r', read r = .ok (token, r') → token.kind ≠ .streamEnd)
    (h : s.fetchKeyed read = .ok s') : s.Adds s' := by
  obtain ⟨s₁, hsave, h⟩ := bind_eq_ok_iff.mp h
  obtain ⟨⟨token, reader⟩, hok, h⟩ := bind_eq_ok_iff.mp h
  cases h
  have hsaved := saveKey_saved hsave
  exact hsaved.prepared.more hsaved.grown (by omega) (hread _ _ _ hok) rfl rfl rfl rfl

theorem fetchBlockScalar_adds {folded : Bool} (h : s.fetchBlockScalar folded = .ok s') :
    s.Adds s' := by
  obtain ⟨s₁, hremove, h⟩ := bind_eq_ok_iff.mp h
  obtain ⟨⟨token, reader⟩, hread, h⟩ := bind_eq_ok_iff.mp h
  cases h
  have hdropped := removeKey_dropped hremove
  obtain ⟨text, style, hkind⟩ := readBlockScalar_kind hread
  exact hdropped.prepared.more hdropped.grown (by omega) (by simp [hkind]) rfl rfl rfl rfl

theorem fetchPlain_adds (h : s.fetchPlain = .ok s') : s.Adds s' := by
  obtain ⟨s₁, hsave, h⟩ := bind_eq_ok_iff.mp h
  cases h
  have hsaved := saveKey_saved hsave
  exact hsaved.prepared.more hsaved.grown (by omega) (by simp) rfl rfl rfl rfl

theorem fetchSign_adds (h : s.fetchSign = .ok s') : s.Adds s' := by
  have hbranch := s.fetchSign_branch
  generalize s.fetchSign = x at h hbranch
  cases hbranch with
  | atEnd => exact fetchEnd_adds h
  | directive => exact fetchDirective_adds h
  | documentSign _ hkind =>
      cases h
      exact fetchDocumentSign_adds (by rcases hkind with rfl | rfl <;> simp)
  | flowStart _ hkind => exact fetchFlowStart_adds (by rcases hkind with rfl | rfl <;> simp) h
  | flowEnd _ hkind => exact fetchFlowEnd_adds (by rcases hkind with rfl | rfl <;> simp) h
  | flowEntry => exact fetchFlowEntry_adds h
  | blockEntry => exact fetchBlockEntry_adds h
  | key => exact fetchKey_adds h
  | value => exact fetchValue_adds h
  | name _ hkind =>
      refine fetchKeyed_adds (fun r token r' hread => ?_) h
      obtain ⟨name, hname⟩ := readName_kind hread
      rcases hkind with rfl | rfl <;> simp [hname]
  | tag =>
      refine fetchKeyed_adds (fun r token r' hread => ?_) h
      obtain ⟨handle, suffix, hkind⟩ := readTag_kind hread
      simp [hkind]
  | blockScalar => exact fetchBlockScalar_adds h
  | quoted =>
      refine fetchKeyed_adds (fun r token r' hread => ?_) h
      obtain ⟨text, style, hkind⟩ := readQuoted_kind hread
      simp [hkind]
  | plain => exact fetchPlain_adds h
  | none => cases h

theorem fetch_adds (h : s.fetch = .ok s') : s.Adds s' := by
  obtain ⟨s₁, hdrop, h⟩ := bind_eq_ok_iff.mp h
  have hskip : s.Grown 0 s.skipToToken := grown_of_same rfl rfl rfl
  have hgrown := (hskip.trans (dropStaleKeys_dropped hdrop).grown).trans
    (s₁.unwind_grown s₁.mark.column (by omega))
  have hprepared := (dropStaleKeys_dropped hdrop).prepared.trans
    (s₁.unwind_moved s₁.mark.column).prepared
  cases fetchSign_adds h with
  | more hdone hmore => exact .more (hdone.trans hprepared.done) (hgrown.trans hmore)
  | last hdone hlast hkind hqueue hindent hindents =>
      exact .last hdone (hgrown.trans hlast) hkind hqueue hindent hindents

/-! ### The budget -/

theorem budget_start (text : List Char) : (start text).budget = 4 * text.length + 2 := by
  simp [budget, start, Reader.start]
  omega

theorem based_start (text : List Char) : (start text).Based := rfl

/-- A fetch is paid for by the characters that it reads. -/
theorem fetch_budget (hs : s.Based) (hdone : s.done = false) (h : s.fetch = .ok s') :
    s'.Based ∧ s'.budget ≤ s.budget := by
  have hfetched := fetch_fetched h
  have hlength := hfetched.reader.length_le
  cases fetch_adds h with
  | more hsame hgrown =>
      have hdone' : s'.done = false := hsame.trans hdone
      have hread : s'.reader.rest.length < s.reader.rest.length := by
        simpa [hdone'] using hfetched.progress
      have hsize := hgrown.size hs
      refine ⟨hgrown.based hs, ?_⟩
      simp only [budget, hdone, hdone']
      omega
  | last hdone' hgrown _ hqueue hindent hindents =>
      have hsize := hgrown.size hs
      refine ⟨?_, ?_⟩
      · unfold Based
        rw [hindent, hindents]
        exact hgrown.based hs
      · simp only [budget, hdone, hdone', hqueue, hindents, List.length_append,
          List.length_singleton, if_true, Bool.false_eq_true, if_false]
        omega

theorem fill_budget (hs : s.Based) (h : s.fill = .ok s') : s'.Based ∧ s'.budget ≤ s.budget := by
  refine (fillFor_keeps (P := fun s' => s'.Based ∧ s'.budget ≤ s.budget) ?_ ?_
    ⟨hs, Nat.le_refl _⟩ h).1
  · intro s₁ s₂ hdrop hs₁
    rw [(dropStaleKeys_dropped hdrop).same]
    exact hs₁
  · intro s₁ s₂ hdone hfetch hs₁
    obtain ⟨hbased, hle⟩ := fetch_budget hs₁.1 hdone hfetch
    exact ⟨hbased, Nat.le_trans hle hs₁.2⟩

theorem next_budget {token : Token} (hs : s.Based) (h : s.next = .ok (some token, s')) :
    s'.Based ∧ s'.budget < s.budget := by
  obtain ⟨s₁, queue, hfill, hqueue, rfl⟩ := next_eq_some h
  obtain ⟨hbased, hle⟩ := fill_budget hs hfill
  refine ⟨hbased, ?_⟩
  simp only [budget, hqueue, List.length_cons] at hle ⊢
  omega

/-! ### Whole runs -/

/-- The tokens are handed out one after the other. -/
inductive Hands : TokenStream → List Token → TokenStream → Prop
  | nil (s : TokenStream) : Hands s [] s
  | cons {s s' last : TokenStream} {token : Token} {tokens : List Token}
      (hnext : s.next = .ok (some token, s')) (hrest : Hands s' tokens last) :
      Hands s (token :: tokens) last

/-- The collected tokens are all that can be handed out. -/
theorem collect_hands {n : Nat} (hs : s.Based) (hn : s.budget < n) :
    ∃ last, s.Hands (s.collect n).items last ∧
      (((s.collect n).fault = none ∧ ∃ s', last.next = .ok (none, s')) ∨
        ∃ d, (s.collect n).fault = some d ∧ last.next = .error d) := by
  induction n generalizing s with
  | zero => omega
  | succ n ih =>
      unfold collect
      cases hnext : s.next with
      | error d => exact ⟨s, .nil s, Or.inr ⟨d, rfl, hnext⟩⟩
      | ok found =>
          obtain ⟨token, s'⟩ := found
          cases token with
          | none => exact ⟨s, .nil s, Or.inl ⟨rfl, s', hnext⟩⟩
          | some token =>
              obtain ⟨hs', hlt⟩ := next_budget hs hnext
              obtain ⟨last, hhands, hend⟩ := ih hs' (by omega)
              exact ⟨last, .cons hnext hhands, hend⟩

/-- Once the end of the text has been read, the queue is as full as it gets. -/
theorem fill_of_done (hdone : s.done = true) : s.fill = .ok s := by
  unfold fill fillFor needsMore
  rw [if_pos hdone]
  rfl

/-- There is no next token only behind the last one, and then there will never be one. -/
theorem next_none (h : s.next = .ok (none, s')) : s' = s ∧ s.done = true ∧ s.queue = [] := by
  obtain ⟨hfill, hempty⟩ := next_eq_none h
  by_cases hdone : s.done = true
  · rw [fill_of_done hdone] at hfill
    cases hfill
    exact ⟨rfl, hdone, hempty⟩
  · -- Whatever is fetched first stays in the queue.
    have hkeeps := fillFor_keeps (P := fun s' => s'.done = true → s'.queue ≠ [])
      (s := s) ?_ ?_ (fun hyes => absurd hyes hdone) hfill
    · exfalso
      cases hdone' : s'.done with
      | true => exact hkeeps.1 hdone' hempty
      | false => exact (hkeeps.2 hdone').1 hempty
    · intro s₁ s₂ hdrop hs₁
      rw [(dropStaleKeys_dropped hdrop).same]
      exact hs₁
    · intro s₁ s₂ _ hfetch _ _ hnil
      have hqueue := (fetch_fetched hfetch).queue
      rw [hnil] at hqueue
      exact absurd hqueue (Nat.not_lt_zero _)

/-- Of the tokens handed out and those in the queue the last one is the end of the stream if the end
of the text has been read, and no other one is. -/
def Ending (handed : List Token) (s : TokenStream) : Prop :=
  (s.done = false → ∀ token ∈ handed ++ s.queue, token.kind ≠ .streamEnd) ∧
  (s.done = true → ∃ init last, handed ++ s.queue = init ++ [last] ∧ last.kind = .streamEnd ∧
    ∀ token ∈ init, token.kind ≠ .streamEnd)

theorem fetch_ending {handed : List Token} (hs : s.Based) (hdone : s.done = false)
    (hending : s.Ending handed) (h : s.fetch = .ok s') : s'.Ending handed := by
  have hnone := hending.1 hdone
  have hgrown : ∀ {s₁ : TokenStream} {k : Nat}, s.Grown k s₁ →
      ∀ token ∈ handed ++ s₁.queue, token.kind ≠ .streamEnd := by
    intro s₁ k hgrown token htoken
    rcases List.mem_append.mp htoken with hhanded | hqueue
    · exact hnone token (List.mem_append_left _ hhanded)
    · rcases hgrown.added hs token hqueue with hold | hkind
      · exact hnone token (List.mem_append_right _ hold)
      · exact hkind
  cases fetch_adds h with
  | more hsame hmore =>
      refine ⟨fun _ => hgrown hmore, fun hdone' => ?_⟩
      rw [hsame, hdone] at hdone'
      cases hdone'
  | @last s₁ token hdone' hlast hkind hqueue _ _ =>
      refine ⟨fun hopen => ?_, fun _ => ⟨handed ++ s₁.queue, token, ?_, hkind, hgrown hlast⟩⟩
      · rw [hdone'] at hopen
        cases hopen
      · rw [hqueue, List.append_assoc]

theorem fill_ending {handed : List Token} (hs : s.Based) (hending : s.Ending handed)
    (h : s.fill = .ok s') : s'.Ending handed := by
  refine (fillFor_keeps (P := fun s' => s'.Based ∧ s'.Ending handed) ?_ ?_ ⟨hs, hending⟩ h).1.2
  · intro s₁ s₂ hdrop hs₁
    rw [(dropStaleKeys_dropped hdrop).same]
    exact hs₁
  · intro s₁ s₂ hdone hfetch hs₁
    exact ⟨(fetch_budget hs₁.1 hdone hfetch).1, fetch_ending hs₁.1 hdone hs₁.2 hfetch⟩

theorem Hands.ending {handed tokens : List Token} (h : s.Hands tokens s') (hs : s.Based)
    (hending : s.Ending handed) : s'.Based ∧ s'.Ending (handed ++ tokens) := by
  induction h generalizing handed with
  | nil => exact ⟨hs, by simpa using hending⟩
  | @cons s s' last token tokens hnext _ ih =>
      obtain ⟨s₁, queue, hfill, hqueue, hs'⟩ := next_eq_some hnext
      have hfilled := fill_ending hs hending hfill
      have hending' : s'.Ending (handed ++ [token]) := by
        rw [hs']
        simpa [Ending, hqueue] using hfilled
      have hlast := ih (next_budget hs hnext).1 hending'
      rwa [List.append_assoc] at hlast

end TokenStream

end Playbook
