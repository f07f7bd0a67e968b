import Playbook.Proofs.Reading
import Playbook.Token.Stream

/-!
What fetching a token does to a token stream. Each operation on pending keys and open blocks is
described once; from these follows what one fetch can do, whatever the text: it reads on, it queues
tokens, it notes at most one new key, and it is the last one exactly if it queues the end of the
stream.
-/

namespace Playbook

namespace TokenStream

open Reader

/-- The second stream differs from the first at most in its pending keys, all of which are old. -/
structure KeysDropped (s s' : TokenStream) : Prop where
  same : s' = { s with keys := s'.keys }
  keys : ∀ key ∈ s'.keys, key ∈ s.keys

theorem forgetKey_dropped (s : TokenStream) : s.KeysDropped s.forgetKey :=
  ⟨rfl, fun _ hkey => (List.mem_filter.mp hkey).1⟩

theorem removeKey_dropped {s s' : TokenStream} (h : s.removeKey = .ok s') :
    s.KeysDropped s' := by
  unfold removeKey at h
  split at h
  · split_ifs at h
    cases h
    exact s.forgetKey_dropped
  · cases h
    exact ⟨rfl, fun _ hkey => hkey⟩

theorem dropStaleKeys_dropped {s s' : TokenStream} (h : s.dropStaleKeys = .ok s') :
    s.KeysDropped s' := by
  unfold dropStaleKeys at h
  split at h
  · cases h
  · cases h
    exact ⟨rfl, fun _ hkey => (List.mem_filter.mp hkey).1⟩

theorem dropStaleKeys_of_fresh {s : TokenStream} (h : ∀ key ∈ s.keys, key.isStale s.mark = false) :
    s.dropStaleKeys = .ok s := by
  have hfind : s.keys.find? (fun key => key.isStale s.mark && key.required) = none := by
    rw [List.find?_eq_none]
    intro key hkey
    simp [h key hkey]
  have hfilter : s.keys.filter (fun key => !key.isStale s.mark) = s.keys := by
    rw [List.filter_eq_self]
    intro key hkey
    simp [h key hkey]
  rw [dropStaleKeys, hfind, hfilter]

theorem dropStaleKeys_again {s s' : TokenStream} (h : s.dropStaleKeys = .ok s') :
    s'.dropStaleKeys = .ok s' := by
  unfold dropStaleKeys at h
  split at h
  · cases h
  · cases h
    refine dropStaleKeys_of_fresh fun key hkey => ?_
    have hfresh : key.isStale s.mark = false := by simpa using (List.mem_filter.mp hkey).2
    exact hfresh

/-- The second stream differs from the first at most in its pending keys; the only one that may be
new starts here, with the next token to be queued and at the current level. -/
structure KeysSaved (s s' : TokenStream) : Prop where
  same : s' = { s with keys := s'.keys }
  keys : ∀ key ∈ s'.keys, key ∈ s.keys ∨
    key.number = s.taken + s.queue.length ∧ key.mark = s.mark ∧ key.level = s.flowLevel

theorem saveKey_saved {s s' : TokenStream} (h : s.saveKey = .ok s') : s.KeysSaved s' := by
  unfold saveKey at h
  split_ifs at h
  · obtain ⟨s₁, hremove, h⟩ := bind_eq_ok_iff.mp h
    have hdropped := removeKey_dropped hremove
    cases h
    refine ⟨?_, ?_⟩
    · rw [hdropped.same]
    · intro key hkey
      rcases List.mem_cons.mp hkey with rfl | hkey
      · exact Or.inr ⟨rfl, rfl, rfl⟩
      · exact Or.inl (hdropped.keys key hkey)
  · cases h
    exact ⟨rfl, fun _ hkey => Or.inl hkey⟩

/-- The second stream differs from the first at most in its open blocks and in tokens behind the
queue, which take up no text. -/
structure BlocksMoved (s s' : TokenStream) : Prop where
  same : s' = { s with indent := s'.indent, indents := s'.indents, queue := s'.queue }
  queue : ∃ added, s'.queue = s.queue ++ added ∧
    ∀ token ∈ added, token.start = s.mark ∧ token.stop = s.mark

theorem closeBlocks_queue (column : Int) (mark : Mark) (indent : Int) (indents : List Int)
    (queue : List Token) :
    closeBlocks column mark indent indents queue =
      ((closeBlocks column mark indent indents []).1,
        (closeBlocks column mark indent indents []).2.1,
        queue ++ (closeBlocks column mark indent indents []).2.2) := by
  induction indents generalizing indent queue with
  | nil =>
      unfold closeBlocks
      split_ifs <;> simp
  | cons outer indents ih =>
      unfold closeBlocks
      split_ifs
      · rw [ih outer (queue ++ _), ih outer ([] ++ _)]
        simp
      · simp

theorem closeBlocks_mark {column : Int} {mark : Mark} {indent : Int} {indents : List Int}
    {token : Token} (h : token ∈ (closeBlocks column mark indent indents []).2.2) :
    token.start = mark ∧ token.stop = mark := by
  induction indents generalizing indent with
  | nil =>
      unfold closeBlocks at h
      split_ifs at h
      · cases List.mem_singleton.mp h
        exact ⟨rfl, rfl⟩
      · cases h
  | cons outer indents ih =>
      unfold closeBlocks at h
      split_ifs at h
      · rw [closeBlocks_queue] at h
        rcases List.mem_cons.mp h with rfl | h
        · exact ⟨rfl, rfl⟩
        · exact ih h
      · cases h

theorem unwind_moved (s : TokenStream) (column : Int) : s.BlocksMoved (s.unwind column) := by
  unfold unwind
  split_ifs
  · exact ⟨rfl, [], by simp⟩
  · dsimp only
    rw [closeBlocks_queue]
    exact ⟨rfl, _, rfl, fun _ => closeBlocks_mark⟩

theorem openBlock_moved {s s' : TokenStream} {kind : TokenKind} {refusal : Problem}
    (h : s.openBlock kind refusal = .ok s') : s.BlocksMoved s' := by
  unfold openBlock at h
  split_ifs at h
  · cases h
    exact ⟨rfl, [], by simp⟩
  · unfold indentTo at h
    split_ifs at h
    · cases h
      exact ⟨rfl, [⟨kind, s.mark, s.mark⟩], rfl, by simp⟩
    · cases h
      exact ⟨rfl, [], by simp⟩

theorem insertIdx_length {α : Type} (before after : List α) (a : α) :
    (before ++ after).insertIdx before.length a = before ++ a :: after := by
  induction before with
  | nil => rfl
  | cons b before ih => exact congrArg (b :: ·) ih

theorem insertKey_moved (s : TokenStream) (key : SimpleKey) :
    s.insertKey key = { s with
      indent := (s.insertKey key).indent, indents := (s.insertKey key).indents,
      queue := (s.insertKey key).queue } := by
  unfold insertKey indentTo
  dsimp only
  split
  · rename_i h
    split_ifs at h
    cases h
    rfl
  · rfl

/-- What may happen before a token is queued: keys are dropped or saved, blocks close or open. -/
structure Prepared (s s' : TokenStream) : Prop where
  taken : s'.taken = s.taken
  reader : s'.reader = s.reader
  done : s'.done = s.done
  queue : s.queue.length ≤ s'.queue.length
  keys : ∀ key ∈ s'.keys, key ∈ s.keys ∨
    s.taken + s.queue.length ≤ key.number ∧ key.mark = s.mark

theorem Prepared.trans {s s' s'' : TokenStream} (h : s.Prepared s') (h' : s'.Prepared s'') :
    s.Prepared s'' := by
  refine ⟨h'.taken.trans h.taken, h'.reader.trans h.reader, h'.done.trans h.done,
    Nat.le_trans h.queue h'.queue, fun key hkey => ?_⟩
  rcases h'.keys key hkey with hold | ⟨hnumber, hmark⟩
  · exact h.keys key hold
  · have hqueue := h.queue
    rw [h.taken] at hnumber
    refine Or.inr ⟨by omega, ?_⟩
    rw [hmark]
    exact congrArg Reader.mark h.reader

theorem KeysDropped.prepared {s s' : TokenStream} (h : s.KeysDropped s') : s.Prepared s' := by
  have hsame := h.same
  refine ⟨by rw [hsame], by rw [hsame], by rw [hsame], by rw [hsame], fun key hkey => ?_⟩
  exact Or.inl (h.keys key hkey)

theorem KeysSaved.prepared {s s' : TokenStream} (h : s.KeysSaved s') : s.Prepared s' := by
  have hsame := h.same
  refine ⟨by rw [hsame], by rw [hsame], by rw [hsame], by rw [hsame], fun key hkey => ?_⟩
  rcases h.keys key hkey with hold | ⟨hnumber, hmark, -⟩
  · exact Or.inl hold
  · exact Or.inr ⟨Nat.le_of_eq hnumber.symm, hmark⟩

theorem BlocksMoved.prepared {s s' : TokenStream} (h : s.BlocksMoved s') : s.Prepared s' := by
  obtain ⟨hsame, added, hqueue, -⟩ := h
  refine ⟨by rw [hsame], by rw [hsame], by rw [hsame], ?_, fun key hkey => ?_⟩
  · rw [hqueue, List.length_append]
    omega
  · rw [hsame] at hkey
    exact Or.inl hkey

/-- What one fetch can do. -/
structure Fetched (s s' : TokenStream) : Prop where
  taken : s'.taken = s.taken
  reader : s.reader.Leads s'.reader
  progress : s'.done = true ∨ s'.reader.rest.length < s.reader.rest.length
  ending : s'.done = s.done ∨ ∃ t, s'.queue.getLast? = some t ∧ t.kind = .streamEnd
  queue : s.queue.length < s'.queue.length
  keys : ∀ key ∈ s'.keys, key ∈ s.keys ∨
    s.taken + s.queue.length ≤ key.number ∧ key.mark.line ≤ s'.mark.line

/-- Preparations, and then a token that takes up some text. -/
theorem Prepared.fetched {s s₁ s' : TokenStream} {reader : Reader} {token : Token}
    (h : s.Prepared s₁) (hend : s.reader.atEnd = false) (hreader : s.reader.next.Leads reader)
    (htaken : s'.taken = s₁.taken) (hdone : s'.done = s₁.done) (hkeys : s'.keys = s₁.keys)
    (hqueue : s'.queue = s₁.queue ++ [token]) (hreader' : s'.reader = reader) :
    s.Fetched s' := by
  subst hreader'
  have hleads : s.reader.Leads s'.reader := (Leads.next _).trans hreader
  refine ⟨htaken.trans h.taken, hleads, Or.inr (hreader.length_lt hend),
    Or.inl (hdone.trans h.done), ?_, fun key hkey => ?_⟩
  · have hle := h.queue
    rw [hqueue, List.length_append, List.length_singleton]
    omega
  · rw [hkeys] at hkey
    rcases h.keys key hkey with hold | ⟨hnumber, hmark⟩
    · exact Or.inl hold
    · refine Or.inr ⟨hnumber, ?_⟩
      rw [hmark]
      exact hleads.line_le

theorem fetchEnd_fetched {s s' : TokenStream} (h : s.fetchEnd = .ok s') : s.Fetched s' := by
  obtain ⟨s₁, hremove, h⟩ := bind_eq_ok_iff.mp h
  have hprepared := (s.unwind_moved (-1)).prepared.trans (removeKey_dropped hremove).prepared
  cases h
  refine ⟨hprepared.taken, ?_, Or.inl rfl, Or.inr ⟨_, List.getLast?_concat, rfl⟩, ?_, ?_⟩
  · change s.reader.Leads s₁.reader
    rw [hprepared.reader]
    exact .refl _
  · have hle := hprepared.queue
    change s.queue.length < (s₁.queue ++ [_]).length
    rw [List.length_append, List.length_singleton]
    omega
  · intro key hkey
    cases hkey

theorem fetchDirective_fetched {s s' : TokenStream} (hend : s.reader.atEnd = false)
    (h : s.fetchDirective = .ok s') : s.Fetched s' := by
  obtain ⟨s₁, hremove, h⟩ := bind_eq_ok_iff.mp h
  obtain ⟨⟨token, reader⟩, hread, h⟩ := bind_eq_ok_iff.mp h
  have hprepared := (s.unwind_moved (-1)).prepared.trans (removeKey_dropped hremove).prepared
  have hleads := readDirective_leads hread
  rw [hprepared.reader] at hleads
  cases h
  exact hprepared.fetched hend hleads rfl rfl rfl rfl rfl

theorem fetchDocumentSign_fetched {s : TokenStream} (kind : TokenKind)
    (hend : s.reader.atEnd = false) : s.Fetched (s.fetchDocumentSign kind) := by
  have hprepared := (s.unwind_moved (-1)).prepared.trans (forgetKey_dropped _).prepared
  have hleads : s.reader.next.Leads ((s.unwind (-1)).forgetKey.reader.advance 3) := by
    rw [hprepared.reader]
    exact ⟨2, rfl⟩
  exact hprepared.fetched hend hleads rfl rfl rfl rfl rfl

/-- Preparations, and then a sign of one character. -/
theorem Prepared.fetched_sign {s s₁ s' : TokenStream} {kind : TokenKind}
    (h : s.Prepared s₁) (hend : s.reader.atEnd = false)
    (htaken : s'.taken = s₁.taken) (hdone : s'.done = s₁.done) (hkeys : s'.keys = s₁.keys)
    (hqueue : s'.queue = (s₁.pushSign kind 1).queue)
    (hreader : s'.reader = (s₁.pushSign kind 1).reader) : s.Fetched s' := by
  refine h.fetched hend ?_ htaken hdone hkeys hqueue hreader
  change s.reader.next.Leads s₁.reader.next
  rw [h.reader]
  exact .refl _

theorem fetchFlowStart_fetched {s s' : TokenStream} {kind : TokenKind}
    (hend : s.reader.atEnd = false) (h : s.fetchFlowStart kind = .ok s') : s.Fetched s' := by
  obtain ⟨s₁, hsave, h⟩ := bind_eq_ok_iff.mp h
  cases h
  exact (saveKey_saved hsave).prepared.fetched_sign hend rfl rfl rfl rfl rfl

theorem fetchFlowEnd_fetched {s s' : TokenStream} {kind : TokenKind}
    (hend : s.reader.atEnd = false) (h : s.fetchFlowEnd kind = .ok s') : s.Fetched s' := by
  obtain ⟨s₁, hremove, h⟩ := bind_eq_ok_iff.mp h
  cases h
  exact (removeKey_dropped hremove).prepared.fetched_sign hend rfl rfl rfl rfl rfl

theorem fetchFlowEntry_fetched {s s' : TokenStream} (hend : s.reader.atEnd = false)
    (h : s.fetchFlowEntry = .ok s') : s.Fetched s' := by
  obtain ⟨s₁, hremove, h⟩ := bind_eq_ok_iff.mp h
  cases h
  exact (removeKey_dropped hremove).prepared.fetched_sign hend rfl rfl rfl rfl rfl

theorem fetchBlockEntry_fetched {s s' : TokenStream} (hend : s.reader.atEnd = false)
    (h : s.fetchBlockEntry = .ok s') : s.Fetched s' := by
  obtain ⟨s₁, hopen, h⟩ := bind_eq_ok_iff.mp h
  obtain ⟨s₂, hremove, h⟩ := bind_eq_ok_iff.mp h
  cases h
  exact ((openBlock_moved hopen).prepared.trans (removeKey_dropped hremove).prepared).fetched_sign
    hend rfl rfl rfl rfl rfl

theorem fetchKey_fetched {s s' : TokenStream} (hend : s.reader.atEnd = false)
    (h : s.fetchKey = .ok s') : s.Fetched s' := by
  obtain ⟨s₁, hopen, h⟩ := bind_eq_ok_iff.mp h
  obtain ⟨s₂, hremove, h⟩ := bind_eq_ok_iff.mp h
  cases h
  exact ((openBlock_moved hopen).prepared.trans (removeKey_dropped hremove).prepared).fetched_sign
    hend rfl rfl rfl rfl rfl

theorem insertKey_prepared (s : TokenStream) (key : SimpleKey) :
    s.Prepared (s.insertKey key) := by
  have hsame := s.insertKey_moved key
  refine ⟨by rw [hsame], by rw [hsame], by rw [hsame], ?_, fun key' hkey => ?_⟩
  · unfold insertKey
    dsimp only
    split
    · exact Nat.le_trans (List.length_le_length_insertIdx ..)
        (List.length_le_length_insertIdx ..)
    · exact List.length_le_length_insertIdx ..
  · rw [hsame] at hkey
    exact Or.inl hkey

theorem fetchValue_fetched {s s' : TokenStream} (hend : s.reader.atEnd = false)
    (h : s.fetchValue = .ok s') : s.Fetched s' := by
  unfold fetchValue at h
  split at h
  · cases h
    exact (s.forgetKey_dropped.prepared.trans (insertKey_prepared _ _)).fetched_sign hend
      rfl rfl rfl rfl rfl
  · obtain ⟨s₁, hopen, h⟩ := bind_eq_ok_iff.mp h
    cases h
    exact (openBlock_moved hopen).prepared.fetched_sign hend rfl rfl rfl rfl rfl

theorem fetchKeyed_fetched {s s' : TokenStream}
    {read : Reader → Except Diagnostic (Token × Reader)}
    (hread : ∀ r token r', read r = .ok (token, r') → r.next.Leads r')
    (hend : s.reader.atEnd = false) (h : s.fetchKeyed read = .ok s') : s.Fetched s' := by
  obtain ⟨s₁, hsave, h⟩ := bind_eq_ok_iff.mp h
  obtain ⟨⟨token, reader⟩, hok, h⟩ := bind_eq_ok_iff.mp h
  have hprepared := (saveKey_saved hsave).prepared
  have hleads := hread _ _ _ hok
  rw [hprepared.reader] at hleads
  cases h
  exact hprepared.fetched hend hleads rfl rfl rfl rfl rfl

theorem fetchBlockScalar_fetched {s s' : TokenStream} {folded : Bool}
    (hend : s.reader.atEnd = false) (h : s.fetchBlockScalar folded = .ok s') :
    s.Fetched s' := by
  obtain ⟨s₁, hremove, h⟩ := bind_eq_ok_iff.mp h
  obtain ⟨⟨token, reader⟩, hread, h⟩ := bind_eq_ok_iff.mp h
  have hprepared := (removeKey_dropped hremove).prepared
  have hleads := readBlockScalar_leads hread
  rw [hprepared.reader] at hleads
  cases h
  exact hprepared.fetched hend hleads rfl rfl rfl rfl rfl

/-- Where a plain scalar may start, its first character belongs to it. -/
theorem plainPiece_of_atPlain {s : TokenStream} (h : s.atPlain = true) :
    s.reader.peek ≠ '#' ∧ plainPiece s.inFlow s.reader.rest ≠ [] := by
  unfold atPlain at h
  simp only [Bool.or_eq_true, Bool.and_eq_true, Bool.not_eq_true', Bool.or_eq_false_iff,
    beq_iff_eq] at h
  cases hrest : s.reader.rest with
  | nil =>
      have hpeek : s.reader.peek = nul := by simp [Reader.peek, hrest]
      rw [hpeek] at h
      rcases h with ⟨h, -⟩ | ⟨-, h | ⟨-, h | h⟩⟩
      all_goals exact absurd h (by decide)
  | cons c rest =>
      have hpeek : s.reader.peek = c := by simp [Reader.peek, hrest]
      have hnext : s.reader.peekAt 1 = rest.headD nul := by
        cases rest <;> simp [Reader.peekAt, hrest]
      rw [hpeek, hnext] at h
      have hstops : c ≠ '#' ∧ plainStops s.inFlow c (rest.headD nul) = false := by
        rcases h with ⟨hblank, hindicator⟩ | ⟨hblank, rfl | ⟨hflow, rfl | rfl⟩⟩
        · simp only [isIndicator, List.contains_eq_mem, List.mem_cons, decide_eq_false_iff_not,
            not_or] at hindicator
          simp [plainStops, isFlowIndicator, hblank, hindicator]
        · simp [plainStops, isFlowIndicator, isBlankOrEnd, isSpaceOrEnd, isBreakOrEnd, isBreak, nul]
        · simp [plainStops, hflow, isBlankOrEnd, isSpaceOrEnd, isBreakOrEnd, isBreak, nul]
        · rw [List.headD_eq_head?_getD] at hblank
          simp [plainStops, hflow, hblank]
          decide
      rw [hpeek]
      refine ⟨hstops.1, ?_⟩
      unfold plainPiece
      rw [hstops.2]
      simp

theorem fetchPlain_fetched {s s' : TokenStream} (hplain : s.atPlain = true)
    (hend : s.reader.atEnd = false) (h : s.fetchPlain = .ok s') : s.Fetched s' := by
  obtain ⟨s₁, hsave, h⟩ := bind_eq_ok_iff.mp h
  have hprepared := (saveKey_saved hsave).prepared
  obtain ⟨hhash, hpiece⟩ := plainPiece_of_atPlain hplain
  have hflow : s₁.inFlow = s.inFlow := by
    rw [(saveKey_saved hsave).same]
    rfl
  rcases hread : readPlain s₁.inFlow s₁.indent s₁.reader with ⟨token, reader, crossed⟩
  rw [hread] at h
  cases h
  have hleads : s.reader.next.Leads reader := by
    have hplain : s.reader.next.Leads (readPlain s.inFlow s₁.indent s.reader).2.1 :=
      readPlain_leads hhash hpiece
    rw [← hflow, ← hprepared.reader, hread] at hplain
    rwa [← hprepared.reader]
  exact hprepared.fetched hend hleads rfl rfl rfl rfl rfl

/-- What can be read where a token starts. -/
inductive Branch (s : TokenStream) : Except Diagnostic TokenStream → Prop
  | atEnd (h : s.reader.atEnd = true) : s.Branch s.fetchEnd
  | directive (h : s.reader.atEnd = false) : s.Branch s.fetchDirective
  | documentSign (h : s.reader.atEnd = false) {kind : TokenKind}
      (hkind : kind = .documentStart ∨ kind = .documentEnd) :
      s.Branch (.ok (s.fetchDocumentSign kind))
  | flowStart (h : s.reader.atEnd = false) {kind : TokenKind}
      (hkind : kind = .flowSequenceStart ∨ kind = .flowMappingStart) :
      s.Branch (s.fetchFlowStart kind)
  | flowEnd (h : s.reader.atEnd = false) {kind : TokenKind}
      (hkind : kind = .flowSequenceEnd ∨ kind = .flowMappingEnd) : s.Branch (s.fetchFlowEnd kind)
  | flowEntry (h : s.reader.atEnd = false) : s.Branch s.fetchFlowEntry
  | blockEntry (h : s.reader.atEnd = false) : s.Branch s.fetchBlockEntry
  | key (h : s.reader.atEnd = false) : s.Branch s.fetchKey
  | value (h : s.reader.atEnd = false) : s.Branch s.fetchValue
  | name (h : s.reader.atEnd = false) {context : Activity} {kind : String → TokenKind}
      (hkind : kind = .aliasOf ∨ kind = .anchor)
      (hcontext : context = .aliasName ∨ context = .anchorName) :
      s.Branch (s.fetchKeyed (readName context kind))
  | tag (h : s.reader.atEnd = false) : s.Branch (s.fetchKeyed readTag)
  | blockScalar (h : s.reader.atEnd = false) (folded : Bool) :
      s.Branch (s.fetchBlockScalar folded)
  | quoted (h : s.reader.atEnd = false) (double : Bool) :
      s.Branch (s.fetchKeyed (readQuoted double))
  | plain (h : s.reader.atEnd = false) (hplain : s.atPlain = true) : s.Branch s.fetchPlain
  | none (h : s.reader.atEnd = false) :
      s.Branch (.error ⟨.tokens, some .nextToken, .none, .cannotStartToken s.reader.peek, s.mark⟩)

theorem branch_ite {s : TokenStream} {c : Prop} [Decidable c]
    {x y : Except Diagnostic TokenStream} (hx : c → s.Branch x) (hy : s.Branch y) : s.Branch (if c then x else y) := by
  split_ifs with hc
  · exact hx hc
  · exact hy

theorem fetchSign_branch (s : TokenStream) : s.Branch s.fetchSign := by
  rw [fetchSign]
  by_cases hend : s.reader.atEnd = true
  · rw [if_pos hend]
    exact .atEnd hend
  rw [if_neg hend]
  have hend : s.reader.atEnd = false := by simpa using hend
  refine branch_ite (fun _ => .directive hend) ?_
  refine branch_ite (fun _ => .documentSign hend (Or.inl rfl)) ?_
  refine branch_ite (fun _ => .documentSign hend (Or.inr rfl)) ?_
  refine branch_ite (fun _ => .flowStart hend (Or.inl rfl)) ?_
  refine branch_ite (fun _ => .flowStart hend (Or.inr rfl)) ?_
  refine branch_ite (fun _ => .flowEnd hend (Or.inl rfl)) ?_
  refine branch_ite (fun _ => .flowEnd hend (Or.inr rfl)) ?_
  refine branch_ite (fun _ => .flowEntry hend) ?_
  refine branch_ite (fun _ => .blockEntry hend) ?_
  refine branch_ite (fun _ => .key hend) ?_
  refine branch_ite (fun _ => .value hend) ?_
  refine branch_ite (fun _ => .name hend (Or.inl rfl) (Or.inl rfl)) ?_
  refine branch_ite (fun _ => .name hend (Or.inr rfl) (Or.inr rfl)) ?_
  refine branch_ite (fun _ => .tag hend) ?_
  refine branch_ite (fun _ => .blockScalar hend false) ?_
  refine branch_ite (fun _ => .blockScalar hend true) ?_
  refine branch_ite (fun _ => .quoted hend false) ?_
  refine branch_ite (fun _ => .quoted hend true) ?_
  exact branch_ite (fun hplain => .plain hend hplain) (.none hend)

/-- Behind a character that is no sign there is a plain scalar, if anything. -/
theorem fetchSign_of_not_indicator {s : TokenStream} {c : Char} {tail : List Char}
    (hrest : s.reader.rest = c :: tail) (hc : isIndicator c = false) (hdot : c ≠ '.') :
    s.fetchSign =
      if s.atPlain then s.fetchPlain
      else .error ⟨.tokens, some .nextToken, none, .cannotStartToken c, s.mark⟩ := by
  have hpeek : s.reader.peek = c := by simp [Reader.peek, hrest]
  have hend : s.reader.atEnd = false := by simp [Reader.atEnd, hrest]
  simp only [isIndicator, List.contains_eq_mem, List.mem_cons, decide_eq_false_iff_not,
    not_or] at hc
  have hsign : ∀ d sign, c ≠ d → s.atDocumentSign (d :: sign) = false := by
    intro d sign hd
    simp [atDocumentSign, Reader.startsWith, hrest, List.isPrefixOf, hd.symm]
  rw [fetchSign, hpeek, hend, hsign '-' _ hc.1, hsign '.' _ hdot]
  simp [hc]

theorem fetchSign_fetched {s s' : TokenStream} (h : s.fetchSign = .ok s') : s.Fetched s' := by
  have hbranch := s.fetchSign_branch
  generalize s.fetchSign = x at h hbranch
  cases hbranch with
  | atEnd => exact fetchEnd_fetched h
  | directive hend => exact fetchDirective_fetched hend h
  | documentSign hend =>
      cases h
      exact fetchDocumentSign_fetched _ hend
  | flowStart hend => exact fetchFlowStart_fetched hend h
  | flowEnd hend => exact fetchFlowEnd_fetched hend h
  | flowEntry hend => exact fetchFlowEntry_fetched hend h
  | blockEntry hend => exact fetchBlockEntry_fetched hend h
  | key hend => exact fetchKey_fetched hend h
  | value hend => exact fetchValue_fetched hend h
  | name hend => exact fetchKeyed_fetched (fun _ _ _ => readName_leads) hend h
  | tag hend => exact fetchKeyed_fetched (fun _ _ _ => readTag_leads) hend h
  | blockScalar hend => exact fetchBlockScalar_fetched hend h
  | quoted hend => exact fetchKeyed_fetched (fun _ _ _ => readQuoted_leads) hend h
  | plain hend hplain => exact fetchPlain_fetched hplain hend h
  | none => cases h

theorem skipToToken_leads (s : TokenStream) : s.reader.Leads s.skipToToken.reader := by
  unfold skipToToken
  dsimp only
  split_ifs
  · exact (Leads.next _).trans (.skipTrivia _)
  · exact .skipTrivia _

theorem fetch_fetched {s s' : TokenStream} (h : s.fetch = .ok s') : s.Fetched s' := by
  obtain ⟨s₁, hdrop, h⟩ := bind_eq_ok_iff.mp h
  have hprepared := (dropStaleKeys_dropped hdrop).prepared.trans
    (s₁.unwind_moved s₁.mark.column).prepared
  have hfetched := fetchSign_fetched h
  have hskip := s.skipToToken_leads
  have hreader := hfetched.reader
  rw [hprepared.reader] at hreader
  have hleads := hskip.trans hreader
  refine ⟨hfetched.taken.trans hprepared.taken, hleads, ?_, ?_, ?_, fun key hkey => ?_⟩
  · rcases hfetched.progress with hdone | hlength
    · exact Or.inl hdone
    · rw [hprepared.reader] at hlength
      exact Or.inr (Nat.lt_of_lt_of_le hlength hskip.length_le)
  · rcases hfetched.ending with hdone | hlast
    · exact Or.inl (hdone.trans hprepared.done)
    · exact Or.inr hlast
  · exact Nat.lt_of_le_of_lt hprepared.queue hfetched.queue
  · rcases hfetched.keys key hkey with hkey | ⟨hnumber, hline⟩
    · rcases hprepared.keys key hkey with hold | ⟨hnumber, hmark⟩
      · exact Or.inl hold
      · refine Or.inr ⟨hnumber, ?_⟩
        rw [hmark]
        exact hreader.line_le
    · refine Or.inr ⟨Nat.le_trans ?_ hnumber, hline⟩
      rw [hprepared.taken]
      exact Nat.add_le_add_left hprepared.queue _

end TokenStream

end Playbook
