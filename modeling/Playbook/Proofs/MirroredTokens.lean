import Playbook.Proofs.MirroredReading
import Playbook.Proofs.TokenBudget

/-!
The tokens of two texts that are read alike. Two streams of tokens at corresponding places have the
same blocks open and await the same keys, and a fetch keeps this up. So the tokens come out one by
one with the same kind and at corresponding places.
-/

namespace Playbook

/-! ### Lists of related items -/

section

variable {α β : Type} {R : α → β → Prop} {xs : List α} {ys : List β}

theorem forall₂_find? (h : List.Forall₂ R xs ys) {p : α → Bool} {q : β → Bool}
    (hpq : ∀ a b, R a b → p a = q b) : Option.Rel R (xs.find? p) (ys.find? q) := by
  induction h with
  | nil => exact .none
  | @cons a b xs ys hab _ ih =>
      rw [List.find?_cons, List.find?_cons, hpq a b hab]
      cases q b with
      | true => exact .some hab
      | false => exact ih

theorem forall₂_filter (h : List.Forall₂ R xs ys) {p : α → Bool} {q : β → Bool}
    (hpq : ∀ a b, R a b → p a = q b) : List.Forall₂ R (xs.filter p) (ys.filter q) :=
  List.rel_filter (fun {a b} hab => Bool.eq_iff_iff.mp (hpq a b hab)) h

theorem forall₂_any (h : List.Forall₂ R xs ys) {p : α → Bool} {q : β → Bool}
    (hpq : ∀ a b, R a b → p a = q b) : xs.any p = ys.any q := by
  induction h with
  | nil => rfl
  | cons hab _ ih => rw [List.any_cons, List.any_cons, hpq _ _ hab, ih]

theorem forall₂_all (h : List.Forall₂ R xs ys) {p : α → Bool} {q : β → Bool}
    (hpq : ∀ a b, R a b → p a = q b) : xs.all p = ys.all q := by
  induction h with
  | nil => rfl
  | cons hab _ ih => rw [List.all_cons, List.all_cons, hpq _ _ hab, ih]

theorem forall₂_insertIdx (h : List.Forall₂ R xs ys) {a : α} {b : β} (hab : R a b) (n : Nat) :
    List.Forall₂ R (xs.insertIdx n a) (ys.insertIdx n b) := by
  induction h generalizing n with
  | nil =>
      cases n with
      | zero => exact .cons hab .nil
      | succ n => exact .nil
  | cons hxy hrest ih =>
      cases n with
      | zero => exact .cons hab (.cons hxy hrest)
      | succ n =>
          rw [List.insertIdx_succ_cons, List.insertIdx_succ_cons]
          exact .cons hxy (ih n)

end

/-! ### Keys -/

structure SimpleKey.Mirrors (K : Pairing) (key key' : SimpleKey) : Prop where
  level : key.level = key'.level
  number : key.number = key'.number
  required : key.required = key'.required
  mark : Mark.Mirrors K key.mark key'.mark

variable {K : Pairing}

/-- A key is too long in both texts or in neither. -/
theorem SimpleKey.Mirrors.isStale {key key' : SimpleKey} {now now' : Mark}
    (h : SimpleKey.Mirrors K key key') (hnow : Mark.Mirrors K now now') :
    key.isStale now = key'.isStale now' := by
  unfold SimpleKey.isStale
  rw [h.mark.line, hnow.line]
  -- Indices drift apart from line to line, but the length only matters within one.
  by_cases hline : key'.mark.line = now'.line
  · rw [h.mark.distance hnow (by rw [h.mark.line, hnow.line, hline])]
  · have hother : (key'.mark.line != now'.line) = true := bne_iff_ne.mpr hline
    rw [hother, Bool.true_or, Bool.true_or]

/-! ### Streams -/

/-- The tokens are the same at corresponding places, and so is what ends them. -/
structure Feed.Mirrors (K : Pairing) (feed feed' : Feed Token) : Prop where
  items : List.Forall₂ (Token.Mirrors K) feed.items feed'.items
  fault : Option.Rel (Diagnostic.Mirrors K) feed.fault feed'.fault

/-- The streams are at corresponding places, and in the same state but for marks. -/
structure TokenStream.Mirrors (K : Pairing) (s s' : TokenStream) : Prop where
  reader : Reader.Mirrors K s.reader s'.reader
  done : s.done = s'.done
  flowLevel : s.flowLevel = s'.flowLevel
  queue : List.Forall₂ (Token.Mirrors K) s.queue s'.queue
  taken : s.taken = s'.taken
  indent : s.indent = s'.indent
  indents : s.indents = s'.indents
  keyAllowed : s.keyAllowed = s'.keyAllowed
  keys : List.Forall₂ (SimpleKey.Mirrors K) s.keys s'.keys

namespace TokenStream.Mirrors

variable {s s' : TokenStream}

theorem mark (h : Mirrors K s s') : Mark.Mirrors K s.mark s'.mark := h.reader.mark

theorem inFlow (h : Mirrors K s s') : s.inFlow = s'.inFlow := by
  rw [TokenStream.inFlow, TokenStream.inFlow, h.flowLevel]

theorem push (h : Mirrors K s s') {token token' : Token}
    (htoken : Token.Mirrors K token token') : Mirrors K (s.push token) (s'.push token') :=
  { h with queue := List.rel_append h.queue (.cons htoken .nil) }

theorem pushHere (h : Mirrors K s s') (kind : TokenKind) :
    Mirrors K (s.pushHere kind) (s'.pushHere kind) :=
  h.push ⟨rfl, h.mark, h.mark⟩

theorem pushRead (h : Mirrors K s s') {token token' : Token} {r r' : Reader}
    (htoken : Token.Mirrors K token token') (hreader : Reader.Mirrors K r r') :
    Mirrors K (s.pushRead token r) (s'.pushRead token' r') :=
  { h.push htoken with reader := hreader }

theorem pushSign (h : Mirrors K s s') (kind : TokenKind) {length : Nat}
    (hreader : Reader.Mirrors K (s.reader.advance length) (s'.reader.advance length)) :
    Mirrors K (s.pushSign kind length) (s'.pushSign kind length) :=
  h.pushRead ⟨rfl, h.mark, hreader.mark⟩ hreader

/-! ### Pending keys -/

theorem missingColon (h : Mirrors K s s') {key key' : SimpleKey}
    (hkey : SimpleKey.Mirrors K key key') {α β : Type} {R : α → β → Prop} :
    Matches K R (.error (s.missingColon key)) (.error (s'.missingColon key')) :=
  .within hkey.mark h.mark rfl

theorem key? (h : Mirrors K s s') :
    Option.Rel (SimpleKey.Mirrors K) s.key? s'.key? :=
  forall₂_find? h.keys fun _ _ hkey => by rw [hkey.level, h.flowLevel]

theorem forgetKey (h : Mirrors K s s') : Mirrors K s.forgetKey s'.forgetKey :=
  { h with keys := forall₂_filter h.keys fun _ _ hkey => by rw [hkey.level, h.flowLevel] }

theorem removeKey (h : Mirrors K s s') : Matches K (Mirrors K) s.removeKey s'.removeKey := by
  have hkey := h.key?
  unfold TokenStream.removeKey
  generalize s.key? = found at hkey
  generalize s'.key? = found' at hkey
  cases hkey with
  | none => exact .ok h
  | some hkey =>
      dsimp only
      rw [hkey.required]
      split_ifs
      · exact h.missingColon hkey
      · exact .ok h.forgetKey

theorem dropStaleKeys (h : Mirrors K s s') :
    Matches K (Mirrors K) s.dropStaleKeys s'.dropStaleKeys := by
  have hfind := forall₂_find? h.keys (p := fun key => key.isStale s.mark && key.required)
    (q := fun key => key.isStale s'.mark && key.required)
    fun _ _ hkey => by rw [hkey.isStale h.mark, hkey.required]
  unfold TokenStream.dropStaleKeys
  generalize s.keys.find? _ = found at hfind
  generalize s'.keys.find? _ = found' at hfind
  cases hfind with
  | none =>
      exact .ok { h with
        keys := forall₂_filter h.keys fun _ _ hkey => by rw [hkey.isStale h.mark] }
  | some hkey => exact h.missingColon hkey

theorem saveKey (h : Mirrors K s s') : Matches K (Mirrors K) s.saveKey s'.saveKey := by
  unfold TokenStream.saveKey
  rw [h.keyAllowed]
  split_ifs
  · refine h.removeKey.bind ?_
    intro s₁ s₁' hs₁
    have hkey : SimpleKey.Mirrors K
        ⟨s.flowLevel, s.taken + s.queue.length, !s.inFlow && s.indent == (s.mark.column : Int),
          s.mark⟩
        ⟨s'.flowLevel, s'.taken + s'.queue.length,
          !s'.inFlow && s'.indent == (s'.mark.column : Int), s'.mark⟩ := by
      refine ⟨h.flowLevel, ?_, ?_, h.mark⟩
      · rw [h.taken, h.queue.length_eq]
      · rw [h.inFlow, h.indent, h.mark.column]
    exact .ok { hs₁ with keys := .cons hkey hs₁.keys }
  · exact .ok h

/-! ### Blocks -/

theorem closeBlocks {m m' : Mark} (hm : Mark.Mirrors K m m') (column indent : Int)
    (indents : List Int) {queue queue' : List Token}
    (hqueue : List.Forall₂ (Token.Mirrors K) queue queue') :
    (TokenStream.closeBlocks column m indent indents queue).1 =
        (TokenStream.closeBlocks column m' indent indents queue').1 ∧
      (TokenStream.closeBlocks column m indent indents queue).2.1 =
        (TokenStream.closeBlocks column m' indent indents queue').2.1 ∧
      List.Forall₂ (Token.Mirrors K)
        (TokenStream.closeBlocks column m indent indents queue).2.2
        (TokenStream.closeBlocks column m' indent indents queue').2.2 := by
  have hclosed : ∀ {queue queue' : List Token}, List.Forall₂ (Token.Mirrors K) queue queue' →
      List.Forall₂ (Token.Mirrors K) (queue ++ [⟨.blockEnd, m, m⟩])
        (queue' ++ [⟨.blockEnd, m', m'⟩]) :=
    fun hqueue => List.rel_append hqueue (.cons ⟨rfl, hm, hm⟩ .nil)
  induction indents generalizing indent queue queue' with
  | nil =>
      unfold TokenStream.closeBlocks
      split_ifs
      · exact ⟨rfl, rfl, hclosed hqueue⟩
      · exact ⟨rfl, rfl, hqueue⟩
  | cons outer indents ih =>
      unfold TokenStream.closeBlocks
      split_ifs
      · exact ih outer (hclosed hqueue)
      · exact ⟨rfl, rfl, hqueue⟩

theorem unwind (h : Mirrors K s s') (column : Int) :
    Mirrors K (s.unwind column) (s'.unwind column) := by
  obtain ⟨hindent, hindents, hqueue⟩ := closeBlocks h.mark column s.indent s.indents h.queue
  unfold TokenStream.unwind
  rw [h.inFlow]
  split_ifs
  · exact h
  · rw [h.indent, h.indents] at hindent hindents hqueue
    rw [h.indent, h.indents]
    exact { h with indent := hindent, indents := hindents, queue := hqueue }

theorem indentTo (h : Mirrors K s s') (column : Nat) :
    Option.Rel (Mirrors K) (s.indentTo column) (s'.indentTo column) := by
  unfold TokenStream.indentTo
  rw [h.indent, h.indents]
  split_ifs
  · exact .some { h with indent := rfl, indents := rfl }
  · exact .none

theorem openBlock (h : Mirrors K s s') (kind : TokenKind) (refusal : Problem) :
    Matches K (Mirrors K) (s.openBlock kind refusal) (s'.openBlock kind refusal) := by
  unfold TokenStream.openBlock
  rw [h.inFlow, h.keyAllowed, h.mark.column]
  split_ifs
  · exact .ok h
  · exact .plain h.mark
  · have hindent := h.indentTo s'.mark.column
    generalize s.indentTo s'.mark.column = opened at hindent
    generalize s'.indentTo s'.mark.column = opened' at hindent
    cases hindent with
    | none => exact .ok h
    | some hopened => exact .ok (hopened.pushHere kind)

theorem insertKey (h : Mirrors K s s') {key key' : SimpleKey}
    (hkey : SimpleKey.Mirrors K key key') :
    Mirrors K (s.insertKey key) (s'.insertKey key') := by
  have htoken : ∀ kind,
      Token.Mirrors K ⟨kind, key.mark, key.mark⟩ ⟨kind, key'.mark, key'.mark⟩ :=
    fun kind => ⟨rfl, hkey.mark, hkey.mark⟩
  have hqueue := forall₂_insertIdx h.queue (htoken .key) (key'.number - s'.taken)
  have hindent : Option.Rel (Mirrors K)
      (if s'.inFlow then none else s.indentTo key'.mark.column)
      (if s'.inFlow then none else s'.indentTo key'.mark.column) := by
    split_ifs
    · exact .none
    · exact h.indentTo _
  unfold TokenStream.insertKey
  dsimp only
  rw [hkey.number, h.taken, h.inFlow, hkey.mark.column]
  generalize (if s'.inFlow then none else s.indentTo key'.mark.column) = opened at hindent
  generalize (if s'.inFlow then none else s'.indentTo key'.mark.column) = opened' at hindent
  cases hindent with
  | none => exact { h with taken := rfl, queue := hqueue }
  | some hopened =>
      exact { hopened with queue := forall₂_insertIdx hqueue (htoken .blockMappingStart) _ }

/-! ### Fetching -/

/-- Preparations, and then a sign of one character. -/
theorem sign {s₁ s₁' : TokenStream} (h : Mirrors K s₁ s₁') (hprepared : s'.Prepared s₁')
    (hpeek : s'.reader.peek ≠ '\r') (kind : TokenKind) :
    Mirrors K (s₁.pushSign kind 1) (s₁'.pushSign kind 1) := by
  refine h.pushSign kind (h.reader.next ?_)
  rwa [hprepared.reader]

theorem fetchEnd (h : Mirrors K s s') : Matches K (Mirrors K) s.fetchEnd s'.fetchEnd := by
  refine (h.unwind (-1)).removeKey.bind ?_
  intro s₁ s₁' hs₁
  exact .ok { hs₁.pushHere .streamEnd with done := rfl, keyAllowed := rfl, keys := .nil }

theorem fetchDirective (h : Mirrors K s s') (hpeek : s'.reader.peek ≠ '\r') :
    Matches K (Mirrors K) s.fetchDirective s'.fetchDirective := by
  refine (h.unwind (-1)).removeKey.bind_ok ?_
  intro s₁ s₁' hremove hs₁
  have hprepared := (s'.unwind_moved (-1)).prepared.trans (removeKey_dropped hremove).prepared
  refine (readDirective_mirrors hs₁.reader (by rwa [hprepared.reader])).bind ?_
  rintro ⟨token, r⟩ ⟨token', r'⟩ ⟨htoken, hreader⟩
  exact .ok { hs₁.pushRead htoken hreader with keyAllowed := rfl }

theorem fetchDocumentSign (h : Mirrors K s s') (kind : TokenKind)
    (hreader : Reader.Mirrors K (s.reader.advance 3) (s'.reader.advance 3)) :
    Mirrors K (s.fetchDocumentSign kind) (s'.fetchDocumentSign kind) := by
  have hsame : ∀ s : TokenStream, (s.unwind (-1)).forgetKey.reader = s.reader := fun s =>
    (s.unwind_moved (-1)).prepared.reader
  have hsign : Mirrors K ((s.unwind (-1)).forgetKey.pushSign kind 3)
      ((s'.unwind (-1)).forgetKey.pushSign kind 3) :=
    (h.unwind (-1)).forgetKey.pushSign kind (by rwa [hsame, hsame])
  exact { hsign with keyAllowed := rfl }

theorem fetchFlowStart (h : Mirrors K s s') (hpeek : s'.reader.peek ≠ '\r')
    (kind : TokenKind) :
    Matches K (Mirrors K) (s.fetchFlowStart kind) (s'.fetchFlowStart kind) := by
  refine h.saveKey.bind_ok ?_
  intro s₁ s₁' hsave hs₁
  have hsign := hs₁.sign (saveKey_saved hsave).prepared hpeek kind
  exact .ok { hsign with flowLevel := by rw [hs₁.flowLevel], keyAllowed := rfl }

theorem fetchFlowEnd (h : Mirrors K s s') (hpeek : s'.reader.peek ≠ '\r')
    (kind : TokenKind) : Matches K (Mirrors K) (s.fetchFlowEnd kind) (s'.fetchFlowEnd kind) := by
  refine h.removeKey.bind_ok ?_
  intro s₁ s₁' hremove hs₁
  have hsign := hs₁.sign (removeKey_dropped hremove).prepared hpeek kind
  exact .ok { hsign with flowLevel := by rw [hs₁.flowLevel], keyAllowed := rfl }

theorem fetchFlowEntry (h : Mirrors K s s') (hpeek : s'.reader.peek ≠ '\r') :
    Matches K (Mirrors K) s.fetchFlowEntry s'.fetchFlowEntry := by
  refine h.removeKey.bind_ok ?_
  intro s₁ s₁' hremove hs₁
  have hsign := hs₁.sign (removeKey_dropped hremove).prepared hpeek .flowEntry
  exact .ok { hsign with keyAllowed := rfl }

theorem fetchBlockEntry (h : Mirrors K s s') (hpeek : s'.reader.peek ≠ '\r') :
    Matches K (Mirrors K) s.fetchBlockEntry s'.fetchBlockEntry := by
  refine (h.openBlock _ _).bind_ok ?_
  intro s₁ s₁' hopen hs₁
  refine hs₁.removeKey.bind_ok ?_
  intro s₂ s₂' hremove hs₂
  have hprepared := (openBlock_moved hopen).prepared.trans (removeKey_dropped hremove).prepared
  exact .ok { hs₂.sign hprepared hpeek .blockEntry with keyAllowed := rfl }

theorem fetchKey (h : Mirrors K s s') (hpeek : s'.reader.peek ≠ '\r') :
    Matches K (Mirrors K) s.fetchKey s'.fetchKey := by
  refine (h.openBlock _ _).bind_ok ?_
  intro s₁ s₁' hopen hs₁
  refine hs₁.removeKey.bind_ok ?_
  intro s₂ s₂' hremove hs₂
  have hprepared := (openBlock_moved hopen).prepared.trans (removeKey_dropped hremove).prepared
  exact .ok { hs₂.sign hprepared hpeek .key with keyAllowed := by rw [hs₂.inFlow] }

theorem fetchValue (h : Mirrors K s s') (hpeek : s'.reader.peek ≠ '\r') :
    Matches K (Mirrors K) s.fetchValue s'.fetchValue := by
  have hkey := h.key?
  unfold TokenStream.fetchValue
  generalize s.key? = found at hkey
  generalize s'.key? = found' at hkey
  cases hkey with
  | @some key key' hkey =>
      have hprepared := s'.forgetKey_dropped.prepared.trans (insertKey_prepared _ key')
      have hsign := (h.forgetKey.insertKey hkey).sign hprepared hpeek .value
      exact .ok { hsign with keyAllowed := rfl }
  | none =>
      refine (h.openBlock _ _).bind_ok ?_
      intro s₁ s₁' hopen hs₁
      have hsign := hs₁.sign (openBlock_moved hopen).prepared hpeek .value
      exact .ok { hsign with keyAllowed := by rw [hs₁.inFlow] }

theorem fetchKeyed (h : Mirrors K s s')
    {read : Reader → Except Diagnostic (Token × Reader)}
    (hread : ∀ {r r' : Reader}, Reader.Mirrors K r r' → r'.peek ≠ '\r' →
      Matches K (Along K (Token.Mirrors K)) (read r) (read r'))
    (hpeek : s'.reader.peek ≠ '\r') :
    Matches K (Mirrors K) (s.fetchKeyed read) (s'.fetchKeyed read) := by
  refine h.saveKey.bind_ok ?_
  intro s₁ s₁' hsave hs₁
  have hprepared := (saveKey_saved hsave).prepared
  refine (hread hs₁.reader (by rwa [hprepared.reader])).bind ?_
  rintro ⟨token, r⟩ ⟨token', r'⟩ ⟨htoken, hreader⟩
  exact .ok { hs₁.pushRead htoken hreader with keyAllowed := rfl }

theorem fetchBlockScalar (h : Mirrors K s s') (hpeek : s'.reader.peek ≠ '\r')
    (folded : Bool) :
    Matches K (Mirrors K) (s.fetchBlockScalar folded) (s'.fetchBlockScalar folded) := by
  refine h.removeKey.bind_ok ?_
  intro s₁ s₁' hremove hs₁
  have hprepared := (removeKey_dropped hremove).prepared
  rw [hs₁.indent]
  refine (readBlockScalar_mirrors hs₁.reader (by rwa [hprepared.reader])).bind ?_
  rintro ⟨token, r⟩ ⟨token', r'⟩ ⟨htoken, hreader⟩
  exact .ok { hs₁.pushRead htoken hreader with keyAllowed := rfl }

theorem fetchPlain (h : Mirrors K s s') : Matches K (Mirrors K) s.fetchPlain s'.fetchPlain := by
  refine h.saveKey.bind ?_
  intro s₁ s₁' hs₁
  obtain ⟨htoken, hreader, hcrossed⟩ :=
    @readPlain_mirrors K s₁.reader s₁'.reader s₁'.inFlow s₁'.indent hs₁.reader
  rw [hs₁.inFlow, hs₁.indent]
  exact .ok { hs₁.pushRead htoken hreader with keyAllowed := hcrossed }

theorem atDocumentSign (h : Mirrors K s s') {sign : List Char} (hreturn : '\r' ∉ sign)
    (hfeed : '\n' ∉ sign) (hlength : sign.length = 3) :
    s.atDocumentSign sign = s'.atDocumentSign sign := by
  rw [TokenStream.atDocumentSign, TokenStream.atDocumentSign, h.mark.column, Bool.and_assoc,
    Bool.and_assoc, h.reader.atWord hreturn hfeed hlength]

theorem atPlain (h : Mirrors K s s') : s.atPlain = s'.atPlain := by
  unfold TokenStream.atPlain
  dsimp only
  by_cases hpeek : s'.reader.peek = '\r'
  · have hbreak : s.reader.peek = '\r' ∨ s.reader.peek = '\n' := by
      simpa [hpeek] using h.reader.peek_class (p := fun c => c == '\r' || c == '\n') rfl
    rcases hbreak with hbreak | hbreak <;>
      simp [hpeek, hbreak, isBlankOrEnd, isSpaceOrEnd, isBreakOrEnd, isBreak]
  · rw [Reader.peekAt_one, Reader.peekAt_one,
      (h.reader.next hpeek).peek_class (p := isBlankOrEnd) rfl, h.reader.peek_eq hpeek, h.inFlow]

theorem skipToToken (h : Mirrors K s s') : Mirrors K s.skipToToken s'.skipToToken := by
  have hreader : Reader.Mirrors K
      (if s.mark.index == 0 && s.reader.peek == '\ufeff' then s.reader.next else s.reader)
      (if s'.mark.index == 0 && s'.reader.peek == '\ufeff' then s'.reader.next else s'.reader) := by
    have hopening : (s.mark.index == 0 && s.reader.peek == '\ufeff') =
        (s'.mark.index == 0 && s'.reader.peek == '\ufeff') := K.opening h.reader
    rw [hopening]
    split_ifs with hmark
    · have hpeek := ne_return (p := fun c => s'.mark.index == 0 && c == '\ufeff') (by simp) hmark
      exact h.reader.next hpeek
    · exact h.reader
  obtain ⟨hplace, hcrossed⟩ := hreader.skipTrivia
  refine { h with reader := hplace, keyAllowed := ?_ }
  unfold TokenStream.skipToToken
  dsimp only
  rw [hcrossed, h.keyAllowed, h.inFlow]

theorem advance_documentSign (h : Mirrors K s s') {sign : List Char} (hreturn : '\r' ∉ sign)
    (hlength : sign.length = 3) (hsign : s'.atDocumentSign sign = true) :
    Reader.Mirrors K (s.reader.advance 3) (s'.reader.advance 3) := by
  simp only [TokenStream.atDocumentSign, Bool.and_eq_true] at hsign
  have hadvance := h.reader.advance (List.isPrefixOf_iff_prefix.mp hsign.1.2) hreturn
  rwa [hlength] at hadvance

/-- Both streams stand at the sign, with a blank behind it or not. -/
theorem signBefore (h : Mirrors K s s') {c : Char} (hreturn : c ≠ '\r') (hfeed : c ≠ '\n')
    (p : Bool → Bool) :
    (s.reader.peek == c && p (isBlankOrEnd (s.reader.peekAt 1))) =
      (s'.reader.peek == c && p (isBlankOrEnd (s'.reader.peekAt 1))) := by
  by_cases hpeek : s'.reader.peek = '\r'
  · have hsame : ('\r' == c) = ('\n' == c) := by
      rw [beq_false_of_ne hreturn.symm, beq_false_of_ne hfeed.symm]
    rw [h.reader.peek_class (p := (· == c)) hsame, hpeek, beq_false_of_ne hreturn.symm,
      Bool.false_and, Bool.false_and]
  · rw [Reader.peekAt_one, Reader.peekAt_one,
      (h.reader.next hpeek).peek_class (p := isBlankOrEnd) rfl, h.reader.peek_eq hpeek]

theorem fetchSign (h : Mirrors K s s') : Matches K (Mirrors K) s.fetchSign s'.fetchSign := by
  have hsee : ∀ c : Char, ('\r' == c) = ('\n' == c) →
      (s.reader.peek == c) = (s'.reader.peek == c) :=
    fun c hc => h.reader.peek_class (p := (· == c)) hc
  have hat : ∀ {c : Char}, c ≠ '\r' → (s'.reader.peek == c) = true → s'.reader.peek ≠ '\r' := by
    intro c hc hpeek
    rwa [beq_iff_eq.mp hpeek]
  have hleft : ∀ {a b : Bool}, (a && b) = true → a = true :=
    fun hab => (Bool.and_eq_true_iff.mp hab).1
  unfold TokenStream.fetchSign
  dsimp only
  refine .ite h.reader.atEnd (fun _ => h.fetchEnd) ?_
  refine .ite (by rw [hsee '%' rfl, h.mark.column])
    (fun hc => h.fetchDirective (hat (by decide) (hleft hc))) ?_
  refine .ite (h.atDocumentSign (by decide) (by decide) rfl)
    (fun hc => .ok (h.fetchDocumentSign _ (h.advance_documentSign (by decide) rfl hc))) ?_
  refine .ite (h.atDocumentSign (by decide) (by decide) rfl)
    (fun hc => .ok (h.fetchDocumentSign _ (h.advance_documentSign (by decide) rfl hc))) ?_
  refine .ite (hsee '[' rfl) (fun hc => h.fetchFlowStart (hat (by decide) hc) _) ?_
  refine .ite (hsee '{' rfl) (fun hc => h.fetchFlowStart (hat (by decide) hc) _) ?_
  refine .ite (hsee ']' rfl) (fun hc => h.fetchFlowEnd (hat (by decide) hc) _) ?_
  refine .ite (hsee '}' rfl) (fun hc => h.fetchFlowEnd (hat (by decide) hc) _) ?_
  refine .ite (hsee ',' rfl) (fun hc => h.fetchFlowEntry (hat (by decide) hc)) ?_
  refine .ite (h.signBefore (by decide) (by decide) id)
    (fun hc => h.fetchBlockEntry (hat (by decide) (hleft hc))) ?_
  rw [h.inFlow]
  refine .ite (h.signBefore (by decide) (by decide) (s'.inFlow || ·))
    (fun hc => h.fetchKey (hat (by decide) (hleft hc))) ?_
  refine .ite (h.signBefore (by decide) (by decide) (s'.inFlow || ·))
    (fun hc => h.fetchValue (hat (by decide) (hleft hc))) ?_
  refine .ite (hsee '*' rfl) (fun hc => h.fetchKeyed readName_mirrors (hat (by decide) hc)) ?_
  refine .ite (hsee '&' rfl) (fun hc => h.fetchKeyed readName_mirrors (hat (by decide) hc)) ?_
  refine .ite (hsee '!' rfl) (fun hc => h.fetchKeyed readTag_mirrors (hat (by decide) hc)) ?_
  refine .ite (by rw [hsee '|' rfl])
    (fun hc => h.fetchBlockScalar (hat (by decide) (hleft hc)) false) ?_
  refine .ite (by rw [hsee '>' rfl])
    (fun hc => h.fetchBlockScalar (hat (by decide) (hleft hc)) true) ?_
  refine .ite (hsee '\'' rfl) (fun hc => h.fetchKeyed readQuoted_mirrors (hat (by decide) hc)) ?_
  refine .ite (hsee '"' rfl) (fun hc => h.fetchKeyed readQuoted_mirrors (hat (by decide) hc)) ?_
  have hfound := h.reader.peek_class (p := fun c => (Problem.cannotStartToken c).bare) rfl
  exact .ite h.atPlain (fun _ => h.fetchPlain) (.error ⟨rfl, rfl, .none, hfound, h.mark⟩)

theorem fetch (h : Mirrors K s s') : Matches K (Mirrors K) s.fetch s'.fetch := by
  refine h.skipToToken.dropStaleKeys.bind ?_
  intro s₁ s₁' hs₁
  rw [hs₁.mark.column]
  exact (hs₁.unwind _).fetchSign

/-! ### Handing out -/

theorem frontIsOpen (h : Mirrors K s s') : s.frontIsOpen = s'.frontIsOpen := by
  rw [TokenStream.frontIsOpen, TokenStream.frontIsOpen,
    forall₂_any h.keys fun _ _ hkey => by rw [hkey.number, h.taken],
    forall₂_all h.keys fun _ _ hkey => by rw [hkey.number, h.taken]]

theorem needsMore (h : Mirrors K s s') :
    Matches K (fun found found' => found.1 = found'.1 ∧ Mirrors K found.2 found'.2)
      s.needsMore s'.needsMore := by
  have hempty : s.queue.isEmpty = s'.queue.isEmpty := by
    have hqueue := h.queue
    generalize s.queue = queue at hqueue
    generalize s'.queue = queue' at hqueue
    cases hqueue <;> rfl
  unfold TokenStream.needsMore
  rw [h.done, hempty]
  split_ifs
  · exact .ok ⟨rfl, h⟩
  · exact .ok ⟨rfl, h⟩
  · refine h.dropStaleKeys.bind ?_
    intro s₁ s₁' hs₁
    exact .ok ⟨hs₁.frontIsOpen, hs₁⟩

theorem fill (h : Mirrors K s s') : Matches K (Mirrors K) s.fill s'.fill := by
  have hlength : ∀ s : TokenStream, s.unread < s.reader.rest.length + 2 :=
    fun s => Nat.lt_succ_of_le s.unread_le
  refine fillFor_loops.related_of_lt (R := Mirrors K) fillFor_loops fillRound_unread
    fillRound_unread ?_ h (hlength s) (hlength s')
  intro s s' h
  have hmore := h.needsMore
  unfold fillRound
  generalize s.needsMore = found at hmore
  generalize s'.needsMore = found' at hmore
  cases hmore with
  | error hd => exact .inr (.error hd)
  | @ok found found' hfound =>
      obtain ⟨more, s₁⟩ := found
      obtain ⟨more', s₁'⟩ := found'
      obtain ⟨rfl, hs₁⟩ := hfound
      cases more with
      | false => exact .inr (.ok hs₁)
      | true =>
          have hfetch := hs₁.fetch
          dsimp only at hfetch ⊢
          generalize s₁.fetch = fetched at hfetch
          generalize s₁'.fetch = fetched' at hfetch
          cases hfetch with
          | error hd => exact .inr (.error hd)
          | ok hs₂ => exact .inl hs₂

theorem next (h : Mirrors K s s') :
    Matches K (fun found found' => Option.Rel (Token.Mirrors K) found.1 found'.1 ∧
      Mirrors K found.2 found'.2) s.next s'.next := by
  refine h.fill.bind ?_
  intro s₁ s₁' hs₁
  have hqueue := hs₁.queue
  generalize s₁.queue = queue at hqueue
  generalize s₁'.queue = queue' at hqueue
  cases hqueue with
  | nil => exact .ok ⟨.none, hs₁⟩
  | cons htoken hrest =>
      exact .ok ⟨.some htoken, { hs₁ with queue := hrest, taken := by rw [hs₁.taken] }⟩

theorem collect (h : Mirrors K s s') {n n' : Nat} (hs : s.Based) (hn : s.budget < n)
    (hs' : s'.Based) (hn' : s'.budget < n') :
    Feed.Mirrors K (s.collect n) (s'.collect n') := by
  -- The streams may be given different numbers of rounds, as their texts differ in length.
  induction n generalizing s s' n' with
  | zero => omega
  | succ n ih =>
      obtain ⟨n', rfl⟩ := Nat.exists_eq_succ_of_ne_zero (show n' ≠ 0 by omega)
      have hnext := h.next
      unfold TokenStream.collect
      generalize hfound : s.next = found at hnext
      generalize hfound' : s'.next = found' at hnext
      cases hnext with
      | error hd => exact ⟨.nil, .some hd⟩
      | @ok found found' hrel =>
          obtain ⟨token, s₁⟩ := found
          obtain ⟨token', s₁'⟩ := found'
          obtain ⟨htoken, hs₁⟩ := hrel
          dsimp only at htoken hs₁
          cases htoken with
          | none => exact ⟨.nil, .none⟩
          | some htoken =>
              obtain ⟨hbased, hlt⟩ := next_budget hs hfound
              obtain ⟨hbased', hlt'⟩ := next_budget hs' hfound'
              obtain ⟨hitems, hfault⟩ := ih hs₁ hbased (by omega) hbased'
                (show s₁'.budget < n' by omega)
              exact ⟨.cons htoken hitems, hfault⟩

end TokenStream.Mirrors

/-! ### Line feeds for carriage returns -/

theorem TokenStream.mirrors_start (text : List Char) :
    Mirrors (.feeds text) (.start (lineFeeds text)) (.start text) where
  reader := Reader.WithFeeds.start text
  done := rfl
  flowLevel := rfl
  queue := .cons ⟨rfl, (Reader.WithFeeds.start text).mark, (Reader.WithFeeds.start text).mark⟩ .nil
  taken := rfl
  indent := rfl
  indents := rfl
  keyAllowed := rfl
  keys := .nil

/-- The tokens of the text with line feeds are those of the text, at corresponding places. -/
theorem Token.ofText_mirrors (text : List Char) :
    Feed.Mirrors (.feeds text) (Token.ofText (lineFeeds text)) (Token.ofText text) := by
  refine (TokenStream.mirrors_start text).collect (TokenStream.based_start _) ?_
    (TokenStream.based_start _) ?_
  · rw [TokenStream.budget_start]
    omega
  · rw [TokenStream.budget_start]
    omega

/-! ### Behind a byte order mark -/

namespace TokenStream

/-- The stream behind the token that starts every text, with the reader where it is. -/
def begun (reader : Reader) : TokenStream := { start [] with reader, queue := [], taken := 1 }

theorem mirrors_begun {text : List Char} (h : text.head? ≠ some '\ufeff') :
    Mirrors .behindMark (begun (.start text)) (begun ((Reader.start text).shifted 1 0)) where
  reader := by
    refine ⟨fun _ hpeek => ?_, rfl⟩
    cases text with
    | nil => cases hpeek
    | cons c text => exact h (congrArg some hpeek)
  done := rfl
  flowLevel := rfl
  queue := .nil
  taken := rfl
  indent := rfl
  indents := rfl
  keyAllowed := rfl
  keys := .nil

theorem budget_begun (reader : Reader) : (begun reader).budget = 4 * reader.rest.length + 1 := by
  simp [budget, begun, start]

/-- The mark is skipped before the first token is read. -/
theorem fetch_begun (text : List Char) :
    (begun (.start ('\ufeff' :: text))).fetch =
      (begun ((Reader.start text).shifted 1 0)).fetch := rfl

theorem fill_begun (text : List Char) :
    (begun (.start ('\ufeff' :: text))).fill = (begun ((Reader.start text).shifted 1 0)).fill := by
  have hlength : ∀ s : TokenStream, s.unread < s.reader.rest.length + 2 :=
    fun s => Nat.lt_succ_of_le s.unread_le
  have hround : fillRound (begun (.start ('\ufeff' :: text))) =
      fillRound (begun ((Reader.start text).shifted 1 0)) := by
    have hmore : ∀ reader, (begun reader).needsMore = .ok (true, begun reader) := fun _ => rfl
    rw [fillRound, fillRound, hmore, hmore]
    dsimp only
    rw [fetch_begun]
  refine fillFor_loops.related_of_lt (R := fun s s' => fillRound s = fillRound s')
    fillFor_loops fillRound_unread fillRound_unread ?_ hround (hlength _) (hlength _)
  intro s s' hs
  rw [hs]

theorem collect_begun (text : List Char) (n : Nat) :
    (begun (.start ('\ufeff' :: text))).collect (n + 1) =
      (begun ((Reader.start text).shifted 1 0)).collect (n + 1) := by
  have hnext : (begun (.start ('\ufeff' :: text))).next =
      (begun ((Reader.start text).shifted 1 0)).next := by
    rw [next, fill_begun]
    rfl
  rw [collect, collect, hnext]

end TokenStream

/-- Behind a byte order mark stand the tokens of the text, all but the first one character further
down. -/
theorem Token.ofText_behind_mark {text : List Char} (h : text.head? ≠ some '\ufeff') :
    ∃ feed feed' : Feed Token, Feed.Mirrors .behindMark feed feed' ∧
      ofText text = feed.cons ⟨.streamStart, .origin, .origin⟩ ∧
      ofText ('\ufeff' :: text) = feed'.cons ⟨.streamStart, .origin, .origin⟩ := by
  refine ⟨_, (TokenStream.begun (.start ('\ufeff' :: text))).collect (4 * text.length + 11), ?_,
    rfl, rfl⟩
  rw [TokenStream.collect_begun]
  refine (TokenStream.mirrors_begun h).collect rfl ?_ rfl ?_
  · rw [TokenStream.budget_begun]
    exact Nat.lt_of_lt_of_le (Nat.lt_succ_self _) (by simp [Reader.start])
  · rw [TokenStream.budget_begun]
    exact Nat.lt_of_lt_of_le (Nat.lt_succ_self _) (by simp [Reader.start])

end Playbook
