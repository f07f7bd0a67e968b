import Playbook.Proofs.EscapeCodes
import Playbook.Proofs.FollowedReading
import Playbook.Proofs.PendingKeys

/-!
The first word of a key, up to the first white space. It may be a plain scalar, or a row of quoted
scalars, names and brackets, and it may end amid one of them. If it ends behind one, and all its
brackets are closed, then a colon behind the word does not change how it is read, and reading comes
to the colon.
-/

namespace Playbook

open Reader

variable {r r' : Reader} {token : Token} {rest : List Char}

/-- Whether a plain scalar can start with the text. -/
def startsPlain (inFlow : Bool) (text : List Char) : Bool :=
  let c := text.headD nul
  !(isBlankOrEnd c || isIndicator c) ||
    (!isBlankOrEnd (text.getD 1 nul) && (c == '-' || (!inFlow && (c == '?' || c == ':'))))

theorem TokenStream.atPlain_eq (s : TokenStream) :
    s.atPlain = startsPlain s.inFlow s.reader.rest := rfl

theorem startsPlain_followed {inFlow : Bool} {word : List Char}
    (h : startsPlain inFlow word = true) : startsPlain inFlow (word ++ ':' :: rest) = true := by
  rcases word with _ | ⟨c, _ | ⟨c', word⟩⟩
  · cases h
  · have hnext : isBlankOrEnd (([c] : List Char).getD 1 nul) = true := rfl
    simp only [startsPlain, hnext, Bool.not_true, Bool.false_and, Bool.or_false] at h
    rw [startsPlain, List.cons_append, List.headD_cons]
    rw [List.headD_cons] at h
    rw [h, Bool.true_or]
  · exact h

/-- What is left of a word can be read as whole tokens that close the `level` brackets which are
open. Outside of brackets a plain scalar takes up all that is left. A tag takes up the colon behind
it, unless it is one in angle brackets, behind which no colon may stand. -/
inductive WholeTokens : Nat → Reader → Prop
  | nothing {r : Reader} (hrest : r.rest = []) : WholeTokens 0 r
  | plain {r : Reader} (hplain : startsPlain false r.rest = true) : WholeTokens 0 r
  | piece {level : Nat} {r : Reader} (hplain : startsPlain true r.rest = true)
      (h : WholeTokens (level + 1) (r.advance (plainPiece true r.rest).length)) :
      WholeTokens (level + 1) r
  | keyed {level : Nat} {r r' : Reader} {token : Token}
      {read : Reader → Except Diagnostic (Token × Reader)}
      (hsign : keyedReader? r.peek = some read) (hread : read r = .ok (token, r'))
      (h : WholeTokens level r') : WholeTokens level r
  | opening {level : Nat} {r : Reader} {rest : List Char} (bracket : Bracket)
      (hrest : r.rest = bracket.opening :: rest) (h : WholeTokens (level + 1) r.next) :
      WholeTokens level r
  | closing {level : Nat} {r : Reader} {rest : List Char} (bracket : Bracket)
      (hrest : r.rest = bracket.closing :: rest) (h : WholeTokens level r.next) :
      WholeTokens (level + 1) r
  | sign {level : Nat} {r : Reader} {c : Char} {rest : List Char} (hc : c ∈ [',', '?', ':'])
      (hrest : r.rest = c :: rest) (h : WholeTokens (level + 1) r.next) : WholeTokens (level + 1) r
  | verbatim {level : Nat} {r r' : Reader} {token : Token} {rest : List Char}
      (hrest : r.rest = '!' :: '<' :: rest) (hread : readTag r = .ok (token, r'))
      (hstop : r'.rest = []) : WholeTokens level r

/-- There is more of the word, and no comment starts with it. -/
def GoesOn (r : Reader) : Prop := r.rest ≠ [] ∧ r.peek ≠ '#'

theorem goesOn_of_cons {c : Char} (hrest : r.rest = c :: rest) (hc : c ≠ '#') : GoesOn r := by
  refine ⟨by simp [hrest], ?_⟩
  rwa [peek, hrest, List.headD_cons]

theorem goesOn_of_keyed {read : Reader → Except Diagnostic (Token × Reader)}
    (h : keyedReader? r.peek = some read) : GoesOn r := by
  refine ⟨fun hnil => ?_, fun hhash => ?_⟩
  · rw [show r.peek = nul by rw [peek, hnil]; rfl] at h
    cases h
  · rw [hhash] at h
    cases h

theorem leads_plainPiece {inFlow : Bool} (h : startsPlain inFlow r.rest = true) :
    GoesOn r ∧ r.next.Leads (r.advance (plainPiece inFlow r.rest).length) := by
  let s : TokenStream := { TokenStream.start r.rest with flowLevel := inFlow.toNat }
  have hflow : s.inFlow = inFlow := by cases inFlow <;> rfl
  have hplain : s.atPlain = true := by rwa [s.atPlain_eq, hflow]
  obtain ⟨hhash, hne⟩ := TokenStream.plainPiece_of_atPlain hplain
  rw [hflow] at hne
  refine ⟨⟨fun hnil => hne ?_, hhash⟩, ?_⟩
  · change plainPiece inFlow r.rest = []
    rw [hnil]
    rfl
  · obtain ⟨c, piece, hpiece⟩ := List.exists_cons_of_ne_nil hne
    rw [show plainPiece inFlow r.rest = c :: piece from hpiece]
    exact .advance _ _

namespace WholeTokens

variable {level : Nat}

/-- As long as brackets are open, there is something left to be read. -/
theorem rest_ne_nil (h : WholeTokens (level + 1) r) : r.rest ≠ [] := by
  cases h with
  | piece hplain => exact (leads_plainPiece hplain).1.1
  | keyed hsign => exact (goesOn_of_keyed hsign).1
  | opening _ hrest => simp [hrest]
  | closing _ hrest => simp [hrest]
  | sign _ hrest => simp [hrest]
  | verbatim hrest => simp [hrest]

theorem lt_length_of_leads (h : WholeTokens (level + 1) r') (hleads : r.next.Leads r') :
    1 < r.rest.length := by
  have hpos := List.length_pos_iff.mpr h.rest_ne_nil
  have hle := hleads.length_le
  rw [next_rest, List.length_tail] at hle
  omega

/-- As long as brackets are open, more is left to be read than a single sign, unless that is a
bracket. -/
theorem exists_rest (h : WholeTokens (level + 1) r) :
    ∃ c more, r.rest = c :: more ∧ (isFlowIndicator c = true ∨ more ≠ []) := by
  obtain ⟨c, more, hrest⟩ := List.exists_cons_of_ne_nil h.rest_ne_nil
  refine ⟨c, more, hrest, ?_⟩
  have hmore : 1 < r.rest.length → more ≠ [] := by
    rintro hlength rfl
    simp [hrest] at hlength
  cases h with
  | piece hplain h => exact .inr (hmore (h.lt_length_of_leads (leads_plainPiece hplain).2))
  | keyed hsign hread h => exact .inr (hmore (h.lt_length_of_leads (keyed_leads hsign hread)))
  | opening bracket hopening =>
      cases hrest.symm.trans hopening
      cases bracket <;> exact .inl rfl
  | closing bracket hclosing =>
      cases hrest.symm.trans hclosing
      cases bracket <;> exact .inl rfl
  | sign _ _ h => exact .inr (hmore (h.lt_length_of_leads (.refl _)))
  | verbatim hverbatim => exact .inr (hmore (by simp [hverbatim]))

end WholeTokens

namespace TokenStream

variable {s s₁ : TokenStream}

/-- The stream stands at `r`, inside of `level` brackets. Outside of all no key can start there. -/
structure StandsAt (s : TokenStream) (level : Nat) (r : Reader) : Prop where
  reader : s.reader = r
  flowLevel : s.flowLevel = level
  keyAllowed : level = 0 → s.keyAllowed = false

theorem StandsAt.rest_eq {level : Nat} {c : Char} {more tail : List Char}
    (h : s.StandsAt level (r.followed tail)) (hrest : r.rest = c :: more) :
    s.reader.rest = c :: (more ++ tail) := by
  rw [h.reader, followed_rest, hrest, List.cons_append]

/-- A stream comes of it that stands at `r`, inside of `level` brackets. -/
def Lands (x : Except Diagnostic TokenStream) (level : Nat) (r : Reader) : Prop :=
  ∃ s, x = .ok s ∧ s.StandsAt level r

theorem removeKey_ok (hflow : s.flowLevel ≠ 0)
    (hkeys : ∀ key ∈ s.keys, key.required = true → key.level = 0) :
    ∃ s₁, s.removeKey = .ok s₁ := by
  unfold removeKey
  split
  · rename_i key hkey
    have hlevel : key.level = s.flowLevel := by simpa using List.find?_some hkey
    split_ifs with hrequired
    · exact absurd (hlevel.symm.trans (hkeys key (List.mem_of_find?_eq_some hkey) hrequired)) hflow
    · exact ⟨_, rfl⟩
  · exact ⟨_, rfl⟩

theorem saveKey_ok (hallowed : s.flowLevel = 0 → s.keyAllowed = false)
    (hkeys : ∀ key ∈ s.keys, key.required = true → key.level = 0) :
    ∃ s₁, s.saveKey = .ok s₁ := by
  unfold saveKey
  split_ifs with hallow
  · have hflow : s.flowLevel ≠ 0 := by
      intro hzero
      rw [hallowed hzero] at hallow
      cases hallow
    obtain ⟨s₁, hremove⟩ := removeKey_ok hflow hkeys
    rw [hremove]
    exact ⟨_, rfl⟩
  · exact ⟨_, rfl⟩

theorem fetchFlowStart_lands (hsave : s.saveKey = .ok s₁) (kind : TokenKind) :
    Lands (s.fetchFlowStart kind) (s.flowLevel + 1) s.reader.next := by
  have hsame := (saveKey_saved hsave).same
  rw [fetchFlowStart, hsave, hsame]
  exact ⟨_, rfl, rfl, rfl, fun hzero => absurd hzero (Nat.succ_ne_zero _)⟩

theorem fetchFlowEnd_lands (hremove : s.removeKey = .ok s₁) (kind : TokenKind) :
    Lands (s.fetchFlowEnd kind) (s.flowLevel - 1) s.reader.next := by
  have hsame := (removeKey_dropped hremove).same
  rw [fetchFlowEnd, hremove, hsame]
  exact ⟨_, rfl, rfl, rfl, fun _ => rfl⟩

theorem fetchKeyed_lands {read : Reader → Except Diagnostic (Token × Reader)}
    (hsave : s.saveKey = .ok s₁) (hread : read s.reader = .ok (token, r)) :
    Lands (s.fetchKeyed read) s.flowLevel r := by
  have hsame := (saveKey_saved hsave).same
  rw [fetchKeyed, hsave, ok_bind, hsame, hread]
  exact ⟨_, rfl, rfl, rfl, fun _ => rfl⟩

/-- A plain scalar that no white space follows ends with its first piece. -/
theorem fetchPlain_lands {stop : Reader} (hsave : s.saveKey = .ok s₁) (hplain : s.atPlain = true)
    (hstop : s.reader.advance (plainPiece s.inFlow s.reader.rest).length = stop)
    (hspace : stop.peek ≠ ' ') (hbreak : isBreak stop.peek = false) :
    Lands s.fetchPlain s.flowLevel stop := by
  obtain ⟨hhash, hne⟩ := plainPiece_of_atPlain hplain
  have hsame := (saveKey_saved hsave).same
  have hread : readPlain s.inFlow s₁.indent s.reader =
      (⟨.scalar (String.ofList (plainPiece s.inFlow s.reader.rest)) .plain, s.mark, stop.mark⟩,
        stop, false) :=
    readPlain_piece rfl hne hhash hstop hspace hbreak
  have hreader : s₁.reader = s.reader := by rw [hsame]
  have hflow : s₁.inFlow = s.inFlow := by
    rw [hsame]
    rfl
  rw [fetchPlain, hsave, ok_bind, hreader, hflow, hread, hsame]
  exact ⟨_, rfl, rfl, rfl, fun _ => rfl⟩

section Flow

variable (hflow : s.flowLevel ≠ 0)

include hflow

theorem inFlow_of_ne : s.inFlow = true := by
  simpa [inFlow] using hflow

theorem openBlock_of_ne (kind : TokenKind) (refusal : Problem) :
    s.openBlock kind refusal = .ok s := by
  rw [openBlock, if_pos (inFlow_of_ne hflow)]

theorem fetchFlowEntry_lands (hremove : s.removeKey = .ok s₁) :
    Lands s.fetchFlowEntry s.flowLevel s.reader.next := by
  have hsame := (removeKey_dropped hremove).same
  rw [fetchFlowEntry, hremove, hsame]
  exact ⟨_, rfl, rfl, rfl, fun hzero => absurd hzero hflow⟩

theorem fetchKey_lands (hremove : s.removeKey = .ok s₁) :
    Lands s.fetchKey s.flowLevel s.reader.next := by
  have hsame := (removeKey_dropped hremove).same
  rw [fetchKey, openBlock_of_ne hflow, ok_bind, hremove, hsame]
  exact ⟨_, rfl, rfl, rfl, fun hzero => absurd hzero hflow⟩

theorem fetchValue_lands : Lands s.fetchValue s.flowLevel s.reader.next := by
  unfold fetchValue
  split
  · rename_i key _
    refine ⟨_, rfl, ?_, ?_, fun hzero => absurd hzero hflow⟩
    · change (s.forgetKey.insertKey key).reader.next = _
      rw [insertKey_moved]
      rfl
    · change (s.forgetKey.insertKey key).flowLevel = _
      rw [insertKey_moved]
      rfl
  · rw [openBlock_of_ne hflow]
    exact ⟨_, rfl, rfl, rfl, fun hzero => absurd hzero hflow⟩

end Flow

/-! ### Which token starts here -/

theorem fetchSign_keyed {read : Reader → Except Diagnostic (Token × Reader)}
    (h : keyedReader? s.reader.peek = some read) : s.fetchSign = s.fetchKeyed read := by
  rcases keyedReader?_cases h with ⟨double, hpeek, rfl⟩ | ⟨hpeek, rfl⟩ | ⟨hpeek, rfl⟩
  · exact fetchSign_quoted hpeek
  all_goals
    obtain ⟨tail, hrest⟩ := Reader.rest_of_peek hpeek (by decide)
    obtain ⟨-, -, hend, hdashes, hdots⟩ :=
      faces hrest (starts_cons (by decide) (by decide) (by decide))
    simp [fetchSign, hpeek, hend, hdashes, hdots]

theorem fetchSign_tag {more : List Char} (hrest : s.reader.rest = '!' :: more) :
    s.fetchSign = s.fetchKeyed readTag := by
  obtain ⟨hpeek, -, hend, hdashes, hdots⟩ :=
    faces hrest (starts_cons (by decide) (by decide) (by decide))
  simp [fetchSign, hpeek, hend, hdashes, hdots]

theorem fetchKeyed_error {read : Reader → Except Diagnostic (Token × Reader)} {d : Diagnostic}
    (hsave : s.saveKey = .ok s₁) (hread : read s.reader = .error d) :
    s.fetchKeyed read = .error d := by
  have hsame := (saveKey_saved hsave).same
  rw [fetchKeyed, hsave, ok_bind, hsame, hread]
  rfl

/-- Inside of brackets a question mark and a colon need no blank behind them. -/
theorem fetchSign_sign {c : Char} (hflow : s.flowLevel ≠ 0) (hc : c ∈ [',', '?', ':'])
    (hrest : s.reader.rest = c :: rest) :
    s.fetchSign = s.fetchFlowEntry ∨ s.fetchSign = s.fetchKey ∨ s.fetchSign = s.fetchValue := by
  have hstarts : Starts (c :: rest) := by
    fin_cases hc <;> exact starts_cons (by decide) (by decide) (by decide)
  obtain ⟨hpeek, -, hend, hdashes, hdots⟩ := faces hrest hstarts
  have hin := inFlow_of_ne hflow
  fin_cases hc <;> simp [fetchSign, hpeek, hend, hdashes, hdots, hin]

/-- Where a plain scalar starts there may be a document indicator, but only in the first column. -/
theorem fetchSign_of_atPlain (h : s.atPlain = true) :
    s.fetchSign = s.fetchPlain ∨
      s.mark.column = 0 ∧ ∃ kind, s.fetchSign = .ok (s.fetchDocumentSign kind) := by
  have hend : s.reader.atEnd = false := by
    rw [Reader.atEnd, List.isEmpty_eq_false_iff]
    intro hnil
    have hne := (plainPiece_of_atPlain h).2
    rw [hnil] at hne
    exact hne rfl
  have hsign : s.fetchSign =
      if s.atDocumentSign ['-', '-', '-'] then .ok (s.fetchDocumentSign .documentStart)
      else if s.atDocumentSign ['.', '.', '.'] then .ok (s.fetchDocumentSign .documentEnd)
      else s.fetchPlain := by
    have hplain := h
    simp only [atPlain, Bool.or_eq_true, Bool.and_eq_true, Bool.not_eq_true',
      Bool.or_eq_false_iff, beq_iff_eq] at hplain
    rcases hplain with ⟨-, hindicator⟩ | ⟨hnext, hpeek | ⟨hflow, hpeek | hpeek⟩⟩
    · simp only [isIndicator, List.contains_eq_mem, List.mem_cons, decide_eq_false_iff_not,
        not_or] at hindicator
      simp [fetchSign, hend, hindicator, h]
    · simp [fetchSign, hend, hpeek, hnext, h]
    all_goals simp [fetchSign, hend, hpeek, hnext, hflow, h]
  rw [hsign]
  split_ifs with hdashes hdots
  · simp only [atDocumentSign, Bool.and_eq_true, beq_iff_eq] at hdashes
    exact .inr ⟨hdashes.1.1, _, rfl⟩
  · simp only [atDocumentSign, Bool.and_eq_true, beq_iff_eq] at hdots
    exact .inr ⟨hdots.1.1, _, rfl⟩
  · exact .inl rfl

/-! ### Reading over a word -/

/-- A piece of a plain scalar runs up to the first colon that a blank follows, unless a NUL cuts it
short. -/
theorem plainPiece_endsKey {word : List Char} (hword : ∀ c ∈ word, isWhiteSpace c = false)
    (hblank : isBlankOrEnd (rest.headD nul) = true) :
    (plainPiece false (word ++ ':' :: rest)).length ≤ word.length ∧
      EndsKey ((word ++ ':' :: rest).drop (plainPiece false (word ++ ':' :: rest)).length) := by
  induction word with
  | nil =>
      have hpiece : plainPiece false (':' :: rest) = [] := by
        rw [plainPiece, plainStops, hblank]
        rfl
      rw [List.nil_append, hpiece]
      exact ⟨Nat.le_refl _, ':', rest, rfl, Or.inr ⟨rfl, hblank⟩⟩
  | cons c word ih =>
      obtain ⟨hc, hword⟩ := List.forall_mem_cons.mp hword
      rw [List.cons_append, plainPiece]
      split_ifs with hstops
      · refine ⟨Nat.zero_le _, c, word ++ ':' :: rest, rfl, ?_⟩
        simp only [plainStops, Bool.false_and, Bool.or_false, Bool.or_eq_true, Bool.and_eq_true,
          beq_iff_eq] at hstops
        exact hstops.imp_left (eq_nul_of_not_whiteSpace hc)
      · exact ⟨Nat.succ_le_succ (ih hword).1, (ih hword).2⟩

/-- Outside of the first column a plain scalar is read wherever one can start. -/
theorem StandsAt.plain_lands {level : Nat} {stop : Reader} (h : s.StandsAt level r)
    (hkeys : ∀ key ∈ s.keys, key.required = true → key.level = 0) (hcolumn : 0 < r.mark.column)
    (hplain : s.atPlain = true) (hstop : r.advance (plainPiece s.inFlow r.rest).length = stop)
    (hspace : stop.peek ≠ ' ') (hbreak : isBreak stop.peek = false) :
    Lands s.fetchSign level stop := by
  obtain ⟨s₁, hsave⟩ := saveKey_ok (h.flowLevel ▸ h.keyAllowed) hkeys
  rcases fetchSign_of_atPlain hplain with hsign | ⟨hfirst, -⟩
  · rw [hsign, ← h.flowLevel]
    rw [← h.reader] at hstop
    exact fetchPlain_lands hsave hplain hstop hspace hbreak
  · rw [mark, h.reader] at hfirst
    omega

theorem EndsKey.peek (h : EndsKey r.rest) : r.peek ≠ ' ' ∧ isBreak r.peek = false := by
  obtain ⟨c, tail, hrest, hc⟩ := h
  rw [Reader.peek, hrest, List.headD_cons]
  rcases hc with rfl | ⟨rfl, -⟩ <;> decide

theorem skipToToken_of_peek (hindex : s.mark.index ≠ 0) (hspace : s.reader.peek ≠ ' ')
    (hhash : s.reader.peek ≠ '#') (hbreak : isBreak s.reader.peek = false) :
    s.skipToToken = s := by
  have hmark : (s.mark.index == 0 && s.reader.peek == '\ufeff') = false := by simp [hindex]
  simp only [skipToToken, hmark, Bool.false_eq_true, if_false,
    Reader.skipTrivia_self hspace hhash hbreak, Bool.false_and, Bool.or_false]

variable {text : List Char} {d : Diagnostic} {m : Mark} {p e : TokenStream} {level : Nat}

/-- Outside of brackets, and between the two places, reading comes to the end of a key. -/
def EndsKeyWithin (text : List Char) (first last : Nat) : Prop :=
  ∃ s, (start text).Fetches s ∧ s.flowLevel = 0 ∧ EndsKey s.reader.rest ∧
    first ≤ s.mark.index ∧ s.mark.index ≤ last

theorem EndsKeyWithin.mono {first first' last : Nat} (h : EndsKeyWithin text first' last)
    (hfirst : first ≤ first') : EndsKeyWithin text first last := by
  obtain ⟨s, hs, hlevel, hends, hle, hstop⟩ := h
  exact ⟨s, hs, hlevel, hends, hfirst.trans hle, hstop⟩

/-- A plain scalar at the end of a word is read up to the colon behind the word, or to an earlier
end of it. -/
theorem StandsAt.endsKeyWithin (h : p.StandsAt 0 ((r.followed (':' :: rest)).advance
    (plainPiece false (r.rest ++ ':' :: rest)).length)) (hsolid : r.Solid)
    (hblank : isBlankOrEnd (rest.headD nul) = true) (hp : (start text).Fetches p) :
    EndsKeyWithin text r.mark.index (r.mark.index + r.rest.length) := by
  obtain ⟨hlength, hends⟩ := plainPiece_endsKey hsolid hblank
  refine ⟨p, hp, h.flowLevel, ?_, ?_, ?_⟩
  · rwa [h.reader, advance_rest]
  · rw [mark, h.reader]
    exact (Leads.advance (r.followed (':' :: rest)) _).index_le
  · rw [mark, h.reader]
    exact (advance_index_le _ _).trans (Nat.add_le_add_left hlength _)

/-- The place lies behind the start of a key at `m`, on the same line, and what is left of the word
is not too long for a key. -/
structure Inside (m : Mark) (r : Reader) : Prop where
  solid : r.Solid
  line : r.mark.line = m.line
  index : m.index < r.mark.index
  column : 0 < r.mark.column
  near : r.mark.index + r.rest.length ≤ m.index + SimpleKey.maxLength

theorem Inside.leads (h : Inside m r) (hleads : r.Leads r') : Inside m r' where
  solid := h.solid.leads hleads
  line := (h.solid.line_eq hleads).trans h.line
  index := h.index.trans_le hleads.index_le
  column := h.column.trans_le (h.solid.column_le hleads)
  near := hleads.index_add_length ▸ h.near

/-- Behind the first sign of a key. -/
theorem inside_next {c : Char} (hsolid : r.Solid) (hrest : r.rest = c :: rest)
    (hc : c ≠ '\ufeff') (hlength : r.rest.length ≤ SimpleKey.maxLength) : Inside r.mark r.next := by
  have hleads := Leads.next r
  have hmark := hsolid.next_mark hrest
  refine ⟨hsolid.leads hleads, hsolid.line_eq hleads, ?_, ?_, ?_⟩
  · rw [hmark]
    exact Nat.lt_succ_self _
  · rw [hmark]
    simp [hc]
  · rw [hleads.index_add_length]
    omega

/-- On its way to `e`, where the key at `m` is blamed, the stream `p` stands at `r`, inside of the
word that `tail` follows. -/
structure Underway (text tail : List Char) (m : Mark) (e p : TokenStream) (level : Nat)
    (r : Reader) : Prop where
  inside : Inside m r
  fetched : (start text).Fetches p
  ahead : p.Fetches e
  stands : p.StandsAt level (r.followed tail)

section Underway

variable {level' : Nat} {tail : List Char}
  (herror : e.fetch = .error d ∨ e.dropStaleKeys = .error d) (hmark : d.contextMark = some m)

include herror hmark

/-- Another token is read, or the key is blamed where that token starts. -/
theorem Underway.exists_fetchSign (h : Underway text tail m e p level r) (hword : GoesOn r) :
    ∃ q : TokenStream, q.StandsAt level (r.followed tail) ∧
      (∀ key ∈ q.keys, key.required = true → key.level = 0) ∧
      (q.fetchSign = .error d ∨
        ∃ p₁, q.fetchSign = .ok p₁ ∧ (start text).Fetches p₁ ∧ p₁.Fetches e) := by
  have hpeek : p.reader.peek = r.peek := by rw [h.stands.reader, peek_followed hword.1]
  have hsolid := h.inside.solid.peek hword.1
  have hmark' : p.mark = r.mark := by rw [TokenStream.mark, h.stands.reader, followed_mark]
  have hskip : p.skipToToken = p := by
    refine skipToToken_of_peek ?_ (hpeek ▸ ne_space_of_not_whiteSpace hsolid) (hpeek ▸ hword.2)
      (hpeek ▸ not_break_of_not_whiteSpace hsolid)
    rw [hmark']
    have hindex := h.inside.index
    omega
  have hfresh : p.dropStaleKeys ≠ .error d := by
    intro hdrop
    obtain ⟨key, -, hstale, -, rfl⟩ := dropStaleKeys_eq_error hdrop
    obtain rfl : key.mark = m := Option.some.inj hmark
    have hnear := h.inside.near
    simp only [SimpleKey.isStale, hmark', h.inside.line, bne_self_eq_false, Bool.false_or,
      decide_eq_true_eq] at hstale
    omega
  have hfetches : p.fetch = .error d ∨ ∃ p₁, p.Fetch p₁ ∧ p₁.Fetches e := by
    rcases Relation.ReflTransGen.cases_head h.ahead with rfl | hfetch
    · exact .inl (herror.resolve_right hfresh)
    · exact .inr hfetch
  cases hdrop : p.dropStaleKeys with
  | error d' =>
      have hfetch : p.fetch = .error d' := by
        rw [fetch, hskip, hdrop]
        rfl
      rcases hfetches with hfetch' | ⟨p₁, hfetch', -⟩
      · cases hfetch.symm.trans hfetch'
        exact absurd hdrop hfresh
      · cases hfetch.symm.trans hfetch'.2
  | ok p₀ =>
      have hdropped := dropStaleKeys_dropped hdrop
      have hsame := hdropped.unwind_same p₀.mark.column
      have hfetch : p.fetch = (p₀.unwind p₀.mark.column).fetchSign := by
        rw [fetch, hskip, hdrop]
        rfl
      refine ⟨p₀.unwind p₀.mark.column, ?_, fun key hkey hrequired => ?_, ?_⟩
      · rw [hsame]
        exact ⟨h.stands.reader, h.stands.flowLevel, h.stands.keyAllowed⟩
      · rw [p₀.unwind_keys_eq] at hkey
        exact h.fetched.level_eq_zero (hdropped.keys key hkey) hrequired
      · rw [← hfetch]
        refine hfetches.imp_right ?_
        rintro ⟨p₁, hfetch', hrest⟩
        exact ⟨p₁, hfetch'.2, Relation.ReflTransGen.tail h.fetched hfetch', hrest⟩

/-- The token is read if it can be. -/
theorem Underway.exists_fetch (h : Underway text tail m e p level r) (hword : GoesOn r)
    (hlands : ∀ q : TokenStream, q.StandsAt level (r.followed tail) →
      (∀ key ∈ q.keys, key.required = true → key.level = 0) → Lands q.fetchSign level' r') :
    ∃ p₁, (start text).Fetches p₁ ∧ p₁.Fetches e ∧ p₁.StandsAt level' r' := by
  obtain ⟨q, hq, hkeys, hsign⟩ := h.exists_fetchSign herror hmark hword
  obtain ⟨p₁, hread, hstands₁⟩ := hlands q hq hkeys
  rcases hsign with hsign | ⟨p₁', hsign, hp₁, hpe₁⟩
  · cases hread.symm.trans hsign
  · cases hread.symm.trans hsign
    exact ⟨p₁, hp₁, hpe₁, hstands₁⟩

/-- If the end of the key is come to from behind the token, then it is from before it. -/
theorem Underway.step (h : Underway text tail m e p level r) (hword : GoesOn r)
    (hleads : r.Leads r')
    (hbehind : ∀ {p : TokenStream}, Underway text tail m e p level' r' →
      EndsKeyWithin text r'.mark.index (r'.mark.index + r'.rest.length))
    (hlands : ∀ q : TokenStream, q.StandsAt level (r.followed tail) →
      (∀ key ∈ q.keys, key.required = true → key.level = 0) →
      Lands q.fetchSign level' (r'.followed tail)) :
    EndsKeyWithin text r.mark.index (r.mark.index + r.rest.length) := by
  obtain ⟨p₁, hp₁, hpe₁, hstands₁⟩ := h.exists_fetch herror hmark hword hlands
  rw [← hleads.index_add_length]
  exact (hbehind ⟨h.inside.leads hleads, hp₁, hpe₁, hstands₁⟩).mono hleads.index_le

end Underway

end TokenStream

variable {text : List Char} {d : Diagnostic} {m : Mark} {p e : TokenStream} {level : Nat}

/-- On the way to a place where the key at `m` is blamed a word that can be read as whole tokens is
read over. So reading comes to the colon behind the word, or to an earlier end of a plain scalar. -/
theorem WholeTokens.endsKeyWithin (h : WholeTokens level r)
    (hblank : isBlankOrEnd (rest.headD nul) = true)
    (herror : e.fetch = .error d ∨ e.dropStaleKeys = .error d)
    (hcontext : d.context = some .simpleKey) (hmark : d.contextMark = some m)
    (hp : TokenStream.Underway text (':' :: rest) m e p level r) :
    TokenStream.EndsKeyWithin text r.mark.index (r.mark.index + r.rest.length) := by
  have hsolid := hp.inside.solid
  induction h generalizing p with
  | nothing hrest =>
      have hindex : p.mark.index = _ := congrArg (·.mark.index) hp.stands.reader
      refine ⟨p, hp.fetched, hp.stands.flowLevel, ?_, hindex.ge, hindex.le.trans (by simp)⟩
      rw [hp.stands.reader, followed_rest, hrest]
      exact ⟨':', rest, rfl, .inr ⟨rfl, hblank⟩⟩
  | @plain r hplain =>
      obtain ⟨-, hends⟩ := TokenStream.plainPiece_endsKey hsolid hblank
      rw [← followed_rest, ← advance_rest] at hends
      obtain ⟨p₁, hp₁, -, hstands₁⟩ :=
        hp.exists_fetch herror hmark (leads_plainPiece hplain).1 fun q hq hkeys => by
          have hflow : q.inFlow = false := by simp [TokenStream.inFlow, hq.flowLevel]
          have hat : q.atPlain = true := by
            rw [q.atPlain_eq, hflow, hq.reader, followed_rest, startsPlain_followed hplain]
          refine hq.plain_lands hkeys hp.inside.column hat ?_ hends.peek.1 hends.peek.2
          rw [hflow]
      exact hstands₁.endsKeyWithin hsolid hblank hp₁
  | @piece level r hplain h ih =>
      obtain ⟨hword, hleads⟩ := leads_plainPiece hplain
      replace hleads := (Leads.next r).trans hleads
      generalize hstop : r.advance (plainPiece true r.rest).length = stop at h ih hleads
      refine hp.step herror hmark hword hleads (fun hp' => ih hp' hp'.inside.solid)
        fun q hq hkeys => ?_
      have hflow : q.inFlow = true := by simp [TokenStream.inFlow, hq.flowLevel]
      have hat : q.atPlain = true := by
        rw [q.atPlain_eq, hflow, hq.reader, followed_rest, startsPlain_followed hplain]
      -- Brackets are open, so the piece ends before the last sign of the word.
      have hsame : plainPiece true (r.rest ++ ':' :: rest) = plainPiece true r.rest := by
        obtain ⟨c, more, hrest, hc⟩ := h.exists_rest
        rw [← hstop, advance_rest] at hrest
        exact plainPiece_followed hrest hc
      have hpeek : isWhiteSpace (stop.followed (':' :: rest)).peek = false := by
        rw [peek_followed h.rest_ne_nil]
        exact (hsolid.leads hleads).peek h.rest_ne_nil
      refine hq.plain_lands hkeys hp.inside.column hat ?_ (ne_space_of_not_whiteSpace hpeek)
        (not_break_of_not_whiteSpace hpeek)
      rw [hflow, followed_rest, hsame, advance_followed hsolid
        (plainPiece_initial _ _).length_le, hstop]
  | @keyed level r r' token read hsign hread h ih =>
      have hword := goesOn_of_keyed hsign
      have hleads := (Leads.next r).trans (keyed_leads hsign hread)
      refine hp.step herror hmark hword hleads (fun hp' => ih hp' hp'.inside.solid)
        fun q hq hkeys => ?_
      obtain ⟨q₁, hsave⟩ := TokenStream.saveKey_ok (hq.flowLevel ▸ hq.keyAllowed) hkeys
      have hread' : read (r.followed (':' :: rest)) = _ := keyed_followed hsign hsolid hword.1 hread
      rw [← hq.reader] at hread'
      have hsign' : keyedReader? q.reader.peek = some read := by
        rwa [hq.reader, peek_followed hword.1]
      rw [TokenStream.fetchSign_keyed hsign', ← hq.flowLevel]
      exact TokenStream.fetchKeyed_lands hsave hread'
  | @opening level r tail bracket hrest h ih =>
      have hword : GoesOn r := goesOn_of_cons hrest (by cases bracket <;> decide)
      refine hp.step herror hmark hword (.next r) (fun hp' => ih hp' hp'.inside.solid)
        fun q hq hkeys => ?_
      obtain ⟨q₁, hsave⟩ := TokenStream.saveKey_ok (hq.flowLevel ▸ hq.keyAllowed) hkeys
      rw [TokenStream.fetchSign_opening (hq.rest_eq hrest), ← hq.flowLevel,
        ← next_followed hsolid hword.1, ← hq.reader]
      exact TokenStream.fetchFlowStart_lands hsave _
  | @closing level r tail bracket hrest h ih =>
      have hword : GoesOn r := goesOn_of_cons hrest (by cases bracket <;> decide)
      refine hp.step herror hmark hword (.next r) (fun hp' => ih hp' hp'.inside.solid)
        fun q hq hkeys => ?_
      obtain ⟨q₁, hremove⟩ := TokenStream.removeKey_ok (by simp [hq.flowLevel]) hkeys
      have hlands := TokenStream.fetchFlowEnd_lands hremove bracket.stop
      rw [hq.flowLevel, Nat.add_sub_cancel, hq.reader, next_followed hsolid hword.1] at hlands
      rwa [TokenStream.fetchSign_closing (hq.rest_eq hrest)]
  | @sign level r c tail hc hrest h ih =>
      have hword : GoesOn r := goesOn_of_cons hrest (by fin_cases hc <;> decide)
      refine hp.step herror hmark hword (.next r) (fun hp' => ih hp' hp'.inside.solid)
        fun q hq hkeys => ?_
      have hflow : q.flowLevel ≠ 0 := by simp [hq.flowLevel]
      obtain ⟨q₁, hremove⟩ := TokenStream.removeKey_ok hflow hkeys
      have hrest' := hq.rest_eq hrest
      rw [← next_followed hsolid hword.1, ← hq.reader, ← hq.flowLevel]
      rcases TokenStream.fetchSign_sign hflow hc hrest' with heq | heq | heq
      · exact heq ▸ TokenStream.fetchFlowEntry_lands hflow hremove
      · exact heq ▸ TokenStream.fetchKey_lands hflow hremove
      · exact heq ▸ TokenStream.fetchValue_lands hflow
  | @verbatim level r r' token more hrest hread hstop =>
      obtain ⟨q, hq, hkeys, hsign⟩ :=
        hp.exists_fetchSign herror hmark (goesOn_of_cons hrest (by decide))
      obtain ⟨q₁, hsave⟩ := TokenStream.saveKey_ok (hq.flowLevel ▸ hq.keyAllowed) hkeys
      have hread' : readTag (r.followed (':' :: rest)) = _ :=
        readTag_followed hsolid hrest hread hstop
      rw [← hq.reader] at hread'
      rw [TokenStream.fetchSign_tag (hq.rest_eq hrest),
        TokenStream.fetchKeyed_error hsave hread'] at hsign
      rcases hsign with hsign | ⟨p₁, hsign, -⟩
      · cases hsign
        cases hcontext
      · cases hsign

end Playbook
