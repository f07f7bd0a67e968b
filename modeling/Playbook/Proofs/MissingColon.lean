import Playbook.Proofs.KeyWords
import Playbook.Proofs.RepairLines

/-!
A key without its colon. The repair puts the colon in behind the first word of the key, or where the
key turned out to have none. It is read as the colon of the key if it can be: if the word can be
read as whole tokens that close their brackets, a blank follows, and the key is not too long. Then
the key is not pending any more, and none that starts where it did will be again.
-/

namespace Playbook

/-! ### Stretches without white space -/

theorem lineEnds_eq_zero {read : List Char} (h : ∀ c ∈ read, isBreak c = false)
    (rest : List Char) : lineEnds read rest = 0 := by
  induction read with
  | nil => rfl
  | cons c read ih =>
      obtain ⟨hc, hread⟩ := List.forall_mem_cons.mp h
      rw [lineEnds, ih hread, endsLine_eq_false hc]
      rfl

/-- A stretch without line breaks lies on one line. -/
theorem lineAt_stretch {read stretch rest : List Char} {i : Nat}
    (h : ∀ c ∈ stretch, isBreak c = false) (hle : read.length ≤ i)
    (hstop : i ≤ read.length + stretch.length) :
    lineAt (read ++ (stretch ++ rest)) i = lineAt (read ++ (stretch ++ rest)) read.length := by
  have hends : lineAt (read ++ (stretch ++ rest)) (read.length + stretch.length) =
      lineAt (read ++ (stretch ++ rest)) read.length := by
    rw [lineAt_append, ← List.append_assoc, ← List.length_append, lineAt_append, lineEnds_append,
      lineEnds_eq_zero h, Nat.add_zero]
  exact le_antisymm (hends ▸ lineAt_mono hstop) (lineAt_mono hle)

theorem Reader.Leads.lineAt_index {text : List Char} {r : Reader}
    (h : (Reader.start text).Leads r) :
    lineAt text r.mark.index = r.mark.line := by
  rw [lineAt, ← h.eq_advance]

/-- A key stands on the line on which it was noted. -/
theorem TokenStream.Fetches.lineAt_key {text : List Char} {e : TokenStream} {key : SimpleKey}
    (he : (TokenStream.start text).Fetches e) (hkey : key ∈ e.keys) :
    lineAt text key.mark.index = key.mark.line := by
  obtain ⟨t, -, ht, -, -, ⟨hmark, -⟩, -⟩ := he.exists_notes hkey
  rw [hmark]
  exact Reader.Leads.lineAt_index (ht.leads.trans t.skipToToken_leads)

/-! ### The colon that is put in -/

namespace TokenStream

variable {s s' : TokenStream} {key : SimpleKey} {text read word rest : List Char} {d : Diagnostic}

/-- A token is read from where the stream has skipped to. -/
theorem exists_fetchSign (h : s.fetch = .ok s') :
    ∃ q : TokenStream, q.reader = s.skipToToken.reader ∧ q.flowLevel = s.skipToToken.flowLevel ∧
      q.keys ⊆ s.keys ∧ q.fetchSign = .ok s' := by
  obtain ⟨s₁, hdrop, hsign⟩ := bind_eq_ok_iff.mp h
  have hdropped := dropStaleKeys_dropped hdrop
  have hsame := hdropped.unwind_same s₁.mark.column
  refine ⟨s₁.unwind s₁.mark.column, by rw [hsame], by rw [hsame], ?_, hsign⟩
  rw [s₁.unwind_keys_eq]
  exact hdropped.keys

/-- If the first word of a key can be read as whole tokens, then reading comes to the colon behind
it, or to an earlier end of a plain scalar. -/
theorem endsKeyWithin_of_whole {r : Reader} {t t' e : TokenStream} (hsolid : r.Solid)
    (hlength : r.rest.length ≤ SimpleKey.maxLength) (hblank : isBlankOrEnd (rest.headD nul) = true)
    (ht : (start text).Fetches t) (hfetch : t.Fetch t') (he : t'.Fetches e)
    (herror : e.fetch = .error d ∨ e.dropStaleKeys = .error d)
    (hcontext : d.context = some .simpleKey) (hmark : d.contextMark = some r.mark)
    (hreader : t.skipToToken.reader = r.followed (':' :: rest))
    (hlevel : t.skipToToken.flowLevel = 0) (hnew : key ∉ t.keys) (hkey : key ∈ t'.keys)
    (hkeylevel : key.level = 0) (hwhole : WholeTokens 0 r) :
    EndsKeyWithin text r.mark.index (r.mark.index + r.rest.length) := by
  have ht' : (start text).Fetches t' := Relation.ReflTransGen.tail ht hfetch
  obtain ⟨q, hqreader, hqlevel, hqkeys, hsign⟩ := exists_fetchSign hfetch.2
  rw [hreader] at hqreader
  rw [hlevel] at hqlevel
  have hbehind : ∀ {level : Nat} {r' : Reader} {c : Char} {tail : List Char},
      r.rest = c :: tail → c ≠ '\ufeff' → r.next.Leads r' → WholeTokens level r' →
      t'.StandsAt level (r'.followed (':' :: rest)) →
      EndsKeyWithin text r.mark.index (r.mark.index + r.rest.length) := by
    intro level r' c tail hrest hc hleads h hstands
    have hinside := (inside_next hsolid hrest hc hlength).leads hleads
    have hends := h.endsKeyWithin hblank herror hcontext hmark ⟨hinside, ht', he, hstands⟩
    have hleads := (Reader.Leads.next r).trans hleads
    rw [hleads.index_add_length] at hends
    exact hends.mono hleads.index_le
  cases hwhole with
  | nothing hnil =>
      -- No key starts with a colon that a blank follows.
      have hrest : q.reader.rest = ':' :: rest := by rw [hqreader, Reader.followed_rest, hnil]; rfl
      have hcloses := fetchValue_closes hqlevel
      rw [← fetchSign_colon hrest hblank, hsign] at hcloses
      exact absurd hkeylevel (hcloses key hkey)
  | plain hplain =>
      have hflow : q.inFlow = false := by simp [inFlow, hqlevel]
      have hat : q.atPlain = true := by
        rw [q.atPlain_eq, hflow, hqreader, Reader.followed_rest, startsPlain_followed hplain]
      rcases fetchSign_of_atPlain hat with heq | ⟨-, kind, heq⟩
      · rw [heq] at hsign
        obtain ⟨q₁, hsave, -⟩ := bind_eq_ok_iff.mp hsign
        obtain ⟨-, hends⟩ := plainPiece_endsKey hsolid hblank
        rw [← Reader.followed_rest, ← Reader.advance_rest, ← hqreader] at hends
        have hlands := fetchPlain_lands hsave hat rfl (by rw [hflow]; exact hends.peek.1)
          (by rw [hflow]; exact hends.peek.2)
        obtain ⟨_, hok, hstands⟩ := hlands
        cases hsign.symm.trans hok
        rw [hflow, hqlevel, hqreader] at hstands
        exact hstands.endsKeyWithin hsolid hblank ht'
      · -- A document indicator is no key.
        cases heq.symm.trans hsign
        have hmem := (q.unwind (-1)).forgetKey_dropped.keys key hkey
        rw [q.unwind_keys_eq] at hmem
        exact absurd (hqkeys hmem) hnew
  | @keyed _ _ r' token read hread? hread h =>
      have hne := (goesOn_of_keyed hread?).1
      have hread?' : keyedReader? q.reader.peek = some read := by
        rwa [hqreader, Reader.peek_followed hne]
      rw [fetchSign_keyed hread?'] at hsign
      obtain ⟨q₁, hsave, -⟩ := bind_eq_ok_iff.mp hsign
      have hread' : read (r.followed (':' :: rest)) = _ := keyed_followed hread? hsolid hne hread
      rw [← hqreader] at hread'
      obtain ⟨_, hok, hstands⟩ := fetchKeyed_lands hsave hread'
      cases hsign.symm.trans hok
      rw [hqlevel] at hstands
      obtain ⟨c, tail, hrest⟩ := List.exists_cons_of_ne_nil hne
      refine hbehind hrest ?_ (keyed_leads hread? hread) h hstands
      rintro rfl
      rw [Reader.peek, hrest] at hread?
      cases hread?
  | @opening _ _ tail bracket hopening h =>
      have hrest : q.reader.rest = bracket.opening :: (tail ++ ':' :: rest) := by
        rw [hqreader, Reader.followed_rest, hopening, List.cons_append]
      rw [fetchSign_opening hrest] at hsign
      obtain ⟨q₁, hsave, -⟩ := bind_eq_ok_iff.mp hsign
      obtain ⟨_, hok, hstands⟩ := fetchFlowStart_lands hsave bracket.start
      cases hsign.symm.trans hok
      rw [hqlevel, hqreader, Reader.next_followed hsolid (by simp [hopening])] at hstands
      refine hbehind hopening ?_ (.refl _) h hstands
      cases bracket <;> decide
  | @verbatim _ _ r' token more hverbatim hread hstop =>
      have hrest : q.reader.rest = '!' :: ('<' :: more ++ ':' :: rest) := by
        rw [hqreader, Reader.followed_rest, hverbatim, List.cons_append]
      rw [fetchSign_tag hrest] at hsign
      obtain ⟨q₁, hsave, -⟩ := bind_eq_ok_iff.mp hsign
      have hread' : readTag (r.followed (':' :: rest)) = _ :=
        readTag_followed hsolid hverbatim hread hstop
      rw [← hqreader] at hread'
      cases hsign.symm.trans (fetchKeyed_error hsave hread')

/-- A key is not blamed if the colon behind its first word can be read as one. -/
theorem not_breaks_of_colon {m : Mark} {d : Diagnostic} (hindex : m.index = read.length)
    (hword : ∀ c ∈ word, isWhiteSpace c = false) (hlength : word.length ≤ SimpleKey.maxLength)
    (hblank : isBlankOrEnd (rest.headD nul) = true)
    (hwhole : WholeTokens 0 ⟨word, m⟩)
    (hcontext : d.context = some .simpleKey) (hmark : d.contextMark = some m) :
    ¬ (start (read ++ (word ++ ':' :: rest))).Breaks d := by
  intro hbreaks
  obtain ⟨e, key, he, -, herror, hkey, hrequired, hkeymark⟩ := hbreaks.exists_key hcontext
  obtain rfl : m = key.mark := Option.some.inj (hmark.symm.trans hkeymark)
  obtain ⟨t, t', ht, hfetch, ht', ⟨hplace, hlevels⟩, hnew, hmem⟩ := he.exists_notes hkey
  obtain ⟨hlevel, hkeylevel⟩ := hlevels hrequired
  have hreader : t.skipToToken.reader = Reader.followed (':' :: rest) ⟨word, key.mark⟩ := by
    have hrest := Reader.Leads.rest_eq ((Fetches.leads ht).trans t.skipToToken_leads)
    have hplace' : t.skipToToken.reader.mark = key.mark := hplace.symm
    rw [hplace', hindex, List.drop_left] at hrest
    exact congrArg₂ Reader.mk hrest hplace'
  have hsolid : (⟨word, key.mark⟩ : Reader).Solid := hword
  obtain ⟨s, hs, hflow, hends, hle, hstop⟩ := endsKeyWithin_of_whole hsolid hlength hblank ht hfetch
    ht' herror hcontext hmark hreader hlevel hnew hmem hkeylevel hwhole
  change key.mark.index ≤ _ at hle
  change _ ≤ key.mark.index + word.length at hstop
  rw [hindex] at hle hstop
  have hline : key.mark.line = s.mark.line := by
    have hsline : lineAt (read ++ (word ++ ':' :: rest)) s.mark.index = s.mark.line :=
      Reader.Leads.lineAt_index (Fetches.leads hs)
    rw [← hsline, ← he.lineAt_key hkey, hindex]
    exact (lineAt_stretch (fun c hc => not_break_of_not_whiteSpace (hword c hc)) hle hstop).symm
  exact (closesKeys_of_endsKey hflow hends).not_breaks hs (by omega) hline (by omega) hcontext
    hmark hbreaks

end TokenStream

namespace Patch

variable {text : List Char} {context problem : Nat}

/-- The colon of a key is put in behind its first word. -/
theorem exists_closeKey_word (hle : context ≤ problem) (hlength : problem ≤ text.length) :
    ∃ read word rest, text = read ++ (word ++ rest) ∧ read.length = context ∧
      (∀ c ∈ word, isWhiteSpace c = false) ∧
      closeKey text context problem = ⟨read.length + word.length, ':'⟩ := by
  generalize hstretch :
    ((text.take problem).drop context).takeWhile (fun c => !isWhiteSpace c) = word
  have hread : (text.take context).length = context := List.length_take_of_le (hle.trans hlength)
  have htake : text.take (context + word.length) = text.take context ++ word := by
    rw [← hstretch]
    exact take_add_takeWhile
  refine ⟨text.take context, word, text.drop (context + word.length), ?_, hread, ?_, ?_⟩
  · rw [← List.append_assoc, ← htake, List.take_append_drop]
  · intro c hc
    rw [← hstretch] at hc
    simpa using List.mem_takeWhile_imp hc
  · have hkey : ((text.take problem).drop context).length = problem - context := by
      rw [List.length_drop, List.length_take_of_le hlength]
    have hinitial : word.length ≤ problem - context := by
      rw [← hkey, ← hstretch]
      exact (List.takeWhile_prefix _).length_le
    rw [closeKey, hstretch, hkey, hread]
    congr 1
    split_ifs <;> omega

end Patch

namespace Document

variable {text : List Char} {cursor : Cursor} {m : Mark}

/-- Reading a text fails because the key that starts at `m` has no colon. -/
def MissesColon (text : List Char) (cursor : Cursor) (m : Mark) : Prop :=
  ∃ mark, ofText text cursor = .error (.within .tokens .simpleKey m .missingColon mark)

/-- The repair of a missing colon. It puts a colon in behind the first word of the key. The key is
not blamed again if the colon can be read as one: if it is not too far from the start of the key, a
blank or the end of the text follows it, and the word before it can be read as whole tokens that
close their brackets. -/
theorem missesColon_mended (h : MissesColon text cursor m) :
    ∃ d patch, ofText text cursor = .error d ∧ Patch.of? text d = some patch ∧
      patch.insert = ':' ∧ m.index ≤ patch.index ∧ patch.index ≤ text.length ∧
      (∀ c ∈ (text.take patch.index).drop m.index, isWhiteSpace c = false) ∧
      (patch.index ≤ m.index + SimpleKey.maxLength →
        isBlankOrEnd (text.getD patch.index nul) = true →
        WholeTokens 0 ⟨(text.take patch.index).drop m.index, m⟩ →
        ¬ MissesColon (patch.apply text) cursor m) := by
  obtain ⟨mark, herror⟩ := h
  have hpoints := ofText_points herror rfl
  have hlength : mark.index ≤ text.length := hpoints.problem.index_le
  obtain ⟨patch, hpatch⟩ : ∃ patch,
      Patch.of? text (.within .tokens .simpleKey m .missingColon mark) = some patch := ⟨_, rfl⟩
  have hclose : patch = Patch.closeKey text m.index mark.index :=
    Patch.of?_closeKey hpoints rfl hpatch
  obtain ⟨read, word, rest, rfl, hstart, hword, hindex⟩ :=
    Patch.exists_closeKey_word (hpoints.context m rfl).2 hlength
  obtain rfl := hclose.trans hindex
  refine ⟨_, _, herror, hpatch, rfl, ?_, ?_, ?_, ?_⟩
  · simp [← hstart]
  · simp [← Nat.add_assoc]
  · simpa [← hstart, List.take_length_add_append] using hword
  · rintro hfar hblank hcolon ⟨mark', hagain⟩
    have happly : Patch.apply ⟨read.length + word.length, ':'⟩ (read ++ (word ++ rest)) =
        read ++ (word ++ ':' :: rest) := by
      simp [Patch.apply, List.take_length_add_append, List.drop_length_add_append]
    have hhead : (read ++ (word ++ rest))[read.length + word.length]? = rest.head? := by
      rw [← List.append_assoc, ← List.length_append, List.getElem?_append_right (Nat.le_refl _),
        Nat.sub_self, List.head?_eq_getElem?]
    rw [List.getD_eq_getElem?_getD, hhead, ← List.headD_eq_head?_getD] at hblank
    rw [← hstart, List.take_length_add_append, List.drop_left, List.take_left] at hcolon
    rw [happly] at hagain
    have hbreaks := Token.ofText_breaks (ofText_fault hagain rfl) (by simp [Diagnostic.within])
    exact TokenStream.not_breaks_of_colon hstart.symm hword (by simpa [← hstart] using hfar) hblank
      hcolon rfl rfl hbreaks

/-- A plain key of two words, and one in brackets with a word behind it. -/
theorem missesColon_mended_two_keys :
    (MissesColon "a: 1\nb c\n".toList .origin ⟨5, 1, 0⟩ ∧
      ∃ d patch, ofText "a: 1\nb c\n".toList .origin = .error d ∧
        Patch.of? "a: 1\nb c\n".toList d = some patch ∧
        patch.apply "a: 1\nb c\n".toList = "a: 1\nb: c\n".toList ∧
        ¬ MissesColon (patch.apply "a: 1\nb c\n".toList) .origin ⟨5, 1, 0⟩) ∧
    (MissesColon "a: 1\n[\"b\",*d] c\n".toList .origin ⟨5, 1, 0⟩ ∧
      ∃ d patch, ofText "a: 1\n[\"b\",*d] c\n".toList .origin = .error d ∧
        Patch.of? "a: 1\n[\"b\",*d] c\n".toList d = some patch ∧
        patch.apply "a: 1\n[\"b\",*d] c\n".toList = "a: 1\n[\"b\",*d]: c\n".toList ∧
        ¬ MissesColon (patch.apply "a: 1\n[\"b\",*d] c\n".toList) .origin ⟨5, 1, 0⟩) := by
  constructor
  · have hmisses : ofText "a: 1\nb c\n".toList .origin =
        .error (.within .tokens .simpleKey ⟨5, 1, 0⟩ .missingColon ⟨9, 2, 0⟩) := rfl
    obtain ⟨d, patch, hread, hpatch, -, -, -, -, hmended⟩ := missesColon_mended ⟨_, hmisses⟩
    cases hread.symm.trans hmisses
    obtain rfl : patch = ⟨6, ':'⟩ := Option.some.inj (hpatch.symm.trans (by decide +kernel))
    exact ⟨⟨_, hmisses⟩, _, _, hread, hpatch, by decide,
      hmended (by decide) (by decide) (.plain rfl)⟩
  · have hmisses : ofText "a: 1\n[\"b\",*d] c\n".toList .origin =
        .error (.within .tokens .simpleKey ⟨5, 1, 0⟩ .missingColon ⟨16, 2, 0⟩) := rfl
    obtain ⟨d, patch, hread, hpatch, -, -, -, -, hmended⟩ := missesColon_mended ⟨_, hmisses⟩
    cases hread.symm.trans hmisses
    obtain rfl : patch = ⟨13, ':'⟩ := Option.some.inj (hpatch.symm.trans (by decide +kernel))
    have hwhole : WholeTokens 0 ⟨"[\"b\",*d]".toList, ⟨5, 1, 0⟩⟩ :=
      .opening .square rfl (.keyed rfl rfl (.sign List.mem_cons_self rfl (.keyed rfl rfl
        (.closing .square rfl (.nothing rfl)))))
    exact ⟨⟨_, hmisses⟩, _, _, hread, hpatch, by decide, hmended (by decide) (by decide) hwhole⟩

/-- The repair of a missing colon leaves the same key without one. -/
def StillMissesColon (text : List Char) (cursor : Cursor) (m : Mark) : Prop :=
  MissesColon text cursor m ∧ ∃ d patch, ofText text cursor = .error d ∧
    Patch.of? text d = some patch ∧ MissesColon (patch.apply text) cursor m

/-- Inside of quotes and of brackets, as part of a tag and in a comment the colon is not read as
one, nor is it before a space that is no blank of the format. -/
theorem missesColon_again :
    StillMissesColon "a: 1\n\"b c\"\n".toList .origin ⟨5, 1, 0⟩ ∧
      StillMissesColon "a: 1\n[b c]\n".toList .origin ⟨5, 1, 0⟩ ∧
      StillMissesColon "a: 1\n!b c\n".toList .origin ⟨5, 1, 0⟩ ∧
      StillMissesColon "a: 1\n\"b\"#c d\n".toList .origin ⟨5, 1, 0⟩ ∧
      StillMissesColon "a: 1\nb\u00a0c\n".toList .origin ⟨5, 1, 0⟩ := by
  refine ⟨⟨⟨⟨11, 2, 0⟩, rfl⟩, ?_⟩, ⟨⟨⟨11, 2, 0⟩, rfl⟩, ?_⟩, ⟨⟨⟨10, 2, 0⟩, rfl⟩, ?_⟩,
    ⟨⟨⟨13, 2, 0⟩, rfl⟩, ?_⟩, ⟨⟨⟨9, 2, 0⟩, rfl⟩, ?_⟩⟩
  · exact ⟨.within .tokens .simpleKey ⟨5, 1, 0⟩ .missingColon ⟨11, 2, 0⟩, ⟨7, ':'⟩, rfl,
      by decide +kernel, ⟨12, 2, 0⟩, rfl⟩
  · exact ⟨.within .tokens .simpleKey ⟨5, 1, 0⟩ .missingColon ⟨11, 2, 0⟩, ⟨7, ':'⟩, rfl,
      by decide +kernel, ⟨12, 2, 0⟩, rfl⟩
  · exact ⟨.within .tokens .simpleKey ⟨5, 1, 0⟩ .missingColon ⟨10, 2, 0⟩, ⟨7, ':'⟩, rfl,
      by decide +kernel, ⟨11, 2, 0⟩, rfl⟩
  · exact ⟨.within .tokens .simpleKey ⟨5, 1, 0⟩ .missingColon ⟨13, 2, 0⟩, ⟨10, ':'⟩, rfl,
      by decide +kernel, ⟨14, 2, 0⟩, rfl⟩
  · exact ⟨.within .tokens .simpleKey ⟨5, 1, 0⟩ .missingColon ⟨9, 2, 0⟩, ⟨6, ':'⟩, rfl,
      by decide +kernel, ⟨10, 2, 0⟩, rfl⟩

end Document

end Playbook
