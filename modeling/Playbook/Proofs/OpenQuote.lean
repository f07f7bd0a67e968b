import Playbook.Proofs.MirroredReading
import Playbook.Proofs.RepairLoop

/-!
Closing a quoted scalar that has no end. The repair puts the opening quote in again behind the text,
or before the line feed that ends it. Reading with and without that quote goes the same way up to
it, unless the quote is taken for an escaped one: a backslash before the line feed used to continue
the line. Then the next repair puts in one more.
-/

namespace Playbook

open Reader

namespace Reader

theorem startsWith_pair_iff {r : Reader} {c : Char} {rest : List Char} (h : r.rest = c :: rest) :
    r.startsWith ['\r', '\n'] = true ↔ c = '\r' ∧ rest.head? = some '\n' := by
  rw [startsWith, h]
  cases rest <;> simp [List.isPrefixOf, @eq_comm _ '\r', @eq_comm _ '\n']

/-- A line break is one character, or the pair of carriage return and line feed. -/
theorem exists_lineBreak {r : Reader} (h : isBreak r.peek = true) :
    ∃ c, r.lineBreak? = some (c, r.advance (if r.startsWith ['\r', '\n'] then 2 else 1)) := by
  simp only [isBreak, Bool.or_eq_true] at h
  unfold lineBreak?
  split_ifs with hpair hfeed hseparator
  · exact ⟨_, rfl⟩
  · exact ⟨_, rfl⟩
  · exact ⟨_, rfl⟩
  · simp only [Bool.or_eq_true] at hfeed hseparator
    tauto

end Reader

/-- The character around a quoted scalar. -/
def quoteOf (double : Bool) : Char := if double then '"' else '\''

/-- The second reader has the text of the first with a quote put in before `old`, the line feed at
the end of the text if there is one. Both stand at the same place and `before` the quote, or the
second one has come to the quote and the first one may be anywhere. No backslash can take the quote
for an escape. -/
structure Closing (double : Bool) (old before : List Char) (r r' : Reader) : Prop where
  feed : old = [] ∨ old = ['\n']
  rest : before = [] ∨ r.rest = before ++ old
  rest' : r'.rest = before ++ quoteOf double :: old
  last : before.getLast? = some '\\' → double = true → old = []

namespace Closing

variable {double : Bool} {old before before' : List Char} {r r' r₁ r₁' : Reader}

/-- Reading on keeps the relation. -/
theorem of_suffix (h : Closing double old before r r') (hsuffix : before' <:+ before)
    (hrest : before' = [] ∨ r₁.rest = before' ++ old)
    (hrest' : r₁'.rest = before' ++ quoteOf double :: old) :
    Closing double old before' r₁ r₁' := by
  refine ⟨h.feed, hrest, hrest', fun hlast => h.last ?_⟩
  obtain ⟨read, rfl⟩ := hsuffix
  rw [List.getLast?_append, hlast, Option.some_or]

theorem advance (h : Closing double old before r r') {n : Nat} (hn : n ≤ before.length) :
    Closing double old (before.drop n) (r.advance n) (r'.advance n) := by
  apply h.of_suffix (List.drop_suffix n before)
  · apply h.rest.imp
    · rintro rfl
      exact List.drop_nil
    · intro hrest
      rw [advance_rest, hrest, List.drop_append_of_le_length hn]
  · rw [advance_rest, h.rest', List.drop_append_of_le_length hn]

theorem skipBlanks (h : Closing double old before r r') :
    Closing double old (before.dropWhile isBlank) (r.skipWhile isBlank)
      (r'.skipWhile isBlank) := by
  have hquote : isBlank (quoteOf double) = false := by cases double <;> rfl
  apply h.of_suffix (List.dropWhile_suffix _)
  · by_cases hnil : before.dropWhile isBlank = []
    · exact Or.inl hnil
    · right
      rcases h.rest with rfl | hrest
      · exact absurd rfl hnil
      · rw [skipWhile_rest, hrest, List.dropWhile_append]
        simp [hnil]
  · rw [skipWhile_rest, h.rest', List.dropWhile_append]
    by_cases hnil : before.dropWhile isBlank = []
    · simp [hnil, hquote]
    · simp [hnil]

theorem peek_eq {c : Char} {ahead : List Char} (h : Closing double old (c :: ahead) r r') :
    r.peek = c ∧ r'.peek = c := by
  have hrest : r.rest = c :: ahead ++ old := h.rest.resolve_left (List.cons_ne_nil _ _)
  exact ⟨by simp [peek, hrest], by simp [peek, h.rest']⟩

theorem lineBreak?_eq_none (h : Closing double old before r r') (hnone : r'.lineBreak? = none) :
    before = [] ∨ r.lineBreak? = none := by
  rcases before with _ | ⟨c, ahead⟩
  · exact Or.inl rfl
  · right
    rw [lineBreak?_eq_none_iff] at hnone ⊢
    rwa [h.peek_eq.1, ← h.peek_eq.2]

/-- Both read a line break, but the first may read the line feed at the end of the text along with
a carriage return. -/
theorem lineBreak?_eq_some (h : Closing double old before r r') {c' : Char}
    (hbreak : r'.lineBreak? = some (c', r₁')) :
    ∃ c r₁ before₁, r.lineBreak? = some (c, r₁) ∧ Closing double old before₁ r₁ r₁' := by
  have hbreak' : isBreak r'.peek = true := by
    by_contra hnone
    rw [lineBreak?_eq_none_iff.mpr (by simpa using hnone)] at hbreak
    cases hbreak
  rcases before with _ | ⟨c, ahead⟩
  · have hquote : r'.peek = quoteOf double := by simp [peek, h.rest']
    rw [hquote] at hbreak'
    cases double <;> cases hbreak'
  have hrest : r.rest = c :: ahead ++ old := h.rest.resolve_left (List.cons_ne_nil _ _)
  obtain ⟨d, hd⟩ := exists_lineBreak (r := r) (by rwa [h.peek_eq.1, ← h.peek_eq.2])
  obtain ⟨d', hd'⟩ := exists_lineBreak hbreak'
  obtain rfl : r₁' = _ := congrArg Prod.snd (Option.some.inj (hbreak.symm.trans hd'))
  have hpair : r.startsWith ['\r', '\n'] = true ↔ c = '\r' ∧ (ahead ++ old).head? = some '\n' :=
    startsWith_pair_iff hrest
  have hpair' : r'.startsWith ['\r', '\n'] = true ↔
      c = '\r' ∧ (ahead ++ quoteOf double :: old).head? = some '\n' := startsWith_pair_iff h.rest'
  rcases ahead with _ | ⟨c₂, ahead⟩
  · -- The first reader may go past the end of what stands before the quote.
    have hsingle : r'.startsWith ['\r', '\n'] = false := by
      rw [Bool.eq_false_iff, ne_eq, hpair']
      cases double <;> simp [quoteOf]
    rw [hsingle]
    exact ⟨d, _, [], hd, h.of_suffix List.nil_suffix (Or.inl rfl)
      (by simp [Reader.advance, next_rest, h.rest'])⟩
  · have hsame : r.startsWith ['\r', '\n'] = r'.startsWith ['\r', '\n'] := by
      rw [Bool.eq_iff_iff, hpair, hpair']
      simp
    rw [hsame] at hd
    refine ⟨d, _, _, hd, h.advance ?_⟩
    split_ifs <;> simp

end Closing

/-! ### Reading with and without the quote -/

/-- The problem lies inside the text: it is not that the text ends. -/
def Diagnostic.Inside (d : Diagnostic) : Prop := d.problem.isUnexpectedEnd = false

/-- With the quote put in, the text does not end too early, and what is read keeps the relation to
what is read without it. -/
def Keeps (double : Bool) (old : List Char) (x x' : Except Diagnostic (List Char × Reader)) :
    Prop :=
  EndsIn (fun out' => ∃ before r, Closing double old before r out'.2 ∧
    (before = [] ∨ ∃ piece, x = .ok (piece, r))) Diagnostic.Inside x'

variable {double : Bool} {old before : List Char} {start start' : Mark} {r r' : Reader}

/-- Without the quote, nothing goes wrong but that the text ends. -/
abbrev OnlyEnds {α : Type} (x : Except Diagnostic α) : Prop :=
  Faults (·.problem.isUnexpectedEnd = true) x

theorem quotedBreaks_of_none {n : Nat} {breaks : List Char} (hapart : r.atSeparator = false)
    (h : (r.skipWhile isBlank).lineBreak? = none) :
    quotedBreaks start (n + 1) r breaks = .ok (breaks, r.skipWhile isBlank) := by
  simp [quotedBreaks, hapart, h]

theorem quotedBreaks_of_some {n : Nat} {breaks : List Char} {c : Char} {r₁ : Reader}
    (hapart : r.atSeparator = false) (h : (r.skipWhile isBlank).lineBreak? = some (c, r₁)) :
    quotedBreaks start (n + 1) r breaks = quotedBreaks start n r₁ (breaks ++ [c]) := by
  simp [quotedBreaks, hapart, h]

theorem quotedBreaks_keeps {n n' : Nat} {breaks breaks' : List Char}
    (h : Closing double old before r r') (hends : OnlyEnds (quotedBreaks start n r breaks)) :
    Keeps double old (quotedBreaks start n r breaks) (quotedBreaks start' n' r' breaks') := by
  induction n generalizing before r r' n' breaks breaks' with
  | zero => cases hends _ rfl
  | succ n ih =>
      cases n' with
      | zero =>
          exact rfl
      | succ n' =>
          have hapart : r.atSeparator = false := by
            by_contra hsep
            cases hends _ (by rw [quotedBreaks, if_pos (by simpa using hsep)])
          by_cases hsep' : r'.atSeparator = true
          · have herror : quotedBreaks start' (n' + 1) r' breaks' = .error _ := if_pos hsep'
            rw [herror]
            exact rfl
          rw [Bool.not_eq_true] at hsep'
          cases hbreak' : (r'.skipWhile isBlank).lineBreak? with
          | none =>
              rw [quotedBreaks_of_none hsep' hbreak']
              refine ⟨_, _, h.skipBlanks, ?_⟩
              apply (h.skipBlanks.lineBreak?_eq_none hbreak').imp_right
              intro hbreak
              exact ⟨breaks, quotedBreaks_of_none hapart hbreak⟩
          | some found' =>
              obtain ⟨c, r₁, before₁, hbreak, h₁⟩ := h.skipBlanks.lineBreak?_eq_some hbreak'
              rw [quotedBreaks_of_some hapart hbreak] at hends ⊢
              rw [quotedBreaks_of_some hsep' hbreak']
              exact ih h₁ hends

theorem quotedGap_of_none (hopen : (r.skipWhile isBlank).atEnd = false)
    (h : (r.skipWhile isBlank).lineBreak? = none) :
    quotedGap start r = .ok (r.rest.takeWhile isBlank, r.skipWhile isBlank) := by
  rw [skipWhile] at h hopen
  simp [quotedGap, hopen, h, skipWhile]

theorem quotedGap_of_some {first : Char} {r₁ : Reader}
    (h : (r.skipWhile isBlank).lineBreak? = some (first, r₁)) :
    quotedGap start r = quotedBreaks start (r₁.rest.length + 1) r₁ [] >>= fun out =>
      .ok (foldBreaks first out.1, out.2) := by
  have hopen : (r.skipWhile isBlank).atEnd = false := by
    by_contra hend
    have hnil : (r.skipWhile isBlank).rest = [] := by simpa [atEnd] using hend
    have hnone : (r.skipWhile isBlank).lineBreak? = none :=
      lineBreak?_eq_none_iff.mpr (by simp [peek, hnil]; rfl)
    cases hnone.symm.trans h
  rw [skipWhile] at h hopen
  simp [quotedGap, hopen, h]

theorem quotedGap_keeps (h : Closing double old before r r')
    (hends : OnlyEnds (quotedGap start r)) :
    Keeps double old (quotedGap start r) (quotedGap start' r') := by
  have hskip := h.skipBlanks
  have hopen' : (r'.skipWhile isBlank).atEnd = false := by simp [atEnd, hskip.rest']
  cases hbreak' : (r'.skipWhile isBlank).lineBreak? with
  | none =>
      rw [quotedGap_of_none hopen' hbreak']
      refine ⟨_, _, hskip, ?_⟩
      by_cases hnil : before.dropWhile isBlank = []
      · exact Or.inl hnil
      · have hopen : (r.skipWhile isBlank).atEnd = false := by
          simp [atEnd, hskip.rest.resolve_left hnil, hnil]
        apply (hskip.lineBreak?_eq_none hbreak').imp_right
        intro hbreak
        exact ⟨_, quotedGap_of_none hopen hbreak⟩
  | some found' =>
      obtain ⟨c, r₁, before₁, hbreak, h₁⟩ := hskip.lineBreak?_eq_some hbreak'
      rw [quotedGap_of_some hbreak] at hends ⊢
      rw [quotedGap_of_some hbreak']
      have hbreaks : OnlyEnds (quotedBreaks start (r₁.rest.length + 1) r₁ []) := by
        intro d hd
        exact hends d (by rw [hd]; rfl)
      apply (quotedBreaks_keeps h₁ hbreaks).bind
      rintro out' ⟨before₂, r₂, h₂, hout⟩
      refine ⟨before₂, r₂, h₂, hout.imp_right ?_⟩
      rintro ⟨piece, hpiece⟩
      exact ⟨_, by rw [hpiece]; rfl⟩

/-- The code of an escape does not reach into the end of the text. -/
theorem length_le_of_charOfCode? {digits : Nat} {ahead : List Char} {char : Char}
    (hfeed : old = [] ∨ old = ['\n']) (h : charOfCode? digits (ahead ++ old) = some char) :
    digits ≤ ahead.length := by
  by_contra hshort
  rcases hfeed with rfl | rfl
  · simp [charOfCode?, hshort] at h
  · have hmem : '\n' ∈ (ahead ++ ['\n']).take digits := by
      rw [List.take_of_length_le (by simp; omega)]
      simp
    cases (charOfCode?_of_break (Or.inr rfl) hmem).symm.trans h

theorem charOfCode?_append {digits : Nat} {ahead : List Char} (hle : digits ≤ ahead.length)
    (rest : List Char) : charOfCode? digits (ahead ++ rest) = charOfCode? digits ahead := by
  simp only [charOfCode?, List.take_append_of_le_length hle]

/-- In double quotes. The backslash is not the last character before the quote. -/
theorem quotedEscape_keeps {c : Char} {ahead : List Char}
    (h : Closing double old (c :: ahead) r r') (hends : OnlyEnds (quotedEscape start r)) :
    Keeps double old (quotedEscape start r) (quotedEscape start' r') := by
  have hnext : Closing double old ahead r.next r'.next := h.advance (n := 1) (by simp)
  unfold quotedEscape at hends ⊢
  rw [h.peek_eq.1] at hends ⊢
  rw [h.peek_eq.2]
  cases hchar : escapedChar? c with
  | some char =>
      exact ⟨ahead, r.next, hnext, Or.inr ⟨[char], rfl⟩⟩
  | none =>
      rw [hchar] at hends
      cases hdigits : escapeDigits? c with
      | some digits =>
          rw [hdigits] at hends
          have hrest : r.next.rest = ahead ++ old := by
            simp [next_rest, h.rest.resolve_left (List.cons_ne_nil _ _)]
          have hrest' : r'.next.rest = ahead ++ quoteOf double :: old := hnext.rest'
          dsimp only at hends ⊢
          cases hcode : charOfCode? digits r.next.rest with
          | none =>
              rw [hcode] at hends
              cases hends _ rfl
          | some char =>
              rw [hrest] at hcode
              have hle := length_le_of_charOfCode? h.feed hcode
              rw [charOfCode?_append hle] at hcode
              rw [hrest', charOfCode?_append hle, hcode]
              exact ⟨_, _, hnext.advance hle, Or.inr ⟨[char], rfl⟩⟩
      | none =>
          rw [hdigits] at hends
          dsimp only at hends ⊢
          cases hbreak' : r'.lineBreak? with
          | none => exact rfl
          | some found' =>
              obtain ⟨first, r₁, before₁, hbreak, h₁⟩ := h.lineBreak?_eq_some hbreak'
              rw [hbreak] at hends ⊢
              exact quotedBreaks_keeps h₁ hends

theorem quotedEscape_of_nil (h : r.rest = []) :
    quotedEscape start r =
      .error (.within .tokens .doubleQuoted start (.unknownEscape nul) r.mark) := by
  have hpeek : r.peek = nul := by simp [peek, h]
  have hbreak : r.lineBreak? = none := lineBreak?_eq_none_iff.mpr (by rw [hpeek]; rfl)
  have hchar : escapedChar? nul = none := rfl
  have hdigits : escapeDigits? nul = none := rfl
  simp [quotedEscape, hpeek, hbreak, hchar, hdigits]

/-- At the quote that was put in, the scalar is closed. -/
theorem quotedPiece_of_closing (h : Closing double old [] r r') :
    quotedPiece double start' r' = .ok none := by
  have hpeek : r'.peek = quoteOf double := by simp [peek, h.rest']
  have hahead : r'.peekAt 1 ≠ '\'' := by
    rcases h.feed with rfl | rfl <;> simp [peekAt, h.rest', nul]
  cases double <;> simp [quotedPiece, hpeek, quoteOf, hahead]

/-- The same for a piece, which may be none at the closing quote. -/
def KeepsPiece (double : Bool) (old : List Char)
    (x x' : Except Diagnostic (Option (List Char × Reader))) : Prop :=
  EndsIn (fun found' => ∀ out' ∈ found', ∃ before r, Closing double old before r out'.2 ∧
    (before = [] ∨ ∃ piece, x = .ok (some (piece, r)))) Diagnostic.Inside x'

theorem Keeps.some {x x' : Except Diagnostic (List Char × Reader)} (h : Keeps double old x x') :
    KeepsPiece double old (some <$> x) (some <$> x') := by
  apply h.map
  rintro out' ⟨before, r, hclosing, hx⟩ _ ⟨⟩
  refine ⟨before, r, hclosing, hx.imp_right ?_⟩
  rintro ⟨piece, rfl⟩
  exact ⟨piece, rfl⟩

theorem OnlyEnds.of_some {α : Type} {x : Except Diagnostic α} (h : OnlyEnds (some <$> x)) :
    OnlyEnds x := by
  intro d hd
  exact h d (by rw [hd]; rfl)

/-- Where both readers stand before the quote, they read the same piece. -/
theorem quotedPiece_keeps {c : Char} {ahead : List Char} (h : Closing double old (c :: ahead) r r')
    (hends : OnlyEnds (quotedPiece double start r))
    (hopen : quotedPiece double start r ≠ .ok none) :
    KeepsPiece double old (quotedPiece double start r) (quotedPiece double start' r') := by
  have hnext : Closing double old ahead r.next r'.next := h.advance (n := 1) (by simp)
  have hrest : r.rest = c :: ahead ++ old := h.rest.resolve_left (List.cons_ne_nil _ _)
  unfold quotedPiece at hends hopen ⊢
  rw [h.peek_eq.1] at hends hopen ⊢
  rw [h.peek_eq.2]
  dsimp only at hends hopen ⊢
  split_ifs at hends hopen ⊢ with hsingle hpair hpair' hpair' hclose hescape hblank
  · rintro _ ⟨⟩
    have hlength : 2 ≤ (c :: ahead).length := by
      rcases ahead with _ | ⟨c₂, ahead⟩
      · rcases h.feed with rfl | rfl <;> simp [peekAt, hrest, nul] at hpair
      · simp
    exact ⟨_, _, h.advance hlength, Or.inr ⟨_, rfl⟩⟩
  · rintro _ ⟨⟩
  · exact absurd rfl hopen
  · exact absurd rfl hopen
  · exact absurd rfl hopen
  · obtain ⟨rfl, rfl⟩ : c = '\\' ∧ double = true := by simpa using hescape
    rcases ahead with _ | ⟨c₂, ahead⟩
    · have hnil : r.next.rest = [] := by simp [next_rest, hrest, h.last rfl rfl]
      cases hends.of_some _ (quotedEscape_of_nil hnil)
    · exact (quotedEscape_keeps hnext hends.of_some).some
  · exact (quotedGap_keeps h hends.of_some).some
  · rintro _ ⟨⟩
    exact ⟨_, _, hnext, Or.inr ⟨_, rfl⟩⟩

theorem quotedText_of_closing {n' : Nat} {text' : List Char} (h : Closing double old [] r r') :
    Faults Diagnostic.Inside (quotedText double start' n' r' text') := by
  cases n' with
  | zero => exact faults_error rfl
  | succ n' =>
      rw [quotedText, quotedPiece_of_closing h]
      exact faults_ok _

/-- A scalar that has no end has one with the quote put in, or fails for another reason. -/
theorem quotedText_closes {n n' : Nat} {text text' : List Char} {d : Diagnostic}
    (h : Closing double old before r r') (hread : quotedText double start n r text = .error d)
    (hd : d.problem.isUnexpectedEnd = true) :
    Faults Diagnostic.Inside (quotedText double start' n' r' text') := by
  -- The induction is on the rounds over the old text; the new one may take any number of them.
  induction n generalizing before r r' n' text text' with
  | zero =>
      cases hread
      cases hd
  | succ n ih =>
      rcases before with _ | ⟨c, ahead⟩
      · exact quotedText_of_closing h
      cases n' with
      | zero => exact faults_error rfl
      | succ n' =>
          rw [quotedText] at hread
          have hends : OnlyEnds (quotedPiece double start r) := by
            intro e he
            rw [he] at hread
            cases hread
            exact hd
          have hopen : quotedPiece double start r ≠ .ok none := by
            intro hnone
            rw [hnone] at hread
            cases hread
          have hkeeps : KeepsPiece double old (quotedPiece double start r)
              (quotedPiece double start' r') := quotedPiece_keeps h hends hopen
          rw [quotedText]
          cases hpiece' : quotedPiece double start' r' with
          | error d' =>
              rw [hpiece'] at hkeeps
              exact faults_error hkeeps
          | ok found' =>
              rw [hpiece'] at hkeeps
              cases found' with
              | none => exact faults_ok _
              | some out' =>
                  obtain ⟨before₁, r₁, h₁, rfl | ⟨piece, hpiece⟩⟩ := hkeeps out' rfl
                  · exact quotedText_of_closing h₁
                  · rw [hpiece] at hread
                    exact ih h₁ hread

/-! ### Where the text ends -/

/-- If the problem is that the text ends, then it lies at the end. -/
def Diagnostic.AtEnd (r : Reader) (d : Diagnostic) : Prop :=
  d.problem.isUnexpectedEnd = true →
    ∃ stop, r.Leads stop ∧ stop.rest = [] ∧ d.problemMark = stop.mark

theorem quotedBreaks_inside (start : Mark) (n : Nat) (r : Reader) (breaks : List Char) :
    Faults Diagnostic.Inside (quotedBreaks start n r breaks) := by
  induction n generalizing r breaks with
  | zero => exact faults_error rfl
  | succ n ih =>
      unfold quotedBreaks
      split_ifs
      · exact faults_error rfl
      · dsimp only
        split
        · exact faults_ok _
        · exact ih _ _

theorem quotedEscape_inside (start : Mark) (r : Reader) :
    Faults Diagnostic.Inside (quotedEscape start r) := by
  unfold quotedEscape
  split
  · exact faults_ok _
  · split
    · exact faults_ok _
    · exact faults_error rfl
  · split
    · exact quotedBreaks_inside _ _ _ _
    · exact faults_error rfl

theorem quotedGap_atEnd (start : Mark) (r : Reader) :
    Faults (Diagnostic.AtEnd r) (quotedGap start r) := by
  unfold quotedGap
  dsimp only
  split_ifs with hend
  · apply faults_error
    intro _
    exact ⟨_, .advance r _, by simpa [atEnd] using hend, rfl⟩
  · split
    · exact faults_ok _
    · refine faults_bind ?_ fun _ => faults_ok _
      intro d hd hproblem
      exact absurd hproblem (ne_true_of_eq_false (quotedBreaks_inside _ _ _ _ d hd))

theorem quotedPiece_atEnd (double : Bool) (start : Mark) (r : Reader) :
    Faults (Diagnostic.AtEnd r) (quotedPiece double start r) := by
  unfold quotedPiece
  dsimp only
  split_ifs
  · exact faults_ok _
  · exact faults_ok _
  · exact faults_ok _
  · apply faults_map
    intro d hd hproblem
    exact absurd hproblem (ne_true_of_eq_false (quotedEscape_inside _ _ d hd))
  · exact faults_map (quotedGap_atEnd start r)
  · exact faults_ok _

theorem quotedText_atEnd (double : Bool) (start : Mark) (n : Nat) (r : Reader) (text : List Char) :
    Faults (Diagnostic.AtEnd r) (quotedText double start n r text) := by
  induction n generalizing r text with
  | zero =>
      apply faults_error
      intro hproblem
      cases hproblem
  | succ n ih =>
      unfold quotedText
      split
      · rename_i hpiece
        exact faults_error (quotedPiece_atEnd double start r _ hpiece)
      · exact faults_ok _
      · rename_i hpiece
        intro d hd hproblem
        obtain ⟨stop, hleads, hrest, hmark⟩ := ih _ _ d hd hproblem
        exact ⟨stop, (quotedPiece_leads hpiece).trans hleads, hrest, hmark⟩

theorem quotedText_of_readQuoted {d : Diagnostic} (h : readQuoted double r = .error d) :
    quotedText double r.mark (r.rest.length + 1) r.next [] = .error d := by
  rcases bind_eq_error_iff.mp h with htext | ⟨out, -, hout⟩
  · exact htext
  · cases hout

/-! ### The repair -/

namespace Patch

variable {patch : Patch} {text : List Char} {k : Nat}

theorem drop_split (hk : k ≤ patch.index) (hindex : patch.index ≤ text.length) :
    text.drop k = (text.take patch.index).drop k ++ text.drop patch.index := by
  have hlength : k ≤ (text.take patch.index).length := by
    rw [List.length_take]
    omega
  rw [← List.drop_append_of_le_length hlength, List.take_append_drop]

theorem drop_apply (hk : k ≤ patch.index) (hindex : patch.index ≤ text.length) :
    (patch.apply text).drop k =
      (text.take patch.index).drop k ++ patch.insert :: text.drop patch.index := by
  have hlength : k ≤ (text.take patch.index).length := by
    rw [List.length_take]
    omega
  rw [apply, List.drop_append_of_le_length hlength]

theorem getElem?_apply (hk : k < patch.index) (hindex : patch.index ≤ text.length) :
    (patch.apply text)[k]? = text[k]? := by
  have hlength : k < (text.take patch.index).length := by
    rw [List.length_take]
    omega
  rw [apply, List.getElem?_append_left hlength, List.getElem?_take_of_lt hk]

end Patch

theorem Problem.isMissingColon_of_isUnexpectedEnd {problem : Problem}
    (h : problem.isUnexpectedEnd = true) : problem.isMissingColon = false := by
  cases problem with
  | other text =>
      obtain rfl : text = Problem.unexpectedEnd.text := beq_iff_eq.mp h
      decide +kernel
  | unexpectedEnd => rfl
  | _ => cases h

/-- The repair puts the opening quote in behind the text, or before the line feed that ends it. -/
structure Patch.ClosesAt (text : List Char) (m : Mark) (patch : Patch) : Prop where
  quote : text[m.index]? = some patch.insert
  index_lt : m.index < patch.index
  index_le : patch.index ≤ text.length
  rest : text.drop patch.index = if text.getLast? = some '\n' then ['\n'] else []

theorem Patch.ClosesAt.feed {text : List Char} {m : Mark} {patch : Patch}
    (h : patch.ClosesAt text m) :
    text.drop patch.index = [] ∨ text.drop patch.index = ['\n'] := by
  rw [h.rest]
  split_ifs
  · exact Or.inr rfl
  · exact Or.inl rfl

namespace Diagnostic.Unclosed

variable {text : List Char} {d : Diagnostic} {c : Char}

theorem length_le (h : d.Unclosed text c) : text.length ≤ d.problemMark.index := by
  obtain ⟨double, quote, hleads, -, -, hread, -, hend⟩ := h
  obtain ⟨stop, hstop, hnil, hmark⟩ :=
    quotedText_atEnd double _ _ _ _ d (quotedText_of_readQuoted hread) hend
  have hrest := (hleads.trans ((Leads.next quote).trans hstop)).rest_eq
  rw [hnil] at hrest
  rw [hmark]
  exact List.drop_eq_nil_iff.mp hrest.symm

/-- An open quote can be repaired. -/
theorem exists_patch (h : d.Unclosed text c) (hquoted : d.context.any Activity.isQuoted = true) :
    ∃ m patch, d.contextMark = some m ∧ Patch.of? text d = some patch ∧ patch.ClosesAt text m := by
  obtain ⟨m, hmark, hchar⟩ := h.getElem?_context
  obtain ⟨hlt, hget⟩ := List.getElem?_eq_some_iff.mp hchar
  have hlength := h.length_le
  obtain ⟨double, quote, -, -, hc, hread, -, hend⟩ := h
  have hstage : d.stage = .tokens := by
    obtain ⟨_, -, _, _, rfl⟩ := readQuoted_faults double quote d hread
    rfl
  have hpatch : Patch.of? text d = some
      ⟨if text.getLast? = some '\n' then text.length - 1 else text.length, c⟩ := by
    simp [Patch.of?, hstage, Problem.isMissingColon_of_isUnexpectedEnd hend, hquoted, hend,
      Patch.closeQuote?, hmark, hlength, hlt.le, hlt, hget, List.getLast?_eq_getElem?]
  refine ⟨m, _, hmark, hpatch, ?_⟩
  by_cases hfeed : text.getLast? = some '\n'
  · obtain ⟨ahead, rfl⟩ := List.getLast?_eq_some_iff.mp hfeed
    have hne : m.index ≠ ahead.length := by
      rintro hsame
      have hquote : c = '\n' := by simpa [hsame] using hchar.symm
      rw [hquote] at hc
      cases double <;> cases hc
    rw [if_pos hfeed, List.length_append, List.length_singleton, Nat.add_sub_cancel]
    rw [List.length_append, List.length_singleton] at hlt
    refine ⟨hchar, by dsimp only; omega, by simp, ?_⟩
    rw [if_pos hfeed, List.drop_left]
  · rw [if_neg hfeed]
    exact ⟨hchar, hlt, Nat.le_refl _, by rw [if_neg hfeed, List.drop_length]⟩

end Diagnostic.Unclosed

namespace Document

variable {text : List Char} {cursor : Cursor} {m : Mark}

/-- Reading the text fails at its end, inside the quoted scalar that opens at the mark. -/
def OpenQuote (text : List Char) (cursor : Cursor) (m : Mark) : Prop :=
  ∃ mark, ofText text cursor = .error (.within .tokens .quoted m .unexpectedEnd mark)

theorem OpenQuote.reading (h : OpenQuote text cursor m) :
    ∃ double r d, (Reader.start text).Leads r ∧ r.mark = m ∧ r.peek = quoteOf double ∧
      readQuoted double r = .error d ∧ d.problem.isUnexpectedEnd = true := by
  obtain ⟨mark, hread⟩ := h
  obtain ⟨c, double, r, hleads, hpeek, rfl, hquoted, hmark, hend⟩ :=
    (ofText_blames hread rfl).unclosed rfl rfl
  exact ⟨double, r, _, hleads, (Option.some.inj hmark).symm, hpeek, hquoted, hend⟩

theorem OpenQuote.exists_patch (h : OpenQuote text cursor m) :
    ∃ d patch, ofText text cursor = .error d ∧ Patch.of? text d = some patch ∧
      patch.ClosesAt text m := by
  obtain ⟨mark, hread⟩ := h
  obtain ⟨c, hunclosed⟩ := (ofText_blames hread rfl).unclosed rfl rfl
  obtain ⟨m', patch, hmark, hpatch, hcloses⟩ := hunclosed.exists_patch rfl
  cases hmark
  exact ⟨_, patch, hread, hpatch, hcloses⟩

/-- The quote that is put in closes the scalar, unless a backslash takes it for an escape. -/
theorem OpenQuote.closes {patch : Patch} (h : OpenQuote text cursor m)
    (hpatch : patch.ClosesAt text m)
    (hlast : patch.insert = '"' → ¬ ['\\', '\n'] <:+ text) :
    ¬ OpenQuote (patch.apply text) cursor m := by
  intro h'
  obtain ⟨double, r, d, hleads, rfl, hpeek, hquoted, hend⟩ := h.reading
  obtain ⟨double', r', d', hleads', hm, hpeek', hquoted', hend'⟩ := h'.reading
  have hnul : ∀ double, quoteOf double ≠ nul := by decide
  have hquote := hleads.getElem?_index (hnul double) hpeek
  have hquote' := hleads'.getElem?_index (hnul double') hpeek'
  rw [hm, Patch.getElem?_apply hpatch.index_lt hpatch.index_le, hquote] at hquote'
  obtain rfl : double = double' := by
    revert hquote'
    cases double <;> cases double' <;> decide
  have hinsert : patch.insert = quoteOf double := by simpa [hpatch.quote] using hquote
  have hclosing : Closing double (text.drop patch.index)
      ((text.take patch.index).drop (r.mark.index + 1)) r.next r'.next := by
    refine ⟨hpatch.feed, Or.inr ?_, ?_, fun hbackslash hdouble => ?_⟩
    · rw [next_rest, hleads.rest_eq, List.tail_drop,
        Patch.drop_split hpatch.index_lt hpatch.index_le]
    · rw [next_rest, hleads'.rest_eq, hm, List.tail_drop,
        Patch.drop_apply hpatch.index_lt hpatch.index_le, hinsert]
    · apply hpatch.feed.resolve_right
      intro hfeed
      obtain ⟨ahead, hahead⟩ := List.getLast?_eq_some_iff.mp hbackslash
      have hsplit := Patch.drop_split hpatch.index_lt hpatch.index_le
      rw [hahead, hfeed, List.append_assoc] at hsplit
      have hsuffix : ['\\', '\n'] <:+ text.drop (r.mark.index + 1) := ⟨ahead, hsplit.symm⟩
      exact hlast (by rw [hinsert, hdouble]; rfl) (hsuffix.trans (List.drop_suffix _ _))
  have hinside := quotedText_closes hclosing (quotedText_of_readQuoted hquoted) hend d'
    (quotedText_of_readQuoted hquoted')
  cases hend'.symm.trans hinside

/-- An open quote is closed by at most two repairs, and by one if it is a single quote. -/
theorem openQuote_closes (h : OpenQuote text cursor m) :
    ∃ k text', 1 ≤ k ∧ k ≤ (if text[m.index]? = some '\'' then 1 else 2) ∧
      repaired? cursor text k = some text' ∧ ¬ OpenQuote text' cursor m := by
  obtain ⟨d, patch, hread, hpatch, hcloses⟩ := h.exists_patch
  have hfirst : repaired? cursor text 1 = some (patch.apply text) := repaired?_succ rfl hread hpatch
  by_cases h₁ : OpenQuote (patch.apply text) cursor m
  · have htaken : patch.insert = '"' ∧ ['\\', '\n'] <:+ text := by
      by_contra hfree
      exact h.closes hcloses (fun hinsert hsuffix => hfree ⟨hinsert, hsuffix⟩) h₁
    -- The quote that a backslash took stands at the end now, and keeps the next one safe.
    have hsafe : ¬ ['\\', '\n'] <:+ patch.apply text := by
      rintro ⟨ahead, hahead⟩
      have hreversed := congrArg List.reverse hahead
      rcases hcloses.feed with hfeed | hfeed <;>
        simp [Patch.apply, hfeed, htaken.1] at hreversed
    obtain ⟨d₁, patch₁, hread₁, hpatch₁, hcloses₁⟩ := h₁.exists_patch
    have hquote : text[m.index]? ≠ some '\'' := by
      rw [hcloses.quote, htaken.1]
      decide
    refine ⟨2, _, by decide, ?_, repaired?_succ hfirst hread₁ hpatch₁,
      h₁.closes hcloses₁ fun _ => hsafe⟩
    rw [if_neg hquote]
  · refine ⟨1, _, Nat.le_refl 1, ?_, hfirst, h₁⟩
    split_ifs <;> decide

/-- The backslash before the line feed takes the first quote, and the second one closes the
scalar. -/
theorem openQuote_closes_escaped :
    OpenQuote "\"a\\\n".toList .origin .origin ∧
      ∃ k text', 1 ≤ k ∧ k ≤ 2 ∧ repaired? .origin "\"a\\\n".toList k = some text' ∧
        ¬ OpenQuote text' .origin .origin := by
  have hopen : OpenQuote "\"a\\\n".toList .origin .origin := ⟨⟨4, 1, 0⟩, rfl⟩
  obtain ⟨k, text', hpos, hle, hrepaired, hclosed⟩ := openQuote_closes hopen
  exact ⟨hopen, k, text', hpos, hle, hrepaired, hclosed⟩

end Document

end Playbook
