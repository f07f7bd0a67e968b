import Playbook.Completion.Basic
import Playbook.Proofs.CursorIndependence
import Playbook.Proofs.EditorPlaces
import Playbook.Proofs.LineEndings

/-!
A byte order mark at the start of a text. Reading skips it, and whatever it finds lies in the same
line and column as without it; so does every repair. But the default cursor counts it as a character
of the first line: in a text of one line it lies one column further to the right, behind all that
can be completed.
-/

namespace Playbook

/-! ### Reading -/

section

variable {text : List Char} {cursor : Cursor} {d : Diagnostic}

theorem Event.ofText_behind_mark (h : text.head? ≠ some '\ufeff') :
    (ofText ('\ufeff' :: text)).bare Event.bare = (ofText text).bare Event.bare := by
  obtain ⟨feed, feed', hfeed, htext, hmark⟩ := Token.ofText_behind_mark h
  have hbare : (Token.ofText ('\ufeff' :: text)).bare Token.bare =
      (Token.ofText text).bare Token.bare := by
    rw [htext, hmark]
    exact congrArg (Feed.cons _) hfeed.bare.symm
  rw [ofText, ofText, ← ofTokens_bare, ← ofTokens_bare, hbare]

namespace Document

theorem ofText_behind_mark (h : text.head? ≠ some '\ufeff') (cursor : Cursor) :
    bareOutcome id (ofText ('\ufeff' :: text) cursor) = bareOutcome id (ofText text cursor) := by
  rw [ofText_bare, ofText_bare, Event.ofText_behind_mark h]

theorem ofText_ok_behind_mark (h : text.head? ≠ some '\ufeff') {document : Document}
    (hread : ofText text cursor = .ok document) :
    ofText ('\ufeff' :: text) cursor = .ok document := by
  have hsame := ofText_behind_mark h cursor
  rw [hread] at hsame
  cases hmark : ofText ('\ufeff' :: text) cursor with
  | ok document' =>
      rw [hmark] at hsame
      exact congrArg Except.ok (Except.ok.inj hsame)
  | error d =>
      rw [hmark] at hsame
      cases hsame

/-- What is wrong behind the mark is wrong without it, in the same line and column; and a problem
with the tokens is told one character further down. -/
theorem ofText_error_behind_mark (h : text.head? ≠ some '\ufeff')
    (hread : ofText text cursor = .error d) :
    ∃ d', ofText ('\ufeff' :: text) cursor = .error d' ∧ d'.bare = d.bare ∧
      (d.stage = .tokens → Diagnostic.Mirrors .behindMark d d') := by
  have hsame := ofText_behind_mark h cursor
  rw [hread] at hsame
  cases hmark : ofText ('\ufeff' :: text) cursor with
  | ok document =>
      rw [hmark] at hsame
      cases hsame
  | error d' =>
      rw [hmark] at hsame
      have hbare : d'.bare = d.bare := Except.error.inj hsame
      refine ⟨d', rfl, hbare, fun hstage => ?_⟩
      have hstage' : d'.stage = .tokens := (d'.places_of_bare hbare).1.trans hstage
      obtain ⟨feed, feed', hfeed, htext, htext'⟩ := Token.ofText_behind_mark h
      have hfault := ofText_fault hread hstage
      have hfault' := ofText_fault hmark hstage'
      rw [htext] at hfault
      rw [htext'] at hfault'
      have hrel : Option.Rel (Diagnostic.Mirrors .behindMark) (some d) (some d') :=
        hfault ▸ hfault' ▸ hfeed.fault
      cases hrel with
      | some hd => exact hd

end Document

end

/-! ### Repairs -/

/-- Which repair is made does not depend on the character that was found. -/
theorem Problem.repairs_of_bare {problem problem' : Problem} (h : problem.bare = problem'.bare) :
    problem.isMissingColon = problem'.isMissingColon ∧
      problem.isUnexpectedEnd = problem'.isUnexpectedEnd ∧
      problem.isMisplacedKey = problem'.isMisplacedKey := by
  have hbare : ∀ problem : Problem, problem.bare.isMissingColon = problem.isMissingColon ∧
      problem.bare.isUnexpectedEnd = problem.isUnexpectedEnd ∧
      problem.bare.isMisplacedKey = problem.isMisplacedKey := by
    intro problem
    cases problem <;> exact ⟨rfl, rfl, rfl⟩
  obtain ⟨hcolon, hend, hkey⟩ := hbare problem
  rw [h] at hcolon hend hkey
  obtain ⟨hcolon', hend', hkey'⟩ := hbare problem'
  exact ⟨hcolon.symm.trans hcolon', hend.symm.trans hend', hkey.symm.trans hkey'⟩

namespace Patch

/-- The repair `n` characters further down. -/
def shifted (n : Nat) (patch : Patch) : Patch := { patch with index := patch.index + n }

variable {text : List Char}

theorem apply_shifted (patch : Patch) (c : Char) (text : List Char) :
    (patch.shifted 1).apply (c :: text) = c :: patch.apply text := rfl

theorem closeKey_behind_mark (text : List Char) {context context' : Nat} (problem : Nat)
    (hcontext : context' = context + 1 ∨ context = 0 ∧ context' = 0) :
    closeKey ('\ufeff' :: text) context' (problem + 1) =
      (closeKey text context problem).shifted 1 := by
  unfold closeKey shifted
  rcases hcontext with rfl | ⟨rfl, rfl⟩
  · simp only [List.take_succ_cons, List.drop_succ_cons, Patch.mk.injEq, and_true]
    split_ifs <;> omega
  · have hmark : isWhiteSpace '\ufeff' = false := by decide
    simp only [List.take_succ_cons, List.drop_zero, List.takeWhile_cons, hmark, Bool.not_false,
      if_true, List.length_cons, Patch.mk.injEq, and_true]
    split_ifs <;> omega

theorem closeQuote?_behind_mark (text : List Char) (context problem : Nat) :
    closeQuote? ('\ufeff' :: text) (context + 1) (problem + 1) =
      (closeQuote? text context problem).map (Patch.shifted 1) := by
  unfold closeQuote? shifted
  rw [List.getElem?_cons_succ, Option.map_map]
  refine congrArg (Option.map · text[context]?) (funext fun quote => ?_)
  cases problem with
  | zero => simp
  | succ problem =>
      simp only [Function.comp_apply, Nat.add_sub_cancel, List.getElem?_cons_succ,
        Nat.add_lt_add_iff_right]
      split_ifs <;> rfl

theorem lineOffset_behind_mark (text : List Char) (line : Nat) :
    lineOffset ('\ufeff' :: text) line = if line = 0 then 0 else lineOffset text line + 1 := by
  cases line with
  | zero => simp [lineOffset]
  | succ line => simp [lineOffset]

theorem closeItem_behind_mark (text : List Char) (line problem : Nat) :
    closeItem ('\ufeff' :: text) line (problem + 1) = (closeItem text line problem).shifted 1 := by
  unfold closeItem shifted
  rw [lineOffset_behind_mark]
  split_ifs with hfirst
  · rw [hfirst]
    have hzero : lineOffset text 0 = 0 := by simp [lineOffset]
    simp [hzero]
  · simp only [Nat.add_max_add_right, List.take_succ_cons, List.drop_succ_cons, Patch.mk.injEq,
      and_true]
    omega

/-- A repair behind the mark is the one without it, one character further down. -/
theorem of?_behind_mark {d d' : Diagnostic}
    (hblames : d.stage = .tokens → (Reader.start text).Blames d)
    (h : Diagnostic.Mirrors .behindMark d d') :
    of? ('\ufeff' :: text) d' = (of? text d).map (Patch.shifted 1) := by
  have hquote : d.stage = .tokens → (d.context.any Activity.isQuoted && d.problem.isUnexpectedEnd) =
      true → ∃ m, d.contextMark = some m := by
    intro hstage hquoted
    obtain ⟨hquoted, hend⟩ := Bool.and_eq_true_iff.mp hquoted
    obtain ⟨c, hunclosed⟩ := (hblames hstage).unclosed hquoted hend
    obtain ⟨m, hmark, -⟩ := hunclosed.getElem?_context
    exact ⟨m, hmark⟩
  obtain ⟨stage, context, contextMark, problem, problemMark⟩ := d
  obtain ⟨stage', context', contextMark', problem', problemMark'⟩ := d'
  obtain ⟨rfl, rfl, hmarks, hsame, rfl⟩ := h
  have hcontext : min ((contextMark'.map Mark.index).getD 0) (text.length + 1) =
      min ((contextMark.map Mark.index).getD 0) text.length + 1 ∨
        contextMark = none ∧ min ((contextMark'.map Mark.index).getD 0) (text.length + 1) = 0 := by
    cases hmarks with
    | none => exact Or.inr ⟨rfl, Nat.zero_min _⟩
    | some hm =>
        cases hm
        exact Or.inl (Nat.add_min_add_right _ _ 1)
  have hproblem : min (problemMark.shifted 1 0).index (text.length + 1) =
      min problemMark.index text.length + 1 := Nat.add_min_add_right _ _ 1
  have hline : (problemMark.shifted 1 0).line = problemMark.line := rfl
  obtain ⟨hcolon, hend, hkey⟩ := Problem.repairs_of_bare hsame
  simp only [of?, List.length_cons, hproblem, hline, ← hcolon, ← hend, ← hkey]
  dsimp only at hquote
  split_ifs with hstage hmissing hquoted hmisplaced
  · rfl
  · exact congrArg some (closeKey_behind_mark text _
      (hcontext.imp_right fun h => ⟨by simp [h.1], h.2⟩))
  · -- The place of the quote that is to be closed is known.
    obtain ⟨m, hmark⟩ := hquote (by simpa using hstage) hquoted
    rw [hcontext.resolve_right fun h => by simp [h.1] at hmark, closeQuote?_behind_mark]
  · exact congrArg some (closeItem_behind_mark text _ _)
  · rfl

theorem insert_ne_mark {d : Diagnostic} {patch : Patch}
    (hblames : d.stage = .tokens → (Reader.start text).Blames d) (h : of? text d = some patch) :
    patch.insert ≠ '\ufeff' := by
  rcases insert_of_blames hblames h with hcolon | ⟨double, _, _, _, hquote, _⟩
  · rw [hcolon]
    decide
  · rw [hquote]
    cases double <;> decide

theorem head?_apply_ne {c : Char} (htext : text.head? ≠ some c) {patch : Patch}
    (hinsert : patch.insert ≠ c) : (patch.apply text).head? ≠ some c := by
  unfold apply
  cases text with
  | nil => simpa using hinsert
  | cons b text =>
      cases patch.index with
      | zero => simpa using hinsert
      | succ k => simpa using htext

end Patch

/-! ### Loading -/

section

variable {ε α β : Type} {x : Except ε α} {f : α → β}

theorem map_eq_ok {b : β} (h : x.map f = .ok b) : ∃ a, x = .ok a ∧ f a = b := by
  cases x with
  | error e => cases h
  | ok a => exact ⟨a, rfl, Except.ok.inj h⟩

theorem map_eq_error {e : ε} (h : x.map f = .error e) : x = .error e := by
  cases x with
  | error e' => exact congrArg Except.error (Except.error.inj h)
  | ok a => cases h

end

/-- The error with a bare diagnostic. -/
def LoadError.bare : LoadError → LoadError
  | unrepairable d => unrepairable d.bare
  | limitExceeded n d => limitExceeded n d.bare
  | deadlineExceeded n d => deadlineExceeded n d.bare

namespace Document

variable {text source : List Char} {cursor cursor' : Cursor} {k cap : Nat}

theorem of?_error_behind_mark (h : text.head? ≠ some '\ufeff') {d : Diagnostic}
    (hread : ofText text cursor = .error d) :
    ∃ d', ofText ('\ufeff' :: text) cursor = .error d' ∧ d'.bare = d.bare ∧
      Patch.of? ('\ufeff' :: text) d' = (Patch.of? text d).map (Patch.shifted 1) := by
  obtain ⟨d', hmark, hbare, hmirrors⟩ := ofText_error_behind_mark h hread
  refine ⟨d', hmark, hbare, ?_⟩
  by_cases hstage : d.stage = .tokens
  · exact Patch.of?_behind_mark (ofText_blames hread) (hmirrors hstage)
  · have hstage' : d'.stage ≠ .tokens := (d'.places_of_bare hbare).1 ▸ hstage
    simp [Patch.of?, hstage, hstage']

theorem mended?_behind_mark (h : text.head? ≠ some '\ufeff') (cursor : Cursor) :
    mended? ('\ufeff' :: text) (ofText ('\ufeff' :: text) cursor) =
      (mended? text (ofText text cursor)).map ('\ufeff' :: ·) := by
  cases hread : ofText text cursor with
  | ok document =>
      rw [ofText_ok_behind_mark h hread]
      rfl
  | error d =>
      obtain ⟨d', hmark, -, hpatch⟩ := of?_error_behind_mark h hread
      rw [hmark, mended?, mended?, hpatch, Option.map_map, Option.map_map]
      exact Option.map_congr fun patch _ => patch.apply_shifted '\ufeff' text

theorem head?_mended?_ne (h : text.head? ≠ some '\ufeff') {text' : List Char}
    (hmended : mended? text (ofText text cursor) = some text') : text'.head? ≠ some '\ufeff' := by
  obtain ⟨d, patch, hread, hpatch, rfl⟩ := mended?_eq_some hmended
  exact Patch.head?_apply_ne h (Patch.insert_ne_mark (ofText_blames hread) hpatch)

/-- The texts that come of repairs behind the mark are those without it, behind the mark. -/
theorem repaired?_behind_mark (h : source.head? ≠ some '\ufeff') (cursor : Cursor) (k : Nat) :
    repaired? cursor ('\ufeff' :: source) k = (repaired? cursor source k).map ('\ufeff' :: ·) ∧
      ∀ text, repaired? cursor source k = some text → text.head? ≠ some '\ufeff' := by
  induction k with
  | zero => exact ⟨rfl, fun text htext => Option.some.inj htext ▸ h⟩
  | succ k ih =>
      obtain ⟨hmark, hhead⟩ := ih
      rw [repaired?, repaired?, hmark]
      cases hk : repaired? cursor source k with
      | none => exact ⟨rfl, fun _ htext => by cases htext⟩
      | some text =>
          have htext := hhead text hk
          rw [Option.map_some, Option.bind_some, Option.bind_some]
          exact ⟨mended?_behind_mark htext cursor, fun text' => head?_mended?_ne htext⟩

/-- The load behind the mark, with whatever of the document two cursors have in common. -/
theorem load_behind_mark {β : Type} (f : Document → β) (h : source.head? ≠ some '\ufeff')
    (hcap : 0 < cap) (hf : ∀ text, (ofText text cursor').map f = (ofText text cursor).map f) :
    ((load ('\ufeff' :: source) cursor' cap).map f).mapError LoadError.bare =
      ((load source cursor cap).map f).mapError LoadError.bare := by
  have hrepaired : ∀ {k text}, repaired? cursor source k = some text →
      repaired? cursor' ('\ufeff' :: source) k = some ('\ufeff' :: text) ∧
        text.head? ≠ some '\ufeff' := by
    intro k text hk
    obtain ⟨hmark, hhead⟩ := repaired?_behind_mark h cursor k
    exact ⟨by rw [repaired?_cursor cursor' cursor, hmark, hk]; rfl, hhead text hk⟩
  have herror : ∀ {text d}, ofText text cursor = .error d → ofText text cursor' = .error d := by
    intro text d hread
    have hsame := hf text
    rw [hread] at hsame
    exact map_eq_error hsame
  rcases load_cases source cursor hcap with
    ⟨k, hk, hsettled⟩ | ⟨text, d, patch, htext, hread, hpatch, hlimit⟩
  · generalize load source cursor cap = result at hsettled
    cases hsettled with
    | @loaded text document htext hread =>
        obtain ⟨htext', hhead⟩ := hrepaired htext
        have hsame := hf ('\ufeff' :: text)
        rw [ofText_ok_behind_mark hhead hread] at hsame
        obtain ⟨document', hread', hf'⟩ := map_eq_ok hsame
        rw [(Settled.loaded htext' hread').load_eq (Or.inr hk)]
        exact congrArg Except.ok hf'
    | @refused text d htext hread hpatch =>
        obtain ⟨htext', hhead⟩ := hrepaired htext
        obtain ⟨d', hread', hbare, hpatch'⟩ := of?_error_behind_mark hhead hread
        rw [hpatch] at hpatch'
        rw [(Settled.refused htext' (herror hread') hpatch').load_eq (Or.inr hk)]
        exact congrArg (fun d => Except.error (LoadError.unrepairable d)) hbare
  · obtain ⟨htext', hhead⟩ := hrepaired htext
    obtain ⟨d', hread', hbare, hpatch'⟩ := of?_error_behind_mark hhead hread
    rw [hpatch] at hpatch'
    rw [load_eq_limitExceeded hcap htext' (herror hread') hpatch', hlimit]
    exact congrArg (fun d => Except.error (LoadError.limitExceeded cap d)) hbare

end Document

/-! ### The default cursor -/

theorem dropReturn_cons {c : Char} (hc : c ≠ '\r') (line : List Char) :
    dropReturn (c :: line) = c :: dropReturn line := by
  cases line with
  | nil => simp [dropReturn, hc]
  | cons d line =>
      unfold dropReturn
      rw [List.getLast?_cons_cons, List.dropLast_cons_cons]
      split_ifs <;> rfl

/-- The mark is a character of the first line. -/
theorem textLines_behind_mark (text : List Char) :
    textLines ('\ufeff' :: text) =
      ('\ufeff' :: (textLines text).headD []) :: (textLines text).tail := by
  by_cases hfeed : '\n' ∈ text
  · obtain ⟨line, rest, rfl, hline⟩ := List.eq_append_cons_of_mem hfeed
    have hmark : '\n' ∉ '\ufeff' :: line := by simpa using hline
    rw [← List.cons_append, textLines_feed hmark, textLines_feed hline,
      dropReturn_cons (by decide)]
    rfl
  · have hmark : '\n' ∉ '\ufeff' :: text := by simpa using hfeed
    rw [textLines_of_not_mem hmark, textLines_of_not_mem hfeed, if_neg (by simp)]
    split_ifs with hempty
    · rw [hempty]
      rfl
    · rfl

/-- The default cursor counts the mark if the text has only one line. -/
theorem Cursor.endOf_behind_mark (text : List Char) :
    endOf ('\ufeff' :: text) =
      if (textLines text).length ≤ 1 then ⟨0, (endOf text).column + 1⟩ else endOf text := by
  have hmark := textLines_behind_mark text
  cases htext : textLines text with
  | nil =>
      rw [htext] at hmark
      simp [endOf, hmark, htext, origin]
  | cons line lines =>
      rw [htext] at hmark
      rcases List.eq_nil_or_concat lines with rfl | ⟨before, last, rfl⟩
      · simp [endOf, hmark, htext]
      · rw [List.concat_eq_append] at htext hmark ⊢
        rw [if_neg (by simp), endOf_of_textLines (line :: before) htext,
          endOf_of_textLines (('\ufeff' :: line) :: before) hmark]
        rfl

/-! ### Completion -/

namespace Completion

/-- What becomes of a request without a cursor. -/
def atEnd (catalogs : Catalogs) (disk : Disk) (text : List Char) (cap : Nat) :
    Except LoadError (Completion × Catalogs) :=
  run catalogs disk text (CompletionRequest.place ⟨text, none, none⟩) cap

variable {text : List Char} {cap : Nat}

/-- All that a request needs of the text is its document. -/
theorem exists_run_eq_map (catalogs : Catalogs) (disk : Disk) :
    ∃ f : Document → Completion × Catalogs, (∀ document, (f document).1.document = document) ∧
      ∀ text cursor cap, run catalogs disk text cursor cap =
        (Document.load text cursor cap).map f := by
  refine ⟨fun document =>
    let context := Context.classify document.trail catalogs.directives catalogs.modules
    let found := Candidate.collect context catalogs disk (Context.typed document.trail)
    let crash := context.argumentsOf.bind (catalogs.parameters.crash? disk)
    (⟨document, context, found.1, crash⟩, found.2), fun _ => rfl, fun text cursor cap => ?_⟩
  unfold run
  cases Document.load text cursor cap <;> rfl

theorem run_behind_mark (catalogs : Catalogs) (disk : Disk) (h : text.head? ≠ some '\ufeff')
    (hcap : 0 < cap) (cursor : Cursor) :
    (run catalogs disk ('\ufeff' :: text) cursor cap).mapError LoadError.bare =
      (run catalogs disk text cursor cap).mapError LoadError.bare := by
  obtain ⟨f, -, hrun⟩ := exists_run_eq_map catalogs disk
  rw [hrun, hrun]
  exact Document.load_behind_mark f h hcap fun _ => rfl

theorem run_root (catalogs : Catalogs) (disk : Disk) (text : List Char) (cursor : Cursor)
    (cap : Nat) :
    (run catalogs disk text cursor cap).map (·.1.document.root) =
      (Document.load text cursor cap).map Document.root := by
  obtain ⟨f, hdocument, hrun⟩ := exists_run_eq_map catalogs disk
  rw [hrun]
  cases Document.load text cursor cap with
  | error e => rfl
  | ok document => exact congrArg (fun document => Except.ok document.root) (hdocument document)

/-- A request for a text that starts with a byte order mark, at whatever cursor, comes to the same
as for the text without it: the same document, context and candidates, or the same kind of error in
the same line and column. Without a cursor this holds if the text has at least two lines. On a
single line the mark counts as a column, and the request comes to what it does one column behind the
end of the text: the error or the root of the document is still the same. -/
theorem atEnd_behind_mark (catalogs : Catalogs) (disk : Disk) (h : text.head? ≠ some '\ufeff')
    (hcap : 0 < cap) :
    (∀ cursor, (run catalogs disk ('\ufeff' :: text) cursor cap).mapError LoadError.bare =
      (run catalogs disk text cursor cap).mapError LoadError.bare) ∧
    (1 < (textLines text).length →
      (atEnd catalogs disk ('\ufeff' :: text) cap).mapError LoadError.bare =
        (atEnd catalogs disk text cap).mapError LoadError.bare) ∧
    ((textLines text).length ≤ 1 →
      (atEnd catalogs disk ('\ufeff' :: text) cap).mapError LoadError.bare =
        (run catalogs disk text ⟨0, (Cursor.endOf text).column + 1⟩ cap).mapError
          LoadError.bare) ∧
    ((atEnd catalogs disk ('\ufeff' :: text) cap).map (·.1.document.root)).mapError
        LoadError.bare =
      ((atEnd catalogs disk text cap).map (·.1.document.root)).mapError LoadError.bare := by
  have hrun := run_behind_mark catalogs disk h hcap
  have hplace : ∀ text : List Char, CompletionRequest.place ⟨text, none, none⟩ =
      Cursor.endOf text := fun _ => rfl
  refine ⟨hrun, fun hlines => ?_, fun hline => ?_, ?_⟩
  · rw [atEnd, hrun, hplace, Cursor.endOf_behind_mark, if_neg (Nat.not_le_of_lt hlines)]
    rfl
  · rw [atEnd, hrun, hplace, Cursor.endOf_behind_mark, if_pos hline]
  · rw [atEnd, atEnd, run_root, run_root]
    exact Document.load_behind_mark Document.root h hcap fun text => Document.ofText_root text _ _

/-- Two lines, the second with an open quote that a repair closes. -/
theorem atEnd_behind_mark_open_quote :
    "- a\n- 'b".toList.head? ≠ some '\ufeff' ∧ 1 < (textLines "- a\n- 'b".toList).length ∧
      (atEnd default ⟨[], []⟩ ('\ufeff' :: "- a\n- 'b".toList) 1).mapError LoadError.bare =
        (atEnd default ⟨[], []⟩ "- a\n- 'b".toList 1).mapError LoadError.bare := by
  have hhead : "- a\n- 'b".toList.head? ≠ some '\ufeff' := by decide
  have hlines : 1 < (textLines "- a\n- 'b".toList).length := by decide
  exact ⟨hhead, hlines, (atEnd_behind_mark default ⟨[], []⟩ hhead (by decide)).2.1 hlines⟩

/-- On a single line the item at its end is not found behind a mark. -/
theorem atEnd_misses_item :
    ¬∀ text : List Char, nul ∉ text → text.head? ≠ some '\ufeff' →
      ∀ (catalogs : Catalogs) (disk : Disk) (cap : Nat), 0 < cap →
        (atEnd catalogs disk ('\ufeff' :: text) cap).mapError LoadError.bare =
          (atEnd catalogs disk text cap).mapError LoadError.bare := by
  intro h
  have htrail : ∀ {text : List Char} {n : Nat},
      (Document.ofText text (Cursor.endOf text)).map (·.trail.length) = .ok n →
      ((atEnd default ⟨[], []⟩ text 1).mapError LoadError.bare).map
        (·.1.document.trail.length) = .ok n := by
    intro text n hlength
    obtain ⟨document, hread, rfl⟩ := map_eq_ok hlength
    have hsource : Document.repaired? (Cursor.endOf text) text 0 = some text := rfl
    have hload := (Document.Settled.loaded hsource hread).load_eq (Or.inr (Nat.zero_le 1))
    have hplace : CompletionRequest.place ⟨text, none, none⟩ = Cursor.endOf text := rfl
    rw [atEnd, hplace, run, hload]
    rfl
  have hitem := @htrail "- na".toList 2 (by decide +kernel)
  have hmark := @htrail ('\ufeff' :: "- na".toList) 0 (by decide +kernel)
  rw [h "- na".toList (by decide) (by decide) default ⟨[], []⟩ 1 (by decide), hitem] at hmark
  cases hmark

end Completion

end Playbook
