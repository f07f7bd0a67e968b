import Playbook.Proofs.StreamOfText
import Playbook.Repair

/-!
Loading a text with repairs. The texts that the loop goes through are the source after no repair,
after one, after two and so on; loading yields what reading the first of them says that needs no
repair or admits none. Each repair puts in one character: a colon, or the quote that opens a scalar
without an end.
-/

namespace Playbook

section Loop

variable {σ ρ : Type} [Nonempty ρ] {step : σ → σ ⊕ ρ} {s s' : σ} {result : ρ}

theorem repeatUntil_next (h : step s = .inl s') :
    repeatUntil step s = repeatUntil step s' := by
  unfold repeatUntil
  rw [repeatM_eq_of_monadTail, repeatM.body, h]
  rfl

theorem repeatUntil_result (h : step s = .inr result) : repeatUntil step s = result := by
  unfold repeatUntil
  rw [repeatM_eq_of_monadTail, repeatM.body, h]
  rfl

end Loop

namespace Reader

/-- The character at a place is found in the text under the place's index. -/
theorem Leads.getElem?_index {text : List Char} {r : Reader} {c : Char}
    (h : (start text).Leads r) (hc : c ≠ nul) (hpeek : r.peek = c) :
    text[r.mark.index]? = some c := by
  have hrest := h.rest_eq
  rw [← Nat.add_zero r.mark.index, ← List.getElem?_drop, ← hrest]
  cases hr : r.rest with
  | nil =>
      rw [peek, hr] at hpeek
      exact absurd hpeek.symm hc
  | cons c' rest =>
      rw [peek, hr] at hpeek
      cases hpeek
      rfl

end Reader

/-! ### What a repair puts in -/

/-- Reading a text fails with `d` because the scalar that the quote `c` opens has no end. -/
def Diagnostic.Unclosed (text : List Char) (d : Diagnostic) (c : Char) : Prop :=
  ∃ double quote, (Reader.start text).Leads quote ∧ quote.peek = c ∧
    c = (if double then '"' else '\'') ∧ readQuoted double quote = .error d ∧
    d.contextMark = some quote.mark ∧ d.problem.isUnexpectedEnd = true

/-- The quote that opens the scalar is found in the text under the mark of the context. -/
theorem Diagnostic.Unclosed.getElem?_context {text : List Char} {d : Diagnostic} {c : Char}
    (h : d.Unclosed text c) : ∃ m, d.contextMark = some m ∧ text[m.index]? = some c := by
  obtain ⟨double, quote, hleads, hpeek, hc, -, hmark, -⟩ := h
  have hnul : c ≠ nul := by
    rw [hc]
    cases double <;> decide
  exact ⟨quote.mark, hmark, hleads.getElem?_index hnul hpeek⟩

theorem Reader.Blames.unclosed {text : List Char} {d : Diagnostic}
    (h : (Reader.start text).Blames d) (hquoted : d.context.any Activity.isQuoted = true)
    (hend : d.problem.isUnexpectedEnd = true) : ∃ c, d.Unclosed text c := by
  obtain ⟨activity, hcontext, hactivity⟩ := (Option.any_eq_true ..).mp hquoted
  have hquote : activity = .quoted := by
    cases activity with
    | quoted => rfl
    | other words => exact absurd hcontext (h.other words)
    | _ => cases hactivity
  obtain ⟨double, quote, hleads, hpeek, hread⟩ := h.quoted (hcontext.trans (by rw [hquote]))
  obtain ⟨_, -, _, _, hform⟩ := readQuoted_faults double quote d hread
  have hmark : d.contextMark = some quote.mark := by rw [hform]; rfl
  exact ⟨_, double, quote, hleads, hpeek, rfl, hread, hmark, hend⟩

namespace Patch

theorem closeQuote?_insert {text : List Char} {context problem : Nat} {patch : Patch}
    (h : closeQuote? text context problem = some patch) :
    text[context]? = some patch.insert := by
  obtain ⟨quote, hquote, rfl⟩ := Option.map_eq_some_iff.mp h
  exact hquote

/-- A repair puts in a colon, or closes a scalar with the quote that opens it. -/
theorem insert_of_blames {text : List Char} {d : Diagnostic} {patch : Patch}
    (hd : d.stage = .tokens → (Reader.start text).Blames d) (h : of? text d = some patch) :
    patch.insert = ':' ∨ d.Unclosed text patch.insert := by
  unfold of? at h
  dsimp only at h
  split_ifs at h with hstage hcolon hquoted hkey
  · cases h
    exact Or.inl rfl
  · simp only [bne_iff_ne, ne_eq, not_not] at hstage
    obtain ⟨hquoted, hend⟩ := Bool.and_eq_true_iff.mp hquoted
    obtain ⟨c, hunclosed⟩ := (hd hstage).unclosed hquoted hend
    obtain ⟨m, hmark, hchar⟩ := hunclosed.getElem?_context
    have hlt : m.index < text.length := (List.getElem?_eq_some_iff.mp hchar).1
    have hinsert := closeQuote?_insert h
    rw [hmark, Option.map_some, Option.getD_some, Nat.min_eq_left (Nat.le_of_lt hlt), hchar,
      Option.some.injEq] at hinsert
    exact Or.inr (hinsert ▸ hunclosed)
  · cases h
    exact Or.inl rfl

theorem apply_sublist (patch : Patch) (text : List Char) : text.Sublist (patch.apply text) := by
  have happly : (text.take patch.index ++ text.drop patch.index).Sublist (patch.apply text) :=
    (List.Sublist.refl _).append (List.sublist_cons_self _ _)
  rwa [List.take_append_drop] at happly

theorem apply_perm (patch : Patch) (text : List Char) :
    (patch.apply text).Perm (patch.insert :: text) := by
  have hmiddle : (patch.apply text).Perm
      (patch.insert :: (text.take patch.index ++ text.drop patch.index)) := List.perm_middle
  rwa [List.take_append_drop] at hmiddle

end Patch

namespace Document

variable {cursor : Cursor} {source text : List Char} {k cap : Nat}

/-- A diagnostic of the tokens is the one that reading them ends with. -/
theorem ofText_fault {d : Diagnostic} (h : ofText text cursor = .error d)
    (hstage : d.stage = .tokens) : (Token.ofText text).fault = some d := by
  rcases ofText_faults h with hfault | ⟨hnodes, -⟩ | ⟨hnodes, -⟩ | hvalues
  · rcases Event.ofText_faults hfault with hscan | ⟨hevents, -⟩
    · exact hscan
    · cases hstage.symm.trans hevents
  · cases hstage.symm.trans hnodes
  · cases hstage.symm.trans hnodes
  · cases hstage.symm.trans hvalues

theorem ofText_blames {d : Diagnostic} (h : ofText text cursor = .error d)
    (hstage : d.stage = .tokens) : (Reader.start text).Blames d :=
  Token.ofText_faults (ofText_fault h hstage)

/-! ### The texts of the loop -/

/-- The text after the repair that an outcome of reading it calls for, if there is one. -/
def mended? (text : List Char) : Except Diagnostic Document → Option (List Char)
  | .ok _ => none
  | .error d => (Patch.of? text d).map (·.apply text)

theorem mended?_eq_some {outcome : Except Diagnostic Document} {text' : List Char}
    (h : mended? text outcome = some text') :
    ∃ d patch, outcome = .error d ∧ Patch.of? text d = some patch ∧ text' = patch.apply text := by
  cases outcome with
  | ok document => cases h
  | error d =>
      obtain ⟨patch, hpatch, rfl⟩ := Option.map_eq_some_iff.mp h
      exact ⟨d, patch, rfl, hpatch, rfl⟩

/-- The text after `k` repairs, if each of the texts before it needs one and has one. -/
def repaired? (cursor : Cursor) (source : List Char) : Nat → Option (List Char)
  | 0 => some source
  | k + 1 => (repaired? cursor source k).bind fun text => mended? text (ofText text cursor)

theorem repaired?_succ {d : Diagnostic} {patch : Patch}
    (h : repaired? cursor source k = some text) (hread : ofText text cursor = .error d)
    (hpatch : Patch.of? text d = some patch) :
    repaired? cursor source (k + 1) = some (patch.apply text) := by
  simp only [repaired?, h, Option.bind_some, hread, mended?, hpatch, Option.map_some]

theorem repaired?_succ_eq_some (h : repaired? cursor source (k + 1) = some text) :
    ∃ earlier d patch, repaired? cursor source k = some earlier ∧
      ofText earlier cursor = .error d ∧ Patch.of? earlier d = some patch ∧
      text = patch.apply earlier := by
  obtain ⟨earlier, hearlier, h⟩ := Option.bind_eq_some_iff.mp h
  obtain ⟨d, patch, hread, hpatch, rfl⟩ := mended?_eq_some h
  exact ⟨earlier, d, patch, hearlier, hread, hpatch, rfl⟩

/-- A repaired text holds the source in order and one character more for each repair. -/
theorem repaired?_added (h : repaired? cursor source k = some text) :
    ∃ added : List Char, added.length = k ∧ source.Sublist text ∧ text.Perm (added ++ source) ∧
      ∀ c ∈ added, c = ':' ∨ ∃ j < k, ∃ earlier d, repaired? cursor source j = some earlier ∧
        ofText earlier cursor = .error d ∧ d.Unclosed earlier c := by
  induction k generalizing text with
  | zero =>
      cases h
      exact ⟨[], rfl, .refl _, .refl _, by simp⟩
  | succ k ih =>
      obtain ⟨earlier, d, patch, hearlier, hread, hpatch, rfl⟩ := repaired?_succ_eq_some h
      obtain ⟨added, hlength, hsublist, hperm, hadded⟩ := ih hearlier
      refine ⟨patch.insert :: added, by simp [hlength], hsublist.trans (patch.apply_sublist _),
        (patch.apply_perm _).trans (hperm.cons _), fun c hc => ?_⟩
      rcases List.mem_cons.mp hc with rfl | hc
      · refine (Patch.insert_of_blames (ofText_blames hread) hpatch).imp_right fun hquote => ?_
        exact ⟨k, Nat.lt_succ_self k, earlier, d, hearlier, hread, hquote⟩
      · refine (hadded c hc).imp_right ?_
        rintro ⟨j, hj, hquote⟩
        exact ⟨j, Nat.lt_succ_of_lt hj, hquote⟩

/-! ### Running the loop -/

/-- Loading comes to the text after `k` repairs unless it is given fewer. -/
theorem load_eq_repeatUntil (hk : cap = 0 ∨ k ≤ cap)
    (h : repaired? cursor source k = some text) :
    load source cursor cap = repeatUntil (loadStep cursor cap fun _ => false) (k, text) := by
  induction k generalizing text with
  | zero =>
      cases h
      rfl
  | succ k ih =>
      obtain ⟨earlier, d, patch, hearlier, hread, hpatch, rfl⟩ := repaired?_succ_eq_some h
      rw [ih (hk.imp_right Nat.le_of_succ_le) hearlier]
      refine repeatUntil_next ?_
      have hcap : (cap != 0 && decide (cap ≤ k)) = false := by
        rcases hk with rfl | hk
        · rfl
        · simp [Nat.lt_of_succ_le hk]
      simp [loadStep, hread, afterReading, hpatch, hcap]

/-- The text after `k` repairs settles the result: it can be read, or it cannot be repaired. -/
inductive Settled (cursor : Cursor) (source : List Char) (k : Nat) :
    Except LoadError Document → Prop
  | loaded {text : List Char} {document : Document} (h : repaired? cursor source k = some text)
      (hread : ofText text cursor = .ok document) : Settled cursor source k (.ok document)
  | refused {text : List Char} {d : Diagnostic} (h : repaired? cursor source k = some text)
      (hread : ofText text cursor = .error d) (hpatch : Patch.of? text d = none) :
      Settled cursor source k (.error (.unrepairable d))

theorem Settled.load_eq {result : Except LoadError Document} (hk : cap = 0 ∨ k ≤ cap)
    (h : Settled cursor source k result) : load source cursor cap = result := by
  cases h with
  | loaded h hread =>
      rw [load_eq_repeatUntil hk h]
      exact repeatUntil_result (by simp [loadStep, hread, afterReading])
  | refused h hread hpatch =>
      rw [load_eq_repeatUntil hk h]
      exact repeatUntil_result (by simp [loadStep, hread, afterReading, hpatch])

theorem load_eq_limitExceeded {d : Diagnostic} {patch : Patch} (hcap : 0 < cap)
    (h : repaired? cursor source cap = some text) (hread : ofText text cursor = .error d)
    (hpatch : Patch.of? text d = some patch) :
    load source cursor cap = .error (.limitExceeded cap d) := by
  rw [load_eq_repeatUntil (Or.inr (Nat.le_refl cap)) h]
  exact repeatUntil_result
    (by simp [loadStep, hread, afterReading, hpatch, Nat.ne_of_gt hcap])

/-- One of the texts settles the result, or the last one that is allowed could still be repaired. -/
theorem settled_or_repairable (cursor : Cursor) (source : List Char) (cap : Nat) :
    (∃ k ≤ cap, ∃ result, Settled cursor source k result) ∨
      ∃ text d patch, repaired? cursor source cap = some text ∧
        ofText text cursor = .error d ∧ Patch.of? text d = some patch := by
  have hround : ∀ k ≤ cap, ∀ text, repaired? cursor source k = some text →
      (∃ k ≤ cap, ∃ result, Settled cursor source k result) ∨
        ∃ d patch, ofText text cursor = .error d ∧ Patch.of? text d = some patch := by
    intro k hk text h
    cases hread : ofText text cursor with
    | ok document => exact Or.inl ⟨k, hk, _, .loaded h hread⟩
    | error d =>
        cases hpatch : Patch.of? text d with
        | none => exact Or.inl ⟨k, hk, _, .refused h hread hpatch⟩
        | some patch => exact Or.inr ⟨d, patch, rfl, hpatch⟩
  have hrun : ∀ k ≤ cap, (∃ k ≤ cap, ∃ result, Settled cursor source k result) ∨
      ∃ text, repaired? cursor source k = some text := by
    intro k
    induction k with
    | zero => exact fun _ => Or.inr ⟨source, rfl⟩
    | succ k ih =>
        intro hk
        refine (ih (Nat.le_of_succ_le hk)).elim Or.inl ?_
        rintro ⟨text, h⟩
        refine (hround k (Nat.le_of_succ_le hk) text h).imp_right ?_
        rintro ⟨d, patch, hread, hpatch⟩
        exact ⟨_, repaired?_succ h hread hpatch⟩
  refine (hrun cap (Nat.le_refl cap)).elim Or.inl ?_
  rintro ⟨text, h⟩
  refine (hround cap (Nat.le_refl cap) text h).imp_right ?_
  rintro ⟨d, patch, hread, hpatch⟩
  exact ⟨text, d, patch, h, hread, hpatch⟩

/-- A load has three ends: a text is read, a text cannot be repaired, or no repair is left. -/
theorem load_cases (source : List Char) (cursor : Cursor) (hcap : 0 < cap) :
    (∃ k ≤ cap, Settled cursor source k (load source cursor cap)) ∨
      ∃ text d patch, repaired? cursor source cap = some text ∧
        ofText text cursor = .error d ∧ Patch.of? text d = some patch ∧
        load source cursor cap = .error (.limitExceeded cap d) := by
  rcases settled_or_repairable cursor source cap with
    ⟨k, hk, result, h⟩ | ⟨text, d, patch, h, hread, hpatch⟩
  · rw [h.load_eq (Or.inr hk)]
    exact Or.inl ⟨k, hk, h⟩
  · exact Or.inr ⟨text, d, patch, h, hread, hpatch, load_eq_limitExceeded hcap h hread hpatch⟩

/-- Loading a text with at most `cap` repairs. It yields a document exactly if one of the texts that
come of up to `cap` repairs can be read, it fails for good exactly if one of them can neither be
read nor repaired, and it gives up exactly if the text after `cap` repairs needs one more. Each text
is the source with one character more for each repair, a colon or a quote that opens a scalar
without an end. A load that does not give up is the same with more repairs allowed. -/
theorem load_semantics (source : List Char) (cursor : Cursor) {cap : Nat} (hcap : 0 < cap) :
    (∀ document, load source cursor cap = .ok document ↔
      ∃ k ≤ cap, ∃ text, repaired? cursor source k = some text ∧
        ofText text cursor = .ok document) ∧
    (∀ d, load source cursor cap = .error (.unrepairable d) ↔
      ∃ k ≤ cap, ∃ text, repaired? cursor source k = some text ∧
        ofText text cursor = .error d ∧ Patch.of? text d = none) ∧
    (∀ attempts d, load source cursor cap = .error (.limitExceeded attempts d) ↔
      attempts = cap ∧ ∃ text, repaired? cursor source cap = some text ∧
        ofText text cursor = .error d ∧ (Patch.of? text d).isSome) ∧
    (∀ attempts d, load source cursor cap ≠ .error (.deadlineExceeded attempts d)) ∧
    (∀ k text, repaired? cursor source k = some text → ∃ added : List Char, added.length = k ∧
      source.Sublist text ∧ text.Perm (added ++ source) ∧
      ∀ c ∈ added, c = ':' ∨ ∃ j < k, ∃ earlier d, repaired? cursor source j = some earlier ∧
        ofText earlier cursor = .error d ∧ d.Unclosed earlier c) ∧
    ∀ cap', cap' = 0 ∨ cap ≤ cap' →
      (∀ attempts d, load source cursor cap ≠ .error (.limitExceeded attempts d)) →
      load source cursor cap' = load source cursor cap := by
  have hcases := load_cases source cursor hcap
  refine ⟨fun document => ⟨fun h => ?_, ?_⟩, fun d => ⟨fun h => ?_, ?_⟩,
    fun attempts d => ⟨fun h => ?_, ?_⟩, fun attempts d h => ?_, fun k text => repaired?_added,
    fun cap' hcap' hlimit => ?_⟩
  · rw [h] at hcases
    rcases hcases with ⟨k, hk, hsettled⟩ | ⟨_, _, _, _, _, _, hlimit⟩
    · cases hsettled with
      | loaded htext hread => exact ⟨k, hk, _, htext, hread⟩
    · cases hlimit
  · rintro ⟨k, hk, text, htext, hread⟩
    exact (Settled.loaded htext hread).load_eq (Or.inr hk)
  · rw [h] at hcases
    rcases hcases with ⟨k, hk, hsettled⟩ | ⟨_, _, _, _, _, _, hlimit⟩
    · cases hsettled with
      | refused htext hread hpatch => exact ⟨k, hk, _, htext, hread, hpatch⟩
    · cases hlimit
  · rintro ⟨k, hk, text, htext, hread, hpatch⟩
    exact (Settled.refused htext hread hpatch).load_eq (Or.inr hk)
  · rw [h] at hcases
    rcases hcases with ⟨k, hk, hsettled⟩ | ⟨text, d', patch, htext, hread, hpatch, hlimit⟩
    · cases hsettled
    · cases hlimit
      exact ⟨rfl, text, htext, hread, by simp [hpatch]⟩
  · rintro ⟨rfl, text, htext, hread, hpatch⟩
    obtain ⟨patch, hpatch⟩ := Option.isSome_iff_exists.mp hpatch
    exact load_eq_limitExceeded hcap htext hread hpatch
  · rw [h] at hcases
    rcases hcases with ⟨k, hk, hsettled⟩ | ⟨_, _, _, _, _, _, hlimit⟩
    · cases hsettled
    · cases hlimit
  · rcases hcases with ⟨k, hk, hsettled⟩ | ⟨_, d, _, _, _, _, h⟩
    · exact hsettled.load_eq (hcap'.imp_right (Nat.le_trans hk))
    · exact absurd h (hlimit cap d)

/-- A scalar in quotes that has no end yet is read after one repair. -/
theorem load_semantics_open_quote :
    0 < 1 ∧ ∃ document, load "a: 'b".toList .origin 1 = .ok document := by
  obtain ⟨document, hread⟩ : ∃ document, ofText "a: 'b'".toList .origin = .ok document :=
    exists_ok_of_isOk (by decide +kernel)
  have hrepaired : repaired? .origin "a: 'b".toList 1 = some "a: 'b'".toList := by decide +kernel
  exact ⟨by decide, document, ((load_semantics _ _ (by decide)).1 document).mpr
    ⟨1, Nat.le_refl 1, _, hrepaired, hread⟩⟩

end Document

end Playbook
