import Playbook.Proofs.ParseOutcome

/-!
Streams that stay in use behind an error. A call that fails leaves the stream where it was when the
error was found, and whoever asks on is answered from there. So looking ahead is hidden by what is
handed out only up to the first error: a look that fails uses the error up, as taking would.
-/

namespace Playbook

/-- How a stream answers that can be asked on and on. -/
structure Live (α σ : Type) where
  peek : EStateM Diagnostic σ (Option α)
  next : EStateM Diagnostic σ (Option α)

namespace Live

variable {α σ : Type} {live : Live α σ} {s s' : σ} {found : Option α}

def call (live : Live α σ) : Call → EStateM Diagnostic σ (Option α)
  | .peek => live.peek
  | .next => live.next

/-- The answers to a row of calls, one for each of them. -/
def answers (live : Live α σ) : σ → List Call → List (Except Diagnostic (Option α))
  | _, [] => []
  | s, call :: calls =>
      match live.call call s with
      | .ok found s' => .ok found :: answers live s' calls
      | .error d s' => .error d :: answers live s' calls

/-- The stream behind a row of calls. -/
def after (live : Live α σ) : σ → List Call → σ
  | s, [] => s
  | s, call :: calls =>
      match live.call call s with
      | .ok _ s' => after live s' calls
      | .error _ s' => after live s' calls

/-- The answers by which something is handed out or an error is told. -/
def told (live : Live α σ) : σ → List Call → List (Except Diagnostic (Option α))
  | _, [] => []
  | s, .peek :: calls =>
      match live.peek s with
      | .ok _ s' => told live s' calls
      | .error d s' => .error d :: told live s' calls
  | s, .next :: calls =>
      match live.next s with
      | .ok found s' => .ok found :: told live s' calls
      | .error d s' => .error d :: told live s' calls

/-- The stream as one that is left at the first error. -/
def source (live : Live α σ) : Source α σ where
  peek := outcome live.peek
  next := outcome live.next

theorem source_call (live : Live α σ) (call : Call) :
    live.source.call call = outcome (live.call call) := by
  cases call <;> rfl

end Live

/-- A row of answers up to the first error. -/
def upToError {α : Type} : List (Except Diagnostic α) → List (Except Diagnostic α)
  | [] => []
  | .ok a :: answers => .ok a :: upToError answers
  | .error d :: _ => [.error d]

theorem upToError_isPrefix {α : Type} (answers : List (Except Diagnostic α)) :
    upToError answers <+: answers := by
  induction answers with
  | nil => exact List.prefix_rfl
  | cons answer answers ih =>
      cases answer with
      | error d => exact ⟨answers, rfl⟩
      | ok a => exact List.cons_prefix_cons.mpr ⟨rfl, ih⟩

theorem getElem?_upToError {α : Type} {answers : List (Except Diagnostic α)} {i : Nat}
    (hi : i < (upToError answers).length) : (upToError answers)[i]? = answers[i]? := by
  obtain ⟨behind, hbehind⟩ := upToError_isPrefix answers
  conv_rhs => rw [← hbehind, List.getElem?_append_left hi]

namespace Live

variable {α σ : Type} {live : Live α σ} {s s' : σ} {found : Option α}

/-- Up to the first error the stream answers as one that is left there. -/
theorem upToError_answers (live : Live α σ) (s : σ) (calls : List Call) :
    upToError (live.answers s calls) = live.source.answers s calls := by
  induction calls generalizing s with
  | nil => rfl
  | cons call calls ih =>
      rw [answers, Source.answers, source_call, outcome]
      cases live.call call s with
      | ok found s' => exact congrArg _ (ih s')
      | error d s' => rfl

/-- A look that finds something shows what taking hands out. A second one finds and leaves all as it
is, and taking after it is taking without it. A look that fails tells the error that taking tells,
and leaves the stream as taking does. -/
structure Lawful (live : Live α σ) : Prop where
  answer : ∀ {s s' found}, live.peek s = .ok found s' → ∃ s'', live.next s = .ok found s''
  again : ∀ {s s' found}, live.peek s = .ok found s' → live.peek s' = .ok found s'
  next : ∀ {s s' found}, live.peek s = .ok found s' → live.next s' = live.next s
  fails : ∀ {s s' d}, live.peek s = .error d s' ↔ live.next s = .error d s'

/-- It is enough that to take is to look and then to drop what was found. -/
theorem lawful_of_look (drop : σ → σ)
    (hnext : live.next = live.peek >>= fun found => modify drop >>= fun _ => pure found)
    (hagain : ∀ {s s' found}, live.peek s = .ok found s' → live.peek s' = .ok found s') :
    live.Lawful := by
  have hok : ∀ {s s' found}, live.peek s = .ok found s' → live.next s = .ok found (drop s') := by
    intro s s' found hpeek
    rw [hnext]
    change EStateM.bind live.peek _ s = _
    rw [EStateM.bind, hpeek]
    rfl
  have herror : ∀ {s s' d}, live.peek s = .error d s' → live.next s = .error d s' := by
    intro s s' d hpeek
    rw [hnext]
    change EStateM.bind live.peek _ s = _
    rw [EStateM.bind, hpeek]
  refine ⟨fun hpeek => ⟨_, hok hpeek⟩, hagain, ?_, herror, ?_⟩
  · intro s s' found hpeek
    rw [hok hpeek, hok (hagain hpeek)]
  · intro hnext'
    rename_i s _ _
    cases hpeek : live.peek s with
    | ok found s₁ => cases (hok hpeek).symm.trans hnext'
    | error d₁ s₁ => exact (herror hpeek).symm.trans hnext'

namespace Lawful

theorem source (h : live.Lawful) : live.source.Lawful where
  answer s := by
    change Prod.fst <$> outcome live.peek s = Prod.fst <$> outcome live.next s
    unfold outcome
    cases hpeek : live.peek s with
    | ok found s' =>
        obtain ⟨s'', hnext⟩ := h.answer hpeek
        rw [hnext]
        rfl
    | error d s' => rw [h.fails.mp hpeek]
  again hpeek := outcome_eq_ok_iff.mpr (h.again (outcome_eq_ok_iff.mp hpeek))
  next {s s' found} hpeek := by
    change outcome live.next s' = outcome live.next s
    rw [outcome, outcome, h.next (outcome_eq_ok_iff.mp hpeek)]

theorem answers_nexts_of_peek (h : live.Lawful) (hpeek : live.peek s = .ok found s') (n : Nat) :
    live.answers s' (List.replicate n .next) = live.answers s (List.replicate n .next) := by
  cases n with
  | zero => rfl
  | succ n => simp only [List.replicate_succ, answers, call, h.next hpeek]

/-- What the stream hands out and tells is what it does if nothing is ever looked at. This holds
behind errors too, where a look that fails stands for the call that would have failed. -/
theorem told_eq (h : live.Lawful) (s : σ) (calls : List Call) :
    live.told s calls =
      live.answers s (List.replicate (live.told s calls).length .next) := by
  induction calls generalizing s with
  | nil => rfl
  | cons call calls ih =>
      cases call with
      | next =>
          cases hnext : live.next s with
          | ok found s' =>
              simpa [told, hnext, List.replicate_succ, answers, Live.call] using ih s'
          | error d s' =>
              simpa [told, hnext, List.replicate_succ, answers, Live.call] using ih s'
      | peek =>
          cases hpeek : live.peek s with
          | ok found s' =>
              rw [told, hpeek, ← h.answers_nexts_of_peek hpeek]
              exact ih s'
          | error d s' =>
              simpa [told, hpeek, List.replicate_succ, answers, Live.call, h.fails.mp hpeek]
                using ih s'

end Lawful

/-- What does not show in the answers of a stream: which items were looked at before they were
taken, and how often. -/
structure Transparent (live : Live α σ) (s : σ) (feed : Feed α) : Prop where
  lawful : live.Lawful
  /-- Up to the first error the answers are those of a list. -/
  answers : ∀ calls, upToError (live.answers s calls) = Feed.source.answers feed calls
  /-- Up to the first error a call is answered like the one that takes the next item if nothing is
  ever looked at. -/
  nexts : ∀ calls i, i < (upToError (live.answers s calls)).length →
    (live.answers s calls)[i]? =
      (live.answers s (List.replicate ((calls.take i).count .next + 1) .next))[
        (calls.take i).count .next]?
  /-- What is handed out and told, behind errors too, is so if nothing is ever looked at. -/
  told : ∀ calls, live.told s calls =
    live.answers s (List.replicate (live.told s calls).length .next)

theorem Lawful.transparent {feed : Feed α} (hlawful : live.Lawful)
    (h : live.source.Supplies s feed) : live.Transparent s feed := by
  have hanswers : ∀ calls, upToError (live.answers s calls) = Feed.source.answers feed calls := by
    intro calls
    rw [upToError_answers, h.answers_eq hlawful.source]
  refine ⟨hlawful, hanswers, fun calls i hi => ?_, hlawful.told_eq s⟩
  rw [← getElem?_upToError hi, hanswers]
  rw [hanswers] at hi
  have hnext := Feed.answers_nexts (List.getElem?_eq_getElem hi)
  rw [← hanswers] at hnext
  have hlt := (List.getElem?_eq_some_iff.mp hnext).1
  rw [← getElem?_upToError hlt, hnext, List.getElem?_eq_getElem hi]

end Live

/-! ### Tokens -/

namespace Scan

def live : Live Token TokenStream where
  peek := peek
  next := next

theorem live_source : live.source = TokenStream.source := by
  unfold Live.source TokenStream.source live
  simp only [funext outcome_peek, funext outcome_next]

/-- The stream without the token in front of its queue, if there is one. -/
def dropFront (s : TokenStream) : TokenStream :=
  { s with queue := s.queue.tail, taken := s.taken + (s.queue.take 1).length }

theorem live_lawful : live.Lawful := by
  refine Live.lawful_of_look dropFront ?_ ?_
  · funext s
    change EStateM.bind fill _ s = EStateM.bind (EStateM.bind fill _) _ s
    unfold EStateM.bind
    cases fill s with
    | error d s₁ => rfl
    | ok _ s₁ =>
        obtain ⟨reader, done, flowLevel, queue, taken, indent, indents, keyAllowed, keys⟩ := s₁
        cases queue <;> rfl
  · intro s s' found hpeek
    have hpeek' := outcome_eq_ok_iff.mpr hpeek
    rw [show outcome live.peek s = s.peek from outcome_peek s] at hpeek'
    exact outcome_eq_ok_iff.mp ((outcome_peek s').trans (TokenStream.source_lawful.again hpeek'))

end Scan

/-! ### Events -/

namespace Parse

def live : Live Event Parser where
  peek := peek
  next := next

theorem outcome_peek (p : Parser) : outcome peek p = match p.ready, p.state with
    | some event, _ => .ok (some event, p)
    | none, none => .ok (none, p)
    | none, some state => do
        let (event, p') ← outcome (step state) p
        return (some event, { p' with ready := some event }) := by
  unfold peek
  rw [outcome_bind, outcome_get, ok_bind]
  dsimp only
  cases p.ready with
  | some event => rfl
  | none =>
      cases p.state with
      | none => rfl
      | some state =>
          dsimp only
          rw [outcome_bind]
          rfl

/-- An event that has been looked at is the one that is shown again. -/
theorem peek_again {p p' : Parser} {found : Option Event} (h : peek p = .ok found p') :
    peek p' = .ok found p' := by
  rw [← outcome_eq_ok_iff, outcome_peek] at h ⊢
  split at h
  · rename_i hready
    cases h
    rw [hready]
  · rename_i hready hstate
    cases h
    rw [hready, hstate]
  · obtain ⟨⟨event, p₁⟩, -, h⟩ := bind_eq_ok_iff.mp h
    cases h
    rfl

theorem live_lawful : live.Lawful := Live.lawful_of_look _ rfl peek_again

theorem outcome_next (p : Parser) : outcome next p = do
    let (found, p') ← outcome peek p
    return (found, { p' with ready := none }) := by
  unfold next
  rw [outcome_bind]
  rfl

/-- Behind the last event the parser stays as it is. -/
theorem next_none {p p' : Parser} (h : outcome next p = .ok (none, p')) : p' = p := by
  obtain ⟨⟨found, p₁⟩, hpeek, h⟩ := bind_eq_ok_iff.mp ((outcome_next p).symm.trans h)
  cases h
  rw [outcome_peek] at hpeek
  split at hpeek
  · cases hpeek
  · rename_i hready _
    cases hpeek
    rw [← hready]
  · obtain ⟨⟨event, p₂⟩, -, hpeek⟩ := bind_eq_ok_iff.mp hpeek
    cases hpeek

namespace Matches

variable {α : Type} {a : α} {s : EventStream} {d : Diagnostic} {r : Except Diagnostic (α × Parser)}
  {r' : Except Diagnostic (α × EventStream)}

theorem of_ok (h : Matches r r') (hr : r' = .ok (a, s)) : ∃ p, r = .ok (a, p) ∧ p.Agrees s := by
  subst hr
  cases h with
  | ok h => exact ⟨_, rfl, h⟩

theorem of_error (h : Matches r r') (hr : r' = .error d) (hd : ¬ d.IsLost) : r = .error d := by
  subst hr
  cases h with
  | error => rfl
  | exhausted m m' => exact absurd (.inl ⟨rfl, rfl⟩) hd

end Matches

variable {p : Parser} {s : EventStream} {feed : Feed Event}

theorem live_matches (h : p.Agrees s) (call : Call) :
    Matches (live.source.call call p) (EventStream.source.call call s) := by
  cases call with
  | peek => exact peek_matches h
  | next => exact next_matches h

/-- The parser hands out what the machine does. -/
theorem supplies_of_agrees (hp : p.Agrees s) (h : EventStream.source.Supplies s feed)
    (hfault : ∀ d, feed.fault = some d → ¬ d.IsLost) : live.source.Supplies p feed := by
  induction h generalizing p with
  | fault h => exact .fault ((next_matches hp).of_error h (hfault _ rfl))
  | stop h hstop =>
      obtain ⟨p₁, hnext, hp₁⟩ := (next_matches hp).of_ok h
      obtain ⟨p₂, hnext₁, -⟩ := (next_matches hp₁).of_ok hstop
      obtain rfl := next_none hnext₁
      exact .stop hnext hnext₁
  | item h _ ih =>
      obtain ⟨p₁, hnext, hp₁⟩ := (next_matches hp).of_ok h
      exact .item hnext (ih hp₁ hfault)

end Parse

/-- Neither in the tokens nor in the events of a text does it show, up to the first error, which of
them were looked at before they were taken, and how often. Behind an error a look that failed stands
for the call that would have failed. -/
theorem ofText_transparent (text : List Char) :
    Scan.live.Transparent (.start text) (Token.ofText text) ∧
    Parse.live.Transparent (.start text) (Event.ofText text) := by
  have htokens := TokenStream.start_supplies text
  rw [← Scan.live_source] at htokens
  have hevents := EventStream.collect_supplies (EventStream.ofText_steady text)
    (EventStream.ofText_load text)
  have hsupplies := Parse.supplies_of_agrees (Parser.start_agrees text) hevents
    fun _ => Event.ofText_fault_not_lost
  exact ⟨Scan.live_lawful.transparent htokens, Parse.live_lawful.transparent hsupplies⟩

/-- A quote that is never closed is told of once, by the look, and taking goes on behind it. -/
theorem peek_uses_error_up :
    Scan.live.answers (.start "\"a".toList) [.next, .peek, .next] =
      [.ok (some ⟨.streamStart, ⟨0, 0, 0⟩, ⟨0, 0, 0⟩⟩),
        .error (.within .tokens .quoted ⟨0, 0, 0⟩ .unexpectedEnd ⟨2, 0, 2⟩),
        .ok (some ⟨.streamEnd, ⟨2, 0, 2⟩, ⟨2, 0, 2⟩⟩)] ∧
    Scan.live.answers (.start "\"a".toList) [.next, .next] =
      [.ok (some ⟨.streamStart, ⟨0, 0, 0⟩, ⟨0, 0, 0⟩⟩),
        .error (.within .tokens .quoted ⟨0, 0, 0⟩ .unexpectedEnd ⟨2, 0, 2⟩)] ∧
    Parse.live.answers (.start "\"a".toList) [.next, .peek, .next] =
      [.ok (some ⟨.streamStart, ⟨0, 0, 0⟩, ⟨0, 0, 0⟩⟩),
        .error (.within .tokens .quoted ⟨0, 0, 0⟩ .unexpectedEnd ⟨2, 0, 2⟩),
        .ok (some ⟨.streamEnd, ⟨2, 0, 2⟩, ⟨2, 0, 2⟩⟩)] ∧
    Parse.live.answers (.start "\"a".toList) [.next, .next] =
      [.ok (some ⟨.streamStart, ⟨0, 0, 0⟩, ⟨0, 0, 0⟩⟩),
        .error (.within .tokens .quoted ⟨0, 0, 0⟩ .unexpectedEnd ⟨2, 0, 2⟩)] := by
  refine ⟨?_, ?_, ?_, ?_⟩ <;> cbv

end Playbook
