import Playbook.Proofs.StreamOfText
import Playbook.Proofs.TokenBudget

/-!
Looking ahead. To look at the next token the stream may have to read on, to drop keys and to put
tokens in front of others, and to look at the next event the machine takes a step. Yet nothing that
is handed out depends on it: however looking and taking are interleaved, the answers are those of a
list that is looked at and taken from.
-/

namespace Playbook

/-- What a stream can be asked: to show the next item, or to hand it out. -/
inductive Call
  | peek
  | next
  deriving Repr, DecidableEq

/-- How a stream with the states `σ` answers. Behind the last item there is none. -/
structure Source (α σ : Type) where
  peek : σ → Except Diagnostic (Option α × σ)
  next : σ → Except Diagnostic (Option α × σ)

namespace Source

variable {α σ : Type}

def call (source : Source α σ) : Call → σ → Except Diagnostic (Option α × σ)
  | .peek => source.peek
  | .next => source.next

/-- The answers to a row of calls, up to the first error. -/
def answers (source : Source α σ) : σ → List Call → List (Except Diagnostic (Option α))
  | _, [] => []
  | s, call :: calls =>
      match source.call call s with
      | .error d => [.error d]
      | .ok (found, s') => .ok found :: answers source s' calls

end Source

namespace Feed

variable {α : Type}

/-- The next item of a feed, or what cuts it short. -/
def front (feed : Feed α) : Except Diagnostic (Option α) :=
  match feed.items, feed.fault with
  | a :: _, _ => .ok (some a)
  | [], some d => .error d
  | [], none => .ok none

/-- A feed shows its next item as it is, and hands it out by dropping it. -/
def source : Source α (Feed α) where
  peek feed := feed.front.map fun found => (found, feed)
  next feed := feed.front.map fun found => (found, { feed with items := feed.items.tail })

/-- What a feed answers to a call, it answers to the next item being taken right away, after as many
others as were taken before the call. -/
theorem answers_nexts {feed : Feed α} {calls : List Call} {i : Nat}
    {answer : Except Diagnostic (Option α)} (h : (source.answers feed calls)[i]? = some answer) :
    (source.answers feed (List.replicate ((calls.take i).count .next + 1) .next))[
      (calls.take i).count .next]? = some answer := by
  induction calls generalizing feed i with
  | nil => cases h
  | cons call calls ih =>
      cases hfront : feed.front with
      | error d =>
          have hcall : ∀ call', source.call call' feed = .error d := by
            rintro (_ | _) <;> simp [Source.call, source, hfront, Except.map]
          rw [Source.answers, hcall] at h
          cases i with
          | succ i => cases h
          | zero => simpa [Source.answers, hcall] using h
      | ok found =>
          have hpeek : source.call .peek feed = .ok (found, feed) := by
            simp [Source.call, source, hfront, Except.map]
          have hnext : source.call .next feed =
              .ok (found, { feed with items := feed.items.tail }) := by
            simp [Source.call, source, hfront, Except.map]
          cases i with
          | zero =>
              have hfound : answer = .ok found := by
                cases call <;> simpa [Source.answers, hpeek, hnext, eq_comm] using h
              simp [Source.answers, hnext, hfound]
          | succ i =>
              cases call with
              | peek =>
                  rw [Source.answers, hpeek] at h
                  simpa using ih h
              | next =>
                  rw [Source.answers, hnext] at h
                  simpa [List.replicate_succ, Source.answers, hnext] using ih h

end Feed

namespace Source

variable {α σ : Type} {source : Source α σ} {s s' : σ} {found : Option α}

/-- Looking shows what taking would hand out. A second look finds and leaves all as it is, and
taking after a look is taking without it. -/
structure Lawful (source : Source α σ) : Prop where
  answer : ∀ s, Prod.fst <$> source.peek s = Prod.fst <$> source.next s
  again : ∀ {s s' found}, source.peek s = .ok (found, s') → source.peek s' = .ok (found, s')
  next : ∀ {s s' found}, source.peek s = .ok (found, s') → source.next s' = source.next s

/-- What the stream hands out, one item after the other, is the feed. -/
inductive Supplies (source : Source α σ) : σ → Feed α → Prop
  | fault {s : σ} {d : Diagnostic} (h : source.next s = .error d) : Supplies source s ⟨[], some d⟩
  | stop {s s' : σ} (h : source.next s = .ok (none, s')) (hstop : source.next s' = .ok (none, s')) :
      Supplies source s ⟨[], none⟩
  | item {s s' : σ} {a : α} {feed : Feed α} (h : source.next s = .ok (some a, s'))
      (hrest : Supplies source s' feed) : Supplies source s (feed.cons a)

theorem Supplies.congr {feed : Feed α} (h : source.Supplies s feed)
    (hnext : source.next s' = source.next s) : source.Supplies s' feed := by
  cases h with
  | fault h => exact .fault (hnext.trans h)
  | stop h hstop => exact .stop (hnext.trans h) hstop
  | item h hrest => exact .item (hnext.trans h) hrest

theorem Supplies.front {feed : Feed α} (h : source.Supplies s feed) :
    Prod.fst <$> source.next s = feed.front := by
  cases h with
  | fault h => rw [h]; rfl
  | stop h _ => rw [h]; rfl
  | item h _ => rw [h]; rfl

theorem Supplies.tail {feed : Feed α} (h : source.Supplies s feed)
    (hnext : source.next s = .ok (found, s')) :
    source.Supplies s' { feed with items := feed.items.tail } := by
  cases h with
  | fault h => cases h.symm.trans hnext
  | stop h hstop =>
      cases h.symm.trans hnext
      exact .stop hstop hstop
  | item h hrest =>
      cases h.symm.trans hnext
      exact hrest

/-- A stream whose looks change nothing answers every row of calls like what it hands out. -/
theorem Supplies.answers_eq {feed : Feed α} (hlawful : source.Lawful)
    (h : source.Supplies s feed) (calls : List Call) :
    source.answers s calls = Feed.source.answers feed calls := by
  induction calls generalizing s feed with
  | nil => rfl
  | cons call calls ih =>
      have hfront := h.front
      have hanswer : Prod.fst <$> source.call call s = feed.front := by
        cases call with
        | peek => exact (hlawful.answer s).trans hfront
        | next => exact hfront
      rw [answers, answers]
      cases hcall : source.call call s with
      | error d =>
          rw [hcall] at hanswer
          have hfeed : Feed.source.call call feed = .error d := by
            cases call <;> simp [Source.call, Feed.source, ← hanswer] <;> rfl
          rw [hfeed]
      | ok result =>
          obtain ⟨found, s'⟩ := result
          rw [hcall] at hanswer
          cases call with
          | peek =>
              have hfeed : Feed.source.call .peek feed = .ok (found, feed) := by
                simp [Source.call, Feed.source, ← hanswer]; rfl
              rw [hfeed]
              exact congrArg _ (ih (h.congr (hlawful.next hcall)))
          | next =>
              have hfeed : Feed.source.call .next feed =
                  .ok (found, { feed with items := feed.items.tail }) := by
                simp [Source.call, Feed.source, ← hanswer]; rfl
              rw [hfeed]
              exact congrArg _ (ih (h.tail hcall))

end Source

/-! ### Tokens -/

namespace TokenStream

variable {s s' : TokenStream}

def source : Source Token TokenStream where
  peek := peek
  next := next

/-- Whether more has to be read does not change by asking. -/
theorem needsMore_again {more : Bool} (h : s.needsMore = .ok (more, s')) :
    s'.needsMore = .ok (more, s') := by
  unfold needsMore at h
  split_ifs at h with hdone hempty
  · cases h
    rw [needsMore, if_pos hdone]
  · cases h
    rw [needsMore, if_neg hdone, if_pos hempty]
  · obtain ⟨s₁, hdrop, h⟩ := bind_eq_ok_iff.mp h
    cases h
    have hsame := (dropStaleKeys_dropped hdrop).same
    rw [needsMore, if_neg (by rwa [hsame]), if_neg (by rwa [hsame]), dropStaleKeys_again hdrop]
    rfl

theorem fillFor_enough {n : Nat} (h : fillFor n s = .ok s') : s'.needsMore = .ok (false, s') := by
  induction n generalizing s with
  | zero => cases h
  | succ n ih =>
      obtain ⟨⟨more, s₁⟩, hmore, h⟩ := bind_eq_ok_iff.mp h
      cases more with
      | true =>
          obtain ⟨s₂, -, h⟩ := bind_eq_ok_iff.mp h
          exact ih h
      | false =>
          cases h
          exact needsMore_again hmore

/-- A queue that has been filled is full. -/
theorem fill_again (h : s.fill = .ok s') : s'.fill = .ok s' := by
  rw [fill, fillFor, fillFor_enough h]
  rfl

theorem source_lawful : source.Lawful where
  answer s := by
    change Prod.fst <$> s.peek = Prod.fst <$> s.next
    rw [peek, next]
    cases s.fill with
    | error d => rfl
    | ok s' =>
        simp only [ok_bind]
        cases s'.queue <;> rfl
  again {s s' found} h := by
    obtain ⟨s₁, hfill, h⟩ := bind_eq_ok_iff.mp h
    cases h
    change s'.peek = _
    rw [peek, fill_again hfill]
    rfl
  next {s s' found} h := by
    obtain ⟨s₁, hfill, h⟩ := bind_eq_ok_iff.mp h
    cases h
    change s'.next = s.next
    rw [next, next, fill_again hfill, hfill]

theorem collect_supplies {n : Nat} (hs : s.Based) (hn : s.budget < n) :
    source.Supplies s (s.collect n) := by
  induction n generalizing s with
  | zero => omega
  | succ n ih =>
      unfold collect
      cases hnext : s.next with
      | error d => exact .fault hnext
      | ok result =>
          obtain ⟨_ | token, s'⟩ := result
          · obtain ⟨rfl, -⟩ := next_none hnext
            exact .stop hnext hnext
          · obtain ⟨hs', hlt⟩ := next_budget hs hnext
            exact .item hnext (ih hs' (by omega))

theorem start_supplies (text : List Char) : source.Supplies (start text) (Token.ofText text) := by
  refine collect_supplies (based_start text) ?_
  rw [budget_start]
  omega

end TokenStream

/-! ### Events -/

namespace EventStream

variable {s : EventStream}

def source : Source Event EventStream where
  peek := peek
  next := next

theorem collect_supplies {n : Nat} (hs : s.Steady) (hn : s.load < n) :
    source.Supplies s (s.collect n) := by
  induction n generalizing s with
  | zero => omega
  | succ n ih =>
      unfold collect
      cases hnext : s.next with
      | error d => exact .fault hnext
      | ok result =>
          obtain ⟨_ | event, s'⟩ := result
          · obtain ⟨-, rfl⟩ := hs.state_of_next_none hnext
            exact .stop hnext hnext
          · obtain ⟨hs', hlt, -⟩ := hs.next hnext
            exact .item hnext (ih hs' (by omega))

end EventStream

end Playbook
