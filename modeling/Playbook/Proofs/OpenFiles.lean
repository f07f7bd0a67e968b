import Mathlib
import Playbook.Session

/-!
What a session knows of a file after any history of messages: the text it was told last, unless the
file was closed since. A request for completion changes none of this, and is answered with what the
library offers for the text that is known.
-/

namespace Playbook

namespace Session

/-- The message tells the text of a file. Of several texts in one change, the last one counts. -/
inductive Message.Writes (uri text : String) : Message → Prop
  | opened : Writes uri text (.opened uri text)
  | changed {texts : List String} (h : texts.getLast? = some text) :
      Writes uri text (.changed uri texts)

/-- The message leaves a file alone: it is about another one, or a change without a text, or a
request. -/
def Message.Idle (uri : String) : Message → Prop
  | .initialized => True
  | .opened other _ => other ≠ uri
  | .changed other texts => other ≠ uri ∨ texts = []
  | .closed other => other ≠ uri
  | .complete .. => True

/-- A message that does not leave a file alone tells its text or closes it. -/
theorem Message.writes_of_not_idle {uri : String} {message : Message} (h : ¬ message.Idle uri) :
    message = .closed uri ∨ ∃ text, message.Writes uri text := by
  cases message with
  | initialized => exact absurd trivial h
  | opened other text =>
      obtain rfl := not_not.mp h
      exact Or.inr ⟨text, .opened⟩
  | changed other texts =>
      rw [Idle, not_or, not_not] at h
      obtain ⟨rfl, htexts⟩ := h
      exact Or.inr ⟨_, .changed (List.getLast?_eq_some_getLast htexts)⟩
  | closed other =>
      obtain rfl := not_not.mp h
      exact Or.inl rfl
  | complete => exact absurd trivial h

theorem Message.Writes.not_idle {uri text : String} {message : Message}
    (h : message.Writes uri text) : ¬ message.Idle uri := by
  cases h with
  | opened => exact fun hidle => hidle rfl
  | changed hlast =>
      rintro (hother | rfl)
      · exact hother rfl
      · cases hlast

/-- The session after a history of messages, each taken with the disk as it was then. -/
def after (s : Session) (history : List (Disk × Message)) : Session :=
  history.foldl (fun s entry => (s.handle entry.1 entry.2).2) s

theorem after_snoc (s : Session) (history : List (Disk × Message)) (disk : Disk)
    (message : Message) :
    s.after (history ++ [(disk, message)]) = ((s.after history).handle disk message).2 := by
  rw [after, List.foldl_concat]
  rfl

variable {s : Session} {disk : Disk} {uri text : String} {message : Message}

/-! ### One message -/

theorem file?_withoutFile (s : Session) (uri other : String) :
    (s.withoutFile uri).file? other = if other = uri then none else s.file? other := by
  have hfilter : ∀ files : List (String × String),
      (files.filter (·.1 != uri)).lookup other =
        if other = uri then none else files.lookup other := by
    intro files
    induction files with
    | nil => simp
    | cons entry files ih =>
        obtain ⟨name, content⟩ := entry
        by_cases hname : name = uri
        · rw [List.filter_cons_of_neg (by simpa using hname), ih, List.lookup_cons]
          split_ifs with hother
          · rfl
          · rw [beq_false_of_ne (hname ▸ hother)]
        · rw [List.filter_cons_of_pos (by simpa using hname), List.lookup_cons, List.lookup_cons,
            ih]
          split_ifs with hother
          · rw [beq_false_of_ne (hother ▸ Ne.symm hname)]
          · rfl
  exact hfilter s.files.entries

theorem file?_withFile (s : Session) (uri text other : String) :
    (s.withFile uri text).file? other = if other = uri then some text else s.file? other := by
  have hrest : (s.files.remove uri).entries.lookup other = _ := file?_withoutFile s uri other
  change ((uri, text) :: (s.files.remove uri).entries).lookup other = _
  rw [List.lookup_cons, hrest]
  split_ifs with hother
  · rw [beq_iff_eq.mpr hother]
  · rw [beq_false_of_ne hother]

theorem complete_files (s : Session) (disk : Disk) (uri : String) (line units : Nat) :
    (s.complete disk uri line units).2.files = s.files := by
  unfold complete
  split
  · rfl
  · dsimp only
    split <;> split_ifs <;> rfl

theorem handle_writes (h : message.Writes uri text) :
    (s.handle disk message).2.file? uri = some text := by
  cases h with
  | opened => exact (file?_withFile s uri text uri).trans (if_pos rfl)
  | changed hlast =>
      simp only [handle, hlast]
      exact (file?_withFile s uri text uri).trans (if_pos rfl)

theorem handle_closed (s : Session) (disk : Disk) (uri : String) :
    (s.handle disk (.closed uri)).2.file? uri = none :=
  (file?_withoutFile s uri uri).trans (if_pos rfl)

theorem handle_idle (h : message.Idle uri) :
    (s.handle disk message).2.file? uri = s.file? uri := by
  cases message with
  | initialized => rfl
  | opened other text => exact (file?_withFile s other text uri).trans (if_neg (Ne.symm h))
  | changed other texts =>
      cases hlast : texts.getLast? with
      | none => simp only [handle, hlast]
      | some text =>
          have hother : other ≠ uri := by
            rcases h with hother | rfl
            · exact hother
            · cases hlast
          simp only [handle, hlast]
          exact (file?_withFile s other text uri).trans (if_neg hother.symm)
  | closed other => exact (file?_withoutFile s other uri).trans (if_neg (Ne.symm h))
  | complete other line units =>
      exact congrArg (OpenFiles.get? · uri) (complete_files s disk other line units)

/-! ### A history of messages -/

/-- Some message of the history tells the text, and all behind it leave the file alone. -/
def LastTold (history : List (Disk × Message)) (uri text : String) : Prop :=
  ∃ before disk message later, history = before ++ (disk, message) :: later ∧
    message.Writes uri text ∧ ∀ entry ∈ later, entry.2.Idle uri

/-- What was told last is told by the last message, or before it if it leaves the file alone. -/
theorem lastTold_snoc {history : List (Disk × Message)} :
    LastTold (history ++ [(disk, message)]) uri text ↔
      message.Writes uri text ∨ message.Idle uri ∧ LastTold history uri text := by
  constructor
  · rintro ⟨before, disk', message', later, hsplit, hwrites, hlater⟩
    rcases List.eq_nil_or_concat later with rfl | ⟨later, entry, rfl⟩
    · obtain ⟨-, hlast⟩ := List.append_inj' hsplit rfl
      cases hlast
      exact Or.inl hwrites
    · rw [List.concat_eq_append, ← List.cons_append, ← List.append_assoc] at hsplit
      obtain ⟨hinit, hlast⟩ := List.append_inj' hsplit rfl
      cases hlast
      rw [List.concat_eq_append, List.forall_mem_append] at hlater
      exact Or.inr ⟨hlater.2 _ List.mem_cons_self,
        before, disk', message', later, hinit, hwrites, hlater.1⟩
  · rintro (hwrites | ⟨hidle, before, disk', message', later, rfl, hwrites, hlater⟩)
    · exact ⟨history, disk, message, [], rfl, hwrites, fun _ hmem => by cases hmem⟩
    · refine ⟨before, disk', message', later ++ [(disk, message)], by simp, hwrites, ?_⟩
      rw [List.forall_mem_append]
      exact ⟨hlater, List.forall_mem_singleton.mpr hidle⟩

theorem Message.Writes.unique {told : String} (h : message.Writes uri text)
    (h' : message.Writes uri told) : text = told := by
  cases h with
  | opened =>
      cases h'
      rfl
  | changed hlast =>
      cases h' with
      | changed hlast' => exact Option.some.inj (hlast.symm.trans hlast')

theorem file?_after {history : List (Disk × Message)} (hclosed : s.files = .none) :
    (s.after history).file? uri = some text ↔ LastTold history uri text := by
  induction history using List.reverseRecOn with
  | nil =>
      have hnone : (s.after []).file? uri = none := congrArg (OpenFiles.get? · uri) hclosed
      rw [hnone]
      simp [LastTold]
  | append_singleton history entry ih =>
      obtain ⟨disk, message⟩ := entry
      rw [after_snoc, lastTold_snoc]
      by_cases hidle : message.Idle uri
      · have hwrites : ¬ message.Writes uri text := fun hwrites => hwrites.not_idle hidle
        rw [handle_idle hidle, ih]
        simp [hwrites, hidle]
      · rcases Message.writes_of_not_idle hidle with rfl | ⟨told, hwrites⟩
        · have hopen : ¬ (Message.closed uri).Writes uri text := nofun
          simp [handle_closed, hopen, hidle]
        · rw [handle_writes hwrites, Option.some_inj]
          constructor
          · rintro rfl
            exact Or.inl hwrites
          · rintro (hwrites' | ⟨hidle', -⟩)
            · exact hwrites.unique hwrites'
            · exact absurd hidle' hidle

/-! ### Requests -/

/-- The request of an editor as a request to the library: the place is given in characters. -/
def requestAt (content : String) (line units : Nat) : CompletionRequest :=
  ⟨content.toList, some (.ofUnits content.toList line units), none⟩

/-- The items for some candidates; an empty list is not shown. -/
def shown (candidates : List Candidate) : Option (List CompletionItem) :=
  if candidates = [] then none else some (CompletionItem.ofCandidates candidates)

/-- The library offers nothing: it cannot load the text, or has no candidates. -/
def Fruitless (answer : Except LoadError (List Candidate)) : Prop :=
  (∃ e, answer = .error e) ∨ answer = .ok []

theorem complete_items (s : Session) (disk : Disk) (uri : String) (line units : Nat) :
    (s.complete disk uri line units).1.items =
      (s.file? uri).bind fun content =>
        ((requestAt content line units).answer s.catalogs disk s.cap).toOption.bind shown := by
  unfold complete
  cases s.file? uri with
  | none => rfl
  | some content =>
      simp only [Option.bind_some, CompletionRequest.answer, CompletionRequest.place, requestAt,
        Option.getD_some]
      cases Completion.run s.catalogs disk content.toList
          (.ofUnits content.toList line units) s.cap with
      | error e =>
          dsimp only
          split_ifs <;> rfl
      | ok found =>
          obtain ⟨⟨document, context, candidates, crash⟩, catalogs⟩ := found
          cases crash <;> cases candidates <;>
            simp [bind, Except.bind, Completion.offer, Except.toOption, shown, Reply.silent,
              CompletionItem.ofCandidates]

theorem handle_cap (s : Session) (disk : Disk) (message : Message) :
    (s.handle disk message).2.cap = s.cap := by
  cases message with
  | changed uri texts =>
      simp only [handle]
      split <;> rfl
  | complete uri line units =>
      simp only [handle, complete]
      split
      · rfl
      · split <;> split_ifs <;> rfl
  | _ => rfl

theorem after_cap (s : Session) (history : List (Disk × Message)) :
    (s.after history).cap = s.cap := by
  induction history generalizing s with
  | nil => rfl
  | cons entry history ih => exact (ih _).trans (handle_cap s entry.1 entry.2)

theorem shown_eq_none_iff {answer : Except LoadError (List Candidate)} :
    answer.toOption.bind shown = none ↔ Fruitless answer := by
  cases answer with
  | error e => simp [Fruitless, Except.toOption]
  | ok candidates => simp [Fruitless, Except.toOption, shown]

/-- After every history the session knows of each file the text it was told last, unless the file
was closed since, and answers requests with what the library offers for that text. -/
theorem after_agrees (catalogs : Catalogs) (cap : Nat) (connected : Bool)
    (history : List (Disk × Message)) (uri : String) :
    let s := (start catalogs cap connected).after history
    (∀ text, s.file? uri = some text ↔ LastTold history uri text) ∧
    (∀ disk message, message.Idle uri →
      (s.handle disk message).2.file? uri = s.file? uri) ∧
    ∀ disk line units,
      let answer content := (requestAt content line units).answer s.catalogs disk cap
      let items := (s.handle disk (.complete uri line units)).1.items
      (items = none ↔
        s.file? uri = none ∨ ∃ content, s.file? uri = some content ∧ Fruitless (answer content)) ∧
      items = (s.file? uri).bind fun content => (answer content).toOption.bind shown := by
  intro s
  refine ⟨fun text => file?_after rfl, fun disk message h => handle_idle h, ?_⟩
  intro disk line units answer items
  have hcap : s.cap = cap := after_cap _ _
  have hitems : items = (s.file? uri).bind fun content =>
      (answer content).toOption.bind shown := by
    have h := complete_items s disk uri line units
    rwa [hcap] at h
  refine ⟨?_, hitems⟩
  rw [hitems]
  cases s.file? uri with
  | none => simp
  | some content =>
      rw [Option.bind_some, shown_eq_none_iff]
      simp

/-- Of two texts in one change the second is kept, through a request and the end of another file. -/
theorem after_agrees_changed_twice :
    let s := (start default 64 false).after
      [(.empty, .opened "a.yml" "- "), (.empty, .changed "a.yml" ["- ta", "- task"]),
        (.empty, .complete "a.yml" 0 6), (.empty, .closed "b.yml")]
    s.file? "a.yml" = some "- task" ∧
      ∀ disk, (s.handle disk (.changed "a.yml" [])).2.file? "a.yml" = s.file? "a.yml" := by
  obtain ⟨htold, hkept, -⟩ := after_agrees default 64 false
    [(.empty, .opened "a.yml" "- "), (.empty, .changed "a.yml" ["- ta", "- task"]),
      (.empty, .complete "a.yml" 0 6), (.empty, .closed "b.yml")] "a.yml"
  refine ⟨(htold _).mpr ?_, fun disk => hkept disk _ (Or.inr rfl)⟩
  refine ⟨[_], .empty, _, [_, _], rfl, .changed rfl, ?_⟩
  simp [Message.Idle]

end Session

end Playbook
