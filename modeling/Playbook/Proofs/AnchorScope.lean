import Playbook.Proofs.EventOrder

/-!
Anchors in a sequence of events. An anchor may be given once, and referred to from where the node
that it was given to is complete. Which of the nodes are complete can be read off the events: the
events of a complete node form a word of the grammar, and none of them closes a collection that was
open before.
-/

namespace Playbook

namespace EventKind

/-- The anchor that an event gives to the node that it begins. -/
def anchor? : EventKind → Option String
  | scalar props _ _ _ => props.anchor
  | sequenceStart props _ => props.anchor
  | mappingStart props _ => props.anchor
  | _ => none

/-- By how much an event changes the number of open collections. -/
def rise : EventKind → Int
  | sequenceStart .. => 1
  | mappingStart .. => 1
  | sequenceEnd => -1
  | mappingEnd => -1
  | _ => 0

end EventKind

namespace Event

/-- How many more collections are open behind the events than before them. -/
def depth (events : List Event) : Int := (events.map (·.kind.rise)).sum

@[simp] theorem depth_nil : depth [] = 0 := rfl

@[simp] theorem depth_cons (event : Event) (events : List Event) :
    depth (event :: events) = event.kind.rise + depth events := by
  simp [depth]

@[simp] theorem depth_append (events events' : List Event) :
    depth (events ++ events') = depth events + depth events' := by
  simp [depth]

/-- None of the events closes a collection that was open before the first of them. -/
def Inner (events : List Event) : Prop := ∀ u v, events = u ++ v → 0 ≤ depth u

theorem Inner.depth_nonneg {events : List Event} (h : Inner events) : 0 ≤ depth events :=
  h events [] (List.append_nil events).symm

theorem inner_nil : Inner [] := by
  intro u v huv
  rw [(List.append_eq_nil_iff.mp huv.symm).1]
  exact le_refl _

theorem Inner.append {events events' : List Event} (h : Inner events) (h' : Inner events') :
    Inner (events ++ events') := by
  intro u v huv
  rcases List.append_eq_append_iff.mp huv with ⟨w, rfl, hw⟩ | ⟨w, hw, rfl⟩
  · have hle := h' w v hw
    have hevents := h.depth_nonneg
    rw [depth_append]
    omega
  · exact h u w hw

/-- Events between the opening and the closing of a collection do not close what is around it. -/
theorem Inner.enclose {opening closing : Event} {body : List Event} (h : Inner body)
    (hopening : opening.kind.rise = 1) (hdepth : depth body = 0)
    (hclosing : closing.kind.rise = -1) : Inner (opening :: (body ++ [closing])) := by
  intro u v huv
  cases u with
  | nil => exact le_refl _
  | cons event u =>
      obtain ⟨rfl, hrest⟩ := List.cons.inj huv
      rw [depth_cons, hopening]
      rcases List.append_eq_append_iff.mp hrest with ⟨w, rfl, hw⟩ | ⟨w, hw, rfl⟩
      · rw [depth_append, hdepth]
        rcases List.singleton_eq_append_iff.mp hw with ⟨rfl, -⟩ | ⟨rfl, -⟩
        · simp
        · simp [hclosing]
      · have hle := h u w hw
        omega

end Event

open Event

/-- A word of the grammar leaves as many collections open as it finds. -/
theorem Phrase.Derives.depth_inner {phrase : Phrase} {word : List Event} (h : phrase.Derives word)
    (hphrase : phrase ≠ .documents) (hstream : phrase ≠ .stream) :
    depth word = 0 ∧ Inner word := by
  induction h with
  | scalar props implicit text style start stop =>
      refine ⟨rfl, fun u v huv => ?_⟩
      rcases List.singleton_eq_append_iff.mp huv with ⟨rfl, -⟩ | ⟨rfl, -⟩ <;> exact le_refl _
  | aliasOf name start stop =>
      refine ⟨rfl, fun u v huv => ?_⟩
      rcases List.singleton_eq_append_iff.mp huv with ⟨rfl, -⟩ | ⟨rfl, -⟩ <;> exact le_refl _
  | sequence props flow start stop start' stop' _ ih
  | mapping props flow start stop start' stop' _ ih =>
      obtain ⟨hdepth, hinner⟩ := ih (by simp) (by simp)
      refine ⟨?_, hinner.enclose rfl hdepth rfl⟩
      simp [hdepth, EventKind.rise]
  | noItems | noPairs => exact ⟨rfl, inner_nil⟩
  | item _ _ ihhead ihtail =>
      obtain ⟨hhead, hhead'⟩ := ihhead (by simp) (by simp)
      obtain ⟨htail, htail'⟩ := ihtail (by simp) (by simp)
      exact ⟨by rw [depth_append, hhead, htail]; rfl, hhead'.append htail'⟩
  | pair _ _ _ ihkey ihvalue ihtail =>
      obtain ⟨hkey, hkey'⟩ := ihkey (by simp) (by simp)
      obtain ⟨hvalue, hvalue'⟩ := ihvalue (by simp) (by simp)
      obtain ⟨htail, htail'⟩ := ihtail (by simp) (by simp)
      exact ⟨by rw [depth_append, depth_append, hkey, hvalue, htail]; rfl,
        hkey'.append (hvalue'.append htail')⟩
  | noDocuments | document => exact absurd rfl hphrase
  | stream => exact absurd rfl hstream

namespace Event

/-- Among the events there are all events of a node that the anchor is given to. -/
def HoldsNode (events : List Event) (name : String) : Prop :=
  ∃ before opening inside after, events = before ++ (opening :: inside) ++ after ∧
    Phrase.node.Derives (opening :: inside) ∧ opening.kind.anchor? = some name

theorem HoldsNode.append {events : List Event} {name : String} (h : HoldsNode events name)
    (events' : List Event) : HoldsNode (events ++ events') name := by
  obtain ⟨before, opening, inside, after, rfl, hnode, hanchor⟩ := h
  exact ⟨before, opening, inside, after ++ events', by simp, hnode, hanchor⟩

/-- The anchor is given to collections only, and these are still open behind the events. -/
def OpenNode (events : List Event) (name : String) : Prop :=
  ∀ before opening after, events = before ++ opening :: after →
    opening.kind.anchor? = some name → opening.kind.rise = 1 ∧ Inner after

/-- A node that is still open is not complete: its events so far have opened more than closed. -/
theorem OpenNode.not_holdsNode {events : List Event} {name : String} (h : OpenNode events name) :
    ¬ HoldsNode events name := by
  rintro ⟨before, opening, inside, after, hevents, hnode, hanchor⟩
  obtain ⟨hrise, hinner⟩ := h before opening (inside ++ after) (by simp [hevents]) hanchor
  have hdepth := (hnode.depth_inner (by simp) (by simp)).1
  have hinside := hinner inside after rfl
  rw [depth_cons, hrise] at hdepth
  omega

/-- Events that do not close it and do not give the anchor again leave a node open. -/
theorem OpenNode.append {events events' : List Event} {name : String} (h : OpenNode events name)
    (hinner : Inner events') (hnew : ∀ event ∈ events', event.kind.anchor? ≠ some name) :
    OpenNode (events ++ events') name := by
  intro before opening after hsplit hanchor
  rcases List.append_eq_append_iff.mp hsplit with ⟨w, -, hw⟩ | ⟨w, hw, hafter⟩
  · exact absurd hanchor (hnew opening (by simp [hw]))
  · cases w with
    | nil =>
        have hmem : opening ∈ events' := by
          rw [List.nil_append] at hafter
          simp [← hafter]
        exact absurd hanchor (hnew opening hmem)
    | cons event w =>
        obtain ⟨rfl, rfl⟩ := List.cons.inj hafter
        obtain ⟨hrise, hw'⟩ := h before opening w hw hanchor
        exact ⟨hrise, hw'.append hinner⟩

/-- The event that gives the anchor first. -/
def giver? (events : List Event) (name : String) : Option Event :=
  events.find? (·.kind.anchor? == some name)

theorem giver?_eq_none {events : List Event} {name : String} :
    giver? events name = none ↔ ∀ event ∈ events, event.kind.anchor? ≠ some name := by
  simp [giver?]

theorem giver?_append (events events' : List Event) (name : String) :
    giver? (events ++ events') name = (giver? events name).or (giver? events' name) :=
  List.find?_append

theorem giver?_singleton (event : Event) (name : String) :
    giver? [event] name = if event.kind.anchor? = some name then some event else none := by
  by_cases h : event.kind.anchor? = some name <;> simp [giver?, h]

/-- The event must not stand behind the events `before`, for a reason that the diagnostic gives: it
refers to an anchor before the node of that anchor is complete, or gives an anchor again. -/
inductive Refused (before : List Event) (event : Event) : Diagnostic → Prop
  | undefined {name : String} (hkind : event.kind = .aliasOf name)
      (h : ¬ HoldsNode before name) :
      Refused before event (.plain .nodes (.undefinedAlias name) event.start)
  | twice {name : String} {first : Event} (hanchor : event.kind.anchor? = some name)
      (hfirst : giver? before name = some first) :
      Refused before event
        (.within .nodes (.firstAnchor name) first.start .secondAnchor event.start)

/-- None of the events of `word` is refused behind those before it. -/
def Accepted (before word : List Event) : Prop :=
  ∀ u event v d, word = u ++ event :: v → ¬ Refused (before ++ u) event d

/-- The diagnostic is that of the first event of `word` that is refused. -/
def RefusedFirst (before word : List Event) (d : Diagnostic) : Prop :=
  ∃ u event v, word = u ++ event :: v ∧ Accepted before u ∧ Refused (before ++ u) event d

theorem accepted_nil (before : List Event) : Accepted before [] := by
  intro u event v d h
  simp at h

theorem Accepted.append {before word word' : List Event} (h : Accepted before word)
    (h' : Accepted (before ++ word) word') : Accepted before (word ++ word') := by
  intro u event v d hsplit
  rcases List.append_eq_append_iff.mp hsplit with ⟨w, rfl, hw⟩ | ⟨w, hw, hafter⟩
  · rw [← List.append_assoc]
    exact h' w event v d hw
  · cases w with
    | nil =>
        have hnext := h' [] event v d hafter.symm
        rw [List.append_nil] at hw hnext
        rwa [hw] at hnext
    | cons first w =>
        obtain ⟨rfl, -⟩ := List.cons.inj hafter
        exact h u event w d hw

theorem accepted_singleton {before : List Event} {event : Event}
    (h : ∀ d, ¬ Refused before event d) : Accepted before [event] := by
  intro u event' v d hsplit
  rcases List.singleton_eq_append_iff.mp hsplit with ⟨rfl, hv⟩ | ⟨-, hv⟩
  · obtain ⟨rfl, -⟩ := List.cons.inj hv
    rw [List.append_nil]
    exact h d
  · cases hv

/-- An event that is accepted gives no anchor that was given before. -/
theorem Accepted.anchor_ne {before word : List Event} {name : String} (h : Accepted before word)
    (hgiven : giver? before name ≠ none) : ∀ event ∈ word, event.kind.anchor? ≠ some name := by
  intro event hevent hanchor
  obtain ⟨u, v, rfl⟩ := List.append_of_mem hevent
  obtain ⟨first, hfirst⟩ := Option.ne_none_iff_exists'.mp hgiven
  have hagain : giver? (before ++ u) name = some first := by
    rw [giver?_append, hfirst]
    rfl
  exact h u event v _ rfl (.twice hanchor hagain)

theorem Accepted.anchor_new {before word : List Event} {first : Event}
    (h : Accepted before (first :: word)) :
    ∀ name, first.kind.anchor? = some name → giver? before name = none := by
  intro name hanchor
  by_contra hgiven
  exact h.anchor_ne hgiven first (by simp) hanchor

theorem RefusedFirst.append_right {before word : List Event} {d : Diagnostic}
    (h : RefusedFirst before word d) (word' : List Event) :
    RefusedFirst before (word ++ word') d := by
  obtain ⟨u, event, v, rfl, haccepted, hrefused⟩ := h
  exact ⟨u, event, v ++ word', by simp, haccepted, hrefused⟩

theorem Accepted.refusedFirst {before word word' : List Event} {d : Diagnostic}
    (h : Accepted before word) (h' : RefusedFirst (before ++ word) word' d) :
    RefusedFirst before (word ++ word') d := by
  obtain ⟨u, event, v, rfl, haccepted, hrefused⟩ := h'
  refine ⟨word ++ u, event, v, by simp, h.append haccepted, ?_⟩
  rwa [← List.append_assoc]

theorem refusedFirst_singleton {before : List Event} {event : Event} {d : Diagnostic}
    (h : Refused before event d) : RefusedFirst before [event] d :=
  ⟨[], event, [], rfl, accepted_nil before, by rwa [List.append_nil]⟩

theorem RefusedFirst.not_accepted {before word : List Event} {d : Diagnostic}
    (h : RefusedFirst before word d) : ¬ Accepted before word := by
  obtain ⟨u, event, v, hsplit, -, hrefused⟩ := h
  exact fun haccepted => haccepted u event v d hsplit hrefused

/-- An event is refused for one reason only. -/
theorem Refused.unique {before : List Event} {event : Event} {d d' : Diagnostic}
    (h : Refused before event d) (h' : Refused before event d') : d = d' := by
  cases h with
  | undefined hkind _ =>
      cases h' with
      | undefined hkind' _ =>
          rw [hkind] at hkind'
          cases hkind'
          rfl
      | twice hanchor' _ =>
          rw [hkind] at hanchor'
          cases hanchor'
  | twice hanchor hfirst =>
      cases h' with
      | undefined hkind' _ =>
          rw [hkind'] at hanchor
          cases hanchor
      | twice hanchor' hfirst' =>
          rw [hanchor] at hanchor'
          cases hanchor'
          rw [hfirst] at hfirst'
          cases hfirst'
          rfl

/-- What is refused behind accepted events ends them. -/
theorem Refused.split_le {before u u' v v' : List Event} {event event' : Event} {d : Diagnostic}
    (hrefused : Refused (before ++ u') event' d) (haccepted : Accepted before u)
    (hsplit : u ++ event :: v = u' ++ event' :: v') : u.length ≤ u'.length := by
  by_contra hlt
  rcases List.append_eq_append_iff.mp hsplit with ⟨w, rfl, -⟩ | ⟨w, hw, hafter⟩
  · simp at hlt
  · cases w with
    | nil => simp [hw] at hlt
    | cons first w =>
        obtain ⟨rfl, -⟩ := List.cons.inj hafter
        exact haccepted u' event' w d hw hrefused

theorem RefusedFirst.unique {before word : List Event} {d d' : Diagnostic}
    (h : RefusedFirst before word d) (h' : RefusedFirst before word d') : d = d' := by
  obtain ⟨u, event, v, hsplit, haccepted, hrefused⟩ := h
  obtain ⟨u', event', v', hsplit', haccepted', hrefused'⟩ := h'
  have hboth : u ++ event :: v = u' ++ event' :: v' := hsplit.symm.trans hsplit'
  have hlength : u.length = u'.length :=
    Nat.le_antisymm (hrefused'.split_le haccepted hboth) (hrefused.split_le haccepted' hboth.symm)
  obtain ⟨rfl, hrest⟩ := List.append_inj hboth hlength
  obtain ⟨rfl, -⟩ := List.cons.inj hrest
  exact hrefused.unique hrefused'

/-- No anchor is given twice, and every reference stands behind the node that it refers to. -/
structure Anchored (word : List Event) : Prop where
  distinct : (word.filterMap (·.kind.anchor?)).Nodup
  defined : ∀ before event after name, word = before ++ event :: after →
    event.kind = .aliasOf name → HoldsNode before name

theorem Accepted.distinct {word : List Event} (h : Accepted [] word) :
    (word.filterMap (·.kind.anchor?)).Nodup := by
  induction word using List.reverseRecOn with
  | nil => exact List.nodup_nil
  | append_singleton word event ih =>
      have hword : Accepted [] word := fun u event' v d hsplit =>
        h u event' (v ++ [event]) d (by simp [hsplit])
      rw [List.filterMap_append, List.nodup_append]
      refine ⟨ih hword, ?_, ?_⟩
      · cases hanchor : event.kind.anchor? <;> simp [hanchor]
      · rintro name hname name' hname' rfl
        obtain ⟨first, hmem, hfirst⟩ := List.mem_filterMap.mp hname
        have hanchor : event.kind.anchor? = some name := by simpa using hname'
        have hgiven : giver? word name ≠ none := fun hnone =>
          giver?_eq_none.mp hnone first hmem hfirst
        obtain ⟨giver, hgiver⟩ := Option.ne_none_iff_exists'.mp hgiven
        exact h word event [] _ rfl (.twice hanchor hgiver)

theorem accepted_iff_anchored {word : List Event} : Accepted [] word ↔ Anchored word := by
  constructor
  · intro h
    refine ⟨h.distinct, fun before event after name hsplit hkind => ?_⟩
    by_contra hnode
    exact h before event after _ hsplit (.undefined hkind hnode)
  · rintro ⟨hdistinct, hdefined⟩ u event v d hsplit hrefused
    cases hrefused with
    | undefined hkind hnode => exact hnode (hdefined u event v _ hsplit hkind)
    | @twice name first hanchor hfirst =>
        have hmem := List.mem_of_find?_eq_some hfirst
        have hname : first.kind.anchor? = some name := by simpa using List.find?_some hfirst
        rw [hsplit, List.filterMap_append, List.nodup_append] at hdistinct
        refine hdistinct.2.2 name ?_ name ?_ rfl
        · exact List.mem_filterMap.mpr ⟨first, hmem, hname⟩
        · exact List.mem_filterMap.mpr ⟨event, by simp, hanchor⟩

end Event

end Playbook
