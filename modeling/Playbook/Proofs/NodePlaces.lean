import Playbook.Proofs.EventPlaces
import Playbook.Proofs.SpanNesting

/-!
Where the problems of nodes lie. All starts that the composer has noted, of open collections and of
anchors, lie before the events to come. So an anchor that is given twice and a second document are
told with the earlier place as the context. The nodes of a document start where its events do, and
with them the problems of their values.
-/

namespace Playbook

variable {text : List Char} {event : Event} {events rest : List Event}

theorem Event.flatMap_marks_subset (h : rest <:+ events) :
    rest.flatMap marks ⊆ events.flatMap marks := by
  obtain ⟨read, rfl⟩ := h
  rw [List.flatMap_append]
  exact List.subset_append_right _ _

theorem Mark.Line.suffix (h : Line text (events.flatMap Event.marks)) (hsuffix : rest <:+ events) :
    Line text (rest.flatMap Event.marks) := by
  obtain ⟨read, rfl⟩ := hsuffix
  rw [List.flatMap_append] at h
  exact h.sublist (List.sublist_append_right _ _)

theorem Event.start_mem_flatMap (h : event ∈ events) : event.start ∈ events.flatMap marks :=
  List.mem_flatMap.mpr ⟨event, h, event.start_mem_marks⟩

/-- An event starts before all that comes behind. -/
theorem Mark.Line.before_event (h : Line text ((event :: rest).flatMap Event.marks)) :
    event.start.Before text ((event :: rest).flatMap Event.marks) := by
  have hmarks : ∃ later, (event :: rest).flatMap Event.marks = event.start :: later := by
    rw [List.flatMap_cons, Event.marks]
    split_ifs
    · exact ⟨_, rfl⟩
    · exact ⟨_, rfl⟩
  obtain ⟨later, hlater⟩ := hmarks
  rw [hlater] at h ⊢
  exact h.before

namespace Composition

variable {P Q : Mark → Prop} {c : Composition}

/-- What the composer has noted of starts: those of the open collections, of the nodes with anchors
and of the collections whose anchors are open. -/
structure Starts (P : Mark → Prop) (c : Composition) : Prop where
  frames : ∀ frame ∈ c.frames, P frame.start
  anchors : ∀ entry ∈ c.anchors, P entry.2.start
  openAnchors : ∀ entry ∈ c.openAnchors, P entry.2

def Progress.Starts (P : Mark → Prop) : Progress → Prop
  | .complete root => P root.start
  | .pending c => c.Starts P

theorem Starts.mono (h : c.Starts P) (hPQ : ∀ m, P m → Q m) : c.Starts Q :=
  ⟨fun frame hframe => hPQ _ (h.frames frame hframe),
    fun entry hentry => hPQ _ (h.anchors entry hentry),
    fun entry hentry => hPQ _ (h.openAnchors entry hentry)⟩

theorem starts_empty (P : Mark → Prop) : empty.Starts P := by
  constructor <;> exact fun _ hmem => (List.not_mem_nil hmem).elim

theorem Starts.attach (h : c.Starts P) {node : Node} (hnode : P node.start) :
    (c.attach node).Starts P := by
  have hframes := h.frames
  unfold Composition.attach
  split
  · exact hnode
  all_goals
    rename_i heq
    rw [heq, List.forall_mem_cons] at hframes
    exact ⟨List.forall_mem_cons.mpr hframes, h.anchors, h.openAnchors⟩

theorem Starts.finish (h : c.Starts P) (props : Properties) {node : Node} (hnode : P node.start) :
    (c.finish props node).Starts P := by
  unfold Composition.finish
  split
  · refine Starts.attach ?_ hnode
    exact ⟨h.frames, h.anchors, h.openAnchors⟩
  · refine Starts.attach ?_ hnode
    refine ⟨h.frames, List.forall_mem_cons.mpr ⟨hnode, h.anchors⟩, fun entry hentry => ?_⟩
    exact h.openAnchors entry (List.mem_of_mem_filter hentry)

theorem Starts.tail (h : c.Starts P) {frame : Frame} {frames : List Frame}
    (hframes : c.frames = frame :: frames) : P frame.start ∧ Starts P { c with frames } := by
  have hall := h.frames
  rw [hframes, List.forall_mem_cons] at hall
  exact ⟨hall.1, hall.2, h.anchors, h.openAnchors⟩

theorem Starts.anchorMark (h : c.Starts P) {name : String} {m : Mark}
    (hm : c.anchorMark? name = some m) : P m := by
  unfold anchorMark? at hm
  split at hm
  · rename_i node hlookup
    cases hm
    exact h.anchors _ (mem_of_lookup hlookup)
  · exact h.openAnchors _ (mem_of_lookup hm)

/-- A refusal at a mark, with one of the starts noted as its context. -/
def RefusedAt (P : Mark → Prop) (start : Mark) (d : Diagnostic) : Prop :=
  d.problemMark = start ∧ ∀ m, d.contextMark = some m → P m

theorem checkAnchor_refusedAt (h : c.Starts P) (anchor : Option String) (start : Mark) :
    EndsIn (fun _ => True) (RefusedAt P start) (c.checkAnchor anchor start) := by
  unfold checkAnchor
  split
  · exact trivial
  · split
    · exact trivial
    · rename_i hfirst
      refine ⟨rfl, fun m hm => ?_⟩
      cases hm
      exact h.anchorMark hfirst

theorem enter_starts (h : c.Starts P) {start : Mark} (hstart : P start) (props : Properties)
    {frame : Frame} (hframe : frame.start = start) :
    EndsIn (Progress.Starts P) (RefusedAt P start) (c.enter props start frame) := by
  refine (checkAnchor_refusedAt h props.anchor start).bind fun _ _ => ?_
  refine ⟨List.forall_mem_cons.mpr ⟨hframe ▸ hstart, h.frames⟩, h.anchors, fun entry hentry => ?_⟩
  rcases List.mem_append.mp hentry with hentry | hentry
  · obtain ⟨name, -, rfl⟩ := Option.map_eq_some_iff.mp (Option.mem_toList.mp hentry)
    exact hstart
  · exact h.openAnchors entry hentry

theorem step_starts (h : c.Starts P) (hevent : P event.start) :
    EndsIn (Progress.Starts P) (RefusedAt P event.start) (c.step event) := by
  unfold Composition.step
  split
  · rename_i name hkind
    split
    · rename_i node hlookup
      exact h.attach (h.anchors _ (mem_of_lookup hlookup))
    · exact ⟨rfl, nofun⟩
  · exact (checkAnchor_refusedAt h _ event.start).bind fun _ _ => h.finish _ hevent
  · exact enter_starts h hevent _ rfl
  · exact enter_starts h hevent _ rfl
  · rename_i hframes
    obtain ⟨hstart, htail⟩ := h.tail hframes
    exact htail.finish _ hstart
  · rename_i hframes
    obtain ⟨hstart, htail⟩ := h.tail hframes
    exact htail.finish _ hstart
  · exact ⟨rfl, nofun⟩

end Composition

namespace Node

variable {feed : Feed Event} (hfault : ∀ d, feed.fault = some d → d.Points text)
include hfault

theorem endedEarly_points : feed.endedEarly.Points text := by
  unfold Feed.endedEarly
  cases h : feed.fault with
  | none => exact Diagnostic.points_plain (Mark.standsIn_origin text)
  | some d => exact hfault d h

/-- The composer refuses an event with a mark noted before, or yields a node that starts before the
events it leaves. -/
theorem compose_endsIn {c : Composition} (hline : Mark.Line text (events.flatMap Event.marks))
    (h : c.Starts (Mark.Before text (events.flatMap Event.marks))) :
    EndsIn (fun found : Node × List Event => found.2 <:+ events ∧
        found.1.start.Before text (found.2.flatMap Event.marks))
      (Diagnostic.Points text) (compose c feed events) := by
  induction events generalizing c with
  | nil => exact endedEarly_points hfault
  | cons event events ih =>
      have hsuffix := List.suffix_cons event events
      have hlater := Event.flatMap_marks_subset hsuffix
      have hstep := Composition.step_starts h hline.before_event
      rw [compose]
      cases hresult : c.step event with
      | error d =>
          rw [hresult] at hstep
          obtain ⟨hproblem, hcontext⟩ := hstep
          refine ⟨hproblem ▸ hline.before_event.stands, fun m hm => ?_⟩
          have hle := (hcontext m hm).le event.start (Event.start_mem_flatMap List.mem_cons_self)
          exact ⟨(hcontext m hm).stands, hproblem ▸ hle.1⟩
      | ok progress =>
          rw [hresult] at hstep
          cases progress with
          | complete node => exact ⟨hsuffix, hstep.subset hlater⟩
          | pending c' =>
              have hrest := ih (hline.suffix hsuffix) (hstep.mono fun m hm => hm.subset hlater)
              exact hrest.imp fun found hfound => ⟨hfound.1.trans hsuffix, hfound.2⟩

theorem atStreamEnd_endsIn :
    EndsIn (fun ends => ends = false → ∃ event rest, events = event :: rest)
      (Diagnostic.Points text) (atStreamEnd feed events) := by
  refine Faults.endsIn (fun d hd => hfault d (atStreamEnd_eq_error hd)) ?_
  rintro ends hok rfl
  obtain ⟨event, rest, hevents, -⟩ := atStreamEnd_eq_false hok
  exact ⟨event, rest, hevents⟩

theorem ofEvents_points (hline : Mark.Line text (feed.items.flatMap Event.marks)) :
    Faults (Diagnostic.Points text) (ofEvents feed) := by
  unfold ofEvents
  split
  · exact faults_error (endedEarly_points hfault)
  · rename_i first events hitems
    rw [hitems] at hline
    refine (atStreamEnd_endsIn hfault).faults_bind fun ends _ => ?_
    refine faults_ite (fun _ => faults_ok _) fun _ => ?_
    have hevents := hline.suffix ((List.tail_suffix events).trans (List.suffix_cons first events))
    refine (compose_endsIn hfault hevents (Composition.starts_empty _)).faults_bind ?_
    rintro ⟨node, left⟩ ⟨hsuffix, hnode⟩
    cases left with
    | nil => exact faults_error (endedEarly_points hfault)
    | cons closing left =>
        have hleft := (hevents.suffix hsuffix).suffix (List.suffix_cons closing left)
        refine (atStreamEnd_endsIn hfault).faults_bind fun ends hends => ?_
        refine faults_ite (fun _ => faults_ok _) fun hmore => faults_error ?_
        obtain ⟨next, rest, rfl⟩ := hends (by simpa using hmore)
        have hmem : next.start ∈ (closing :: next :: rest).flatMap Event.marks :=
          Event.start_mem_flatMap (by simp)
        exact hnode.points hmem hleft.before_event.stands

end Node

/-! ### Nodes -/

namespace Place

theorem marks_inside {outer inner : Place} (h : inner ∈ outer.inside) :
    inner.marks ⊆ outer.marks := by
  cases outer with
  | reference | leaf => cases h
  | collection opening inside closing node =>
      intro m hm
      rw [marks_collection]
      refine List.mem_append_right _ (List.mem_append_left _ ?_)
      exact List.mem_flatMap.mpr ⟨inner, h, hm⟩

theorem marks_within {outer inner : Place} (h : inner.Within outer) :
    inner.marks ⊆ outer.marks := by
  induction h using Relation.ReflTransGen.head_induction_on with
  | refl => exact List.Subset.refl _
  | head hmem _ ih => exact List.Subset.trans (marks_inside hmem) ih

end Place

/-- The nodes of a text start at places of the text. -/
theorem Node.ofText_hasStart {root : Node} (h : ofEvents (Event.ofText text) = .ok (some root))
    {m : Mark} (hm : root.HasStart m) : m.StandsIn text := by
  obtain ⟨node, hbelow, rfl⟩ := hm
  obtain ⟨place, first, opening, closing, rest, hvalid, rfl, hitems, -⟩ := ofText_place h
  obtain ⟨inner, hwithin, hwritten, rfl⟩ := hvalid.exists_of_below hbelow
  have hstart := Place.marks_within hwithin ((hvalid.within hwithin).span_mem hwritten).1
  refine (Event.ofText_line text).stands _ ?_
  rw [hitems]
  simp only [List.flatMap_cons, List.flatMap_append, List.mem_append]
  exact Or.inr (Or.inr (Or.inl hstart))

end Playbook
