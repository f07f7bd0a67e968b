import Playbook.Proofs.NodeGraph
import Playbook.Document

/-!
Whatever goes wrong while a document is built from its nodes is a fault of the values, and it is
told where nodes of the document start.
-/

namespace Playbook

namespace Node

/-- The mark is the start of the node or of one below it. -/
def HasStart (root : Node) (m : Mark) : Prop :=
  ∃ node : Node, (node = root ∨ node.Below root) ∧ node.start = m

theorem hasStart_self (node : Node) : node.HasStart node.start :=
  ⟨node, Or.inl rfl, rfl⟩

theorem HasStart.below {node root : Node} {m : Mark} (h : node.HasStart m)
    (hbelow : node.Below root) : root.HasStart m := by
  obtain ⟨inner, rfl | hinner, hstart⟩ := h
  · exact ⟨inner, Or.inr hbelow, hstart⟩
  · exact ⟨inner, Or.inr (hinner.trans hbelow), hstart⟩

/-- A problem with the values of a node or of those below it. -/
structure Blames (root : Node) (d : Diagnostic) : Prop where
  stage : d.stage = .values
  problem : root.HasStart d.problemMark
  context : ∀ m, d.contextMark = some m → root.HasStart m

theorem Blames.below {node root : Node} {d : Diagnostic} (h : node.Blames d)
    (hbelow : node.Below root) : root.Blames d :=
  ⟨h.stage, h.problem.below hbelow, fun m hm => (h.context m hm).below hbelow⟩

theorem blames_problem (node : Node) (problem : Problem) : node.Blames (node.problem problem) :=
  ⟨rfl, node.hasStart_self, nofun⟩

/-- A problem with a node inside a mapping. -/
theorem blames_within {node root : Node} (hbelow : node.Below root) {problem : Problem} :
    root.Blames (.within .values .mapping root.start problem node.start) := by
  refine ⟨rfl, node.hasStart_self.below hbelow, fun m hm => ?_⟩
  cases hm
  exact root.hasStart_self

theorem faults_below {α : Type} {node root : Node} {x : Except Diagnostic α}
    (h : Faults node.Blames x) (hbelow : node.Below root) : Faults root.Blames x :=
  fun d hd => (h d hd).below hbelow

mutual

theorem flatPairs_faults : ∀ node : Node, Faults node.Blames node.flatPairs
  | .scalar .. => faults_ok _
  | .sequence .. => faults_ok _
  | .mapping head pairs => by
      rw [flatPairs]
      refine faults_bind ?_ fun _ => faults_ok _
      exact mergedPairs_faults (.mapping head pairs) pairs fun pair hpair => below_of_pair hpair
termination_by structural node => node

theorem mergedPairs_faults (root : Node) : ∀ pairs : List (Node × Node), root.PairsBelow pairs →
    Faults root.Blames (mergedPairs root.start pairs)
  | [], _ => faults_ok _
  | (key, value) :: rest, hbelow => by
      obtain ⟨⟨-, hvalue⟩, hrest⟩ := List.forall_mem_cons.mp hbelow
      rw [mergedPairs]
      split_ifs
      · have happend : ∀ merged : Pairs, Faults root.Blames (do
            let rest ← mergedPairs root.start rest
            pure (merged ++ rest)) :=
          fun _ => faults_bind (mergedPairs_faults root rest hrest) fun _ => faults_ok _
        match value, hvalue with
        | .mapping head pairs, hvalue =>
            exact faults_bind (faults_below (flatPairs_faults (.mapping head pairs)) hvalue) happend
        | .sequence head items, hvalue =>
            have hitems : ∀ item ∈ items, item.Below root :=
              fun item hitem => (below_child hitem).trans hvalue
            exact faults_bind (mergedItems_faults root items hitems) fun _ => happend _
        | .scalar head text style, hvalue =>
            exact faults_bind (faults_error (blames_within hvalue)) happend
      · exact mergedPairs_faults root rest hrest
termination_by structural pairs => pairs

theorem mergedItems_faults (root : Node) : ∀ items : List Node, (∀ item ∈ items, item.Below root) →
    Faults root.Blames (mergedItems root.start items)
  | [], _ => faults_ok _
  | item :: rest, hbelow => by
      obtain ⟨hitem, hrest⟩ := List.forall_mem_cons.mp hbelow
      rw [mergedItems]
      split
      · exact faults_bind (faults_below (flatPairs_faults item) hitem) fun _ =>
          faults_bind (mergedItems_faults root rest hrest) fun _ => faults_ok _
      · exact faults_error (blames_within hitem)
termination_by structural items => items

end

end Node

namespace Document

variable {cursor : Cursor} {visit : Node → WalkM Value} {root : Node}

/-- Whatever a visit refuses, it refuses for a node that is visited or one below. -/
def VisitBlames (visit : Node → WalkM Value) : Prop :=
  ∀ node w, Faults node.Blames (visit node w)

theorem walkItems_faults (hvisit : VisitBlames visit) (items : List Node)
    (hbelow : ∀ item ∈ items, item.Below root) (w : Walk) :
    Faults root.Blames (walkItems visit items w) := by
  induction items generalizing w with
  | nil => exact faults_ok _
  | cons item rest ih =>
      obtain ⟨hitem, hrest⟩ := List.forall_mem_cons.mp hbelow
      exact faults_bind (Node.faults_below (hvisit item w) hitem) fun ⟨_, w₁⟩ =>
        faults_bind (ih hrest w₁) fun _ => faults_ok _

theorem walkPairs_faults (hvisit : VisitBlames visit) (pairs : List (Node × Node))
    (hbelow : root.PairsBelow pairs) (m : Mapping) (w : Walk) :
    Faults root.Blames (walkPairs cursor root.start visit pairs m w) := by
  induction pairs generalizing m w with
  | nil => exact faults_ok _
  | cons pair rest ih =>
      obtain ⟨keyNode, valueNode⟩ := pair
      obtain ⟨⟨hkeyNode, hvalueNode⟩, hrest⟩ := List.forall_mem_cons.mp hbelow
      refine faults_bind (Node.faults_below (hvisit keyNode w) hkeyNode) fun ⟨keyValue, w₁⟩ => ?_
      cases hkey : keyValue.key? with
      | none =>
          simp only [hkey]
          exact faults_error (Node.blames_within hkeyNode)
      | some key =>
          simp only [hkey]
          exact faults_bind (Node.faults_below (hvisit valueNode _) hvalueNode)
            fun ⟨value, w₂⟩ => ih hrest _ w₂

theorem walkText_faults (node : Node) (w : Walk) :
    Faults node.Blames (walkText cursor node w) := by
  cases node with
  | scalar head text style => exact faults_ok _
  | sequence head items => exact faults_error (Node.blames_problem _ _)
  | mapping head pairs => exact faults_error (Node.blames_problem _ _)

theorem walkSequence_faults (hvisit : VisitBlames visit) (node : Node) (w : Walk) :
    Faults node.Blames (walkSequence cursor visit node w) := by
  cases node with
  | scalar head text style => exact faults_error (Node.blames_problem _ _)
  | sequence head items =>
      have hbelow : ∀ item ∈ (Node.sequence head items).children,
          item.Below (.sequence head items) := fun _ => Node.below_child
      exact faults_bind (walkItems_faults hvisit items hbelow _) fun _ => faults_ok _
  | mapping head pairs => exact faults_error (Node.blames_problem _ _)

theorem walkMapping_faults (hvisit : VisitBlames visit) (node : Node) (w : Walk) :
    Faults node.Blames (walkMapping cursor visit node w) := by
  cases node with
  | scalar head text style => exact faults_error (Node.blames_problem _ _)
  | sequence head items => exact faults_error (Node.blames_problem _ _)
  | mapping head pairs =>
      have hflat := (Node.flatPairs_faults (.mapping head pairs)).endsIn
        fun _ => Node.flatPairs_below _
      exact hflat.faults_bind fun flat hbelow =>
        faults_bind (walkPairs_faults hvisit flat hbelow _ _) fun _ => faults_ok _

theorem walkFresh_faults (hvisit : VisitBlames visit) (node : Node) (w : Walk) :
    Faults node.Blames (walkFresh cursor visit node w) := by
  unfold walkFresh
  split
  · exact walkSequence_faults hvisit node w
  · exact walkMapping_faults hvisit node w
  · exact faults_error (Node.blames_problem _ _)
  · split_ifs
    · exact faults_bind (walkText_faults node w) fun _ => faults_ok _
    · exact faults_error (Node.blames_problem _ _)
  · exact faults_bind (walkText_faults node w) fun _ =>
      faults_bind (faults_mapError fun _ => node.blames_problem _) fun _ => faults_ok _

theorem walkNode_faults (n : Nat) : VisitBlames (walkNode cursor n) := by
  induction n with
  | zero => exact fun node _ => faults_error (node.blames_problem _)
  | succ n ih =>
      intro node w
      rw [walkNode]
      split
      · exact faults_ok _
      · exact faults_bind (walkFresh_faults ih node w) fun _ => faults_ok _

theorem ofNode_faults (cursor : Cursor) (node : Node) : Faults node.Blames (ofNode cursor node) :=
  faults_bind (walkNode_faults _ node _) fun _ => faults_ok _

end Document

end Playbook
