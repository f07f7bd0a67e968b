import Playbook.Proofs.RepairLoop

/-!
What a text means does not depend on the cursor. Two walks over the same nodes with different
cursors keep the same values and run into the same problems, and differ only in their trails; so two
loads of a text go through the same texts and come to the same end.
-/

namespace Playbook

/-- Two outcomes of a walk that differ at most in the trail: the same result with the same values
built, or the same problem. -/
inductive Alike {α : Type} : Except Diagnostic (α × Walk) → Except Diagnostic (α × Walk) → Prop
  | error (d : Diagnostic) : Alike (.error d) (.error d)
  | ok (a : α) {w w' : Walk} (h : w.built = w'.built) : Alike (.ok (a, w)) (.ok (a, w'))

theorem Alike.bind {α β : Type} {x x' : Except Diagnostic (α × Walk)}
    {f f' : α × Walk → Except Diagnostic (β × Walk)} (h : Alike x x')
    (hf : ∀ a w w', w.built = w'.built → Alike (f (a, w)) (f' (a, w'))) :
    Alike (x >>= f) (x' >>= f') := by
  cases h with
  | error d => exact .error d
  | ok a hbuilt => exact hf a _ _ hbuilt

namespace Document

section Walks

variable {cursor cursor' : Cursor} {visit visit' : Node → WalkM Value} {w w' : Walk}

theorem walkText_alike (node : Node) (h : w.built = w'.built) :
    Alike (walkText cursor node w) (walkText cursor' node w') := by
  cases node with
  | scalar head text style => exact .ok text (by simp [h])
  | sequence head items => exact .error _
  | mapping head pairs => exact .error _

theorem walkItems_alike
    (hvisit : ∀ node w w', w.built = w'.built → Alike (visit node w) (visit' node w'))
    (items : List Node) (h : w.built = w'.built) :
    Alike (walkItems visit items w) (walkItems visit' items w') := by
  induction items generalizing w w' with
  | nil => exact .ok [] h
  | cons item rest ih =>
      refine (hvisit item w w' h).bind fun value w₁ w₁' h₁ => ?_
      exact (ih h₁).bind fun values w₂ w₂' h₂ => .ok _ h₂

theorem walkPairs_alike (start : Mark)
    (hvisit : ∀ node w w', w.built = w'.built → Alike (visit node w) (visit' node w'))
    (pairs : List (Node × Node)) (m : Mapping) (h : w.built = w'.built) :
    Alike (walkPairs cursor start visit pairs m w) (walkPairs cursor' start visit' pairs m w') := by
  induction pairs generalizing m w w' with
  | nil => exact .ok m h
  | cons pair rest ih =>
      obtain ⟨keyNode, valueNode⟩ := pair
      refine (hvisit keyNode w w' h).bind fun keyValue w₁ w₁' h₁ => ?_
      dsimp only
      cases keyValue.key? with
      | none => exact .error _
      | some key =>
          -- Whether the key leaves an entry depends on the cursor, what is built does not.
          have hentered : (if w₁.isNew cursor valueNode then w₁.enter key.toValue else w₁).built =
              (if w₁'.isNew cursor' valueNode then w₁'.enter key.toValue else w₁').built := by
            split_ifs <;> simp [h₁]
          refine (hvisit valueNode _ _ hentered).bind fun value w₂ w₂' h₂ => ?_
          exact ih _ h₂

theorem walkSequence_alike
    (hvisit : ∀ node w w', w.built = w'.built → Alike (visit node w) (visit' node w'))
    (node : Node) (h : w.built = w'.built) :
    Alike (walkSequence cursor visit node w) (walkSequence cursor' visit' node w') := by
  cases node with
  | scalar head text style => exact .error _
  | mapping head pairs => exact .error _
  | sequence head items =>
      refine (walkItems_alike hvisit items (by simp [h])).bind fun values w₁ w₁' h₁ => ?_
      exact .ok _ (by simp [h₁])

theorem walkMapping_alike
    (hvisit : ∀ node w w', w.built = w'.built → Alike (visit node w) (visit' node w'))
    (node : Node) (h : w.built = w'.built) :
    Alike (walkMapping cursor visit node w) (walkMapping cursor' visit' node w') := by
  cases node with
  | scalar head text style => exact .error _
  | sequence head items => exact .error _
  | mapping head pairs =>
      unfold walkMapping
      dsimp only
      cases Node.flatPairs (.mapping head pairs) with
      | error d => exact .error d
      | ok flat =>
          refine (walkPairs_alike _ hvisit flat [] (by simp [h])).bind fun m w₁ w₁' h₁ => ?_
          exact .ok _ (by simp [h₁])

theorem walkFresh_alike
    (hvisit : ∀ node w w', w.built = w'.built → Alike (visit node w) (visit' node w'))
    (node : Node) (h : w.built = w'.built) :
    Alike (walkFresh cursor visit node w) (walkFresh cursor' visit' node w') := by
  unfold walkFresh
  dsimp only
  split
  · exact walkSequence_alike hvisit node h
  · exact walkMapping_alike hvisit node h
  · exact .error _
  · split_ifs
    · exact (walkText_alike node h).bind fun text _ _ h₁ => .ok _ h₁
    · exact .error _
  · refine (walkText_alike node h).bind fun text _ _ h₁ => ?_
    cases scalarValue node.tag text with
    | error overflow => exact .error _
    | ok value => exact .ok value h₁

theorem walkNode_alike (n : Nat) (node : Node) (h : w.built = w'.built) :
    Alike (walkNode cursor n node w) (walkNode cursor' n node w') := by
  induction n generalizing node w w' with
  | zero => exact .error _
  | succ n ih =>
      unfold walkNode
      rw [← h]
      cases w.built.lookup node.id with
      | some value => exact .ok value h
      | none =>
          refine (walkFresh_alike (fun node _ _ => ih node) node h).bind fun value w₁ w₁' h₁ => ?_
          exact .ok value (by rw [h₁])

end Walks

/-- The value of a text, or what is wrong with it, does not depend on the cursor. -/
theorem ofText_root (text : List Char) (cursor cursor' : Cursor) :
    (ofText text cursor).map root = (ofText text cursor').map root := by
  unfold ofText
  cases Node.ofEvents (Event.ofText text) with
  | error d => rfl
  | ok node? =>
      cases node? with
      | none => rfl
      | some node =>
          have halike : Alike (walkNode cursor (node.id + 1) node .start)
              (walkNode cursor' (node.id + 1) node .start) := walkNode_alike _ node rfl
          change (ofNode cursor node).map root = (ofNode cursor' node).map root
          unfold ofNode
          generalize walkNode cursor (node.id + 1) node .start = x at halike
          generalize walkNode cursor' (node.id + 1) node .start = x' at halike
          cases halike with
          | error d => rfl
          | ok value h => rfl

theorem map_root_eq_error {ε : Type} {x x' : Except ε Document} {e : ε}
    (h : x.map root = x'.map root) (hx : x = .error e) : x' = .error e := by
  subst hx
  cases x' with
  | error e' =>
      cases h
      rfl
  | ok document => cases h

theorem mended?_congr {text : List Char} {x x' : Except Diagnostic Document}
    (h : x.map root = x'.map root) : mended? text x = mended? text x' := by
  cases x with
  | error d => rw [map_root_eq_error h rfl]
  | ok document =>
      cases x' with
      | error d => cases h
      | ok document' => rfl

theorem repaired?_cursor (cursor cursor' : Cursor) (source : List Char) (k : Nat) :
    repaired? cursor source k = repaired? cursor' source k := by
  induction k with
  | zero => rfl
  | succ k ih =>
      rw [repaired?, repaired?, ih]
      exact Option.bind_congr fun text _ => mended?_congr (ofText_root text cursor cursor')

end Document

end Playbook
