/-!
Lists that are kept in order and hold no two items of the same place.
-/

namespace Playbook

variable {α κ : Type}

/-- Put an item in its place. Where neither of two items comes before the other, `combine` makes one
of the new and the old. -/
def insertWith (before : α → α → Bool) (combine : α → α → α) (a : α) : List α → List α
  | [] => [a]
  | b :: rest =>
      if before a b then a :: b :: rest
      else if before b a then b :: insertWith before combine a rest
      else combine a b :: rest

/-- Put an item in its place, unless the place is taken. -/
def insertNew (before : α → α → Bool) (a : α) (items : List α) : List α :=
  insertWith before (fun _ old => old) a items

/-- Names in order, each once. -/
def sortNames (names : List String) : List String :=
  names.foldl (fun sorted name => insertNew (fun a b => a < b) name sorted) []

/-- The keys of the items increase. -/
def Ascending [LT κ] (key : α → κ) (items : List α) : Prop :=
  items.Pairwise fun a b => key a < key b

instance [LT κ] [DecidableLT κ] (key : α → κ) (items : List α) : Decidable (Ascending key items) :=
  inferInstanceAs (Decidable (List.Pairwise _ _))

section Insert

variable [LE κ] [LT κ] [Std.IsLinearOrder κ] [Std.LawfulOrderLT κ] {key : α → κ}
  {before : α → α → Bool} {combine : α → α → α} {a c : α} {items : List α}

/-- A new item has its own key, or takes over that of an old one. -/
theorem key_of_mem_insertWith (hbefore : ∀ a b, before a b = true ↔ key a < key b)
    (hcombine : ∀ a b, key a = key b → key (combine a b) = key b)
    (hc : c ∈ insertWith before combine a items) :
    key c = key a ∨ ∃ b ∈ items, key c = key b := by
  induction items with
  | nil =>
      rw [List.mem_singleton.mp hc]
      exact Or.inl rfl
  | cons b rest ih =>
      unfold insertWith at hc
      split at hc
      · rcases List.mem_cons.mp hc with rfl | hc
        · exact Or.inl rfl
        · exact Or.inr ⟨c, hc, rfl⟩
      · rename_i hab
        split at hc
        · rcases List.mem_cons.mp hc with rfl | hc
          · exact Or.inr ⟨c, List.mem_cons_self, rfl⟩
          · apply (ih hc).imp_right
            rintro ⟨b', hb', hkey⟩
            exact ⟨b', List.mem_cons_of_mem b hb', hkey⟩
        · rename_i hba
          rw [hbefore] at hab hba
          rcases List.mem_cons.mp hc with rfl | hc
          · have hkey := hcombine a b (Std.le_antisymm (Std.not_lt.mp hba) (Std.not_lt.mp hab))
            exact Or.inr ⟨b, List.mem_cons_self, hkey⟩
          · exact Or.inr ⟨c, List.mem_cons_of_mem b hc, rfl⟩

theorem Ascending.insertWith (hbefore : ∀ a b, before a b = true ↔ key a < key b)
    (hcombine : ∀ a b, key a = key b → key (combine a b) = key b)
    (h : Ascending key items) : Ascending key (insertWith before combine a items) := by
  induction items with
  | nil => exact List.pairwise_singleton _ a
  | cons b rest ih =>
      obtain ⟨hb, hrest⟩ := List.pairwise_cons.mp h
      unfold Playbook.insertWith
      split
      · rename_i hab
        rw [hbefore] at hab
        refine List.pairwise_cons.mpr ⟨?_, h⟩
        intro c hc
        rcases List.mem_cons.mp hc with rfl | hc
        · exact hab
        · exact Std.lt_trans hab (hb c hc)
      · rename_i hab
        split
        · rename_i hba
          rw [hbefore] at hba
          refine List.pairwise_cons.mpr ⟨?_, ih hrest⟩
          intro c hc
          rcases key_of_mem_insertWith hbefore hcombine hc with hkey | ⟨b', hb', hkey⟩
          · rwa [hkey]
          · rw [hkey]
            exact hb b' hb'
        · rename_i hba
          rw [hbefore] at hab hba
          have hkey := hcombine a b (Std.le_antisymm (Std.not_lt.mp hba) (Std.not_lt.mp hab))
          refine List.pairwise_cons.mpr ⟨?_, hrest⟩
          rw [hkey]
          exact hb

theorem Ascending.insertNew (hbefore : ∀ a b, before a b = true ↔ key a < key b)
    (h : Ascending key items) : Ascending key (insertNew before a items) :=
  h.insertWith hbefore fun _ _ _ => rfl

end Insert

end Playbook
