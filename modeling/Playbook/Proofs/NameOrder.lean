import Mathlib.Data.List.Sort
import Mathlib.Data.String.Basic
import Playbook.Workspace

/-!
Lists that are kept in order. An item goes to the place of its key, so items that come in any order
end up with increasing keys. Names are ordered by their characters, which is the order of their
bytes.
-/

namespace Playbook

/-! ### Names by their bytes -/

/-- The bytes of a name. -/
def bytes (name : String) : List UInt8 := name.toUTF8.data.toList

theorem bytes_eq (name : String) : bytes name = name.toList.flatMap String.utf8EncodeChar := by
  rw [bytes, String.toUTF8, ← String.utf8Encode_toList, List.utf8Encode,
    List.toList_data_toByteArray]

theorem byte_cons_lt {m n : Nat} {rest rest' : List UInt8} (hm : m < 256) (hn : n < 256)
    (hle : m ≤ n) (h : m = n → rest < rest') :
    UInt8.ofNat m :: rest < UInt8.ofNat n :: rest' := by
  rw [List.cons_lt_cons_iff, UInt8.ofNat_lt_iff_lt hm hn]
  rcases Nat.lt_or_eq_of_le hle with hlt | rfl
  · exact Or.inl hlt
  · exact Or.inr ⟨rfl, h rfl⟩

/-- Of two characters the one with the smaller code has the smaller bytes, whatever follows. -/
theorem utf8EncodeChar_lt {c d : Char} (h : c < d) (rest rest' : List UInt8) :
    String.utf8EncodeChar c ++ rest < String.utf8EncodeChar d ++ rest' := by
  have hlt : c.val.toNat < d.val.toNat := h
  have hmax : d.val.toNat < 0x110000 := by
    rcases d.valid with hlow | ⟨-, hhigh⟩
    · exact Nat.lt_trans hlow (by decide)
    · exact hhigh
  unfold String.utf8EncodeChar
  dsimp only
  -- The encodings have one to four bytes, and that of `d` has at least as many as that of `c`.
  split_ifs
  all_goals try omega
  all_goals repeat refine byte_cons_lt (by omega) (by omega) (by omega) fun _ => ?_
  all_goals omega

theorem bytes_lt {s t : String} (h : s < t) : bytes s < bytes t := by
  rw [bytes_eq, bytes_eq]
  have hlist : s.toList < t.toList := h
  generalize s.toList = cs, t.toList = ds at hlist
  induction hlist with
  | nil =>
      rename_i d ds
      obtain ⟨byte, more, hbytes⟩ :=
        List.exists_cons_of_ne_nil (String.utf8EncodeChar_ne_nil (c := d))
      rw [List.flatMap_cons, hbytes]
      exact List.nil_lt_cons _ _
  | rel hcd => exact utf8EncodeChar_lt hcd _ _
  | cons _ ih => exact List.append_left_lt ih

/-! ### Lists in the order of a key -/

section Ascending

variable {α κ : Type} [LinearOrder κ] {key : α → κ} {before : α → α → Bool} {a c : α}
  {items : List α}

theorem Ascending.map_nodup (h : Ascending key items) : (items.map key).Nodup :=
  (List.pairwise_map.mpr h).imp ne_of_lt

/-- In an ascending list the key determines the item. -/
theorem Ascending.eq_of_key_eq (h : Ascending key items) (ha : a ∈ items) (hc : c ∈ items)
    (hkey : key a = key c) : a = c :=
  List.inj_on_of_nodup_map h.map_nodup ha hc hkey

/-- Items of an ascending list that are among those of another stand there in the same order. -/
theorem Ascending.sublist {items' : List α} (h : Ascending key items) (h' : Ascending key items')
    (hsubset : items ⊆ items') : items.Sublist items' := by
  have hnodup : items.Nodup := h.map_nodup.of_map
  obtain ⟨sorted, hperm, hsublist⟩ := List.subperm_of_subset hnodup hsubset
  have hsorted : Ascending key sorted := List.Pairwise.sublist hsublist h'
  have heq : sorted = items :=
    hperm.eq_of_pairwise (fun a c _ _ hlt hgt => absurd hlt (lt_asymm hgt)) hsorted h
  rwa [heq] at hsublist

/-- Where the key determines the item, nothing is lost. -/
theorem mem_insertNew_iff (hbefore : ∀ a b, before a b = true ↔ key a < key b)
    (hkey : ∀ b ∈ items, key a = key b → a = b) :
    c ∈ insertNew before a items ↔ c = a ∨ c ∈ items := by
  unfold insertNew
  induction items with
  | nil => simp [insertWith]
  | cons b rest ih =>
      obtain ⟨hb, hrest⟩ := List.forall_mem_cons.mp hkey
      unfold insertWith
      split_ifs with hab hba
      · exact List.mem_cons
      · rw [List.mem_cons, ih hrest, List.mem_cons, or_left_comm]
      · rw [hbefore] at hab hba
        obtain rfl := hb (le_antisymm (not_lt.mp hba) (not_lt.mp hab))
        simp

theorem Ascending.insertAll (hbefore : ∀ a b, before a b = true ↔ key a < key b) (more : List α)
    (h : Ascending key items) :
    Ascending key (more.foldl (fun sorted a => Playbook.insertNew before a sorted) items) := by
  induction more generalizing items with
  | nil => exact h
  | cons a more ih => exact ih (h.insertNew hbefore)

theorem mem_insertAll_iff (hbefore : ∀ a b, before a b = true ↔ key a < key b) {more : List α}
    (hkey : ∀ a ∈ more, ∀ b, b ∈ items ∨ b ∈ more → key a = key b → a = b) :
    c ∈ more.foldl (fun sorted a => insertNew before a sorted) items ↔ c ∈ items ∨ c ∈ more := by
  induction more generalizing items with
  | nil => simp
  | cons a more ih =>
      have hmem : ∀ b, b ∈ insertNew before a items ↔ b = a ∨ b ∈ items := fun b =>
        mem_insertNew_iff hbefore fun b hb => hkey a List.mem_cons_self b (Or.inl hb)
      rw [List.foldl_cons, ih, hmem, List.mem_cons, or_assoc, or_left_comm]
      intro a' ha' b hb
      apply hkey a' (List.mem_cons_of_mem a ha')
      rw [hmem] at hb
      rw [List.mem_cons]
      tauto

end Ascending

/-! ### Catalogs -/

namespace DirectiveCatalog

theorem get?_of_mem {catalog : DirectiveCatalog} {d : Directive} (hd : d ∈ catalog.entries) :
    catalog.get? d.name = some d := by
  obtain ⟨found, hfound⟩ : ∃ found, catalog.get? d.name = some found :=
    Option.isSome_iff_exists.mp (List.find?_isSome.mpr ⟨d, hd, beq_self_eq_true _⟩)
  have hname := List.find?_some hfound
  rw [beq_iff_eq] at hname
  rw [hfound, catalog.ascending.eq_of_key_eq (List.mem_of_find?_eq_some hfound) hd hname]

/-- A kind accepts the name of a directive exactly if it is one of its kinds. -/
theorem accepts_iff {catalog : DirectiveCatalog} {d : Directive} (hd : d ∈ catalog.entries)
    {kind : EntityKind} :
    catalog.accepts kind d.name = true ↔ d.kinds.contains kind = true := by
  rw [accepts, get?_of_mem hd]
  rfl

end DirectiveCatalog

end Playbook
