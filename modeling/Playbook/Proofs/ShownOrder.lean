import Playbook.Proofs.CandidateSet

/-!
The order in which an editor shows what it is offered. Items carry their number as a text to be
sorted by. Texts of one length compare like the numbers that they spell, but all numbers have four
digits only up to 9999: ten thousand items are shown in their order, and one more is not.
-/

namespace Playbook

/-! ### Texts of digits -/

section Digits

variable {cs ds : List Char}

theorem digit_bounds {c : Char} (h : c.isDigit = true) : 48 ≤ c.toNat ∧ c.toNat ≤ 57 :=
  Char.isDigit_iff_toNat.mp h

theorem ofDigitChars_lt_pow (h : ∀ c ∈ cs, c.isDigit = true) :
    Nat.ofDigitChars 10 cs 0 < 10 ^ cs.length := by
  induction cs with
  | nil => exact Nat.one_pos
  | cons c rest ih =>
      obtain ⟨hc, hrest⟩ := List.forall_mem_cons.mp h
      have hdigit : 10 * 0 + (c.toNat - '0'.toNat) ≤ 9 := by
        have hbounds := digit_bounds hc
        change 10 * 0 + (c.toNat - 48) ≤ 9
        omega
      have hhead := Nat.mul_le_mul_left (10 ^ rest.length) hdigit
      have htail := ih hrest
      rw [Nat.ofDigitChars_cons, Nat.ofDigitChars_eq_ofDigitChars_zero, List.length_cons,
        Nat.pow_succ]
      omega

/-- Of two texts of digits of one length, the one that comes first spells the smaller number. -/
theorem ofDigitChars_lt_of_lt (h : cs < ds) (hlength : cs.length = ds.length)
    (hcs : ∀ c ∈ cs, c.isDigit = true) (hds : ∀ d ∈ ds, d.isDigit = true) (init : Nat) :
    Nat.ofDigitChars 10 cs init < Nat.ofDigitChars 10 ds init := by
  induction h generalizing init with
  | nil => cases hlength
  | cons _ ih =>
      rw [Nat.ofDigitChars_cons, Nat.ofDigitChars_cons]
      exact ih (Nat.succ.inj hlength) (List.forall_mem_cons.mp hcs).2
        (List.forall_mem_cons.mp hds).2 _
  | @rel c rest d rest' hcd =>
      obtain ⟨hc, hrest⟩ := List.forall_mem_cons.mp hcs
      have hdigit : 10 * init + (c.toNat - '0'.toNat) + 1 ≤ 10 * init + (d.toNat - '0'.toNat) := by
        have hbounds := digit_bounds hc
        have hlt : c.toNat < d.toNat := hcd
        change 10 * init + (c.toNat - 48) + 1 ≤ 10 * init + (d.toNat - 48)
        omega
      have hhead := Nat.mul_le_mul_left (10 ^ rest.length) hdigit
      -- What follows the first difference is less than a unit of its place.
      have htail := ofDigitChars_lt_pow hrest
      rw [Nat.ofDigitChars_cons, Nat.ofDigitChars_cons, Nat.ofDigitChars_eq_ofDigitChars_zero,
        Nat.ofDigitChars_eq_ofDigitChars_zero (l := rest'), ← Nat.succ.inj hlength]
      rw [Nat.mul_add] at hhead
      omega

end Digits

namespace CompletionItem

/-! ### Numbers as texts to sort by -/

theorem isDigit_of_mem_fourDigits {n : Nat} {c : Char} (h : c ∈ (fourDigits n).toList) :
    c.isDigit = true := by
  rw [fourDigits, String.toList_ofList, List.mem_append] at h
  rcases h with hzero | hdigit
  · rw [List.eq_of_mem_replicate hzero]
    rfl
  · exact Nat.isDigit_of_mem_toDigits (by decide) (by decide) hdigit

theorem ofDigitChars_fourDigits (n : Nat) : Nat.ofDigitChars 10 (fourDigits n).toList 0 = n := by
  rw [fourDigits, String.toList_ofList, Nat.ofDigitChars_append, Nat.ofDigitChars_replicate_zero,
    Nat.mul_zero, Nat.ofDigitChars_ten_toDigits]

/-- A number below `10 ^ k` has `k` digits with its zeros, and one from `10 ^ k` on has more. -/
theorem length_fourDigits_le_iff {n k : Nat} (hk : 4 ≤ k) :
    (fourDigits n).toList.length ≤ k ↔ n < 10 ^ k := by
  rw [← Nat.length_toDigits_le_iff (by decide) (by omega), fourDigits, String.toList_ofList,
    List.length_append, List.length_replicate]
  omega

theorem four_le_length_fourDigits (n : Nat) : 4 ≤ (fourDigits n).toList.length := by
  rw [fourDigits, String.toList_ofList, List.length_append, List.length_replicate]
  omega

/-- Numbers with equally many digits are sorted like their texts. -/
theorem fourDigits_lt_iff {m n : Nat}
    (hlength : (fourDigits m).toList.length = (fourDigits n).toList.length) :
    fourDigits m < fourDigits n ↔ m < n := by
  have hlt : ∀ {i j : Nat}, (fourDigits i).toList.length = (fourDigits j).toList.length →
      fourDigits i < fourDigits j → i < j := by
    intro i j hlength h
    have hvalue := ofDigitChars_lt_of_lt (String.lt_iff_toList_lt.mp h) hlength
      (fun _ => isDigit_of_mem_fourDigits) (fun _ => isDigit_of_mem_fourDigits) 0
    rwa [ofDigitChars_fourDigits, ofDigitChars_fourDigits] at hvalue
  refine ⟨hlt hlength, fun h => ?_⟩
  rcases lt_trichotomy (fourDigits m) (fourDigits n) with hbefore | hsame | hbehind
  · exact hbefore
  · have hvalue := congrArg (fun s => Nat.ofDigitChars 10 s.toList 0) hsame
    simp only [ofDigitChars_fourDigits] at hvalue
    omega
  · exact absurd (hlt hlength.symm hbehind) (Nat.lt_asymm h)

theorem length_fourDigits_of_lt {n : Nat} (h : n < 10000) : (fourDigits n).toList.length = 4 :=
  Nat.le_antisymm ((length_fourDigits_le_iff (k := 4) (by decide)).mpr h)
    (four_le_length_fourDigits n)

/-! ### Items in order -/

theorem map_sortText_ofCandidates (candidates : List Candidate) :
    (ofCandidates candidates).map sortText = (List.range candidates.length).map fourDigits := by
  apply List.ext_getElem
  · simp [ofCandidates]
  · intro i _ _
    simp [ofCandidates, ofCandidate]

/-- The text of the ten thousand and first item comes before that of the item above it. -/
theorem le_of_pairwise_fourDigits {n : Nat}
    (h : ((List.range n).map fourDigits).Pairwise (· ≤ ·)) : n ≤ 10000 := by
  by_contra hmore
  rw [List.pairwise_map] at h
  have hpair := List.pairwise_iff_getElem.mp h 9999 10000
    (by rw [List.length_range]; omega) (by rw [List.length_range]; omega) (by decide)
  rw [List.getElem_range, List.getElem_range] at hpair
  exact absurd hpair (by decide)

theorem pairwise_fourDigits_iff {n : Nat} :
    ((List.range n).map fourDigits).Pairwise (· < ·) ↔ n ≤ 10000 := by
  constructor
  · exact fun h => le_of_pairwise_fourDigits (h.imp le_of_lt)
  · intro hn
    rw [List.pairwise_map]
    refine List.pairwise_lt_range.imp_of_mem ?_
    intro i j hi hj hlt
    rw [List.mem_range] at hi hj
    apply (fourDigits_lt_iff ?_).mpr hlt
    rw [length_fourDigits_of_lt (by omega), length_fourDigits_of_lt (by omega)]

/-- What an editor may show that sorts items by their sort texts. -/
structure Shows (shown items : List CompletionItem) : Prop where
  perm : shown.Perm items
  sorted : shown.Pairwise fun a b => a.sortText ≤ b.sortText

variable {shown items : List CompletionItem}

/-- Items with increasing sort texts can be shown in one way only. -/
theorem shows_iff_of_ascending (h : Ascending sortText items) :
    Shows shown items ↔ shown = items := by
  constructor
  · intro hshows
    refine hshows.perm.eq_of_pairwise ?_ hshows.sorted (h.imp le_of_lt)
    intro a b ha hb hle hge
    exact h.eq_of_key_eq (hshows.perm.mem_iff.mp ha) hb (le_antisymm hle hge)
  · rintro rfl
    exact ⟨List.Perm.refl shown, h.imp le_of_lt⟩

theorem ascending_ofCandidates_iff {candidates : List Candidate} :
    Ascending sortText (ofCandidates candidates) ↔ candidates.length ≤ 10000 := by
  rw [Ascending, ← List.pairwise_map, map_sortText_ofCandidates, pairwise_fourDigits_iff]

/-- The sort texts of items increase, and an editor that sorts by them shows the items in the order
of the candidates and in no other, exactly if there are at most ten thousand candidates. -/
theorem ofCandidates_shown_iff (candidates : List Candidate) :
    (((ofCandidates candidates).map sortText).Pairwise (· < ·) ↔ candidates.length ≤ 10000) ∧
    ((∀ shown, Shows shown (ofCandidates candidates) ↔ shown = ofCandidates candidates) ↔
      candidates.length ≤ 10000) := by
  refine ⟨?_, fun h => ?_, fun h => ?_⟩
  · rw [map_sortText_ofCandidates, pairwise_fourDigits_iff]
  · have hsorted := List.pairwise_map.mpr ((h _).mpr rfl).sorted
    rw [map_sortText_ofCandidates] at hsorted
    exact le_of_pairwise_fourDigits hsorted
  · exact fun shown => shows_iff_of_ascending (ascending_ofCandidates_iff.mpr h)

theorem crowd_ascending : Ascending ModuleInfo.name
    ((List.range' 10000 10001).map fun n => ⟨fourDigits n, none⟩) := by
  rw [Ascending, List.pairwise_map]
  refine List.Pairwise.imp_of_mem ?_ (List.pairwise_lt_range' (s := 10000))
  intro m n hm hn hlt
  rw [List.mem_range'_1] at hm hn
  have hfive : ∀ {k : Nat}, 10000 ≤ k → k < 20001 → (fourDigits k).toList.length = 5 := by
    intro k hlow hhigh
    have hmost := (length_fourDigits_le_iff (n := k) (k := 5) (by decide)).mpr (by omega)
    have hleast := (length_fourDigits_le_iff (n := k) (k := 4) (by decide)).not.mpr (by omega)
    omega
  apply (fourDigits_lt_iff ?_).mpr hlt
  rw [hfive hm.1 hm.2, hfive hn.1 hn.2]

/-- Modules that are named by the numbers from 10000 to 20000, in order. -/
def crowd : ModuleCatalog := ⟨_, crowd_ascending⟩

/-- Where the name of a module is asked for and there are so many, the last one has a sort text
before that of the one above it. -/
theorem ofCandidates_crowd :
    ¬ ((ofCandidates (Candidate.collect { Context.none with moduleName := true }
      ⟨.empty, crowd, .ofTable []⟩ .empty "").1).map sortText).Pairwise (· < ·) := by
  rw [map_sortText_ofCandidates, pairwise_fourDigits_iff, Nat.not_le]
  have hnodup : (crowd.entries.map Candidate.moduleName).Nodup :=
    crowd_ascending.map_nodup.of_map.map (fun _ _ => Candidate.moduleName.inj)
  have hsubset : crowd.entries.map Candidate.moduleName ⊆
      (Candidate.collect { Context.none with moduleName := true }
        ⟨.empty, crowd, .ofTable []⟩ .empty "").1 := by
    intro c hc
    obtain ⟨m, hm, rfl⟩ := List.mem_map.mp hc
    exact Candidate.mem_collect_iff.mpr (.moduleName rfl hm List.nil_infix)
  have hlength := (List.subperm_of_subset hnodup hsubset).length_le
  rw [List.length_map, crowd, List.length_map, List.length_range'] at hlength
  exact hlength

end CompletionItem

end Playbook
