import TreeQuery.Proofs.Text.Offsets
import TreeQuery.Text.Ascii
import Mathlib

/-!
# Letters without case

Making an ASCII letter small changes capital letters alone, and these by a constant (`toNat_toLower`). So the
bytes of a text keep their number, and no other character becomes a hyphen.
-/

namespace TreeQuery.Text

open String (utf8Len)

variable {s lead rest : List Char} {c : Char}

/-- The capital letters and their small ones. -/
theorem toNat_toLower (h : c.isUpper = true) :
    65 ≤ c.toNat ∧ c.toNat ≤ 90 ∧ c.toLower.toNat = c.toNat + 32 := by
  have hrange : 65 ≤ c.toNat ∧ c.toNat ≤ 90 := of_decide_eq_true h
  have hvalid : (c.toNat + 32).isValidChar := .inl (by omega)
  rw [Char.toLower_eq_of_isUpper h, Char.toNat_ofNat, if_pos hvalid]
  exact ⟨hrange.1, hrange.2, rfl⟩

/-- A capital letter and its small one have one byte. -/
theorem utf8Size_toLower (c : Char) : c.toLower.utf8Size = c.utf8Size := by
  by_cases hcapital : c.isUpper = true
  · obtain ⟨-, hle, hlower⟩ := toNat_toLower hcapital
    have hone : ∀ d : Char, d.toNat ≤ 127 → d.utf8Size = 1 := fun d hd =>
      Char.utf8Size_eq_one_iff.2 (UInt32.le_iff_toNat_le.2 hd)
    rw [hone c (by omega), hone c.toLower (by omega)]
  · rw [Char.toLower_eq_of_not_isUpper hcapital]

theorem utf8Len_map_toLower (s : List Char) : utf8Len (s.map Char.toLower) = utf8Len s := by
  induction s with
  | nil => rfl
  | cons c s ih => rw [List.map_cons, String.utf8Len_cons, String.utf8Len_cons, ih, utf8Size_toLower]

/-- Only a hyphen becomes a hyphen. -/
theorem toLower_eq_hyphen : c.toLower = '-' ↔ c = '-' := by
  constructor
  · intro h
    by_cases hcapital : c.isUpper = true
    · obtain ⟨hge, -, hlower⟩ := toNat_toLower hcapital
      have hhyphen : c.toLower.toNat = 45 := congrArg Char.toNat h
      omega
    · rwa [Char.toLower_eq_of_not_isUpper hcapital] at h
  · rintro rfl
    rfl

theorem toList_foldAscii (s : String) : (foldAscii s).toList = s.toList.map Char.toLower :=
  String.toList_ofList

/-- What is dropped has the letters of the text to drop, in whatever case. -/
theorem dropLetters?_eq_some :
    dropLetters? lead s = some rest ↔
      ∃ head, s = head ++ rest ∧ head.map Char.toLower = lead.map Char.toLower := by
  induction lead generalizing s with
  | nil =>
    rw [dropLetters?, Option.some.injEq]
    constructor
    · rintro rfl
      exact ⟨[], rfl, rfl⟩
    · rintro ⟨head, rfl, hhead⟩
      rw [List.map_nil, List.map_eq_nil_iff] at hhead
      rw [hhead, List.nil_append]
  | cons a lead ih =>
    cases s with
    | nil =>
      constructor
      · intro h
        cases h
      · rintro ⟨head, happ, hhead⟩
        obtain ⟨rfl, rfl⟩ := List.append_eq_nil_iff.1 happ.symm
        cases hhead
    | cons c s =>
      rw [dropLetters?]
      constructor
      · intro h
        obtain ⟨hletter, hdrop⟩ := Option.ite_none_right_eq_some.1 h
        obtain ⟨head, rfl, hhead⟩ := ih.1 hdrop
        refine ⟨c :: head, rfl, ?_⟩
        rw [List.map_cons, List.map_cons, hhead, beq_iff_eq.1 hletter]
      · rintro ⟨head, happ, hhead⟩
        cases head with
        | nil => cases hhead
        | cons d head =>
          obtain ⟨rfl, rfl⟩ := List.cons_eq_cons.1 happ
          obtain ⟨hletter, hhead⟩ := List.cons_eq_cons.1 hhead
          rw [if_pos (beq_iff_eq.2 hletter.symm)]
          exact ih.2 ⟨head, rfl, hhead⟩

end TreeQuery.Text
