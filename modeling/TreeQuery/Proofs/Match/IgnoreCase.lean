import TreeQuery.Attribute
import TreeQuery.Proofs.Text.Lowercase

/-!
# Comparisons that ignore case

A comparison finds its operand at a place of the value (`Comparator.compare_iff`). The flag for ignoring case
puts the value and the operand into small letters, each as a text of its own, and what was found is found
again if the operand has the same small letters at its place as it has alone. A whole value, a word and a
language code end where nothing changes them. At the start, at the end or in the middle of a value, a
capital sigma may be final in one of the two texts and not in the other, and then the flag loses what is found
without it (`AttributeTest.accepts_ignoreCase`).
-/

namespace TreeQuery

open Text

variable {value operand lead rest before after : List Char}

namespace Comparator

/-- Where a comparator finds its operand: behind `lead` and in front of `rest`. -/
def FindsAt (lead operand rest : List Char) : Comparator → Prop
  | present | contains => True
  | equals => lead = [] ∧ rest = []
  | startsWith => lead = []
  | endsWith => rest = []
  | hasWord => operand ≠ [] ∧ (∀ c ∈ operand, isWordBreak c = false) ∧
      StartsWith isWordBreak lead.reverse ∧ StartsWith isWordBreak rest
  | startsWithCode => lead = [] ∧ StartsWith (· == '-') rest

theorem occursIn_iff : occursIn operand value = true ↔ operand <:+: value := by
  induction value with
  | nil => rw [occursIn, List.isEmpty_iff, List.infix_nil]
  | cons c value ih =>
    rw [occursIn, Bool.or_eq_true, List.isPrefixOf_iff_prefix, ih, List.infix_cons_iff]

theorem isCodeOf_iff :
    isCodeOf operand value = true ↔ ∃ rest, value = operand ++ rest ∧ StartsWith (· == '-') rest := by
  rw [isCodeOf, Bool.and_eq_true, List.isPrefixOf_iff_prefix]
  constructor
  · rintro ⟨⟨rest, rfl⟩, hrest⟩
    rw [List.drop_left] at hrest
    refine ⟨rest, rfl, ?_⟩
    cases rest with
    | nil => exact startsWith_nil _
    | cons c rest => exact startsWith_cons.2 hrest
  · rintro ⟨rest, rfl, hrest⟩
    refine ⟨List.prefix_append operand rest, ?_⟩
    rw [List.drop_left]
    cases rest with
    | nil => rfl
    | cons c rest => exact startsWith_cons.1 hrest

/-- A comparison that looks for its operand holds exactly if it finds it at some place. -/
theorem compare_iff {comparator : Comparator} (h : comparator ≠ present) :
    comparator.compare value operand = true ↔
      ∃ lead rest, value = lead ++ operand ++ rest ∧ comparator.FindsAt lead operand rest := by
  cases comparator with
  | present => exact absurd rfl h
  | equals =>
    rw [compare, beq_iff_eq]
    constructor
    · rintro rfl
      exact ⟨[], [], by simp, rfl, rfl⟩
    · rintro ⟨lead, rest, rfl, rfl, rfl⟩
      simp
  | startsWith =>
    rw [compare, List.isPrefixOf_iff_prefix]
    constructor
    · rintro ⟨rest, rfl⟩
      exact ⟨[], rest, rfl, rfl⟩
    · rintro ⟨lead, rest, rfl, rfl⟩
      exact List.prefix_append operand rest
  | endsWith =>
    rw [compare, List.isSuffixOf_iff_suffix]
    constructor
    · rintro ⟨lead, rfl⟩
      exact ⟨lead, [], by simp, rfl⟩
    · rintro ⟨lead, rest, rfl, rfl⟩
      rw [List.append_nil]
      exact List.suffix_append lead operand
  | contains =>
    rw [compare, occursIn_iff]
    constructor
    · rintro ⟨lead, rest, rfl⟩
      exact ⟨lead, rest, rfl, trivial⟩
    · rintro ⟨lead, rest, rfl, -⟩
      exact List.infix_append lead operand rest
  | hasWord =>
    rw [compare, List.contains_iff_mem, mem_words_iff]
    constructor
    · rintro ⟨hne, hword, lead, rest, rfl, hlead, hrest⟩
      exact ⟨lead, rest, rfl, hne, hword, hlead, hrest⟩
    · rintro ⟨lead, rest, rfl, hne, hword, hlead, hrest⟩
      exact ⟨hne, hword, lead, rest, rfl, hlead, hrest⟩
  | startsWithCode =>
    rw [compare, isCodeOf_iff]
    constructor
    · rintro ⟨rest, rfl, hrest⟩
      exact ⟨[], rest, rfl, rfl, hrest⟩
    · rintro ⟨lead, rest, rfl, rfl, hrest⟩
      exact ⟨rest, rfl, hrest⟩

/-! ## Places in small letters -/

theorem isKept_of_beq_hyphen : ∀ c, (c == '-') = true → IsKept c := fun _ h =>
  beq_iff_eq.1 h ▸ isKept_hyphen

/-- A place of an operand is one of its small letters, in small letters. -/
theorem FindsAt.lowerWithin {comparator : Comparator} (h : comparator.FindsAt lead operand rest)
    (before after : List Char) (leadAfter restBefore : List Char) :
    comparator.FindsAt (lowerWithin [] lead leadAfter) (lowerWithin before operand after)
      (lowerWithin restBefore rest []) := by
  cases comparator with
  | present | contains => trivial
  | equals =>
    obtain ⟨rfl, rfl⟩ := h
    exact ⟨rfl, rfl⟩
  | startsWith | endsWith =>
    cases h
    rfl
  | hasWord =>
    obtain ⟨hne, hword, hlead, hrest⟩ := h
    have hkept : ∀ c, isWordBreak c = true → IsKept c := fun _ => isKept_of_isWordBreak
    exact ⟨lowerWithin_ne_nil hne, fun _ => isWordBreak_of_mem_lowerWithin hword,
      hlead.reverse_lowerWithin hkept, hrest.lowerWithin hkept⟩
  | startsWithCode =>
    obtain ⟨rfl, hrest⟩ := h
    exact ⟨rfl, hrest.lowerWithin isKept_of_beq_hyphen⟩

/-- Where a comparator looks for a whole value, a word or a code, what stands around it does not make a
capital sigma final. -/
theorem FindsAt.finalSigmas_eq {comparator : Comparator} (h : comparator.FindsAt lead operand rest)
    (hpresent : comparator ≠ present) (hanchored : comparator.isAnchored = false) :
    finalSigmas lead.reverse operand rest = finalSigmas [] operand [] := by
  cases comparator with
  | present => exact absurd rfl hpresent
  | startsWith | endsWith | contains => cases hanchored
  | equals =>
    obtain ⟨rfl, rfl⟩ := h
    rfl
  | hasWord =>
    obtain ⟨-, -, hlead, hrest⟩ := h
    exact finalSigmas_of_startsWith (fun c hc => isCaseless_of_isWordBreak (hlead c hc))
      (fun c hc => isCaseless_of_isWordBreak (hrest c hc)) [] operand
  | startsWithCode =>
    obtain ⟨rfl, hrest⟩ := h
    exact finalSigmas_of_startsWith (startsWith_nil _)
      (fun c hc => beq_iff_eq.1 (hrest c hc) ▸ isCaseless_hyphen) [] operand

end Comparator

namespace AttributeTest

variable {name text value : String} {comparator : Comparator}

theorem accepts_true_iff : (mk name comparator text true).accepts value = true ↔
    comparator.compare (lowerWithin [] value.toList []) (lowerWithin [] text.toList []) = true := by
  rw [accepts, if_pos rfl, lowercase, lowercase, String.toList_ofList, String.toList_ofList,
    lowerWithin_nil, lowerWithin_nil]

theorem accepts_false_iff : (mk name comparator text false).accepts value = true ↔
    comparator.compare value.toList text.toList = true := by
  rw [accepts, if_neg Bool.false_ne_true]

/-- The small letters of a value, in three parts. -/
theorem lowerWithin_around (lead operand rest : List Char) :
    lowerWithin [] (lead ++ operand ++ rest) [] = lowerWithin [] lead (operand ++ rest) ++
      lowerWithin lead.reverse operand rest ++
        lowerWithin (operand.reverse ++ lead.reverse) rest [] := by
  rw [List.append_assoc, lowerWithin_append, lowerWithin_append, List.append_nil, List.append_nil,
    List.append_nil, List.append_assoc]

/-- What is found at a place where the operand has the same small letters as alone is found again when case is
ignored. -/
theorem accepts_true_of_findsAt (hvalue : value.toList = lead ++ text.toList ++ rest)
    (hfinds : comparator.FindsAt lead text.toList rest)
    (hsigmas : finalSigmas lead.reverse text.toList rest = finalSigmas [] text.toList []) :
    (mk name comparator text true).accepts value = true := by
  by_cases hpresent : comparator = .present
  · subst hpresent
    rfl
  · rw [accepts_true_iff, Comparator.compare_iff hpresent, hvalue, lowerWithin_around,
      lowerWithin_eq_iff.2 hsigmas]
    exact ⟨_, _, rfl, hfinds.lowerWithin _ _ _ _⟩

/-- At the start or at the end of a value there is one place for the operand, so nothing else can be found
when case is ignored. -/
theorem finalSigmas_of_accepts_true (hcomparator : comparator = .startsWith ∨ comparator = .endsWith)
    (h : (mk name comparator text true).accepts value = true)
    (hvalue : value.toList = lead ++ text.toList ++ rest)
    (hfinds : comparator.FindsAt lead text.toList rest) :
    finalSigmas lead.reverse text.toList rest = finalSigmas [] text.toList [] := by
  rw [accepts_true_iff, hvalue, lowerWithin_around] at h
  have hlength := length_lowerWithin [] lead.reverse text.toList [] rest
  refine lowerWithin_eq_iff.1 (Eq.symm ?_)
  rcases hcomparator with rfl | rfl
  · obtain rfl : lead = [] := hfinds
    have hprefix := List.isPrefixOf_iff_prefix.1 h
    exact (List.prefix_of_prefix_length_le hprefix ⟨_, rfl⟩ (Nat.le_of_eq hlength)).eq_of_length hlength
  · obtain rfl : rest = [] := hfinds
    have hsuffix := List.isSuffixOf_iff_suffix.1 h
    rw [lowerWithin, List.append_nil] at hsuffix
    exact (List.suffix_of_suffix_length_le hsuffix ⟨_, rfl⟩ (Nat.le_of_eq hlength)).eq_of_length hlength

/-- What is found with regard to case is found again without it, unless the comparator looks into the value
and the operand has a capital sigma. Then it is found again if at some place of it each capital sigma is
final in the value exactly if it is final in the operand alone. At the start and at the end of a value, where
there is one place, it is found again only then. -/
theorem accepts_ignoreCase (h : (mk name comparator text false).accepts value = true) :
    (comparator.isAnchored = false ∨ 'Σ' ∉ text.toList →
        (mk name comparator text true).accepts value = true) ∧
      (comparator ≠ .present → ∃ lead rest, value.toList = lead ++ text.toList ++ rest ∧
        comparator.FindsAt lead text.toList rest) ∧
      ∀ lead rest, value.toList = lead ++ text.toList ++ rest →
        comparator.FindsAt lead text.toList rest →
          (finalSigmas lead.reverse text.toList rest = finalSigmas [] text.toList [] →
            (mk name comparator text true).accepts value = true) ∧
          (comparator = .startsWith ∨ comparator = .endsWith →
            (mk name comparator text true).accepts value = true →
              finalSigmas lead.reverse text.toList rest = finalSigmas [] text.toList []) := by
  have hplace : comparator ≠ .present → ∃ lead rest, value.toList = lead ++ text.toList ++ rest ∧
      comparator.FindsAt lead text.toList rest := fun hpresent =>
    (Comparator.compare_iff hpresent).1 (accepts_false_iff.1 h)
  refine ⟨fun hsafe => ?_, hplace, fun lead rest hvalue hfinds =>
    ⟨accepts_true_of_findsAt hvalue hfinds, fun hcomparator haccepts =>
      finalSigmas_of_accepts_true hcomparator haccepts hvalue hfinds⟩⟩
  by_cases hpresent : comparator = .present
  · subst hpresent
    rfl
  · obtain ⟨lead, rest, hvalue, hfinds⟩ := hplace hpresent
    refine accepts_true_of_findsAt hvalue hfinds ?_
    rcases hsafe with hanchored | hsigma
    · exact hfinds.finalSigmas_eq hpresent hanchored
    · rw [finalSigmas_of_not_mem hsigma, finalSigmas_of_not_mem hsigma]

/-- One place is enough: the last sigma of the operand is final in the first word of the value as it is in
the operand, and not in the second word. -/
theorem accepts_ignoreCase_streets :
    (mk "title" .contains "ΟΔΟΣ" false).accepts "ΟΔΟΣ ΟΔΟΣΑ" = true ∧
      (mk "title" .contains "ΟΔΟΣ" true).accepts "ΟΔΟΣ ΟΔΟΣΑ" = true := by
  have h : (mk "title" .contains "ΟΔΟΣ" false).accepts "ΟΔΟΣ ΟΔΟΣΑ" = true := by decide +kernel
  have hplaces := (accepts_ignoreCase h).2.2 [] " ΟΔΟΣΑ".toList (by decide +kernel) trivial
  exact ⟨h, hplaces.1 (by decide +kernel)⟩

/-- The value ends with a capital sigma. It is final in the value and not as an operand of its own, so
the flag loses it. -/
theorem accepts_ignoreCase_lastSigma :
    (mk "title" .endsWith "Σ" false).accepts "ΑΣ" = true ∧
      (mk "title" .endsWith "Σ" true).accepts "ΑΣ" = false := by
  decide +kernel

end AttributeTest
end TreeQuery
