import TreeQuery.Proofs.Text.Pieces
import TreeQuery.Text.Lowercase

/-!
# Small letters where a text stands

The small letters of a text depend on what stands around it, but only in one way: a capital sigma may be
final in one place and not in another. `finalSigmas` lists this for each of them. Two places that agree on
it give a text the same small letters, and only these do (`lowerWithin_eq_iff`). A blank or a hyphen hides
what stands behind it, so between such characters a text has the small letters that it has alone.
-/

namespace TreeQuery.Text

variable {a b s before before' after after' lead rest : List Char} {c d : Char}

/-- Whether a capital sigma between two texts is final. What precedes it is given in reverse order. -/
def isFinal (before after : List Char) : Bool := meetsCased before && !meetsCased after

/-- Whether each capital sigma of the text `s` is final, where `s` stands behind `before`, which is given in
reverse order, and in front of `after`. -/
def finalSigmas (before : List Char) : List Char → List Char → List Bool
  | [], _ => []
  | c :: s, after =>
    if c == 'Σ' then isFinal before (s ++ after) :: finalSigmas (c :: before) s after
    else finalSigmas (c :: before) s after

/-- The small letters of the text `s`, where it stands between `before` and `after`. -/
def lowerWithin (before : List Char) : List Char → List Char → List Char
  | [], _ => []
  | c :: s, after =>
    (if c == 'Σ' then [if isFinal before (s ++ after) then 'ς' else 'σ'] else lowerChar c)
      ++ lowerWithin (c :: before) s after

/-- At the end of a text, the small letters are those of the text so far. -/
theorem lowerWithin_nil (before s : List Char) : lowerWithin before s [] = lowerFrom before s := by
  induction s generalizing before with
  | nil => rfl
  | cons c s ih => rw [lowerWithin, lowerFrom, ih, List.append_nil, isFinal]

/-- The small letters of a text are those of its parts, each where it stands. -/
theorem lowerWithin_append (before a b after : List Char) : lowerWithin before (a ++ b) after =
    lowerWithin before a (b ++ after) ++ lowerWithin (a.reverse ++ before) b after := by
  induction a generalizing before with
  | nil => rfl
  | cons c a ih =>
    rw [List.cons_append, lowerWithin, lowerWithin, ih, List.append_assoc, List.append_assoc,
      List.reverse_cons, List.append_assoc, List.singleton_append]

/-- The place of a text does not change how many small letters it has. -/
theorem length_lowerWithin (before before' s after after' : List Char) :
    (lowerWithin before s after).length = (lowerWithin before' s after').length := by
  induction s generalizing before before' with
  | nil => rfl
  | cons c s ih =>
    rw [lowerWithin, lowerWithin, List.length_append, List.length_append, ih (c :: before) (c :: before')]
    split <;> rfl

/-- A text has the same small letters in two places exactly if its capital sigmas are final alike. -/
theorem lowerWithin_eq_iff : lowerWithin before s after = lowerWithin before' s after' ↔
    finalSigmas before s after = finalSigmas before' s after' := by
  induction s generalizing before before' with
  | nil => exact iff_of_true rfl rfl
  | cons c s ih =>
    rw [lowerWithin, lowerWithin, finalSigmas, finalSigmas]
    split
    · have hsigma : ∀ p q : Bool, (if p then 'ς' else 'σ') = (if q then 'ς' else 'σ') ↔ p = q := by
        decide
      rw [List.singleton_append, List.singleton_append, List.cons.injEq, List.cons.injEq, hsigma, ih]
    · rw [List.append_cancel_left_eq, ih]

/-! ## What hides a capital sigma -/

/-- The characters beyond which no case is looked for. -/
def isCaseless (c : Char) : Bool := !isCased c && !isCaseIgnorable c

/-- Whether case is met does not depend on what stands behind a caseless character. -/
theorem meetsCased_append (h : StartsWith isCaseless b) : meetsCased (a ++ b) = meetsCased a := by
  induction a with
  | nil =>
    cases b with
    | nil => rfl
    | cons c b =>
      obtain ⟨hcased, hignorable⟩ := Bool.and_eq_true_iff.1 (startsWith_cons.1 h)
      rw [Bool.not_eq_true'] at hcased hignorable
      simp [meetsCased, hcased, hignorable]
  | cons c a ih =>
    unfold meetsCased at ih ⊢
    cases hignorable : isCaseIgnorable c with
    | true => simpa [List.dropWhile_cons, hignorable] using ih
    | false => simp [hignorable]

/-- Between caseless characters, capital sigmas are final as in the text alone. -/
theorem finalSigmas_of_startsWith (hbefore : StartsWith isCaseless before)
    (hafter : StartsWith isCaseless after) (lead s : List Char) :
    finalSigmas (lead ++ before) s after = finalSigmas lead s [] := by
  induction s generalizing lead with
  | nil => rfl
  | cons c s ih =>
    have hfinal : isFinal (lead ++ before) (s ++ after) = isFinal lead (s ++ []) := by
      rw [isFinal, isFinal, meetsCased_append hbefore, meetsCased_append hafter, List.append_nil]
    rw [finalSigmas, finalSigmas, hfinal, ← List.cons_append, ih]

/-- A text without a capital sigma has nothing that can be final. -/
theorem finalSigmas_of_not_mem (h : 'Σ' ∉ s) : finalSigmas before s after = [] := by
  induction s generalizing before with
  | nil => rfl
  | cons c s ih =>
    obtain ⟨hc, hs⟩ := List.ne_and_not_mem_of_not_mem_cons h
    rw [finalSigmas, if_neg (by simpa using hc.symm), ih hs]

/-! ## Word breaks and hyphens -/

theorem eq_of_isWordBreak (h : isWordBreak c = true) :
    c = '\t' ∨ c = '\n' ∨ c = '\x0c' ∨ c = '\r' ∨ c = ' ' := by
  simpa only [isWordBreak, Bool.or_eq_true, beq_iff_eq, or_assoc] using h

theorem isCaseless_of_isWordBreak (h : isWordBreak c = true) : isCaseless c = true := by
  rcases eq_of_isWordBreak h with rfl | rfl | rfl | rfl | rfl <;> decide +kernel

theorem isCaseless_hyphen : isCaseless '-' = true := by decide +kernel

/-- A word break is its own small letter. -/
theorem lowerChar_of_isWordBreak (h : isWordBreak c = true) : lowerChar c = [c] := by
  rcases eq_of_isWordBreak h with rfl | rfl | rfl | rfl | rfl <;> decide

theorem lowerChar_ne_nil (c : Char) : lowerChar c ≠ [] := by
  unfold lowerChar
  dsimp only
  split
  · exact List.cons_ne_nil _ _
  · split
    · exact List.cons_ne_nil _ _
    · split <;> exact List.cons_ne_nil _ _

/-- The shifts of the table lead to letters and not to word breaks. -/
theorem lt_shift_of_mem_capitalRuns : ∀ run ∈ capitalRuns, (32 : Int) < run.first + run.shift := by
  decide +kernel

/-- No code point behind the blank is a word break, and none that is no character. -/
theorem isWordBreak_ofNat {n : Nat} (h : 32 < n) : isWordBreak (Char.ofNat n) = false := by
  by_cases hvalid : n.isValidChar
  · refine Bool.eq_false_iff.2 fun hbreak => ?_
    have hn : (Char.ofNat n).toNat = n := by
      rw [Char.ofNat, dif_pos hvalid]
      rfl
    have hle : (Char.ofNat n).toNat ≤ 32 := by
      rcases eq_of_isWordBreak hbreak with heq | heq | heq | heq | heq <;>
        · rw [heq]
          decide
    omega
  · rw [Char.ofNat, dif_neg hvalid]
    decide

/-- No small letter of another character is a word break. -/
theorem isWordBreak_of_mem_lowerChar (h : isWordBreak c = false) (hd : d ∈ lowerChar c) :
    isWordBreak d = false := by
  unfold lowerChar at hd
  dsimp only at hd
  split at hd
  · next hascii =>
    have hall : ∀ n < 0x80, isWordBreak (Char.ofNat n) = false →
        isWordBreak (Char.ofNat n).toLower = false := by decide
    have hc := hall c.toNat hascii
    rw [Char.ofNat_toNat] at hc
    rw [List.mem_singleton.1 hd]
    exact hc h
  · split at hd
    · simp only [List.mem_cons, List.not_mem_nil, or_false] at hd
      rcases hd with rfl | rfl <;> decide
    · split at hd
      · next run hrun =>
        rw [List.mem_singleton.1 hd]
        have hcontains := List.find?_some hrun
        have hshift := lt_shift_of_mem_capitalRuns run (List.mem_of_find?_eq_some hrun)
        simp only [CapitalRun.contains, Bool.and_eq_true, decide_eq_true_eq] at hcontains
        exact isWordBreak_ofNat (by omega)
      · rw [List.mem_singleton.1 hd]
        exact h

/-- No small letter of a text without word breaks is one. -/
theorem isWordBreak_of_mem_lowerWithin (h : ∀ c ∈ s, isWordBreak c = false)
    (hd : d ∈ lowerWithin before s after) : isWordBreak d = false := by
  induction s generalizing before with
  | nil => cases hd
  | cons c s ih =>
    obtain ⟨hc, hs⟩ := List.forall_mem_cons.1 h
    rw [lowerWithin] at hd
    rcases List.mem_append.1 hd with hd | hd
    · split at hd
      · rw [List.mem_singleton.1 hd]
        split <;> decide
      · exact isWordBreak_of_mem_lowerChar hc hd
    · exact ih hs hd

theorem lowerWithin_ne_nil (h : s ≠ []) : lowerWithin before s after ≠ [] := by
  obtain ⟨c, s, rfl⟩ := List.exists_cons_of_ne_nil h
  rw [lowerWithin]
  refine List.append_ne_nil_of_left_ne_nil ?_ _
  split
  · exact List.cons_ne_nil _ _
  · exact lowerChar_ne_nil c

/-- The characters that are their own small letters wherever they stand. -/
def IsKept (c : Char) : Prop := c ≠ 'Σ' ∧ lowerChar c = [c]

theorem isKept_of_isWordBreak (h : isWordBreak c = true) : IsKept c :=
  ⟨fun hc => by rw [hc] at h; exact absurd h (by decide), lowerChar_of_isWordBreak h⟩

theorem isKept_hyphen : IsKept '-' := by
  constructor <;> decide

theorem IsKept.lowerWithin_cons (h : IsKept c) :
    lowerWithin before (c :: s) after = c :: lowerWithin (c :: before) s after := by
  rw [lowerWithin, if_neg (by simpa using h.1), h.2, List.singleton_append]

variable {kind : Char → Bool}

/-- A text that starts with a kept character does so in small letters. -/
theorem StartsWith.lowerWithin (hkind : ∀ c, kind c = true → IsKept c) (h : StartsWith kind s) :
    StartsWith kind (lowerWithin before s after) := by
  cases s with
  | nil => exact startsWith_nil kind
  | cons c s =>
    have hc := startsWith_cons.1 h
    rw [(hkind c hc).lowerWithin_cons]
    exact startsWith_cons.2 hc

/-- A text that ends with a kept character does so in small letters. -/
theorem StartsWith.reverse_lowerWithin (hkind : ∀ c, kind c = true → IsKept c)
    (h : StartsWith kind s.reverse) : StartsWith kind (Text.lowerWithin before s after).reverse := by
  rcases List.eq_nil_or_concat s with rfl | ⟨front, c, rfl⟩
  · exact startsWith_nil kind
  · rw [List.concat_eq_append, List.reverse_append, List.reverse_singleton, List.singleton_append] at h
    have hc := startsWith_cons.1 h
    rw [List.concat_eq_append, lowerWithin_append, (hkind c hc).lowerWithin_cons, Text.lowerWithin,
      List.reverse_append, List.reverse_singleton, List.singleton_append]
    exact startsWith_cons.2 hc

end TreeQuery.Text
