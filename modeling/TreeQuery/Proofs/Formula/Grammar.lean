import TreeQuery.Formula
import TreeQuery.Proofs.Text.Ascii
import TreeQuery.Proofs.Text.Names
import TreeQuery.Proofs.Text.Numerals
import Mathlib

/-!
# The texts of formulas

A formula is written `odd`, `even`, as a number, or as a step, the letter `n` and a tail. `Spells` has one
rule for each of these forms. Reading cuts the text at its first `n`, so the letter must not stand in a step,
and the words come first, since one of them has an `n`. It takes exactly the texts that the rules give
(`read_iff_spells`). The digits behind the sign of a tail are read before the sign is applied, so the least
number of 32 bits is no tail, though it is a step.
-/

namespace TreeQuery.Formula

open Text

/-- What may stand before `n`: nothing or a sign for one, or a number. -/
inductive IsStep : List Char → Int → Prop
  | nothing : IsStep [] 1
  | plus : IsStep ['+'] 1
  | minus : IsStep ['-'] (-1)
  | number {s : List Char} {k : Int} (h : IsSignedNumeral s k) : IsStep s k

/-- What may stand behind `n`: nothing for zero, or a sign between blanks and digits. -/
inductive IsTail : List Char → Int → Prop
  | nothing : IsTail [] 0
  | plus {u v s : List Char} {n : Nat} (hu : ∀ c ∈ u, isBlank c = true) (hv : ∀ c ∈ v, isBlank c = true)
      (hs : IsNumeral s n) (hn : n < int32Bound) : IsTail (u ++ '+' :: (v ++ s)) n
  | minus {u v s : List Char} {n : Nat} (hu : ∀ c ∈ u, isBlank c = true) (hv : ∀ c ∈ v, isBlank c = true)
      (hs : IsNumeral s n) (hn : n < int32Bound) : IsTail (u ++ '-' :: (v ++ s)) (-n)

/-- The texts of a formula, in small letters and without blanks at the ends. -/
inductive Spells : List Char → Formula → Prop
  | odd : Spells ['o', 'd', 'd'] ⟨2, 1⟩
  | even : Spells ['e', 'v', 'e', 'n'] ⟨2, 0⟩
  | number {s : List Char} {offset : Int32} (h : IsSignedNumeral s offset.toInt) : Spells s ⟨0, offset⟩
  | cycle {a b : List Char} {f : Formula} (ha : IsStep a f.step.toInt) (hb : IsTail b f.offset.toInt) :
      Spells (a ++ 'n' :: b) f

variable {s a b : List Char} {c : Char} {i : Int32} {f : Formula}

/-! ## Steps -/

theorem step?_eq_some_iff : step? s = some i ↔ IsStep s i.toInt := by
  constructor
  · intro h
    unfold step? at h
    split at h
    · cases h; exact .nothing
    · cases h; exact .plus
    · cases h; exact .minus
    · exact .number (int32?_eq_some_iff.1 h)
  · intro h
    generalize hk : i.toInt = k at h
    cases h with
    | nothing | plus =>
      obtain rfl : i = 1 := Int32.toInt_inj.1 hk
      rfl
    | minus =>
      obtain rfl : i = -1 := Int32.toInt_inj.1 hk
      rfl
    | number h =>
      rw [← hk, ← int32?_eq_some_iff] at h
      unfold step?
      split
      · cases h
      · cases h
      · cases h
      · exact h

/-- A step is made of digits and of signs. -/
theorem IsStep.mem {k : Int} (h : IsStep s k) (hc : c ∈ s) : c = '+' ∨ c = '-' ∨ c.isDigit = true := by
  cases h with
  | nothing => cases hc
  | plus => exact .inl (List.mem_singleton.1 hc)
  | minus => exact .inr (.inl (List.mem_singleton.1 hc))
  | number h => exact h.mem hc

/-- No letter of a word is a digit or a sign. -/
theorem ne_letter (hc : c = '+' ∨ c = '-' ∨ c.isDigit = true) : c ≠ 'n' ∧ c ≠ 'o' ∧ c ≠ 'e' := by
  rcases hc with rfl | rfl | hc
  · decide
  · decide
  · refine ⟨?_, ?_, ?_⟩ <;> rintro rfl <;> exact absurd hc (by decide)

/-! ## Tails -/

/-- A digit is no blank. -/
theorem isBlank_of_isDigit (h : c.isDigit = true) : isBlank c = false := by
  rw [Char.isDigit, Bool.and_eq_true, decide_eq_true_iff, decide_eq_true_iff] at h
  have hle : 48 ≤ c.toNat := h.1
  have hge : c.toNat ≤ 57 := h.2
  simp only [isBlank, Bool.or_eq_false_iff, Bool.and_eq_false_iff, decide_eq_false_iff_not,
    beq_eq_false_iff_ne]
  omega

/-- Blanks in front of what is not blank are skipped. -/
theorem skipBlank_of_blanks (ha : ∀ c ∈ a, isBlank c = true)
    (hs : ∀ c, s.head? = some c → isBlank c = false) : skipBlank (a ++ s) = s := by
  rw [skipBlank, List.dropWhile_append_of_pos ha]
  exact skipBlank_eq_self hs

/-- A text of blanks alone is empty if its end is not blank. -/
theorem eq_nil_of_skipBlank_eq_nil (hlast : ∀ c, b.getLast? = some c → isBlank c = false)
    (h : skipBlank b = []) : b = [] := by
  rw [skipBlank, List.dropWhile_eq_nil_iff] at h
  cases hend : b.getLast? with
  | none => exact List.getLast?_eq_none_iff.1 hend
  | some c =>
    have hblank := h c (List.mem_of_getLast? hend)
    rw [hlast c hend] at hblank
    cases hblank

theorem toInt_ofNat {n : Nat} (h : n < int32Bound) : (Int32.ofNat n).toInt = n := Int32.toInt_ofNat_of_lt h

theorem toInt_neg_ofNat {n : Nat} (h : n < int32Bound) : (-Int32.ofNat n).toInt = -n := by
  rw [int32Bound] at h
  rw [Int32.toInt_neg, toInt_ofNat h, Int.bmod_eq_of_le] <;> omega

/-- A sign and the digits behind it, which reading comes to after the blanks of a tail. -/
theorem offset?_of_skipBlank {sign : Char} (h : skipBlank b = sign :: s) :
    offset? b = some i ↔ ∃ n, IsNumeral (skipBlank s) n ∧ n < int32Bound ∧
      (sign = '+' ∧ (n : Int) = i.toInt ∨ sign = '-' ∧ -(n : Int) = i.toInt) := by
  unfold offset?
  rw [h]
  dsimp only
  rw [Option.bind_eq_bind, Option.bind_eq_some_iff]
  refine exists_congr fun n => ?_
  rw [Option.filter_eq_some_iff, digits?_eq_some_iff, decide_eq_true_iff, and_assoc]
  refine and_congr_right fun _ => and_congr_right fun hn => ?_
  split
  · next hplus =>
    obtain rfl := beq_iff_eq.1 hplus
    rw [Option.some.injEq, ← Int32.toInt_inj, toInt_ofNat hn]
    simp
  · split
    · next hminus =>
      obtain rfl := beq_iff_eq.1 hminus
      rw [Option.some.injEq, ← Int32.toInt_inj, toInt_neg_ofNat hn]
      simp
    · simp_all

/-- A sign between blanks and digits is read as a tail. -/
theorem offset?_of_blanks {sign : Char} {u v : List Char} {n : Nat} (hsign : isBlank sign = false)
    (hu : ∀ c ∈ u, isBlank c = true) (hv : ∀ c ∈ v, isBlank c = true) (hs : IsNumeral s n)
    (hn : n < int32Bound) (hi : sign = '+' ∧ (n : Int) = i.toInt ∨ sign = '-' ∧ -(n : Int) = i.toInt) :
    offset? (u ++ sign :: (v ++ s)) = some i := by
  have hdigits : skipBlank (v ++ s) = s := skipBlank_of_blanks hv fun c hc =>
    isBlank_of_isDigit (hs.digits c (List.mem_of_mem_head? hc))
  have hskip : skipBlank (u ++ sign :: (v ++ s)) = sign :: (v ++ s) := by
    refine skipBlank_of_blanks hu fun c hc => ?_
    rwa [← Option.some.inj hc]
  exact (offset?_of_skipBlank hskip).2 ⟨n, by rwa [hdigits], hn, hi⟩

/-- A tail is read exactly if its end is not blank, as that of a trimmed text is not. -/
theorem offset?_eq_some_iff (hlast : ∀ c, b.getLast? = some c → isBlank c = false) :
    offset? b = some i ↔ IsTail b i.toInt := by
  constructor
  · intro h
    obtain ⟨u, hu, hblank⟩ := skipBlank_append b
    cases hskip : skipBlank b with
    | nil =>
      obtain rfl := eq_nil_of_skipBlank_eq_nil hlast hskip
      cases h
      exact .nothing
    | cons sign s =>
      obtain ⟨v, hv, hvblank⟩ := skipBlank_append s
      obtain ⟨n, hn, hlt, ⟨rfl, hi⟩ | ⟨rfl, hi⟩⟩ := (offset?_of_skipBlank hskip).1 h
      · rw [hu, hskip, hv, ← hi]
        exact .plus hblank hvblank hn hlt
      · rw [hu, hskip, hv, ← hi]
        exact .minus hblank hvblank hn hlt
  · intro h
    generalize hk : i.toInt = k at h
    cases h with
    | nothing =>
      obtain rfl : i = 0 := Int32.toInt_inj.1 hk
      rfl
    | plus hu hv hs hn => exact offset?_of_blanks (by decide) hu hv hs hn (.inl ⟨rfl, hk.symm⟩)
    | minus hu hv hs hn => exact offset?_of_blanks (by decide) hu hv hs hn (.inr ⟨rfl, hk.symm⟩)

/-! ## Formulas -/

/-- Making an ASCII letter small keeps what is blank and what is not. -/
theorem isBlank_toLower (c : Char) : isBlank c.toLower = isBlank c := by
  by_cases hcapital : c.isUpper = true
  · obtain ⟨hge, hle, hlower⟩ := toNat_toLower hcapital
    unfold isBlank
    dsimp only
    rw [hlower, Bool.eq_iff_iff]
    generalize c.toNat = n at hge hle
    simp only [Bool.or_eq_true, Bool.and_eq_true, decide_eq_true_iff, beq_iff_eq]
    omega
  · rw [Char.toLower_eq_of_not_isUpper hcapital]

/-- The last character of what stands behind an `n` in a trimmed text is not blank, whatever the case of its
letters. -/
theorem getLast?_behind {raw : List Char} (ht : (trim raw).map Char.toLower = a ++ 'n' :: b)
    (hc : b.getLast? = some c) : isBlank c = false := by
  have hlast : ((trim raw).map Char.toLower).getLast? = some c := by
    rw [ht, List.getLast?_append, List.getLast?_cons, hc]
    rfl
  rw [List.getLast?_map, Option.map_eq_some_iff] at hlast
  obtain ⟨d, hd, rfl⟩ := hlast
  rw [isBlank_toLower]
  exact (isTrimmed_trim raw).last d hd

/-- A text without the letters of the words is read as a number. -/
theorem read?_of_number {raw : List Char} (ht : (trim raw).map Char.toLower = s)
    (hs : ∀ c ∈ s, c ≠ 'n' ∧ c ≠ 'o' ∧ c ≠ 'e') : read? raw = (int32? s).map (⟨0, ·⟩) := by
  have hcut : s.dropWhile (· != 'n') = [] := by
    rw [List.dropWhile_eq_nil_iff]
    exact fun c hc => bne_iff_ne.2 (hs c hc).1
  unfold read?
  rw [ht]
  split
  · exact absurd rfl (hs 'o' List.mem_cons_self).2.1
  · exact absurd rfl (hs 'e' List.mem_cons_self).2.2
  · rw [hcut]

/-- A text with an `n` behind a step is no word. -/
theorem append_ne_word {d : Char} (hd : d ≠ 'n') (ha : ∀ c ∈ a, c ≠ d) : a ++ 'n' :: b ≠ d :: s := by
  intro h
  cases a with
  | nil => exact hd (List.cons.inj h).1.symm
  | cons c a => exact ha c List.mem_cons_self (List.cons.inj h).1

/-- A text with an `n` behind a step is read in two parts. -/
theorem read?_of_cycle {raw : List Char} (ht : (trim raw).map Char.toLower = a ++ 'n' :: b)
    (ha : ∀ c ∈ a, c ≠ 'n' ∧ c ≠ 'o' ∧ c ≠ 'e') :
    read? raw = (step? a).bind fun step => (offset? b).bind fun offset => some ⟨step, offset⟩ := by
  have hstop : ∀ c ∈ a, (c != 'n') = true := fun c hc => bne_iff_ne.2 (ha c hc).1
  have hdrop : (a ++ 'n' :: b).dropWhile (· != 'n') = 'n' :: b := by
    rw [List.dropWhile_append_of_pos hstop]
    rfl
  have htake : (a ++ 'n' :: b).takeWhile (· != 'n') = a := by
    rw [List.takeWhile_append_of_pos hstop]
    exact List.append_nil a
  unfold read?
  rw [ht]
  split
  · next h => exact absurd h (append_ne_word (by decide) fun c hc => (ha c hc).2.1)
  · next h => exact absurd h (append_ne_word (by decide) fun c hc => (ha c hc).2.2)
  · rw [hdrop, htake]
    rfl

/-- A text is read as a formula exactly if it spells it. -/
theorem read?_eq_some_iff {raw : List Char} :
    read? raw = some f ↔ Spells ((trim raw).map Char.toLower) f := by
  generalize ht : (trim raw).map Char.toLower = t
  constructor
  · intro h
    unfold read? at h
    rw [ht] at h
    split at h
    · cases h; exact .odd
    · cases h; exact .even
    · split at h
      · obtain ⟨offset, hoffset, rfl⟩ := Option.map_eq_some_iff.1 h
        exact .number (int32?_eq_some_iff.1 hoffset)
      · next c tail hcut =>
        obtain ⟨step, hstep, h⟩ := Option.bind_eq_some_iff.1 h
        obtain ⟨offset, hoffset, h⟩ := Option.bind_eq_some_iff.1 h
        cases h
        obtain rfl : c = 'n' := by
          have hhead := List.head?_dropWhile_not (· != 'n') t
          rw [hcut] at hhead
          simpa using hhead
        have hsplit : t = t.takeWhile (· != 'n') ++ 'n' :: tail := by
          rw [← hcut]
          exact List.takeWhile_append_dropWhile.symm
        have hend : ∀ c, tail.getLast? = some c → isBlank c = false := fun c =>
          getLast?_behind (ht.trans hsplit)
        rw [hsplit]
        exact .cycle (step?_eq_some_iff.1 hstep) ((offset?_eq_some_iff hend).1 hoffset)
  · intro h
    cases h with
    | odd | even =>
      unfold read?
      rw [ht]
      rfl
    | @number s offset h =>
      rw [read?_of_number ht fun c hc => ne_letter (h.mem hc), int32?_eq_some_iff.2 h]
      rfl
    | @cycle a b f ha hb =>
      rw [read?_of_cycle ht fun c hc => ne_letter (ha.mem hc), step?_eq_some_iff.2 ha,
        (offset?_eq_some_iff fun c => getLast?_behind ht).2 hb]
      rfl

/-! ## The spelling with both coefficients -/

/-- The text of a formula with a step, the letter and a tail. -/
def spelling (f : Formula) : List Char :=
  signedNumeral f.step.toInt ++
    'n' :: (if f.offset.toInt < 0 then '-' else '+') :: Nat.toDigits 10 f.offset.toInt.natAbs

example : spelling ⟨-1, 3⟩ = "-1n+3".toList := by decide

/-- Every formula is spelled so, but for the least offset. -/
theorem spells_spelling (h : -(int32Bound : Int) < f.offset.toInt) : Spells f.spelling f := by
  have hnumeral := isNumeral_toDigits f.offset.toInt.natAbs
  have hlt : f.offset.toInt.natAbs < int32Bound := by
    have := toInt_lt_int32Bound f.offset
    omega
  refine .cycle (.number (isSignedNumeral_signedNumeral _)) ?_
  split
  · next hneg =>
    have htail := IsTail.minus (List.forall_mem_nil _) (List.forall_mem_nil _) hnumeral hlt
    rwa [show -(f.offset.toInt.natAbs : Int) = f.offset.toInt by omega] at htail
  · next hpos =>
    have htail := IsTail.plus (List.forall_mem_nil _) (List.forall_mem_nil _) hnumeral hlt
    rwa [Int.natAbs_of_nonneg (Int.not_lt.1 hpos)] at htail

/-- Digits, signs and the letter are not blank, and small. -/
theorem mem_spelling (hc : c ∈ f.spelling) : isBlank c = false ∧ c.toLower = c := by
  have hdigit : c.isDigit = true → isBlank c = false ∧ c.toLower = c := by
    intro hc
    refine ⟨isBlank_of_isDigit hc, Char.toLower_eq_of_not_isUpper fun hcapital => ?_⟩
    rw [Char.isDigit, Bool.and_eq_true, decide_eq_true_iff, decide_eq_true_iff] at hc
    have hrange : 'A'.val ≤ c.val ∧ c.val ≤ 'Z'.val := of_decide_eq_true hcapital
    exact absurd (UInt32.le_trans hrange.1 hc.2) (by decide)
  rw [spelling, List.mem_append, List.mem_cons, List.mem_cons] at hc
  rcases hc with hc | rfl | rfl | hc
  · rcases (isSignedNumeral_signedNumeral _).mem hc with rfl | rfl | hc
    · decide
    · decide
    · exact hdigit hc
  · decide
  · split <;> decide
  · exact hdigit ((isNumeral_toDigits _).digits c hc)

/-- The spelling is trimmed and has no capitals. -/
theorem trim_spelling (f : Formula) : (trim f.spelling).map Char.toLower = f.spelling := by
  have htrimmed : IsTrimmed f.spelling :=
    ⟨fun c hc => (mem_spelling (List.mem_of_mem_head? hc)).1,
      fun c hc => (mem_spelling (List.mem_of_getLast? hc)).1⟩
  rw [htrimmed.trim_eq]
  exact (List.map_congr_left fun c hc => (mem_spelling hc).2).trans (List.map_id _)

/-- A formula is read exactly from the texts that spell it, blanks at the ends and capitals apart, and from no
other text one is read. Every formula has such a text with both coefficients, if its offset is not the least
number of 32 bits. -/
theorem read_iff_spells :
    (∀ raw f, read? raw = some f ↔ Spells ((trim raw).map Char.toLower) f) ∧
    (∀ raw, read? raw = none ↔ ∀ f, ¬ Spells ((trim raw).map Char.toLower) f) ∧
    ∀ f : Formula, -(int32Bound : Int) < f.offset.toInt → read? f.spelling = some f := by
  refine ⟨fun raw f => read?_eq_some_iff, fun raw => ?_, fun f h => ?_⟩
  · simp only [Option.eq_none_iff_forall_ne_some, ne_eq, read?_eq_some_iff]
  · rw [read?_eq_some_iff, trim_spelling]
    exact spells_spelling h

/-- Blanks and leading zeros are allowed behind `N`, but no blank in front of it. The formula of the least step
and the least offset of a tail has its own text. -/
theorem read_iff_spells_leastStep :
    Spells "+3n - 07".toList ⟨3, -7⟩ ∧ (∀ f, ¬ Spells "2 n".toList f) ∧
      -(int32Bound : Int) < Int32.toInt (-2147483647) ∧
        read? "-2147483648n-2147483647".toList = some ⟨-2147483648, -2147483647⟩ := by
  obtain ⟨hsome, hnone, hspelling⟩ := read_iff_spells
  have hleast : -(int32Bound : Int) < Int32.toInt (-2147483647) := by decide
  refine ⟨(hsome " +3N - 07".toList ⟨3, -7⟩).1 (by decide), (hnone "2 n".toList).1 (by decide), hleast, ?_⟩
  exact hspelling ⟨-2147483648, -2147483647⟩ hleast

end TreeQuery.Formula
