import TreeQuery.Text.Decimal

/-!
# Decimal numerals

`IsNumeral` and `IsSignedNumeral` say which texts are numerals, and of which number, without a limit. A reader
of limited range takes exactly the numerals of the numbers in its range (`digits?_eq_some_iff`,
`int32?_eq_some_iff`), leading zeros allowed. The range of 32 bits has one number more on the side of the
minus sign.
-/

namespace TreeQuery.Text

/-- The text is one or more decimal digits, of this value. -/
structure IsNumeral (s : List Char) (n : Nat) : Prop where
  ne_nil : s ≠ []
  digits : ∀ c ∈ s, c.isDigit = true
  value : Nat.ofDigitChars 10 s 0 = n

/-- The text is a numeral with one sign or none in front, of this value. -/
inductive IsSignedNumeral : List Char → Int → Prop
  | unsigned {s : List Char} {n : Nat} (h : IsNumeral s n) : IsSignedNumeral s n
  | plus {s : List Char} {n : Nat} (h : IsNumeral s n) : IsSignedNumeral ('+' :: s) n
  | minus {s : List Char} {n : Nat} (h : IsNumeral s n) : IsSignedNumeral ('-' :: s) (-n)

variable {s : List Char} {n : Nat} {c : Char}

/-! ## Digits -/

theorem digit?_of_isDigit (h : c.isDigit = true) : digit? c = some (c.toNat - '0'.toNat) := by
  rw [Char.isDigit, Bool.and_eq_true, decide_eq_true_iff, decide_eq_true_iff] at h
  exact if_pos (Bool.and_eq_true_iff.2 ⟨decide_eq_true h.1, decide_eq_true h.2⟩)

theorem digit?_of_not_isDigit (h : c.isDigit = false) : digit? c = none := by
  refine if_neg fun hrange => Bool.eq_false_iff.1 h ?_
  rw [Bool.and_eq_true, decide_eq_true_iff, decide_eq_true_iff] at hrange
  rw [Char.isDigit, Bool.and_eq_true, decide_eq_true_iff, decide_eq_true_iff]
  exact hrange

/-- A number goes on exactly through digits, each worth its place. -/
theorem digitsFrom_eq_some_iff {value : Nat} :
    digitsFrom value s = some n ↔ (∀ c ∈ s, c.isDigit = true) ∧ Nat.ofDigitChars 10 s value = n := by
  induction s generalizing value with
  | nil => simp [digitsFrom]
  | cons c s ih =>
    rw [digitsFrom, List.forall_mem_cons, Nat.ofDigitChars_cons]
    cases hc : c.isDigit with
    | false => simp [digit?_of_not_isDigit hc]
    | true => simp [digit?_of_isDigit hc, ih]

theorem digits?_eq_some_iff : digits? s = some n ↔ IsNumeral s n := by
  cases s with
  | nil => exact iff_of_false (by simp [digits?]) fun h => h.ne_nil rfl
  | cons c s =>
    rw [digits?, digitsFrom_eq_some_iff]
    exact ⟨fun h => ⟨List.cons_ne_nil c s, h.1, h.2⟩, fun h => ⟨h.digits, h.value⟩⟩

/-- Every number has a numeral. -/
theorem isNumeral_toDigits (n : Nat) : IsNumeral (Nat.toDigits 10 n) n where
  ne_nil := Nat.toDigits_ne_nil
  digits _ := Nat.isDigit_of_mem_toDigits (by decide) (Nat.le_refl 10)
  value := Nat.ofDigitChars_ten_toDigits

/-! ## Signs -/

theorem IsNumeral.head_isDigit (h : IsNumeral (c :: s) n) : c.isDigit = true := h.digits c List.mem_cons_self

theorem isSignedNumeral_minus_iff {k : Int} :
    IsSignedNumeral ('-' :: s) k ↔ ∃ n : Nat, IsNumeral s n ∧ -(n : Int) = k := by
  constructor
  · rintro (h | _ | h)
    · exact absurd h.head_isDigit (by decide)
    · exact ⟨_, h, rfl⟩
  · rintro ⟨n, h, rfl⟩
    exact .minus h

theorem isSignedNumeral_plus_iff {k : Int} :
    IsSignedNumeral ('+' :: s) k ↔ ∃ n : Nat, IsNumeral s n ∧ (n : Int) = k := by
  constructor
  · rintro (h | h | _)
    · exact absurd h.head_isDigit (by decide)
    · exact ⟨_, h, rfl⟩
  · rintro ⟨n, h, rfl⟩
    exact .plus h

theorem isSignedNumeral_unsigned_iff {k : Int} (hminus : ∀ r, s ≠ '-' :: r) (hplus : ∀ r, s ≠ '+' :: r) :
    IsSignedNumeral s k ↔ ∃ n : Nat, IsNumeral s n ∧ (n : Int) = k := by
  constructor
  · rintro (h | h | h)
    · exact ⟨_, h, rfl⟩
    · exact absurd rfl (hplus _)
    · exact absurd rfl (hminus _)
  · rintro ⟨n, h, rfl⟩
    exact .unsigned h

/-- A signed numeral is made of digits and of signs. -/
theorem IsSignedNumeral.mem {k : Int} (h : IsSignedNumeral s k) (hc : c ∈ s) :
    c = '+' ∨ c = '-' ∨ c.isDigit = true := by
  cases h with
  | unsigned h => exact .inr (.inr (h.digits c hc))
  | plus h => exact (List.mem_cons.1 hc).imp_right fun hc => .inr (h.digits c hc)
  | minus h => exact .inr ((List.mem_cons.1 hc).imp_right fun hc => h.digits c hc)

/-- The numeral of a number, with a sign if the number is negative. -/
def signedNumeral (k : Int) : List Char :=
  if k < 0 then '-' :: Nat.toDigits 10 k.natAbs else Nat.toDigits 10 k.natAbs

theorem isSignedNumeral_signedNumeral (k : Int) : IsSignedNumeral (signedNumeral k) k := by
  unfold signedNumeral
  split
  · exact isSignedNumeral_minus_iff.2 ⟨k.natAbs, isNumeral_toDigits k.natAbs, by omega⟩
  · next hk =>
    have hunsigned := IsSignedNumeral.unsigned (isNumeral_toDigits k.natAbs)
    rwa [Int.natAbs_of_nonneg (Int.not_lt.1 hk)] at hunsigned

/-! ## The range of 32 bits -/

theorem toInt_lt_int32Bound (i : Int32) : i.toInt < int32Bound := i.toInt_lt

theorem neg_int32Bound_le_toInt (i : Int32) : -(int32Bound : Int) ≤ i.toInt := i.le_toInt

/-- Within the range, a number of 32 bits is made of its value. -/
theorem ofInt_eq_iff {k : Int} (hle : -(int32Bound : Int) ≤ k) (hlt : k < int32Bound) {i : Int32} :
    Int32.ofInt k = i ↔ k = i.toInt := by
  rw [← Int32.toInt_inj, Int32.toInt_ofInt_of_le hle hlt]

/-- A limited numeral is read as the number of 32 bits that `value` makes of it, if just the numbers within
the limit have one. -/
theorem map_filter_digits?_eq_some_iff {p : Nat → Bool} {value : Int → Int} {i : Int32}
    (hp : ∀ n : Nat, p n = true ↔ -(int32Bound : Int) ≤ value n ∧ value n < int32Bound) :
    (((digits? s).filter p).bind fun n => some (n : Int)).map (fun n => Int32.ofInt (value n)) = some i ↔
      ∃ n : Nat, IsNumeral s n ∧ value n = i.toInt := by
  have hbind : ((digits? s).filter p).bind (fun n => some (n : Int)) =
      ((digits? s).filter p).map fun n : Nat => (n : Int) := by
    cases (digits? s).filter p <;> rfl
  rw [hbind, Option.map_map, Option.map_eq_some_iff]
  refine exists_congr fun n => ?_
  rw [Option.filter_eq_some_iff, digits?_eq_some_iff, hp, and_assoc]
  refine and_congr_right fun _ => ?_
  constructor
  · rintro ⟨⟨hle, hlt⟩, hi⟩
    exact (ofInt_eq_iff hle hlt).1 hi
  · intro hi
    have hle : -(int32Bound : Int) ≤ value n := hi ▸ neg_int32Bound_le_toInt i
    have hlt : value n < int32Bound := hi ▸ toInt_lt_int32Bound i
    exact ⟨⟨hle, hlt⟩, (ofInt_eq_iff hle hlt).2 hi⟩

/-- A number of 32 bits is read exactly from its signed numerals. -/
theorem int32?_eq_some_iff {i : Int32} : int32? s = some i ↔ IsSignedNumeral s i.toInt := by
  have hplus : ∀ n : Nat, decide (n < int32Bound) = true ↔
      -(int32Bound : Int) ≤ n ∧ (n : Int) < int32Bound := by
    intro n
    rw [decide_eq_true_iff]
    omega
  have hminus : ∀ n : Nat, decide (n ≤ int32Bound) = true ↔
      -(int32Bound : Int) ≤ -n ∧ -(n : Int) < int32Bound := by
    intro n
    rw [decide_eq_true_iff, int32Bound]
    omega
  unfold int32?
  split
  · rw [isSignedNumeral_minus_iff]
    exact map_filter_digits?_eq_some_iff hminus
  · rw [isSignedNumeral_plus_iff]
    exact map_filter_digits?_eq_some_iff hplus
  · next hneg hpos =>
    rw [isSignedNumeral_unsigned_iff hneg hpos]
    exact map_filter_digits?_eq_some_iff hplus

end TreeQuery.Text
