import TreeQuery.Formula

/-!
# The arithmetic of positions

Whether a formula selects a position is computed with numbers of 64 bits, by a difference, a remainder and a
quotient that round towards zero. `selects?` is the same computation with checks: it fails where a step leaves
the 64 bits or divides by zero, which no formula and no position bring about (`selects?_eq`). So the result is
that of the whole numbers (`selects_iff`).
-/

namespace TreeQuery.Formula

/-! ## Checked steps -/

/-- The number of 64 bits of this value, if there is one. -/
def int64? (n : Int) : Option Int64 :=
  if Int64.minValue.toInt ≤ n ∧ n ≤ Int64.maxValue.toInt then some (Int64.ofInt n) else none

/-- The difference, unless it has more than 64 bits. -/
def sub? (a b : Int64) : Option Int64 := int64? (a.toInt - b.toInt)

/-- The quotient, unless the divisor is zero or the quotient has more than 64 bits. -/
def div? (a b : Int64) : Option Int64 := if b = 0 then none else int64? (a.toInt.tdiv b.toInt)

/-- The remainder, unless there is no quotient. -/
def rem? (a b : Int64) : Option Int64 := (div? a b).bind fun _ => int64? (a.toInt.tmod b.toInt)

/-- Whether a position is selected, with a check of every step that is taken. -/
def selects? (f : Formula) (position : Int32) : Option Bool := do
  let distance ← sub? position.toInt64 f.offset.toInt64
  let step := f.step.toInt64
  if step == 0 then some (distance == 0)
  else
    let rest ← rem? distance step
    if rest == 0 then (div? distance step).map (0 ≤ ·) else some false

variable {a b : Int64}

theorem int64?_toInt (x : Int64) : int64? x.toInt = some x := by
  rw [int64?, if_pos ⟨x.minValue_le_toInt, x.toInt_le⟩, Int64.ofInt_toInt]

theorem sub?_eq (h : (a - b).toInt = a.toInt - b.toInt) : sub? a b = some (a - b) := by
  rw [sub?, ← h, int64?_toInt]

/-- The least number apart, everything has a quotient by everything but zero. -/
theorem div?_eq (hb : b ≠ 0) (ha : a ≠ Int64.minValue) : div? a b = some (a / b) := by
  rw [div?, if_neg hb, ← Int64.toInt_div_of_ne_left a b ha, int64?_toInt]

theorem rem?_eq (hb : b ≠ 0) (ha : a ≠ Int64.minValue) : rem? a b = some (a % b) := by
  rw [rem?, div?_eq hb ha, Option.bind_some, ← Int64.toInt_mod, int64?_toInt]

/-! ## Distances -/

variable (f : Formula) (position : Int32)

/-- The difference of two numbers of 32 bits is far from the limits of 64. -/
theorem toInt_distance :
    (position.toInt64 - f.offset.toInt64).toInt = position.toInt - f.offset.toInt := by
  have hp := position.le_toInt
  have hp' := position.toInt_lt
  have ho := f.offset.le_toInt
  have ho' := f.offset.toInt_lt
  rw [Int64.toInt_sub, Int32.toInt_toInt64, Int32.toInt_toInt64]
  exact Int.bmod_eq_of_le (by omega) (by omega)

theorem distance_ne_minValue : position.toInt64 - f.offset.toInt64 ≠ Int64.minValue := by
  have hp := position.le_toInt
  have ho' := f.offset.toInt_lt
  intro hleast
  rw [← Int64.toInt_inj, toInt_distance, Int64.toInt_minValue] at hleast
  omega

/-- No step of the computation fails. -/
theorem selects?_eq : f.selects? position = some (f.selects position) := by
  have hsub : sub? position.toInt64 f.offset.toInt64 = some (position.toInt64 - f.offset.toInt64) := by
    refine sub?_eq ?_
    rw [toInt_distance, Int32.toInt_toInt64, Int32.toInt_toInt64]
  have hleast := distance_ne_minValue f position
  unfold selects? selects
  rw [hsub]
  dsimp only [Option.bind_eq_bind, Option.bind_some]
  split
  · rfl
  · next hstep =>
    have hstep : f.step.toInt64 ≠ 0 := fun h => hstep (beq_iff_eq.2 h)
    rw [rem?_eq hstep hleast, div?_eq hstep hleast]
    dsimp only [Option.bind_some, Option.map_some]
    split
    · next hrest => rw [hrest, Bool.true_and]
    · next hrest => rw [Bool.eq_false_iff.2 hrest, Bool.false_and]

/-! ## Multiples -/

/-- A multiple in the direction of the divisor is one without a remainder and with no negative quotient. -/
theorem tmod_eq_zero_and_tdiv_nonneg_iff {d s : Int} (hs : s ≠ 0) :
    d.tmod s = 0 ∧ 0 ≤ d.tdiv s ↔ ∃ k : Nat, s * k = d := by
  constructor
  · rintro ⟨hrest, hquotient⟩
    obtain ⟨k, hk⟩ := Int.eq_ofNat_of_zero_le hquotient
    refine ⟨k, ?_⟩
    rw [← hk, Int.mul_comm]
    exact Int.tdiv_mul_cancel_of_tmod_eq_zero hrest
  · rintro ⟨k, rfl⟩
    rw [Int.mul_tdiv_cancel_left _ hs]
    exact ⟨Int.tmod_eq_zero_of_dvd (Int.dvd_mul_right s k), Int.natCast_nonneg k⟩

/-- The selected positions are the offset and those that a number of steps leads to from there. -/
theorem selects_iff :
    f.selects position = true ↔ ∃ k : Nat, f.step.toInt * k + f.offset.toInt = position.toInt := by
  have hdistance := toInt_distance f position
  have hstep : (f.step.toInt64 == 0) = true ↔ f.step.toInt = 0 := by
    rw [beq_iff_eq, ← Int64.toInt_inj, Int32.toInt_toInt64, Int64.toInt_zero]
  unfold selects
  dsimp only
  split
  · next hzero =>
    rw [beq_iff_eq, ← Int64.toInt_inj, hdistance, Int64.toInt_zero, hstep.1 hzero]
    simp only [Int.zero_mul, Int.zero_add, exists_const]
    omega
  · next hzero =>
    have hne : f.step.toInt ≠ 0 := fun h => hzero (hstep.2 h)
    rw [Bool.and_eq_true, beq_iff_eq, decide_eq_true_iff, ← Int64.toInt_inj, Int64.toInt_mod,
      Int64.le_iff_toInt_le, Int64.toInt_div_of_ne_left _ _ (distance_ne_minValue f position), hdistance,
      Int32.toInt_toInt64, Int64.toInt_zero, tmod_eq_zero_and_tdiv_nonneg_iff hne]
    exact exists_congr fun k => by omega

end TreeQuery.Formula
