import Mathlib.Algebra.Order.Field.Power
import Mathlib.Algebra.Order.Field.Rat
import Mathlib.Order.Monotone.Basic
import Mathlib.Tactic.NormNum
import Mathlib.Tactic.Positivity
import StackCalculator.Number.Decimal

/-!
The numbers on the line. Magnitudes grow with the rank, so the ranks at most a given magnitude are
those up to one of them, and a decimal is rounded to the rank on its side of the middle between two
ranks. Rounding keeps the order of decimals, and what a rank stands for is rounded to that rank.
-/

namespace StackCalculator

namespace Number

theorem fractionCount_pos : 0 < fractionCount := by
  decide

/-- Up to twice the count of fractions, ranks are their own magnitudes. -/
theorem units_of_lt {rank : Nat} (h : rank < fractionCount) : units rank = rank := by
  simp [units, Nat.div_eq_of_lt h, Nat.mod_eq_of_lt h]

/-- A magnitude with all its 53 digits, the first of which is not zero. The power of two that follows
them is a magnitude of this form too, with one digit more. -/
theorem units_scaled {shift digits : Nat} (hLow : fractionCount ≤ digits)
    (hHigh : digits ≤ 2 * fractionCount) :
    units (shift * fractionCount + digits) = digits * 2 ^ shift := by
  have hPos := fractionCount_pos
  rcases Nat.lt_or_ge digits (2 * fractionCount) with hLess | hEnd
  · have hRank : shift * fractionCount + digits =
        (digits - fractionCount) + fractionCount * (shift + 1) := by
      rw [Nat.mul_comm shift, Nat.mul_add, Nat.mul_one]
      omega
    have hFraction : digits - fractionCount < fractionCount := by omega
    rw [hRank, units, Nat.add_mul_div_left _ _ hPos, Nat.add_mul_mod_self_left,
      Nat.div_eq_of_lt hFraction, Nat.mod_eq_of_lt hFraction, Nat.zero_add, if_neg (Nat.succ_ne_zero _),
      Nat.add_sub_cancel' hLow]
    rfl
  · obtain rfl : digits = 2 * fractionCount := Nat.le_antisymm hHigh hEnd
    have hRank : shift * fractionCount + 2 * fractionCount = 0 + fractionCount * (shift + 2) := by
      rw [Nat.mul_comm shift, Nat.mul_add]
      omega
    rw [hRank, units, Nat.add_mul_div_left _ _ hPos, Nat.add_mul_mod_self_left, Nat.zero_div,
      Nat.zero_mod, Nat.zero_add, if_neg (Nat.succ_ne_zero _)]
    change fractionCount * 2 ^ (shift + 1) = _
    rw [pow_succ, ← Nat.mul_assoc, Nat.mul_comm]
    exact (Nat.mul_assoc ..).symm

/-- Every other rank has 53 digits. -/
theorem exists_scaled {rank : Nat} (h : fractionCount ≤ rank) :
    ∃ shift digits, rank = shift * fractionCount + digits ∧ fractionCount ≤ digits ∧
      digits < 2 * fractionCount := by
  have hPos := fractionCount_pos
  have hQuotient : 1 ≤ rank / fractionCount := (Nat.one_le_div_iff hPos).mpr h
  have hRemainder := Nat.mod_lt rank hPos
  refine ⟨rank / fractionCount - 1, fractionCount + rank % fractionCount, ?_, by omega, by omega⟩
  calc
    rank = fractionCount * (rank / fractionCount) + rank % fractionCount :=
      (Nat.div_add_mod rank fractionCount).symm
    _ = fractionCount * (rank / fractionCount - 1 + 1) + rank % fractionCount := by
      rw [Nat.sub_add_cancel hQuotient]
    _ = _ := by rw [Nat.mul_add, Nat.mul_one, Nat.mul_comm, Nat.add_assoc]

theorem units_lt_succ (rank : Nat) : units rank < units (rank + 1) := by
  rcases Nat.lt_or_ge rank fractionCount with hLess | hMore
  · rw [units_of_lt hLess]
    rcases Nat.lt_or_ge (rank + 1) fractionCount with hNext | hNext
    · rw [units_of_lt hNext]
      exact Nat.lt_succ_self rank
    · have hUnits : units (0 * fractionCount + (rank + 1)) = (rank + 1) * 2 ^ 0 :=
        units_scaled hNext (by omega)
      rw [Nat.zero_mul, Nat.zero_add, pow_zero, Nat.mul_one] at hUnits
      rw [hUnits]
      exact Nat.lt_succ_self rank
  · obtain ⟨shift, digits, rfl, hLow, hHigh⟩ := exists_scaled hMore
    rw [Nat.add_assoc, units_scaled hLow hHigh.le, units_scaled (by omega) hHigh]
    exact Nat.mul_lt_mul_of_pos_right (Nat.lt_succ_self digits) (by positivity)

theorem units_strictMono : StrictMono units :=
  strictMono_nat_of_lt_succ units_lt_succ

/-- The rank found for a count of units is at most the count, and the next rank is above it. -/
theorem floorRank_spec (count : Nat) :
    units (floorRank count) ≤ count ∧ count < units (floorRank count + 1) := by
  unfold floorRank
  split
  · rename_i hLess
    have hNext := units_lt_succ count
    rw [units_of_lt hLess] at hNext ⊢
    exact ⟨Nat.le_refl count, hNext⟩
  · rename_i hMore
    rw [Nat.not_lt] at hMore
    have hSome : count ≠ 0 := by
      have hPos := fractionCount_pos
      omega
    have hShift : 52 ≤ count.log2 := (Nat.le_log2 hSome).mpr hMore
    obtain ⟨shift, hLog⟩ := Nat.exists_eq_add_of_le hShift
    have hBelow : 2 ^ (52 + shift) ≤ count := hLog ▸ Nat.log2_self_le hSome
    have hAbove : count < 2 ^ (52 + shift + 1) := hLog ▸ Nat.lt_log2_self
    have hPower : 0 < 2 ^ shift := by positivity
    have hLow : fractionCount ≤ count / 2 ^ shift := by
      rw [Nat.le_div_iff_mul_le hPower]
      rwa [pow_add] at hBelow
    have hHigh : count / 2 ^ shift < 2 * fractionCount := by
      rw [Nat.div_lt_iff_lt_mul hPower]
      rwa [show 52 + shift + 1 = 1 + 52 + shift by omega, pow_add, pow_add] at hAbove
    dsimp only
    rw [hLog, Nat.add_sub_cancel_left, Nat.add_assoc]
    change units (_ + count / 2 ^ shift) ≤ count ∧ count < units (_ + (count / 2 ^ shift + 1))
    rw [units_scaled hLow hHigh.le, units_scaled (by omega) hHigh]
    exact ⟨Nat.div_mul_le_self _ _, (Nat.div_lt_iff_lt_mul hPower).mp (Nat.lt_succ_self _)⟩

/-- The middle between a rank and the next, in half units. -/
def middle (rank : Nat) : Nat :=
  units rank + units (rank + 1)

theorem nearestRank_le_infinityRank (numerator denominator : Nat) :
    nearestRank numerator denominator ≤ infinityRank :=
  Nat.min_le_right _ _

/-- Of the rank below a value and the next, the one on the value's side of their middle is taken. -/
theorem nearestRank_eq {numerator denominator low : Nat}
    (hLow : floorRank (numerator / denominator) = low) :
    nearestRank numerator denominator =
      min (if 2 * numerator < middle low * denominator then low
        else if middle low * denominator < 2 * numerator then low + 1
        else low + low % 2) infinityRank := by
  rw [nearestRank, hLow, ← middle]
  rcases Nat.lt_trichotomy (2 * numerator) (middle low * denominator) with h | h | h
  · simp only [Nat.compare_eq_lt.mpr h, if_pos h]
  · simp only [Nat.compare_eq_eq.mpr h, if_neg h.not_lt, if_neg h.not_gt]
  · simp only [Nat.compare_eq_gt.mpr h, if_neg (Nat.lt_asymm h), if_pos h]

/-- A value is rounded to a finite rank or one below it if it is below the middle to the next rank,
or in the middle and the rank is even. -/
theorem nearestRank_le_iff {numerator denominator rank : Nat} (hPos : 0 < denominator)
    (hFinite : rank < infinityRank) :
    nearestRank numerator denominator ≤ rank ↔
      2 * numerator < middle rank * denominator ∨
        2 * numerator = middle rank * denominator ∧ rank % 2 = 0 := by
  obtain ⟨hLow, hHigh⟩ := floorRank_spec (numerator / denominator)
  rw [nearestRank_eq rfl]
  generalize floorRank (numerator / denominator) = low at hLow hHigh ⊢
  rw [Nat.le_div_iff_mul_le hPos] at hLow
  rw [Nat.div_lt_iff_lt_mul hPos] at hHigh
  rw [min_le_iff, or_iff_left (Nat.not_le_of_lt hFinite)]
  rcases Nat.lt_trichotomy low rank with hLess | rfl | hMore
  · -- The value is below the next rank already, so it is below every middle from there on.
    have hUp : units (low + 1) * denominator ≤ units rank * denominator :=
      Nat.mul_le_mul_right _ (units_strictMono.monotone hLess)
    have hUpper : units rank * denominator ≤ units (rank + 1) * denominator :=
      Nat.mul_le_mul_right _ (units_lt_succ rank).le
    refine iff_of_true ?_ (.inl ?_)
    · split_ifs <;> omega
    · rw [middle, Nat.add_mul]
      omega
  · split_ifs <;> omega
  · have hDown : units (rank + 1) * denominator ≤ units low * denominator :=
      Nat.mul_le_mul_right _ (units_strictMono.monotone hMore)
    have hLower : units rank * denominator < units (rank + 1) * denominator :=
      Nat.mul_lt_mul_of_pos_right (units_lt_succ rank) hPos
    refine iff_of_false ?_ ?_
    · split_ifs <;> omega
    · rw [middle, Nat.add_mul]
      omega

/-- Rounding keeps the order of values. -/
theorem nearestRank_mono {numerator denominator other divisor : Nat} (hPos : 0 < denominator)
    (hDivisor : 0 < divisor) (h : numerator * divisor ≤ other * denominator) :
    nearestRank numerator denominator ≤ nearestRank other divisor := by
  rcases Nat.lt_or_ge (nearestRank other divisor) infinityRank with hFinite | hInfinite
  · have hOther := (nearestRank_le_iff hDivisor hFinite).mp (Nat.le_refl _)
    rw [nearestRank_le_iff hPos hFinite]
    generalize nearestRank other divisor = rank at hOther ⊢
    have hScaled : 2 * numerator * divisor ≤ 2 * other * denominator := by
      rw [Nat.mul_assoc, Nat.mul_assoc]
      exact Nat.mul_le_mul_left 2 h
    have hSwap : middle rank * divisor * denominator = middle rank * denominator * divisor :=
      Nat.mul_right_comm ..
    rcases hOther with hBelow | ⟨hEqual, hEven⟩
    · left
      apply Nat.lt_of_mul_lt_mul_right
      calc
        2 * numerator * divisor ≤ 2 * other * denominator := hScaled
        _ < middle rank * divisor * denominator := Nat.mul_lt_mul_of_pos_right hBelow hPos
        _ = middle rank * denominator * divisor := hSwap
    · have hLe : 2 * numerator ≤ middle rank * denominator := by
        apply Nat.le_of_mul_le_mul_right _ hDivisor
        rw [← hSwap, ← hEqual]
        exact hScaled
      rcases Nat.lt_or_eq_of_le hLe with hLess | hSame
      · exact .inl hLess
      · exact .inr ⟨hSame, hEven⟩
  · exact Nat.le_trans (nearestRank_le_infinityRank _ _) hInfinite

/-- The magnitude of a rank is rounded to that rank. -/
theorem nearestRank_units {rank denominator : Nat} (hPos : 0 < denominator)
    (h : rank ≤ infinityRank) : nearestRank (units rank * denominator) denominator = rank := by
  have hDouble : 2 * (units rank * denominator) = (units rank + units rank) * denominator := by
    rw [← Nat.mul_assoc, Nat.two_mul]
  apply Nat.le_antisymm
  · rcases Nat.lt_or_eq_of_le h with hFinite | rfl
    · rw [nearestRank_le_iff hPos hFinite, hDouble]
      exact .inl (Nat.mul_lt_mul_of_pos_right
        (Nat.add_lt_add_left (units_lt_succ rank) _) hPos)
    · exact nearestRank_le_infinityRank _ _
  · cases rank with
    | zero => exact Nat.zero_le _
    | succ rank =>
        rw [← Nat.not_lt, Nat.lt_succ_iff, nearestRank_le_iff hPos h, hDouble]
        have hAbove : middle rank * denominator <
            (units (rank + 1) + units (rank + 1)) * denominator :=
          Nat.mul_lt_mul_of_pos_right (Nat.add_lt_add_right (units_lt_succ rank) _) hPos
        omega

theorem unitsPerOne_pos : 0 < unitsPerOne := by
  unfold unitsPerOne
  generalize 1074 = count
  exact Nat.two_pow_pos count

theorem infinityRank_lt_magnitudeCount : infinityRank < magnitudeCount := by
  decide

@[simp] theorem toNat_bits_ofRank {rank : Nat} (h : rank < magnitudeCount) :
    (ofRank rank).bits.toNat = rank :=
  UInt64.toNat_ofNat_of_lt' (Nat.lt_trans h (by decide))

theorem rank_ofRank {rank : Nat} (h : rank < magnitudeCount) : (ofRank rank).rank = rank := by
  rw [Number.rank, toNat_bits_ofRank h, Nat.mod_eq_of_lt h]

theorem toNat_bits (x : Number) :
    x.bits.toNat = x.rank + if x.isNegative then magnitudeCount else 0 := by
  have hBits : x.bits.toNat < 2 * magnitudeCount := x.bits.toNat_lt
  rw [rank, isNegative]
  split
  · rename_i hNegative
    rw [decide_eq_true_eq] at hNegative
    rw [Nat.mod_eq_sub_mod hNegative, Nat.mod_eq_of_lt (by omega)]
    omega
  · rename_i hPositive
    rw [decide_eq_true_eq, Nat.not_le] at hPositive
    rw [Nat.mod_eq_of_lt hPositive, Nat.add_zero]

theorem rank_lt (x : Number) : x.rank < magnitudeCount :=
  Nat.mod_lt _ (by decide)

theorem eq_ofRank {x : Number} (h : x.isNegative = false) : x = ofRank x.rank := by
  have hBits := toNat_bits x
  rw [h, if_neg Bool.false_ne_true, Nat.add_zero] at hBits
  rw [ofRank, ← hBits, UInt64.ofNat_toNat]

end Number

namespace Decimal

/-- The value of a decimal. -/
def value (d : Decimal) : ℚ :=
  d.coefficient * 10 ^ d.exponent

theorem value_eq_div (d : Decimal) :
    d.value = (d.coefficient * 10 ^ d.exponent.toNat : ℚ) / 10 ^ (-d.exponent).toNat := by
  obtain ⟨coefficient, exponent⟩ := d
  rw [value]
  rcases Int.le_total 0 exponent with hUp | hDown
  · obtain ⟨count, rfl⟩ := Int.eq_ofNat_of_zero_le hUp
    simp
  · obtain ⟨count, hCount⟩ := Int.eq_ofNat_of_zero_le (Int.neg_nonneg_of_nonpos hDown)
    obtain rfl : exponent = -count := by omega
    simp [div_eq_mul_inv]

/-- The rank that a decimal is rounded to. -/
theorem rank_toNumber (d : Decimal) :
    d.toNumber.rank = Number.nearestRank
      (d.coefficient * 10 ^ d.exponent.toNat * Number.unitsPerOne) (10 ^ (-d.exponent).toNat) :=
  Number.rank_ofRank
    (Nat.lt_of_le_of_lt (Number.nearestRank_le_infinityRank _ _)
      Number.infinityRank_lt_magnitudeCount)

theorem rank_toNumber_le (d : Decimal) : d.toNumber.rank ≤ Number.infinityRank := by
  rw [rank_toNumber]
  exact Number.nearestRank_le_infinityRank _ _

/-- A decimal has no sign, and neither has the number it is rounded to. -/
theorem toNumber_eq_ofRank (d : Decimal) : d.toNumber = .ofRank d.toNumber.rank := by
  rw [rank_toNumber]
  rfl

/-- A greater decimal is not rounded to a smaller number. -/
theorem rank_toNumber_mono {d other : Decimal} (h : d.value ≤ other.value) :
    d.toNumber.rank ≤ other.toNumber.rank := by
  rw [value_eq_div, value_eq_div, div_le_div_iff₀ (by positivity) (by positivity)] at h
  have hCross : d.coefficient * 10 ^ d.exponent.toNat * 10 ^ (-other.exponent).toNat ≤
      other.coefficient * 10 ^ other.exponent.toNat * 10 ^ (-d.exponent).toNat := by
    exact_mod_cast h
  rw [rank_toNumber, rank_toNumber]
  apply Number.nearestRank_mono (by positivity) (by positivity)
  rw [Nat.mul_right_comm, Nat.mul_right_comm _ Number.unitsPerOne]
  exact Nat.mul_le_mul_right _ hCross

/-- A decimal whose value is the magnitude of a rank is rounded to that rank. -/
theorem rank_toNumber_of_units {d : Decimal} {rank : Nat} (hRank : rank ≤ Number.infinityRank)
    (h : d.coefficient * 10 ^ d.exponent.toNat * Number.unitsPerOne =
      Number.units rank * 10 ^ (-d.exponent).toNat) : d.toNumber.rank = rank := by
  rw [rank_toNumber, h]
  exact Number.nearestRank_units (by positivity) hRank

/-- No decimal but a zero is written with the coefficient zero. -/
theorem coefficient_pos {d : Decimal} (h : 0 < d.toNumber.rank) : 0 < d.coefficient := by
  rw [Nat.pos_iff_ne_zero]
  intro hZero
  have hRank : d.toNumber.rank = 0 := by
    apply rank_toNumber_of_units (Nat.zero_le _)
    rw [hZero, Number.units_of_lt Number.fractionCount_pos]
    simp only [Nat.zero_mul]
  omega

end Decimal

end StackCalculator
