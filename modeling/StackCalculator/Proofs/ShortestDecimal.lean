import StackCalculator.Number.Text
import StackCalculator.Proofs.Rounding

/-!
The shortest decimal of a number. Whatever grid the search stops at, the decimal found there reads
back as the number, and the finest grid is exact. Whole numbers lie on the grid of ones, so their
decimals have no places. The two limits of positional notation are powers of ten, and the decimals of
the numbers beyond them have exponents beyond those powers.
-/

namespace StackCalculator

namespace Number

/-- A decimal found on a grid lies on it and reads back. -/
theorem decimalOnGrid?_eq_some {rank : Nat} {exponent : Int} {d : Decimal}
    (h : decimalOnGrid? rank exponent = some d) : d.toNumber.rank = rank ∧ d.exponent = exponent := by
  unfold decimalOnGrid? at h
  dsimp only at h
  split at h
  · cases h
  · split at h
    all_goals
      dsimp only at h
      split at h
      · cases h
        exact ⟨‹_›, rfl⟩
      · split at h
        · cases h
          exact ⟨‹_›, rfl⟩
        · cases h

theorem decimalUnits_mul_unitsPerOne (rank : Nat) :
    decimalUnits rank * unitsPerOne = units rank * 10 ^ 1074 := by
  unfold decimalUnits unitsPerOne
  generalize 1074 = count
  rw [Nat.pow_eq, Nat.pow_eq, Nat.mul_assoc, ← Nat.mul_pow]

/-- The finest grid holds the magnitude of every number. -/
theorem rank_decimalUnits {rank : Nat} (h : rank ≤ infinityRank) :
    (Decimal.mk (decimalUnits rank) (-1074)).toNumber.rank = rank := by
  apply Decimal.rank_toNumber_of_units h
  have hUp : (-1074 : Int).toNat = 0 := rfl
  have hDown : (-(-1074) : Int).toNat = 1074 := rfl
  dsimp only
  rw [hUp, hDown, Nat.pow_zero, Nat.mul_one, decimalUnits_mul_unitsPerOne]

theorem rank_shortestFrom {rank : Nat} (h : rank ≤ infinityRank) (step : Nat) :
    (shortestFrom rank step).toNumber.rank = rank := by
  induction step with
  | zero => exact rank_decimalUnits h
  | succ step ih =>
      rw [shortestFrom]
      split
      · rename_i d hFound
        exact (decimalOnGrid?_eq_some hFound).1
      · exact ih

/-- The shortest decimal of a number reads back as the number. -/
theorem rank_shortestDecimal {rank : Nat} (h : rank ≤ infinityRank) :
    (shortestDecimal rank).toNumber.rank = rank :=
  rank_shortestFrom h _

theorem coefficient_shortestDecimal_pos {rank : Nat} (hSome : 0 < rank) (h : rank ≤ infinityRank) :
    0 < (shortestDecimal rank).coefficient :=
  Decimal.coefficient_pos (by rwa [rank_shortestDecimal h])

/-- A whole number is found on the grid of ones. -/
theorem decimalOnGrid?_zero {rank : Nat} (hRank : rank ≤ infinityRank)
    (h : unitsPerOne ∣ units rank) :
    decimalOnGrid? rank 0 = some ⟨units rank / unitsPerOne, 0⟩ := by
  have hReads : (Decimal.mk (units rank / unitsPerOne) 0).toNumber.rank = rank := by
    apply Decimal.rank_toNumber_of_units hRank
    dsimp only
    rw [Int.toNat_zero, Int.neg_zero, Int.toNat_zero, Nat.pow_zero, Nat.mul_one, Nat.mul_one,
      Nat.div_mul_cancel h]
  have hExcess : units rank % unitsPerOne = 0 := Nat.mod_eq_zero_of_dvd h
  have hScale (count : Nat) : count * Nat.pow 10 (0 : Int).toNat = count := Nat.mul_one count
  have hNegated : (-0 : Int) = 0 := rfl
  simp only [decimalOnGrid?, hNegated, hScale, hExcess, Nat.mul_zero, Nat.not_lt_zero, decide_false,
    Bool.false_and, Bool.false_eq_true, if_false, unitsPerOne_pos, if_true, hReads]

/-- The search for a whole number does not go past the grid of ones. -/
theorem exponent_shortestFrom_nonneg {rank step : Nat} (hRank : rank ≤ infinityRank)
    (h : unitsPerOne ∣ units rank) (hStep : 1074 ≤ step) :
    0 ≤ (shortestFrom rank step).exponent := by
  induction step with
  | zero => omega
  | succ step ih =>
      rw [shortestFrom]
      split
      · rename_i d hFound
        rw [(decimalOnGrid?_eq_some hFound).2]
        omega
      · rename_i hNone
        by_cases hMore : 1074 ≤ step
        · exact ih hMore
        · -- This is the grid of ones, where the search cannot have failed.
          have hOnes : (step : Int) + 1 - 1074 = 0 := by omega
          rw [hOnes, decimalOnGrid?_zero hRank h] at hNone
          cases hNone

/-- The search for a number that is at least one starts above the grid of ones. -/
theorem le_log2_decimalUnits {rank : Nat} (h : unitsPerOne ≤ units rank) :
    3567 ≤ (decimalUnits rank).log2 := by
  have hPower : 10 ^ 1074 ≤ decimalUnits rank := by
    apply Nat.le_of_mul_le_mul_right _ unitsPerOne_pos
    rw [decimalUnits_mul_unitsPerOne, Nat.mul_comm]
    exact Nat.mul_le_mul_right _ h
  have hTwos : 2 ^ 3567 ≤ 10 ^ 1074 :=
    calc
      2 ^ 3567 = (2 ^ 93) ^ 38 * 2 ^ 33 := by rw [← pow_mul, ← pow_add]
      _ ≤ (10 ^ 28) ^ 38 * 10 ^ 10 :=
        Nat.mul_le_mul (Nat.pow_le_pow_left (by norm_num) 38) (by norm_num)
      _ = 10 ^ 1074 := by rw [← pow_mul, ← pow_add]
  have hSome : decimalUnits rank ≠ 0 := by
    rw [← Nat.pos_iff_ne_zero]
    exact Nat.lt_of_lt_of_le (Nat.pow_pos (by decide)) hPower
  have hLog (count : Nat) (hCount : 2 ^ count ≤ decimalUnits rank) :
      count ≤ (decimalUnits rank).log2 := (Nat.le_log2 hSome).mpr hCount
  exact hLog 3567 (Nat.le_trans hTwos hPower)

/-- The decimal of a whole number has no places. -/
theorem exponent_shortestDecimal_nonneg {rank : Nat} (hSome : 0 < rank) (hRank : rank ≤ infinityRank)
    (h : unitsPerOne ∣ units rank) : 0 ≤ (shortestDecimal rank).exponent := by
  have hUnits : 0 < units rank := Nat.zero_lt_of_lt (units_strictMono hSome)
  have hLog := le_log2_decimalUnits (Nat.le_of_dvd hUnits h)
  apply exponent_shortestFrom_nonneg hRank h
  omega

end Number

namespace Decimal

/-- The power of ten that the first digit of a decimal counts. -/
def leadingExponent (d : Decimal) : Int :=
  d.exponent + ((Nat.toDigits 10 d.coefficient).drop 1).length

theorem pow_length_le {coefficient : Nat} (h : 0 < coefficient) :
    10 ^ ((Nat.toDigits 10 coefficient).drop 1).length ≤ coefficient ∧
      coefficient < 10 ^ (((Nat.toDigits 10 coefficient).drop 1).length + 1) := by
  have hPos : 0 < (Nat.toDigits 10 coefficient).length := Nat.length_toDigits_pos
  rw [List.length_drop]
  constructor
  · rcases Nat.eq_zero_or_pos ((Nat.toDigits 10 coefficient).length - 1) with hOne | hMore
    · rw [hOne]
      exact h
    · rw [← Nat.not_lt, ← Nat.length_toDigits_le_iff (by decide) hMore]
      omega
  · rw [← Nat.length_toDigits_le_iff (by decide) (Nat.succ_pos _)]
    omega

/-- A decimal is at least the power of ten that its first digit counts, and less than the next. -/
theorem value_bounds {d : Decimal} (h : 0 < d.coefficient) :
    (10 : ℚ) ^ d.leadingExponent ≤ d.value ∧ d.value < (10 : ℚ) ^ (d.leadingExponent + 1) := by
  obtain ⟨hLow, hHigh⟩ := pow_length_le h
  have hPower : (0 : ℚ) < 10 ^ d.exponent := by positivity
  have hTen : (10 : ℚ) ≠ 0 := by norm_num
  rw [leadingExponent, value]
  generalize ((Nat.toDigits 10 d.coefficient).drop 1).length = count at hLow hHigh
  constructor
  · rw [zpow_add₀ hTen, mul_comm, zpow_natCast]
    exact mul_le_mul_of_nonneg_right (by exact_mod_cast hLow) hPower.le
  · rw [show d.exponent + count + 1 = ((count + 1 : Nat) : Int) + d.exponent by omega,
      zpow_add₀ hTen, zpow_natCast]
    exact mul_lt_mul_of_pos_right (by exact_mod_cast hHigh) hPower

end Decimal

namespace Number

theorem positionalFrom_le_positionalUpTo : positionalFrom ≤ positionalUpTo :=
  Decimal.rank_toNumber_mono (by norm_num [Decimal.value])

theorem positionalUpTo_le_infinityRank : positionalUpTo ≤ infinityRank :=
  Decimal.rank_toNumber_le _

/-- The decimal of a number below the lower limit starts behind the sixth place. -/
theorem leadingExponent_of_lt_positionalFrom {rank : Nat} (hSome : 0 < rank)
    (h : rank < positionalFrom) : (shortestDecimal rank).leadingExponent ≤ -7 := by
  have hRank : rank ≤ infinityRank :=
    h.le.trans (positionalFrom_le_positionalUpTo.trans positionalUpTo_le_infinityRank)
  have hBelow : (shortestDecimal rank).value < (Decimal.mk 1 (-6)).value := by
    by_contra hNot
    have hMono := Decimal.rank_toNumber_mono (not_lt.mp hNot)
    rw [rank_shortestDecimal hRank] at hMono
    exact absurd h (Nat.not_lt.mpr hMono)
  have hLow := (Decimal.value_bounds (coefficient_shortestDecimal_pos hSome hRank)).1
  have hPower : (10 : ℚ) ^ (shortestDecimal rank).leadingExponent < 10 ^ (-6 : Int) := by
    apply lt_of_le_of_lt hLow
    simpa [Decimal.value] using hBelow
  have hLess := (zpow_lt_zpow_iff_right₀ (by norm_num)).mp hPower
  omega

theorem shortestDecimal_positionalUpTo : shortestDecimal positionalUpTo = ⟨1, 21⟩ := by
  decide +kernel

/-- The decimal of a finite number from the upper limit on has at least 22 digits before the
point. -/
theorem leadingExponent_of_positionalUpTo_le {rank : Nat} (h : positionalUpTo ≤ rank)
    (hRank : rank ≤ infinityRank) : 21 ≤ (shortestDecimal rank).leadingExponent := by
  have hSome : 0 < rank := Nat.lt_of_lt_of_le (by decide +kernel) h
  -- Rounding is monotone but not strictly, so it says nothing of the limit itself: that one number's
  -- decimal has to be computed.
  have hAbove : (Decimal.mk 1 21).value ≤ (shortestDecimal rank).value := by
    rcases Nat.lt_or_eq_of_le h with hMore | rfl
    · by_contra hNot
      have hMono := Decimal.rank_toNumber_mono (not_le.mp hNot).le
      rw [rank_shortestDecimal hRank] at hMono
      exact absurd hMore (Nat.not_lt.mpr hMono)
    · rw [shortestDecimal_positionalUpTo]
  have hHigh := (Decimal.value_bounds (coefficient_shortestDecimal_pos hSome hRank)).2
  have hPower : (10 : ℚ) ^ (21 : Int) < 10 ^ ((shortestDecimal rank).leadingExponent + 1) := by
    apply lt_of_le_of_lt _ hHigh
    simpa [Decimal.value] using hAbove
  have hLess := (zpow_lt_zpow_iff_right₀ (by norm_num)).mp hPower
  omega

end Number

end StackCalculator
