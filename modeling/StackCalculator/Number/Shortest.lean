import StackCalculator.Number.Decimal

/-!
The shortest decimal that reads back as a given number. The search goes through grids of multiples
of `10 ^ e`, from coarse to fine, and stops at the first grid where one of the two neighbours of
the number is nearest to that number and to no other.
-/

namespace StackCalculator.Number

/-- The magnitude at a rank, in units of `10 ^ -1074`. It is a whole count, because
`2 ^ -1074 = 5 ^ 1074 * 10 ^ -1074`. -/
def decimalUnits (rank : Nat) : Nat :=
  units rank * Nat.pow 5 1074

/-- The multiple of `10 ^ exponent` that reads back as the given rank, if one of the two
neighbours of its magnitude does. Where both do, the closer one is taken, and of two equally close
ones the greater. A neighbour that is more than half the gap to the next rank away cannot read
back, so nothing is tried if both are. -/
def decimalOnGrid? (rank : Nat) (exponent : Int) : Option Decimal :=
  let scale := Nat.pow 10 (-exponent).toNat
  let numerator := units rank * scale
  let denominator := unitsPerOne * Nat.pow 10 exponent.toNat
  let gap := (units (rank + 1) - units rank) * scale
  let low := numerator / denominator
  let excess := numerator % denominator
  if gap < 2 * excess && gap < 2 * (denominator - excess) then
    none
  else
    let below : Decimal := ⟨low, exponent⟩
    let above : Decimal := ⟨low + 1, exponent⟩
    let (nearer, farther) := if 2 * excess < denominator then (below, above) else (above, below)
    if nearer.toNumber.rank = rank then
      some nearer
    else if farther.toNumber.rank = rank then
      some farther
    else
      none

/-- Searches the grids `10 ^ (step - 1074)` downward. The finest grid holds every finite number
itself. -/
def shortestFrom (rank : Nat) : Nat → Decimal
  | 0 => ⟨decimalUnits rank, -1074⟩
  | step + 1 =>
      match decimalOnGrid? rank (step + 1 - 1074) with
      | some decimal => decimal
      | none => shortestFrom rank step

/-- The decimal with the fewest digits that reads back as the given rank, and the closest of
those. The search starts at a power of ten above the magnitude. -/
def shortestDecimal (rank : Nat) : Decimal :=
  shortestFrom rank (((decimalUnits rank).log2 + 1) * 30103 / 100000 + 1)

end StackCalculator.Number
