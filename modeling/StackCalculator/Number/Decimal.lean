import StackCalculator.Number.Basic

/-!
Decimals and the nearest binary64 number to one. Everything is exact arithmetic on natural
numbers: a magnitude is counted in units of the smallest positive number, `2 ^ -1074`.
-/

namespace StackCalculator

namespace Number

/-- How many units make one. -/
def unitsPerOne : Nat :=
  Nat.pow 2 1074

/-- The magnitude at a rank, in units of `2 ^ -1074`. At the rank of infinity it is that of
`2 ^ 1024`, the first power of two that no finite number reaches. -/
def units (rank : Nat) : Nat :=
  let exponent := rank / fractionCount
  let fraction := rank % fractionCount
  if exponent = 0 then fraction else (fractionCount + fraction) * Nat.pow 2 (exponent - 1)

/-- The greatest rank whose magnitude is at most the given count of units. The ranks go on above
infinity as if the exponent field had no end. -/
def floorRank (count : Nat) : Nat :=
  if count < fractionCount then
    count
  else
    let shift := count.log2 - 52
    shift * fractionCount + count / Nat.pow 2 shift

/-- The rank nearest to `numerator / denominator` units. A value halfway between two ranks goes
to the even one, and a value too large for a finite number goes to infinity. -/
def nearestRank (numerator denominator : Nat) : Nat :=
  let low := floorRank (numerator / denominator)
  let middle := (units low + units (low + 1)) * denominator
  let nearest :=
    match compare (2 * numerator) middle with
    | .lt => low
    | .gt => low + 1
    | .eq => low + low % 2
  min nearest infinityRank

end Number

/-- The decimal `coefficient * 10 ^ exponent`. One value has many such forms. -/
structure Decimal where
  coefficient : Nat
  exponent : Int
  deriving DecidableEq, Inhabited

namespace Decimal

/-- The number nearest to a decimal, ties to even. It never has a sign and is never a NaN. -/
def toNumber (d : Decimal) : Number :=
  .ofRank (Number.nearestRank
    (d.coefficient * Nat.pow 10 d.exponent.toNat * Number.unitsPerOne)
    (Nat.pow 10 (-d.exponent).toNat))

/-- The natural number that a run of digits spells. -/
def coefficientOf (digits : List Char) : Nat :=
  digits.foldl (fun value c => 10 * value + (c.toNat - '0'.toNat)) 0

/-- Reads digits, or digits with a point and more digits after it. Signs, exponents and a point
without a digit on either side are refused. -/
def read? (text : List Char) : Option Decimal :=
  let whole := text.takeWhile Char.isDigit
  if whole.isEmpty then
    none
  else
    match text.dropWhile Char.isDigit with
    | [] => some ⟨coefficientOf whole, 0⟩
    | point :: places =>
        if point = '.' && !places.isEmpty && places.all Char.isDigit then
          some ⟨coefficientOf (whole ++ places), -places.length⟩
        else
          none

end Decimal

end StackCalculator
