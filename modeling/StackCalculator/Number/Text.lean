import StackCalculator.Number.Shortest

/-!
The text of a number: its shortest decimal, written out in full for magnitudes from `10 ^ -6` up
to but not including `10 ^ 21`, and with a signed exponent for all others. The text comes in parts,
in the order and the pieces in which it is handed to a sink.
-/

namespace StackCalculator

namespace Decimal

/-- The decimal written in full, without an exponent. There is a point only if a place follows
it, and always a digit before it. The digits, the zeros that fill up to the point and the point
are parts of their own, but a zero before the point goes with it. -/
def positionalParts (d : Decimal) : List (List Char) :=
  let digits := Nat.toDigits 10 d.coefficient
  let places := (-d.exponent).toNat
  if places = 0 then
    [digits, List.replicate d.exponent.toNat '0']
  else if places < digits.length then
    [digits.take (digits.length - places), ['.'], digits.drop (digits.length - places)]
  else
    [['0', '.'], List.replicate (places - digits.length) '0', digits]

/-- The decimal behind a sign, with one digit before the point and an exponent that always has a
sign. A negative exponent is in one part with the rest, a positive one is not. -/
def scientificParts (d : Decimal) (sign : List Char) : List (List Char) :=
  let digits := Nat.toDigits 10 d.coefficient
  let places := digits.drop 1
  let exponent := d.exponent + places.length
  let mantissa := sign ++ digits.take 1 ++ if places.isEmpty then [] else '.' :: places
  let magnitude := Nat.toDigits 10 exponent.natAbs
  if exponent < 0 then
    [mantissa ++ 'e' :: '-' :: magnitude]
  else
    [mantissa, ['e', '+'], magnitude]

end Decimal

namespace Number

/-- The rank of the least number that is written in full, zero apart. -/
def positionalFrom : Nat :=
  (Decimal.mk 1 (-6)).toNumber.rank

/-- The rank of the least number that is too large to be written in full. -/
def positionalUpTo : Nat :=
  (Decimal.mk 1 21).toNumber.rank

/-- The sign of a number, which is written only if it is negative. -/
def sign (x : Number) : List Char :=
  if x.isNegative then ['-'] else []

/-- The parts of a number's text, some of which can be empty. The sign of a zero is written, that
of a NaN is not. -/
def parts (x : Number) : List (List Char) :=
  if x.isNaN then
    ["NaN".toList]
  else if x.isInfinite then
    [x.sign, "Infinity".toList]
  else if x.isZero then
    [x.sign, ['0']]
  else if positionalFrom ≤ x.rank && x.rank < positionalUpTo then
    x.sign :: (shortestDecimal x.rank).positionalParts
  else
    (shortestDecimal x.rank).scientificParts x.sign

/-- The characters of a number's text. -/
def chars (x : Number) : List Char :=
  x.parts.flatten

/-- The text of a number. -/
def text (x : Number) : String :=
  String.ofList x.chars

end Number

end StackCalculator
