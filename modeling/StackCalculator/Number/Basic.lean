/-!
Binary64 numbers, held as their bit patterns. Equality of numbers is equality of bits; comparing
them by value, where a NaN is unordered and the two zeros agree, is a separate operation.
-/

namespace StackCalculator

/-- A binary64 number by its 64 bits: sign, exponent and fraction. The two zeros are different
numbers here, and so are NaNs with different payloads. -/
structure Number where
  bits : UInt64
  deriving DecidableEq, Inhabited

namespace Number

/-- How many numbers have one sign and exponent. -/
def fractionCount : Nat :=
  Nat.pow 2 52

/-- How many numbers have one sign. -/
def magnitudeCount : Nat :=
  Nat.pow 2 63

/-- The number's place among the numbers of its sign, counted from zero. The exponent and
fraction fields read as one natural number, so it grows with the magnitude. -/
def rank (x : Number) : Nat :=
  x.bits.toNat % magnitudeCount

/-- Whether the sign bit is set. A negative zero and a NaN can have it too. -/
def isNegative (x : Number) : Bool :=
  magnitudeCount ≤ x.bits.toNat

/-- The rank of the infinities: every finite number ranks below it and every NaN above. -/
def infinityRank : Nat :=
  2047 * fractionCount

/-- The number of a rank that has no sign. -/
def ofRank (rank : Nat) : Number :=
  ⟨UInt64.ofNat rank⟩

def isNaN (x : Number) : Bool :=
  infinityRank < x.rank

def isInfinite (x : Number) : Bool :=
  x.rank = infinityRank

/-- Whether the number is a zero of either sign. -/
def isZero (x : Number) : Bool :=
  x.rank = 0

/-- A binary operation that is rounded once to the nearest number, ties to even. A NaN result
always has the same bits. -/
def lift (operation : Float → Float → Float) (x y : Number) : Number :=
  ⟨(operation (Float.ofBits x.bits) (Float.ofBits y.bits)).toBits⟩

instance : Add Number := ⟨lift (· + ·)⟩
instance : Sub Number := ⟨lift (· - ·)⟩
instance : Mul Number := ⟨lift (· * ·)⟩

/-- Division is total: a quotient by zero is an infinity or a NaN. -/
instance : Div Number := ⟨lift (· / ·)⟩

/-- The number's place on the whole line, where the two zeros fall together. It has no meaning
for a NaN. -/
def position (x : Number) : Int :=
  if x.isNegative then -x.rank else x.rank

/-- Compares by value. A NaN has no order with any number, itself included. -/
def compare? (x y : Number) : Option Ordering :=
  if x.isNaN || y.isNaN then none else some (compare x.position y.position)

/-- Equality by value: the two zeros agree, and a NaN differs from itself. -/
def sameValue (x y : Number) : Bool :=
  x.compare? y == some .eq

end Number

end StackCalculator
