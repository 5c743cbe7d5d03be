import StackCalculator.Proofs.LongestMatch
import StackCalculator.Proofs.ShortestDecimal

/-!
Texts of decimals and how they are read. Two readers agree on them: that of the language, which knows
digits and places only, and one for numbers in general, with signs, exponents and names. A decimal in
positional notation is a lexeme of the language and is read as the number that the decimal is rounded
to; in scientific notation only the general reader takes it.
-/

namespace StackCalculator

namespace Decimal

/-- Reads digits, at least one. -/
def readDigits? (text : List Char) : Option Nat :=
  if text.isEmpty || !text.all Char.isDigit then none else some (coefficientOf text)

/-- Reads an exponent: digits, perhaps behind a sign. -/
def readExponent? : List Char → Option Int
  | '-' :: digits => (readDigits? digits).map fun power => -Int.ofNat power
  | '+' :: digits => (readDigits? digits).map Int.ofNat
  | digits => (readDigits? digits).map Int.ofNat

/-- Reads digits, perhaps with a point before, among or behind them. There is at least one digit. -/
def readMantissa? (text : List Char) : Option Decimal :=
  let whole := text.takeWhile Char.isDigit
  match text.dropWhile Char.isDigit with
  | [] => if whole.isEmpty then none else some ⟨coefficientOf whole, 0⟩
  | point :: places =>
      if point = '.' && places.all Char.isDigit && !(whole ++ places).isEmpty then
        some ⟨coefficientOf (whole ++ places), -places.length⟩
      else
        none

/-- Whether a character is not the mark of an exponent. -/
def beforeExponent (c : Char) : Bool :=
  c != 'e' && c != 'E'

/-- Reads a mantissa, perhaps with an exponent behind it. -/
def readUnsigned? (text : List Char) : Option Decimal :=
  match text.dropWhile beforeExponent with
  | [] => readMantissa? text
  | _ :: power =>
      match readMantissa? (text.takeWhile beforeExponent), readExponent? power with
      | some mantissa, some power => some { mantissa with exponent := mantissa.exponent + power }
      | _, _ => none

end Decimal

namespace Number

/-- The number with the other sign. -/
def opposite (x : Number) : Number :=
  ⟨UInt64.ofNat (magnitudeCount + x.bits.toNat)⟩

/-- Reads a decimal or the name of a number that is none. Names are read in any case of letters. -/
def readUnsigned? (text : List Char) : Option Number :=
  match Decimal.readUnsigned? text with
  | some d => some d.toNumber
  | none =>
      let name := String.ofList (text.map Char.toLower)
      if name = "inf" || name = "infinity" then some (.ofRank infinityRank)
      else if name = "nan" then some ⟨0x7FF8000000000000⟩
      else none

/-- Reads a number in any notation, perhaps behind a sign. -/
def read? : List Char → Option Number
  | '-' :: text => (readUnsigned? text).map opposite
  | '+' :: text => readUnsigned? text
  | text => readUnsigned? text

end Number

/-- A literal of the language has no characters but digits and a point. -/
theorem Token.Lexeme.digit_or_point {text : List Char} (h : Token.Lexeme .number text) :
    ∀ c ∈ text, c.isDigit = true ∨ c = '.' := by
  intro c hc
  cases h with
  | whole hSome hDigits => exact .inl (hDigits c hc)
  | fraction hSome hDigits hPlace hPlaces =>
      rcases List.mem_append.mp hc with hc | hc
      · exact .inl (hDigits c hc)
      · rcases List.mem_cons.mp hc with hc | hc
        · exact .inr hc
        · exact .inl (hPlaces c hc)
  | mark hMark => cases hMark

namespace Decimal

theorem coefficientOf_eq_ofDigitChars (digits : List Char) :
    coefficientOf digits = Nat.ofDigitChars 10 digits 0 :=
  rfl

/-- The digits of a natural number spell it. -/
theorem coefficientOf_toDigits (n : Nat) : coefficientOf (Nat.toDigits 10 n) = n :=
  Nat.ofDigitChars_ten_toDigits

/-- Zeros behind the digits count as powers of ten. -/
theorem coefficientOf_append_zeros (digits : List Char) (count : Nat) :
    coefficientOf (digits ++ List.replicate count '0') = coefficientOf digits * 10 ^ count := by
  rw [coefficientOf_eq_ofDigitChars, Nat.ofDigitChars_append, Nat.ofDigitChars_replicate_zero,
    Nat.mul_comm]
  rfl

/-- Zeros before the digits do not count. -/
theorem coefficientOf_zeros_append (count : Nat) (digits : List Char) :
    coefficientOf (List.replicate count '0' ++ digits) = coefficientOf digits := by
  rw [coefficientOf_eq_ofDigitChars, Nat.ofDigitChars_append, Nat.ofDigitChars_replicate_zero,
    Nat.mul_zero]
  rfl

theorem isDigit_of_mem_toDigits {n : Nat} {c : Char} (h : c ∈ Nat.toDigits 10 n) :
    c.isDigit = true :=
  Nat.isDigit_of_mem_toDigits (by decide) (by decide) h

theorem isDigit_of_mem_zeros {count : Nat} {c : Char} (h : c ∈ List.replicate count '0') :
    c.isDigit = true := by
  rw [List.eq_of_mem_replicate h]
  rfl

theorem lexeme_zero : Token.Lexeme .number ['0'] :=
  .whole (List.cons_ne_nil _ _) fun c hc =>
    isDigit_of_mem_zeros (show c ∈ List.replicate 1 '0' from hc)

/-- A text in positional notation stands for a decimal: its digits spell the coefficient. Without a
point, they also spell the zeros behind it, and with one, the exponent counts the places. -/
inductive Written (d : Decimal) : List Char → Prop where
  | whole {digits : List Char} (hSome : digits ≠ []) (hDigits : ∀ c ∈ digits, c.isDigit = true)
      (hExponent : 0 ≤ d.exponent)
      (hValue : coefficientOf digits = d.coefficient * 10 ^ d.exponent.toNat) : Written d digits
  | fraction {digits places : List Char} (hSome : digits ≠ [])
      (hDigits : ∀ c ∈ digits, c.isDigit = true) (hPlace : places ≠ [])
      (hPlaces : ∀ c ∈ places, c.isDigit = true) (hExponent : d.exponent = -places.length)
      (hValue : coefficientOf (digits ++ places) = d.coefficient) :
      Written d (digits ++ '.' :: places)

/-- What is printed in positional notation stands for the decimal that is printed. -/
theorem written_positionalParts (d : Decimal) : d.Written d.positionalParts.flatten := by
  have hDigits : Nat.toDigits 10 d.coefficient ≠ [] := Nat.toDigits_ne_nil
  have hLength := List.length_pos_iff.mpr hDigits
  have hSpells := coefficientOf_toDigits d.coefficient
  have hAll : ∀ c ∈ Nat.toDigits 10 d.coefficient, c.isDigit = true :=
    fun c hc => isDigit_of_mem_toDigits hc
  unfold positionalParts
  dsimp only
  generalize Nat.toDigits 10 d.coefficient = digits at hDigits hLength hSpells hAll ⊢
  by_cases hWhole : (-d.exponent).toNat = 0
  · rw [if_pos hWhole]
    simp only [List.flatten_cons, List.flatten_nil, List.append_nil]
    apply Written.whole
    · simp [hDigits]
    · intro c hc
      rcases List.mem_append.mp hc with hc | hc
      · exact hAll c hc
      · exact isDigit_of_mem_zeros hc
    · omega
    · rw [coefficientOf_append_zeros, hSpells]
  · rw [if_neg hWhole]
    by_cases hInside : (-d.exponent).toNat < digits.length
    · rw [if_pos hInside]
      simp only [List.flatten_cons, List.flatten_nil, List.append_nil, List.singleton_append]
      apply Written.fraction
      · intro hNone
        have hCount := congrArg List.length hNone
        simp only [List.length_take, List.length_nil] at hCount
        omega
      · exact fun c hc => hAll c (List.mem_of_mem_take hc)
      · intro hNone
        have hCount := congrArg List.length hNone
        simp only [List.length_drop, List.length_nil] at hCount
        omega
      · exact fun c hc => hAll c (List.mem_of_mem_drop hc)
      · simp only [List.length_drop]
        omega
      · rw [List.take_append_drop, hSpells]
    · rw [if_neg hInside]
      simp only [List.flatten_cons, List.flatten_nil, List.append_nil]
      change d.Written (['0'] ++ '.' ::
        (List.replicate ((-d.exponent).toNat - digits.length) '0' ++ digits))
      apply Written.fraction
      · exact List.cons_ne_nil _ _
      · exact fun c hc => isDigit_of_mem_zeros (show c ∈ List.replicate 1 '0' from hc)
      · simp [hDigits]
      · intro c hc
        rcases List.mem_append.mp hc with hc | hc
        · exact isDigit_of_mem_zeros hc
        · exact hAll c hc
      · simp only [List.length_append, List.length_replicate]
        omega
      · rw [← hSpells, ← coefficientOf_zeros_append _ digits]
        exact coefficientOf_zeros_append 1 _

/-- The zeros behind the digits can be written out or counted by the exponent. -/
theorem toNumber_shift (coefficient : Nat) {exponent : Int} (h : 0 ≤ exponent) :
    (Decimal.mk (coefficient * 10 ^ exponent.toNat) 0).toNumber =
      (Decimal.mk coefficient exponent).toNumber := by
  have hDown : (-exponent).toNat = 0 := by omega
  simp [toNumber, hDown]

namespace Written

variable {d : Decimal} {text : List Char}

/-- Positional notation is that of the literals of the language. -/
theorem lexeme (h : d.Written text) : Token.Lexeme .number text := by
  cases h with
  | whole hSome hDigits => exact .whole hSome hDigits
  | fraction hSome hDigits hPlace hPlaces => exact .fraction hSome hDigits hPlace hPlaces

theorem point_not_mem (h : d.Written text) (hExponent : 0 ≤ d.exponent) : '.' ∉ text := by
  cases h with
  | whole hSome hDigits => exact fun hPoint => absurd (hDigits _ hPoint) (by decide)
  | fraction hSome hDigits hPlace hPlaces hPlaceCount =>
      have hCount := List.length_pos_iff.mpr hPlace
      omega

/-- The language reads it as the number that the decimal is rounded to. -/
theorem read? (h : d.Written text) :
    ∃ other, Decimal.read? text = some other ∧ other.toNumber = d.toNumber := by
  cases h with
  | whole hSome hDigits hExponent hValue =>
      refine ⟨_, read?_whole hSome (List.all_eq_true.mpr hDigits), ?_⟩
      rw [hValue]
      exact toNumber_shift d.coefficient hExponent
  | fraction hSome hDigits hPlace hPlaces hExponent hValue =>
      refine ⟨_, read?_places hSome (List.all_eq_true.mpr hDigits) hPlace
        (List.all_eq_true.mpr hPlaces), ?_⟩
      rw [hValue, ← hExponent]

end Written

/-- The general reader takes the literals of the language for the same decimals. -/
theorem readMantissa?_of_read? {text : List Char} {d : Decimal} (h : read? text = some d) :
    readMantissa? text = some d := by
  cases hRest : text.dropWhile Char.isDigit with
  | nil =>
      simp only [read?, hRest] at h
      simpa only [readMantissa?, hRest] using h
  | cons point places =>
      simp only [read?, hRest] at h
      simp only [readMantissa?, hRest]
      by_cases hNone : (text.takeWhile Char.isDigit).isEmpty = true
      · rw [if_pos hNone] at h
        cases h
      · rw [if_neg hNone] at h
        split at h
        · rename_i hPlaces
          simp only [Bool.and_eq_true] at hPlaces
          rw [if_pos]
          · exact h
          · obtain ⟨first, whole, hWhole⟩ :=
              List.exists_cons_of_ne_nil (mt List.isEmpty_iff.mpr hNone)
            rw [hPlaces.1.1, hPlaces.2, hWhole]
            rfl
        · cases h

theorem beforeExponent_of_lexeme {text : List Char} (h : Token.Lexeme .number text) :
    ∀ c ∈ text, beforeExponent c = true := by
  intro c hc
  rcases h.digit_or_point c hc with hDigit | rfl
  · simp only [beforeExponent, Bool.and_eq_true, bne_iff_ne]
    constructor <;> rintro rfl <;> exact absurd hDigit (by decide)
  · rfl

/-- No literal of the language has an exponent. -/
theorem not_lexeme_exponent (mantissa power : List Char) :
    ¬ Token.Lexeme .number (mantissa ++ 'e' :: power) :=
  fun h => absurd (beforeExponent_of_lexeme h 'e' (by simp)) (by decide)

theorem readUnsigned?_of_lexeme {text : List Char} {d : Decimal}
    (hLexeme : Token.Lexeme .number text) (h : read? text = some d) :
    readUnsigned? text = some d := by
  rw [readUnsigned?, List.dropWhile_eq_nil_iff.mpr (beforeExponent_of_lexeme hLexeme)]
  exact readMantissa?_of_read? h

/-- The places of a mantissa. There is a point only if there are any. -/
def pointed (places : List Char) : List Char :=
  if places.isEmpty then [] else '.' :: places

/-- One digit before the point, places, and the exponent behind its mark and sign. -/
theorem flatten_scientificParts (d : Decimal) (sign : List Char) :
    ∃ first places, Nat.toDigits 10 d.coefficient = first :: places ∧
      (d.scientificParts sign).flatten =
        sign ++ (first :: pointed places ++ 'e' :: (if d.leadingExponent < 0 then '-' else '+') ::
          Nat.toDigits 10 d.leadingExponent.natAbs) := by
  obtain ⟨first, places, hDigits⟩ :=
    List.exists_cons_of_ne_nil (Nat.toDigits_ne_nil (n := d.coefficient) (b := 10))
  refine ⟨first, places, hDigits, ?_⟩
  have hExponent : d.leadingExponent = d.exponent + places.length := by
    rw [leadingExponent, hDigits]
    rfl
  rw [scientificParts, hDigits, List.drop_one, List.tail_cons, ← hExponent]
  by_cases hNegative : d.leadingExponent < 0
  · simp [hNegative, pointed]
  · simp [hNegative, pointed]

/-- The mantissa of scientific notation, read as a literal of the language. -/
theorem read?_mantissa {first : Char} {places : List Char} (hFirst : first.isDigit = true)
    (hPlaces : ∀ c ∈ places, c.isDigit = true) :
    read? (first :: pointed places) = some ⟨coefficientOf (first :: places), -places.length⟩ := by
  have hWhole : [first].all Char.isDigit = true := by simpa using hFirst
  by_cases hNone : places = []
  · subst hNone
    exact read?_whole (List.cons_ne_nil _ _) hWhole
  · rw [pointed, if_neg (by simpa using hNone)]
    exact read?_places (List.cons_ne_nil _ _) hWhole hNone (List.all_eq_true.mpr hPlaces)

theorem lexeme_mantissa {first : Char} {places : List Char} (hFirst : first.isDigit = true)
    (hPlaces : ∀ c ∈ places, c.isDigit = true) : Token.Lexeme .number (first :: pointed places) := by
  have hWhole : ∀ c ∈ [first], c.isDigit = true := by simpa using hFirst
  by_cases hNone : places = []
  · subst hNone
    exact .whole (List.cons_ne_nil _ _) hWhole
  · rw [pointed, if_neg (by simpa using hNone)]
    exact .fraction (List.cons_ne_nil _ _) hWhole hNone hPlaces

theorem readDigits?_toDigits (n : Nat) : readDigits? (Nat.toDigits 10 n) = some n := by
  have hSome : Nat.toDigits 10 n ≠ [] := Nat.toDigits_ne_nil
  have hAll : (Nat.toDigits 10 n).all Char.isDigit = true :=
    List.all_eq_true.mpr fun c hc => isDigit_of_mem_toDigits hc
  simp [readDigits?, hSome, hAll, coefficientOf_toDigits]

theorem readExponent?_signed (power : Int) :
    readExponent? ((if power < 0 then '-' else '+') :: Nat.toDigits 10 power.natAbs) =
      some power := by
  by_cases hNegative : power < 0
  · rw [if_pos hNegative, readExponent?, readDigits?_toDigits, Option.map_some, Option.some_inj,
      Int.ofNat_eq_natCast]
    omega
  · rw [if_neg hNegative, readExponent?, readDigits?_toDigits, Option.map_some, Option.some_inj,
      Int.ofNat_eq_natCast]
    omega

/-- What is printed in scientific notation, the sign apart, is read as the decimal that is
printed. -/
theorem readUnsigned?_scientific {d : Decimal} {first : Char} {places : List Char}
    (h : Nat.toDigits 10 d.coefficient = first :: places) :
    readUnsigned? (first :: pointed places ++ 'e' :: (if d.leadingExponent < 0 then '-' else '+') ::
      Nat.toDigits 10 d.leadingExponent.natAbs) = some d := by
  have hFirst : first.isDigit = true := isDigit_of_mem_toDigits (h ▸ List.mem_cons_self)
  have hPlaces : ∀ c ∈ places, c.isDigit = true :=
    fun c hc => isDigit_of_mem_toDigits (h ▸ List.mem_cons_of_mem first hc)
  have hBefore := beforeExponent_of_lexeme (lexeme_mantissa hFirst hPlaces)
  have hMantissa := readMantissa?_of_read? (read?_mantissa hFirst hPlaces)
  have hMark : beforeExponent 'e' = false := rfl
  have hExponent : -(places.length : Int) + d.leadingExponent = d.exponent := by
    rw [leadingExponent, h, List.drop_one, List.tail_cons]
    omega
  rw [readUnsigned?, List.dropWhile_append_of_pos hBefore, List.takeWhile_append_of_pos hBefore]
  simp only [List.dropWhile_cons, List.takeWhile_cons, hMark, Bool.false_eq_true, if_false,
    List.append_nil, hMantissa, readExponent?_signed, hExponent, ← h, coefficientOf_toDigits]

end Decimal

namespace Number

theorem readUnsigned?_of_decimal {text : List Char} {d : Decimal}
    (h : Decimal.readUnsigned? text = some d) : readUnsigned? text = some d.toNumber := by
  rw [readUnsigned?, h]

theorem eq_opposite {x : Number} (h : x.isNegative = true) : x = (ofRank x.rank).opposite := by
  have hBits := toNat_bits x
  rw [h, if_pos rfl, Nat.add_comm] at hBits
  rw [opposite, toNat_bits_ofRank x.rank_lt, ← hBits, UInt64.ofNat_toNat]

/-- A number is read from its sign and a text for its magnitude that has none. -/
theorem read?_sign {x : Number} {first : Char} {rest : List Char}
    (hFirst : first ≠ '-' ∧ first ≠ '+')
    (h : readUnsigned? (first :: rest) = some (ofRank x.rank)) :
    read? (x.sign ++ first :: rest) = some x := by
  rw [sign]
  cases hNegative : x.isNegative with
  | true =>
      change (readUnsigned? (first :: rest)).map opposite = some x
      rw [h, Option.map_some, ← eq_opposite hNegative]
  | false =>
      change read? (first :: rest) = some x
      unfold read?
      split
      · rename_i hCons
        cases hCons
        exact absurd rfl hFirst.1
      · rename_i hCons
        cases hCons
        exact absurd rfl hFirst.2
      · rw [h, ← eq_ofRank hNegative]

end Number

end StackCalculator
