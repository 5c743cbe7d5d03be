import StackCalculator.Proofs.DecimalText

/-!
How numbers are written. The text of a number is its sign and one of four notations of its
magnitude, which the two limits of positional notation tell apart. Each can be read back, so no two
numbers have the same text.
-/

namespace StackCalculator

namespace Number

/-- Numbers are ordered by value. A NaN is neither below nor above any number. -/
instance : LT Number :=
  ⟨fun x y => x.compare? y = some .lt⟩

instance : LE Number :=
  ⟨fun x y => x.compare? y = some .lt ∨ x.compare? y = some .eq⟩

/-- The number without its sign. -/
def abs (x : Number) : Number :=
  .ofRank x.rank

def infinity : Number :=
  .ofRank infinityRank

/-- The number nearest to `10 ^ -6`, from which on numbers are written in full. -/
def lowerLimit : Number :=
  (Decimal.mk 1 (-6)).toNumber

/-- The number `10 ^ 21`, up to which numbers are written in full. -/
def upperLimit : Number :=
  (Decimal.mk 1 21).toNumber

/-- Whether a finite number is whole. -/
def IsIntegral (x : Number) : Prop :=
  unitsPerOne ∣ units x.rank

theorem isNaN_ofRank {rank : Nat} (h : rank ≤ infinityRank) : (ofRank rank).isNaN = false := by
  rw [isNaN, rank_ofRank (h.trans_lt infinityRank_lt_magnitudeCount), decide_eq_false_iff_not]
  exact Nat.not_lt.mpr h

theorem isNegative_ofRank {rank : Nat} (h : rank < magnitudeCount) :
    (ofRank rank).isNegative = false := by
  rw [isNegative, toNat_bits_ofRank h, decide_eq_false_iff_not]
  exact Nat.not_le.mpr h

/-- Numbers without a sign are compared by their ranks. -/
theorem compare?_ofRank {rank other : Nat} (hRank : rank ≤ infinityRank)
    (hOther : other ≤ infinityRank) :
    (ofRank rank).compare? (ofRank other) = some (compare (rank : Int) other) := by
  have hRankLt := hRank.trans_lt infinityRank_lt_magnitudeCount
  have hOtherLt := hOther.trans_lt infinityRank_lt_magnitudeCount
  simp only [compare?, isNaN_ofRank hRank, isNaN_ofRank hOther, position,
    isNegative_ofRank hRankLt, isNegative_ofRank hOtherLt, rank_ofRank hRankLt,
    rank_ofRank hOtherLt, Bool.or_self, Bool.false_eq_true, if_false]

theorem ofRank_lt_iff {rank other : Nat} (hRank : rank ≤ infinityRank)
    (hOther : other ≤ infinityRank) : ofRank rank < ofRank other ↔ rank < other := by
  change (ofRank rank).compare? (ofRank other) = some .lt ↔ _
  rw [compare?_ofRank hRank hOther, Option.some_inj, compare_lt_iff_lt, Int.ofNat_lt]

theorem ofRank_le_iff {rank other : Nat} (hRank : rank ≤ infinityRank)
    (hOther : other ≤ infinityRank) : ofRank rank ≤ ofRank other ↔ rank ≤ other := by
  change (ofRank rank).compare? (ofRank other) = some .lt ∨
    (ofRank rank).compare? (ofRank other) = some .eq ↔ _
  rw [compare?_ofRank hRank hOther, Option.some_inj, Option.some_inj, compare_lt_iff_lt,
    compare_eq_iff_eq, Int.ofNat_lt, Int.ofNat_inj, Nat.le_iff_lt_or_eq]

theorem rank_le_of_not_nan {x : Number} (h : x.isNaN = false) : x.rank ≤ infinityRank := by
  rwa [isNaN, decide_eq_false_iff_not, Nat.not_lt] at h

end Number

/-- A text with an optional minus before a part of the given form. -/
def Signed (form : List Char → Prop) (text : List Char) : Prop :=
  ∃ sign body, (sign = [] ∨ sign = ['-']) ∧ form body ∧ text = sign ++ body

/-- A sign, digits, and perhaps a point and more digits. -/
def Positional : List Char → Prop :=
  Signed (Token.Lexeme .number)

/-- A digit, perhaps a point and more digits, and an exponent with its sign. -/
def HasExponent (exponentSign : Char) (power : Nat) (body : List Char) : Prop :=
  ∃ first places, first.isDigit = true ∧ (∀ c ∈ places, c.isDigit = true) ∧
    body = first :: Decimal.pointed places ++ 'e' :: exponentSign :: Nat.toDigits 10 power

def Scientific (exponentSign : Char) (power : Nat) : List Char → Prop :=
  Signed (HasExponent exponentSign power)

/-- The sign of a number is told apart from what follows it. -/
theorem signed_iff {form : List Char → Prop} {x : Number} {body : List Char}
    (hForm : ∀ text, form text → text.head? ≠ some '-') (hBody : body.head? ≠ some '-') :
    Signed form (x.sign ++ body) ↔ form body := by
  have hSign : x.sign = [] ∨ x.sign = ['-'] := by
    rw [Number.sign]
    split
    · exact .inr rfl
    · exact .inl rfl
  constructor
  · rintro ⟨sign, text, hOther, hText, hSame⟩
    have hHead := hForm text hText
    rcases hSign with hSign | hSign <;> rcases hOther with rfl | rfl <;> rw [hSign] at hSame
    · cases hSame
      exact hText
    · rw [List.nil_append] at hSame
      exact absurd (by rw [hSame]; rfl) hBody
    · rw [List.nil_append] at hSame
      exact absurd (by rw [← hSame]; rfl) hHead
    · cases hSame
      exact hText
  · intro hText
    exact ⟨x.sign, body, hSign, hText, rfl⟩

/-- The exponent begins at the first mark of one. -/
theorem HasExponent.dropWhile {exponentSign : Char} {power : Nat} {body : List Char}
    (h : HasExponent exponentSign power body) :
    body.dropWhile Decimal.beforeExponent = 'e' :: exponentSign :: Nat.toDigits 10 power := by
  obtain ⟨first, places, hFirst, hPlaces, rfl⟩ := h
  have hBefore := Decimal.beforeExponent_of_lexeme (Decimal.lexeme_mantissa hFirst hPlaces)
  rw [List.dropWhile_append_of_pos hBefore]
  rfl

namespace Number

/-- The notations of a magnitude. -/
inductive Shows : Nat → List Char → Prop where
  | zero : Shows 0 ['0']
  | positional {rank : Nat} {body : List Char} (hFrom : positionalFrom ≤ rank)
      (hUpTo : rank < positionalUpTo) (hBody : (shortestDecimal rank).Written body) :
      Shows rank body
  | scientific {rank : Nat} {first : Char} {places : List Char} (hSome : 0 < rank)
      (hFinite : rank < infinityRank) (hLimits : rank < positionalFrom ∨ positionalUpTo ≤ rank)
      (hDigits : Nat.toDigits 10 (shortestDecimal rank).coefficient = first :: places) :
      Shows rank (first :: Decimal.pointed places ++ 'e' ::
        (if (shortestDecimal rank).leadingExponent < 0 then '-' else '+') ::
          Nat.toDigits 10 (shortestDecimal rank).leadingExponent.natAbs)
  | infinity : Shows infinityRank "Infinity".toList

/-- The text of a number is its sign and a notation of its magnitude. -/
theorem chars_shows {x : Number} (h : x.isNaN = false) :
    ∃ body, x.chars = x.sign ++ body ∧ Shows x.rank body := by
  have hRank := rank_le_of_not_nan h
  rw [chars, parts, h, if_neg Bool.false_ne_true]
  by_cases hInfinite : x.rank = infinityRank
  · rw [isInfinite, if_pos (by simpa using hInfinite), hInfinite]
    exact ⟨_, by simp, .infinity⟩
  rw [isInfinite, if_neg (by simpa using hInfinite)]
  by_cases hZero : x.rank = 0
  · rw [isZero, if_pos (by simpa using hZero), hZero]
    exact ⟨_, by simp, .zero⟩
  rw [isZero, if_neg (by simpa using hZero)]
  by_cases hWithin : positionalFrom ≤ x.rank ∧ x.rank < positionalUpTo
  · rw [if_pos (by simpa using hWithin)]
    rw [List.flatten_cons]
    exact ⟨_, rfl, .positional hWithin.1 hWithin.2 (Decimal.written_positionalParts _)⟩
  · rw [if_neg (by simpa using hWithin)]
    obtain ⟨first, places, hDigits, hText⟩ :=
      (shortestDecimal x.rank).flatten_scientificParts x.sign
    exact ⟨_, hText, .scientific (by omega) (by omega) (by omega) hDigits⟩

/-- The characters other than digits that numbers are written with. -/
def marks : List Char :=
  ['-', '+', '.', 'e', 'I', 'n', 'f', 'i', 't', 'y', 'N', 'a']

theorem mem_marks_infinity : ∀ c ∈ "Infinity".toList, c ∈ marks := by
  simp [marks]

theorem toNumber_shortestDecimal {rank : Nat} (h : rank ≤ infinityRank) :
    (shortestDecimal rank).toNumber = ofRank rank := by
  rw [Decimal.toNumber_eq_ofRank, rank_shortestDecimal h]

theorem rank_le_of_lt_positionalUpTo {rank : Nat} (h : rank < positionalUpTo) :
    rank ≤ infinityRank :=
  h.le.trans positionalUpTo_le_infinityRank

namespace Shows

variable {rank : Nat} {body : List Char}

/-- A magnitude starts with a digit or a letter. -/
theorem exists_first (h : Shows rank body) :
    ∃ first rest, body = first :: rest ∧ first ≠ '-' ∧ first ≠ '+' := by
  have hDigit {c : Char} (hc : c.isDigit = true) : c ≠ '-' ∧ c ≠ '+' := by
    constructor <;> rintro rfl <;> exact absurd hc (by decide)
  cases h with
  | zero => exact ⟨_, _, rfl, by decide⟩
  | positional hFrom hUpTo hBody =>
      obtain ⟨first, rest, rfl, ⟨_, hFirst⟩ | ⟨hKind, _⟩ | hMark⟩ := hBody.lexeme.exists_first
      · exact ⟨first, rest, rfl, hDigit hFirst⟩
      · cases hKind
      · cases hMark
  | scientific hSome hFinite hLimits hDigits =>
      exact ⟨_, _, rfl, hDigit (Decimal.isDigit_of_mem_toDigits (hDigits ▸ List.mem_cons_self))⟩
  | infinity => exact ⟨_, _, rfl, by decide⟩

/-- Each notation is read as the number that it shows. -/
theorem readUnsigned? (h : Shows rank body) : readUnsigned? body = some (ofRank rank) := by
  cases h with
  | zero => decide +kernel
  | positional hFrom hUpTo hBody =>
      obtain ⟨other, hRead, hNumber⟩ := hBody.read?
      rw [readUnsigned?_of_decimal (Decimal.readUnsigned?_of_lexeme hBody.lexeme hRead), hNumber,
        toNumber_shortestDecimal (rank_le_of_lt_positionalUpTo hUpTo)]
  | scientific hSome hFinite hLimits hDigits =>
      rw [readUnsigned?_of_decimal (Decimal.readUnsigned?_scientific hDigits),
        toNumber_shortestDecimal hFinite.le]
  | infinity => decide +kernel

/-- The literals of the language are the magnitudes within the limits, and zero. -/
theorem lexeme_iff (h : Shows rank body) :
    Token.Lexeme .number body ↔ rank = 0 ∨ positionalFrom ≤ rank ∧ rank < positionalUpTo := by
  cases h with
  | zero => exact iff_of_true Decimal.lexeme_zero (.inl rfl)
  | positional hFrom hUpTo hBody => exact iff_of_true hBody.lexeme (.inr ⟨hFrom, hUpTo⟩)
  | scientific hSome hFinite hLimits hDigits =>
      apply iff_of_false
      · exact Decimal.not_lexeme_exponent _ _
      · omega
  | infinity =>
      apply iff_of_false
      · intro hLexeme
        rcases hLexeme.digit_or_point 'I' List.mem_cons_self with hDigit | hPoint
        · exact absurd hDigit (by decide)
        · exact absurd hPoint (by decide)
      · have hUpTo := positionalUpTo_le_infinityRank
        have hSome : infinityRank ≠ 0 := by decide
        omega

/-- A notation consists of digits, marks and the letters of infinity. -/
theorem digit_or_mark (h : Shows rank body) {c : Char} (hc : c ∈ body) :
    c.isDigit = true ∨ c ∈ marks := by
  have hPoint {text : List Char} (hLexeme : Token.Lexeme .number text) (hText : c ∈ text) :
      c.isDigit = true ∨ c ∈ marks := by
    rcases hLexeme.digit_or_point c hText with hDigit | rfl
    · exact .inl hDigit
    · exact .inr (by decide)
  cases h with
  | zero => exact hPoint Decimal.lexeme_zero hc
  | positional hFrom hUpTo hBody => exact hPoint hBody.lexeme hc
  | @scientific rank first places hSome hFinite hLimits hDigits =>
      have hFirst : first.isDigit = true :=
        Decimal.isDigit_of_mem_toDigits (hDigits ▸ List.mem_cons_self)
      have hPlaces : ∀ c ∈ places, c.isDigit = true :=
        fun c hc => Decimal.isDigit_of_mem_toDigits (hDigits ▸ List.mem_cons_of_mem first hc)
      rcases List.mem_append.mp hc with hMantissa | hExponent
      · exact hPoint (Decimal.lexeme_mantissa hFirst hPlaces) hMantissa
      · rcases List.mem_cons.mp hExponent with rfl | hExponent
        · exact .inr (by decide)
        · rcases List.mem_cons.mp hExponent with rfl | hPower
          · right
            split <;> decide
          · exact .inl (Decimal.isDigit_of_mem_toDigits hPower)
  | infinity => exact .inr (mem_marks_infinity c hc)

/-- A whole number in positional notation has no point. -/
theorem point_not_mem (h : Shows rank body) (hIntegral : unitsPerOne ∣ units rank)
    (hLexeme : Token.Lexeme .number body) : '.' ∉ body := by
  cases h with
  | zero => decide
  | positional hFrom hUpTo hBody =>
      have hSome : 0 < rank := Nat.lt_of_lt_of_le (by decide +kernel) hFrom
      exact hBody.point_not_mem (exponent_shortestDecimal_nonneg hSome
        (rank_le_of_lt_positionalUpTo hUpTo) hIntegral)
  | scientific hSome hFinite hLimits hDigits =>
      exact absurd hLexeme (Decimal.not_lexeme_exponent _ _)
  | infinity => decide

/-- There is an exponent beyond the limits only, and it is that of the shortest decimal. -/
theorem hasExponent_iff (h : Shows rank body) {exponentSign : Char} {power : Nat} :
    HasExponent exponentSign power body ↔
      0 < rank ∧ rank < infinityRank ∧ (rank < positionalFrom ∨ positionalUpTo ≤ rank) ∧
        exponentSign = (if (shortestDecimal rank).leadingExponent < 0 then '-' else '+') ∧
        power = (shortestDecimal rank).leadingExponent.natAbs := by
  cases h with
  | zero =>
      apply iff_of_false
      · intro hExponent
        cases hExponent.dropWhile
      · exact fun hLimits => absurd hLimits.1 (Nat.lt_irrefl 0)
  | positional hFrom hUpTo hBody =>
      apply iff_of_false
      · intro hExponent
        have hRest := hExponent.dropWhile
        rw [List.dropWhile_eq_nil_iff.mpr (Decimal.beforeExponent_of_lexeme hBody.lexeme)] at hRest
        cases hRest
      · omega
  | @scientific rank first places hSome hFinite hLimits hDigits =>
      have hShown : HasExponent (if (shortestDecimal rank).leadingExponent < 0 then '-' else '+')
          (shortestDecimal rank).leadingExponent.natAbs _ :=
        ⟨first, places, Decimal.isDigit_of_mem_toDigits (hDigits ▸ List.mem_cons_self),
          fun c hc => Decimal.isDigit_of_mem_toDigits (hDigits ▸ List.mem_cons_of_mem first hc),
          rfl⟩
      constructor
      · -- A mantissa has no mark, so both readings of the text agree from the first mark on.
        intro hExponent
        have hSame := hExponent.dropWhile.symm.trans hShown.dropWhile
        rw [List.cons_inj_right, List.cons.injEq] at hSame
        refine ⟨hSome, hFinite, hLimits, hSame.1, ?_⟩
        rw [← Decimal.coefficientOf_toDigits power, hSame.2, Decimal.coefficientOf_toDigits]
      · rintro ⟨_, _, _, rfl, rfl⟩
        exact hShown
  | infinity =>
      apply iff_of_false
      · intro hExponent
        cases hExponent.dropWhile
      · exact fun hLimits => absurd hLimits.2.1 (Nat.lt_irrefl _)

theorem exponent_up_iff (h : Shows rank body) :
    (∃ power, 21 ≤ power ∧ HasExponent '+' power body) ↔
      positionalUpTo ≤ rank ∧ rank < infinityRank := by
  constructor
  · rintro ⟨power, _, hExponent⟩
    obtain ⟨hSome, hFinite, hLimits, hSign, _⟩ := h.hasExponent_iff.mp hExponent
    refine ⟨hLimits.resolve_left fun hBelow => ?_, hFinite⟩
    have hDown := leadingExponent_of_lt_positionalFrom hSome hBelow
    rw [if_pos (by omega)] at hSign
    exact absurd hSign (by decide)
  · rintro ⟨hAbove, hFinite⟩
    have hUp := leadingExponent_of_positionalUpTo_le hAbove hFinite.le
    have hSome : 0 < rank := Nat.lt_of_lt_of_le (by decide +kernel) hAbove
    refine ⟨(shortestDecimal rank).leadingExponent.natAbs, by omega, h.hasExponent_iff.mpr
      ⟨hSome, hFinite, .inr hAbove, ?_, rfl⟩⟩
    rw [if_neg (by omega)]

theorem exponent_down_iff (h : Shows rank body) :
    (∃ power, 7 ≤ power ∧ HasExponent '-' power body) ↔ 0 < rank ∧ rank < positionalFrom := by
  constructor
  · rintro ⟨power, _, hExponent⟩
    obtain ⟨hSome, hFinite, hLimits, hSign, _⟩ := h.hasExponent_iff.mp hExponent
    refine ⟨hSome, hLimits.resolve_right fun hAbove => ?_⟩
    have hUp := leadingExponent_of_positionalUpTo_le hAbove hFinite.le
    rw [if_neg (by omega)] at hSign
    exact absurd hSign (by decide)
  · rintro ⟨hSome, hBelow⟩
    have hDown := leadingExponent_of_lt_positionalFrom hSome hBelow
    have hFinite : rank < infinityRank := hBelow.trans_le
      (positionalFrom_le_positionalUpTo.trans positionalUpTo_le_infinityRank)
    refine ⟨(shortestDecimal rank).leadingExponent.natAbs, by omega, h.hasExponent_iff.mpr
      ⟨hSome, hFinite, .inl hBelow, ?_, rfl⟩⟩
    rw [if_pos (by omega)]

end Shows

@[simp] theorem toList_text (x : Number) : x.text.toList = x.chars :=
  String.toList_ofList

theorem digit_or_mark_of_mem_chars {x : Number} {c : Char} (hc : c ∈ x.chars) :
    c.isDigit = true ∨ c ∈ marks := by
  cases hNaN : x.isNaN with
  | true =>
      have hName : ∀ c ∈ "NaN".toList, c ∈ marks := by simp [marks]
      rw [chars, parts, hNaN, if_pos rfl, List.flatten_singleton] at hc
      exact .inr (hName c hc)
  | false =>
      obtain ⟨body, hChars, hShows⟩ := chars_shows hNaN
      rw [hChars, List.mem_append] at hc
      rcases hc with hSign | hBody
      · have hMinus : ∀ c ∈ x.sign, c ∈ marks := by
          rw [sign]
          split <;> simp [marks]
        exact .inr (hMinus c hSign)
      · exact hShows.digit_or_mark hBody

theorem head?_ne_of_isDigit {first : Char} (h : first.isDigit = true) (rest : List Char) :
    (first :: rest).head? ≠ some '-' := by
  rw [List.head?_cons, ne_eq, Option.some_inj]
  rintro rfl
  exact absurd h (by decide)

theorem positional_iff {x : Number} {body : List Char} (h : Shows x.rank body) :
    Positional (x.sign ++ body) ↔ Token.Lexeme .number body := by
  obtain ⟨first, rest, rfl, hFirst, _⟩ := h.exists_first
  apply signed_iff
  · intro text hText
    obtain ⟨first, rest, rfl, ⟨_, hDigit⟩ | ⟨hKind, _⟩ | hMark⟩ := hText.exists_first
    · exact head?_ne_of_isDigit hDigit rest
    · cases hKind
    · cases hMark
  · rwa [List.head?_cons, ne_eq, Option.some_inj]

theorem scientific_iff {x : Number} {body : List Char} (h : Shows x.rank body)
    {exponentSign : Char} {power : Nat} :
    Scientific exponentSign power (x.sign ++ body) ↔ HasExponent exponentSign power body := by
  obtain ⟨first, rest, rfl, hFirst, _⟩ := h.exists_first
  apply signed_iff
  · rintro text ⟨first, places, hDigit, _, rfl⟩
    exact head?_ne_of_isDigit hDigit _
  · rwa [List.head?_cons, ne_eq, Option.some_inj]

theorem read?_chars {x : Number} (h : x.isNaN = false) : read? x.chars = some x := by
  obtain ⟨body, hChars, hShows⟩ := chars_shows h
  have hRead := hShows.readUnsigned?
  obtain ⟨first, rest, rfl, hFirst⟩ := hShows.exists_first
  rw [hChars]
  exact read?_sign hFirst hRead

theorem point_not_mem_sign (x : Number) : '.' ∉ x.sign := by
  rw [sign]
  split <;> decide

theorem lowerLimit_eq : lowerLimit = ofRank positionalFrom :=
  Decimal.toNumber_eq_ofRank _

theorem upperLimit_eq : upperLimit = ofRank positionalUpTo :=
  Decimal.toNumber_eq_ofRank _

theorem positionalFrom_le_infinityRank : positionalFrom ≤ infinityRank :=
  positionalFrom_le_positionalUpTo.trans positionalUpTo_le_infinityRank

/-- The magnitudes of positional notation, by their ranks. -/
theorem within_limits_iff {x : Number} (h : x.isNaN = false) :
    x.isZero = true ∨ lowerLimit ≤ x.abs ∧ x.abs < upperLimit ↔
      x.rank = 0 ∨ positionalFrom ≤ x.rank ∧ x.rank < positionalUpTo := by
  have hRank := rank_le_of_not_nan h
  rw [isZero, decide_eq_true_eq, abs, lowerLimit_eq, upperLimit_eq,
    ofRank_le_iff positionalFrom_le_infinityRank hRank,
    ofRank_lt_iff hRank positionalUpTo_le_infinityRank]

/-- The text of a number that is not a NaN is read as that number, bit by bit, so no two of them
have the same text, the two zeros included. The text has no exponent exactly if the number is a zero
or its magnitude is within the limits, and then a whole number has no point. Above, up to infinity,
it has a positive exponent from 21 on, and below a negative one from 7 on. -/
theorem text_faithful {x : Number} (h : x.isNaN = false) :
    read? x.text.toList = some x ∧
    (∀ y : Number, y.isNaN = false → y.text = x.text → y = x) ∧
    (Positional x.text.toList ↔ x.isZero = true ∨ lowerLimit ≤ x.abs ∧ x.abs < upperLimit) ∧
    (x.IsIntegral → Positional x.text.toList → '.' ∉ x.text.toList) ∧
    ((∃ power, 21 ≤ power ∧ Scientific '+' power x.text.toList) ↔
      upperLimit ≤ x.abs ∧ x.abs < infinity) ∧
    ((∃ power, 7 ≤ power ∧ Scientific '-' power x.text.toList) ↔
      ofRank 0 < x.abs ∧ x.abs < lowerLimit) := by
  obtain ⟨body, hChars, hShows⟩ := chars_shows h
  have hRank := rank_le_of_not_nan h
  rw [toList_text]
  refine ⟨read?_chars h, ?_, ?_, ?_, ?_, ?_⟩
  · intro y hy hSame
    have hRead := read?_chars hy
    rw [← toList_text, hSame, toList_text, read?_chars h] at hRead
    exact (Option.some.inj hRead).symm
  · rw [hChars, positional_iff hShows, hShows.lexeme_iff]
    exact (within_limits_iff h).symm
  · rw [hChars, positional_iff hShows]
    intro hIntegral hLexeme
    rw [List.mem_append, not_or]
    exact ⟨x.point_not_mem_sign, hShows.point_not_mem hIntegral hLexeme⟩
  · simp only [hChars, scientific_iff hShows]
    rw [hShows.exponent_up_iff, upperLimit_eq, infinity, abs,
      ofRank_le_iff positionalUpTo_le_infinityRank hRank, ofRank_lt_iff hRank (Nat.le_refl _)]
  · simp only [hChars, scientific_iff hShows]
    rw [hShows.exponent_down_iff, lowerLimit_eq, abs, ofRank_lt_iff (Nat.zero_le _) hRank,
      ofRank_lt_iff hRank positionalFrom_le_infinityRank]

/-- The greatest number below the upper limit has sixteen digits, all of them nines, before the
zeros that take the place of an exponent. The negative number next to zero has the least exponent.
-/
theorem text_faithful_extremes :
    let below : Number := ⟨0x444B1AE4D6E2EF4F⟩
    let tiny : Number := ⟨0x8000000000000001⟩
    below.text = "999999999999999900000" ∧ read? below.text.toList = some below ∧
      Positional below.text.toList ∧
      tiny.text = "-5e-324" ∧ read? tiny.text.toList = some tiny ∧
      ∃ power, 7 ≤ power ∧ Scientific '-' power tiny.text.toList := by
  intro below tiny
  obtain ⟨hBelow, _, hPositional, _⟩ := @text_faithful below (by decide)
  obtain ⟨hTiny, _, _, _, _, hScientific⟩ := @text_faithful tiny (by decide)
  refine ⟨by decide +kernel, hBelow, hPositional.mpr (.inr ⟨.inl ?_, ?_⟩), by decide +kernel, hTiny,
    hScientific.mpr ⟨?_, ?_⟩⟩
  · decide +kernel
  · change below.abs.compare? upperLimit = some .lt
    decide +kernel
  · change (ofRank 0).compare? tiny.abs = some .lt
    decide +kernel
  · change tiny.abs.compare? lowerLimit = some .lt
    decide +kernel

end Number

end StackCalculator
