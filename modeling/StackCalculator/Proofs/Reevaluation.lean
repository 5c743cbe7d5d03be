import StackCalculator.Proofs.Evaluation
import StackCalculator.Proofs.Notation

/-!
Evaluating what was printed. The texts of the numbers within the limits are literals of the language
and have themselves as their values. No other number has a text that is an expression: an expression
has no letters, and none starts with a minus.
-/

namespace StackCalculator

namespace Tree

/-- No expression contains an identifier. -/
theorem Layered.kind_ne_identifier {tree : Tree} {binding : Nat} (h : tree.Layered binding) :
    ∀ token ∈ tree.tokens, token.kind ≠ .identifier := by
  induction tree generalizing binding with
  | literal token value =>
      intro other hOther
      rw [List.mem_singleton.mp hOther, h.1]
      decide
  | group opening inner closing ih =>
      obtain ⟨hOpening, hInner, hClosing⟩ := h
      simp only [tokens, List.mem_cons, List.mem_append, List.not_mem_nil, or_false]
      rintro token (rfl | hToken | rfl)
      · rw [hOpening]
        decide
      · exact ih hInner token hToken
      · rw [hClosing]
        decide
  | binary left operator sign right ihLeft ihRight =>
      obtain ⟨hSign, _, hLeft, hRight⟩ := h
      simp only [tokens, List.mem_cons, List.mem_append]
      rintro token (hToken | rfl | hToken)
      · exact ihLeft hLeft token hToken
      · intro hKind
        rw [hKind] at hSign
        cases hSign
      · exact ihRight hRight token hToken

/-- An expression starts with a number or an opening parenthesis. -/
theorem Layered.exists_first {tree : Tree} {binding : Nat} (h : tree.Layered binding) :
    ∃ token rest, tree.tokens = token :: rest ∧
      (token.kind = .number ∨ token.kind = .leftParen) := by
  induction tree generalizing binding with
  | literal token value => exact ⟨token, [], rfl, .inl h.1⟩
  | group opening inner closing ih => exact ⟨opening, _, rfl, .inr h.1⟩
  | binary left operator sign right ihLeft ihRight =>
      obtain ⟨token, rest, hTokens, hKind⟩ := ihLeft h.2.2.1
      exact ⟨token, rest ++ sign :: right.tokens, by rw [tokens, hTokens, List.cons_append], hKind⟩

end Tree

/-- Letters are found in identifiers only. -/
theorem Token.Lexeme.kind_eq_identifier {kind : Token.Kind} {lexeme : List Char}
    (h : Token.Lexeme kind lexeme) {c : Char} (hc : c ∈ lexeme) (hLetter : Token.isLetter c = true) :
    kind = .identifier := by
  by_cases hNumber : kind = .number
  · subst hNumber
    rcases h.digit_or_point c hc with hDigit | rfl
    · rw [Token.isLetter_of_isDigit hDigit] at hLetter
      cases hLetter
    · exact absurd hLetter (by decide)
  · cases h with
    | whole => exact absurd rfl hNumber
    | fraction => exact absurd rfl hNumber
    | identifier => rfl
    | mark hMark =>
        rw [List.mem_singleton.mp hc, (Token.plain_of_mark? hMark).2.1] at hLetter
        cases hLetter

namespace Scanner

theorem tokenized_of_scan {s after : Scanner} {token : Token} (h : s.scan = (.ok token, after))
    (hKind : token.kind ≠ .endOfInput) :
    s.tokenized = ⟨token :: after.tokenized.tokens, after.tokenized.ending⟩ := by
  rw [tokenized, h]
  simp [hKind]

/-- A letter is not skipped: it belongs to what is scanned or comes behind it. -/
theorem mem_scan_of_isLetter {s : Scanner} {c : Char} (hc : c ∈ s.rest)
    (hLetter : Token.isLetter c = true) :
    c ∈ Scanned.spelling s.scan.1 ∨ c ∈ s.scan.2.rest := by
  obtain ⟨blanks, hBlanks, hRest, _⟩ := s.scan_begins
  rw [hRest, List.mem_append, List.mem_append] at hc
  apply hc.resolve_left
  intro hBlank
  have hBoth := hBlanks c hBlank
  rw [Token.isBlank_eq_false (.inr hLetter)] at hBoth
  cases hBoth

/-- A text that has a letter has an identifier among its tokens, unless some character of it starts
no token. -/
theorem exists_identifier {s : Scanner} {endLine : Nat}
    (hEnding : s.tokenized.ending = .endOfInput endLine) {c : Char} (hc : c ∈ s.rest)
    (hLetter : Token.isLetter c = true) :
    ∃ token ∈ s.tokenized.tokens, token.kind = .identifier := by
  fun_induction tokenized s with
  | case1 s e after hScan => cases hEnding
  | case2 s token after hScan hKind =>
      obtain ⟨_, _, _, hBegins, _⟩ := s.scan_begins
      have hMem := mem_scan_of_isLetter hc hLetter
      rw [← List.mem_append] at hMem
      obtain ⟨hToken, _⟩ := scan_end hScan hKind
      rw [hBegins.eq_nil ⟨token.line, by rw [hScan, ← hToken]⟩] at hMem
      cases hMem
  | case3 s token after hScan hKind further ih =>
      obtain ⟨_, _, _, hBegins, _⟩ := s.scan_begins
      have hMem := mem_scan_of_isLetter hc hLetter
      rw [hScan] at hBegins hMem
      rcases hMem with hToken | hBehind
      · generalize Scanned.spelling _ ++ _ = text at hBegins
        cases hBegins with
        | endOfInput => exact absurd rfl hKind
        | token hLexeme =>
            exact ⟨token, List.mem_cons_self, hLexeme.kind_eq_identifier hToken hLetter⟩
      · obtain ⟨found, hFound, hIdentifier⟩ := ih hEnding hBehind
        exact ⟨found, List.mem_cons_of_mem token hFound, hIdentifier⟩

end Scanner

namespace IsParse

variable {source : String} {tree : Tree} {endLine : Nat}

theorem isLetter_eq_false (h : IsParse source tree endLine) :
    ∀ c ∈ source.toList, Token.isLetter c = false := by
  intro c hc
  rw [Bool.eq_false_iff]
  intro hLetter
  have hTokenized := spells_iff_tokenized.mp h.spells
  obtain ⟨token, hToken, hKind⟩ :=
    Scanner.exists_identifier (congrArg Tokenized.ending hTokenized) hc hLetter
  rw [hTokenized] at hToken
  exact h.layered.kind_ne_identifier token hToken hKind

/-- No expression starts with a minus. -/
theorem head?_ne_minus (h : IsParse source tree endLine) : source.toList.head? ≠ some '-' := by
  intro hMinus
  obtain ⟨rest, hText⟩ := List.head?_eq_some_iff.mp hMinus
  have hScan : (Scanner.ofText source).scan = (.ok ⟨.minus, "-", 1⟩, ⟨rest, 1, false⟩) := by
    rw [Scanner.ofText, hText]
    rfl
  have hTokenized := spells_iff_tokenized.mp h.spells
  rw [Scanner.tokenized_of_scan hScan (by decide)] at hTokenized
  obtain ⟨token, behind, hTokens, hKind⟩ := h.layered.exists_first
  have hSame := congrArg Tokenized.tokens hTokenized
  rw [hTokens, List.cons.injEq] at hSame
  rw [← hSame.1] at hKind
  exact absurd hKind (by decide)

end IsParse

theorem Token.Lexeme.exists_read? {text : List Char} (h : Token.Lexeme .number text) :
    ∃ d, Decimal.read? text = some d := by
  cases h with
  | whole hSome hDigits => exact ⟨_, Decimal.read?_whole hSome (List.all_eq_true.mpr hDigits)⟩
  | fraction hSome hDigits hPlace hPlaces =>
      exact ⟨_, Decimal.read?_places hSome (List.all_eq_true.mpr hDigits) hPlace
        (List.all_eq_true.mpr hPlaces)⟩
  | mark hMark => cases hMark

/-- A literal of the language is a text of one token. -/
theorem Spells.of_number {text : String} (h : Token.Lexeme .number text.toList) :
    Spells text [⟨.number, text, 1⟩] 1 := by
  obtain ⟨first, rest, hText, _⟩ := h.exists_first
  have hBlank : Token.isBlank first = false := h.ne_blank first (hText ▸ List.mem_cons_self)
  rw [hText] at h
  obtain ⟨length, hLeading⟩ := h.leading? rest
  have hLength := (Token.length_le_of_leading? hLeading h List.prefix_rfl).2
  rw [List.length_cons] at hLength
  have hScan : (Scanner.ofText text).scan = (.ok ⟨.number, text, 1⟩, ⟨[], 1, false⟩) := by
    have hTake : rest.take length = rest := List.take_of_length_le (by omega)
    have hDrop : rest.drop length = [] := List.drop_of_length_le (by omega)
    have hSame : String.ofList (first :: rest) = text := by rw [← hText, String.ofList_toList]
    simp [Scanner.scan, Scanner.ofText, hText, hBlank, hLeading, hTake, hDrop, hSame]
  have hEnd : (⟨[], 1, false⟩ : Scanner).tokenized = ⟨[], .endOfInput 1⟩ := by
    rw [Scanner.tokenized]
    rfl
  have hKind : Token.Kind.number ≠ .endOfInput := by decide
  rw [spells_iff_tokenized, Scanner.tokenized_of_scan hScan hKind, hEnd]

namespace Number

/-- The texts of these numbers are evaluated to the numbers themselves: they have no sign, and their
magnitudes are written in full. -/
def SelfEvaluating (v : Number) : Prop :=
  v.isNegative = false ∧ (v.isZero = true ∨ lowerLimit ≤ v ∧ v < upperLimit)

theorem isNaN_of_le {x y : Number} (h : x ≤ y) : y.isNaN = false := by
  by_contra hNaN
  have hNone : x.compare? y = none := by
    rw [Bool.not_eq_false] at hNaN
    rw [compare?, hNaN, Bool.or_true, if_pos rfl]
  rcases h with h | h <;> rw [hNone] at h <;> cases h

theorem SelfEvaluating.isNaN {v : Number} (h : v.SelfEvaluating) : v.isNaN = false := by
  rcases h.2 with hZero | hLimits
  · rw [isZero, decide_eq_true_eq] at hZero
    rw [Number.isNaN, hZero]
    rfl
  · exact isNaN_of_le hLimits.1

theorem selfEvaluating_iff {v : Number} (h : v.isNaN = false) {body : List Char}
    (hShows : Shows v.rank body) :
    v.SelfEvaluating ↔ v.isNegative = false ∧ Token.Lexeme .number body := by
  rw [SelfEvaluating, hShows.lexeme_iff, ← within_limits_iff h]
  apply and_congr_right
  intro hPositive
  rw [abs, ← eq_ofRank hPositive]

namespace Shows

variable {rank : Nat} {body : List Char}

/-- A magnitude that is a literal of the language is read as itself by both readers. -/
theorem read?_literal (h : Shows rank body) (hLexeme : Token.Lexeme .number body) :
    (Decimal.read? body).map Decimal.toNumber = some (ofRank rank) := by
  obtain ⟨d, hRead⟩ := hLexeme.exists_read?
  have hNumber := h.readUnsigned?
  rw [readUnsigned?_of_decimal (Decimal.readUnsigned?_of_lexeme hLexeme hRead)] at hNumber
  rw [hRead, Option.map_some, hNumber]

/-- A magnitude that is no literal of the language has a letter. -/
theorem exists_letter (h : Shows rank body) (hOther : ¬ Token.Lexeme .number body) :
    ∃ c ∈ body, Token.isLetter c = true := by
  cases h with
  | zero => exact absurd Decimal.lexeme_zero hOther
  | positional hFrom hUpTo hBody => exact absurd hBody.lexeme hOther
  | scientific hSome hFinite hLimits hDigits => exact ⟨'e', by simp, by decide⟩
  | infinity => exact ⟨'I', List.mem_cons_self, by decide⟩

end Shows

/-- The text of such a number is a literal with the number as its value. -/
theorem SelfEvaluating.expresses {v : Number} (h : v.SelfEvaluating) :
    Expresses v.text (.literal ⟨.number, v.text, 1⟩ v) := by
  obtain ⟨body, hChars, hShows⟩ := chars_shows h.isNaN
  obtain ⟨hPositive, hLexeme⟩ := (selfEvaluating_iff h.isNaN hShows).mp h
  have hText : v.text.toList = body := by
    rw [toList_text, hChars, sign, hPositive]
    rfl
  have hValue := hShows.read?_literal hLexeme
  rw [← hText] at hLexeme hValue
  rw [← eq_ofRank hPositive] at hValue
  refine ⟨⟨1, .of_number hLexeme, rfl, hValue⟩, by simp [Tree.tokens], ?_⟩
  rw [Tree.tokens, nestedWithin_cons (show Token.Kind.number ≠ .leftParen by decide)
    (show Token.Kind.number ≠ .rightParen by decide)]
  exact nestedWithin_nil 256

/-- The text of any other number is no expression. -/
theorem not_expresses_text {v : Number} (h : ¬ v.SelfEvaluating) :
    ¬ ∃ tree, Expresses v.text tree := by
  rintro ⟨tree, ⟨endLine, hParse⟩, _, _⟩
  have hLetters := hParse.isLetter_eq_false
  have hFirst := hParse.head?_ne_minus
  rw [toList_text] at hLetters hFirst
  cases hNaN : v.isNaN with
  | true =>
      rw [chars, parts, hNaN, if_pos rfl] at hLetters
      exact absurd (hLetters 'N' (by decide)) (by decide)
  | false =>
      obtain ⟨body, hChars, hShows⟩ := chars_shows hNaN
      rw [selfEvaluating_iff hNaN hShows, not_and] at h
      cases hNegative : v.isNegative with
      | true =>
          rw [hChars, sign, hNegative] at hFirst
          exact hFirst rfl
      | false =>
          obtain ⟨c, hc, hLetter⟩ := hShows.exists_letter (h hNegative)
          rw [hLetters c (hChars ▸ List.mem_append_right _ hc)] at hLetter
          cases hLetter

end Number

namespace Session

variable {σ : Type} [Sink σ]

/-- Evaluating the text of a number gives the number back, bit by bit, and writes the same text again
exactly if the number has no sign and is zero or within the limits of positional notation. The text of
every other number, NaNs and infinities included, has a compile error and is never taken for another
number. -/
theorem interpret_text (sinks : Sink.Unlimited σ) (session : Session σ) (v : Number)
    (hSink : sinks.accepts session.sink) :
    ((session.interpret v.text).1.result = .ok v ∧
        sinks.taken (session.interpret v.text).2.sink =
          sinks.taken session.sink ++ Text.bytes (v.text ++ "\n") ↔
      v.isNegative = false ∧ (v.isZero = true ∨ Number.lowerLimit ≤ v ∧ v < Number.upperLimit)) ∧
    (¬ (v.isNegative = false ∧
        (v.isZero = true ∨ Number.lowerLimit ≤ v ∧ v < Number.upperLimit)) →
      ∃ e, compile v.text = .error e ∧
        (session.interpret v.text).1.result = .error (.compile e)) := by
  have hFails : ¬ v.SelfEvaluating → ∃ e, compile v.text = .error e ∧
      (session.interpret v.text).1.result = .error (.compile e) := by
    intro hOther
    obtain ⟨e, hError⟩ := exists_compile_error (Number.not_expresses_text hOther)
    exact ⟨e, hError, by rw [interpret_of_compile_error session hError]⟩
  refine ⟨⟨?_, ?_⟩, hFails⟩
  · rintro ⟨hResult, _⟩
    by_contra hOther
    obtain ⟨e, _, hFailed⟩ := hFails hOther
    rw [hFailed] at hResult
    cases hResult
  · intro hSelf
    obtain ⟨hResult, after, _, hSession, _, _, hTaken⟩ :=
      interpret_of_expresses sinks hSink (Number.SelfEvaluating.expresses hSelf)
    refine ⟨hResult, ?_⟩
    rw [hSession]
    exact hTaken

/-- A sum that is not exact is written with seventeen digits and evaluated to itself. A number with an
exponent is not taken for the digits before it. -/
theorem interpret_text_exponent :
    let session : Session MemorySink := { sink := {} }
    let sum : Number := ⟨0x3FD3333333333334⟩
    let small : Number := ⟨0x3E8421F5F40D8376⟩
    sum.text = "0.30000000000000004" ∧ (session.interpret sum.text).1.result = .ok sum ∧
      small.text = "1.5e-7" ∧
      ∃ e, compile small.text = .error e ∧
        (session.interpret small.text).1.result = .error (.compile e) := by
  intro session sum small
  have hSum := (interpret_text MemorySink.unlimited session sum rfl).1.mpr
    ⟨by decide, .inr ⟨.inl (by decide +kernel), show _ = _ by decide +kernel⟩⟩
  refine ⟨by decide +kernel, hSum.1, by decide +kernel,
    (interpret_text MemorySink.unlimited session small rfl).2 ?_⟩
  rintro ⟨_, hZero | ⟨hLess | hEqual, _⟩⟩
  · exact absurd hZero (by decide)
  · exact absurd hLess (by decide +kernel)
  · exact absurd hEqual (by decide +kernel)

end Session

end StackCalculator
