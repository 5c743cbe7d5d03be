import StackCalculator.Proofs.Scanning

/-!
Scanning is longest match. The lexemes of each kind of token are given by themselves, without a
scanner, and so is what it means to cut a text into blanks and lexemes. There is exactly one way to
cut a text so that every lexeme is as long as it can be, and draining a scanner finds it.
-/

namespace StackCalculator

namespace Token

/-- The spelling of a kind that has only one. -/
def Kind.mark? : Kind → Option Char
  | .leftParen => some '('
  | .rightParen => some ')'
  | .leftBrace => some '\x7b'
  | .rightBrace => some '\x7d'
  | .comma => some ','
  | .dot => some '.'
  | .minus => some '-'
  | .plus => some '+'
  | .semicolon => some ';'
  | .slash => some '/'
  | .star => some '*'
  | .identifier => none
  | .number => none
  | .endOfInput => none

/-- The lexemes of each kind. The end of the input has none. -/
inductive Lexeme : Kind → List Char → Prop where
  | whole {digits : List Char} (hSome : digits ≠ []) (hDigits : ∀ c ∈ digits, c.isDigit = true) :
      Lexeme .number digits
  | fraction {digits places : List Char} (hSome : digits ≠ [])
      (hDigits : ∀ c ∈ digits, c.isDigit = true) (hPlace : places ≠ [])
      (hPlaces : ∀ c ∈ places, c.isDigit = true) : Lexeme .number (digits ++ '.' :: places)
  | identifier {first : Char} {rest : List Char} (hFirst : isLetter first = true)
      (hRest : ∀ c ∈ rest, (isLetter c || c.isDigit) = true) : Lexeme .identifier (first :: rest)
  | mark {kind : Kind} {c : Char} (hMark : kind.mark? = some c) : Lexeme kind [c]

theorem isLetter_of_isDigit {c : Char} (h : c.isDigit = true) : isLetter c = false := by
  rw [Bool.eq_false_iff]
  intro hLetter
  change ((decide (65 ≤ c.val ∧ c.val ≤ 90) || (97 ≤ c.val && c.val ≤ 122)) || c == '_') = true
    at hLetter
  have hDigit : 48 ≤ c.toNat ∧ c.toNat ≤ 57 := by
    simpa [Char.isDigit, UInt32.le_iff_toNat_le] using h
  have hWord : ((65 ≤ c.toNat ∧ c.toNat ≤ 90) ∨ 97 ≤ c.toNat ∧ c.toNat ≤ 122) ∨ c = '_' := by
    simpa [UInt32.le_iff_toNat_le] using hLetter
  rcases hWord with (hUpper | hLower) | rfl
  · omega
  · omega
  · exact absurd h (by decide)

theorem punctuation?_eq_some_iff {c : Char} {kind : Kind} :
    punctuation? c = some kind ↔ kind.mark? = some c := by
  constructor
  · intro h
    unfold punctuation? at h
    split at h <;> cases h <;> rfl
  · intro h
    cases kind <;> cases h <;> rfl

theorem plain_of_mark? {kind : Kind} {c : Char} (h : kind.mark? = some c) :
    c.isDigit = false ∧ isLetter c = false ∧ isBlank c = false := by
  cases kind <;> cases h <;> decide

theorem isBlank_eq_false {c : Char} (h : c.isDigit = true ∨ isLetter c = true) :
    isBlank c = false := by
  by_contra hBlank
  simp only [isBlank, Bool.not_eq_false, Bool.or_eq_true, beq_iff_eq] at hBlank
  rcases hBlank with ((rfl | rfl) | rfl) | rfl <;> exact absurd h (by decide)

/-- A lexeme is not empty, and its first character belongs to its kind. -/
theorem Lexeme.exists_first {kind : Kind} {lexeme : List Char} (h : Lexeme kind lexeme) :
    ∃ first rest, lexeme = first :: rest ∧
      (kind = .number ∧ first.isDigit = true ∨ kind = .identifier ∧ isLetter first = true ∨
        kind.mark? = some first) := by
  cases h with
  | whole hSome hDigits =>
      obtain ⟨first, rest, rfl⟩ := List.exists_cons_of_ne_nil hSome
      exact ⟨first, rest, rfl, .inl ⟨rfl, hDigits first List.mem_cons_self⟩⟩
  | fraction hSome hDigits hPlace hPlaces =>
      obtain ⟨first, rest, rfl⟩ := List.exists_cons_of_ne_nil hSome
      exact ⟨first, _, rfl, .inl ⟨rfl, hDigits first List.mem_cons_self⟩⟩
  | identifier hFirst hRest => exact ⟨_, _, rfl, .inr (.inl ⟨rfl, hFirst⟩)⟩
  | mark hMark => exact ⟨_, _, rfl, .inr (.inr hMark)⟩

/-- A text that starts with a lexeme starts with its first character. -/
theorem Lexeme.exists_cons {kind : Kind} {lexeme text : List Char} (h : Lexeme kind lexeme)
    (hPrefix : lexeme <+: text) :
    ∃ first rest behind, lexeme = first :: rest ∧ text = first :: behind := by
  obtain ⟨first, rest, rfl, _⟩ := h.exists_first
  obtain ⟨behind, rfl⟩ := hPrefix
  exact ⟨first, rest, rest ++ behind, rfl, rfl⟩

/-- No lexeme contains a blank. -/
theorem Lexeme.ne_blank {kind : Kind} {lexeme : List Char} (h : Lexeme kind lexeme) :
    ∀ c ∈ lexeme, isBlank c = false := by
  intro c hc
  cases h with
  | whole hSome hDigits => exact isBlank_eq_false (.inl (hDigits c hc))
  | fraction hSome hDigits hPlace hPlaces =>
      rcases List.mem_append.mp hc with hc | hc
      · exact isBlank_eq_false (.inl (hDigits c hc))
      · rcases List.mem_cons.mp hc with rfl | hc
        · rfl
        · exact isBlank_eq_false (.inl (hPlaces c hc))
  | identifier hFirst hRest =>
      rcases List.mem_cons.mp hc with rfl | hc
      · exact isBlank_eq_false (.inr hFirst)
      · exact isBlank_eq_false ((Bool.or_eq_true _ _).mp (hRest c hc)).symm
  | mark hMark =>
      cases List.mem_singleton.mp hc
      exact (plain_of_mark? hMark).2.2

/-- The first character of a lexeme decides which kind of token is scanned. -/
theorem Lexeme.leading? {kind : Kind} {first : Char} {rest : List Char}
    (h : Lexeme kind (first :: rest)) (text : List Char) :
    ∃ length, Token.leading? first text = some (kind, length) := by
  obtain ⟨_, _, hCons, ⟨rfl, hDigit⟩ | ⟨rfl, hLetter⟩ | hMark⟩ := h.exists_first <;> cases hCons
  · exact ⟨_, by rw [Token.leading?, if_pos hDigit]⟩
  · have hDigit : ¬first.isDigit = true := by
      intro hDigit
      simp [isLetter_of_isDigit hDigit] at hLetter
    exact ⟨_, by rw [Token.leading?, if_neg hDigit, if_pos hLetter]⟩
  · obtain ⟨hDigit, hLetter, _⟩ := plain_of_mark? hMark
    refine ⟨0, ?_⟩
    simp [Token.leading?, hDigit, hLetter, punctuation?_eq_some_iff.mpr hMark]

/-- What is cut off a text as a token is a lexeme of the token's kind. -/
theorem lexeme_of_leading? {first : Char} {text : List Char} {kind : Kind} {length : Nat}
    (h : leading? first text = some (kind, length)) : Lexeme kind (first :: text.take length) := by
  unfold leading? at h
  split at h
  · rename_i hDigit
    cases h
    obtain ⟨fraction, hTake, hFraction⟩ := take_numberTail text
    have hWhole : ∀ c ∈ first :: text.takeWhile Char.isDigit, c.isDigit = true := by
      intro c hc
      rcases List.mem_cons.mp hc with rfl | hc
      · exact hDigit
      · exact List.mem_takeWhile_imp hc
    rw [hTake, ← List.cons_append]
    rcases hFraction with rfl | ⟨places, rfl, hPlace, hPlaces⟩
    · rw [List.append_nil]
      exact .whole (List.cons_ne_nil _ _) hWhole
    · exact .fraction (List.cons_ne_nil _ _) hWhole hPlace (List.all_eq_true.mp hPlaces)
  · split at h
    · rename_i hLetter
      cases h
      refine .identifier hLetter fun c hc => ?_
      rw [← List.prefix_iff_eq_take.mp (List.takeWhile_prefix _)] at hc
      exact List.mem_takeWhile_imp (p := fun c => isLetter c || c.isDigit) hc
    · obtain ⟨_, hKind, hPair⟩ := Option.map_eq_some_iff.mp h
      cases hPair
      exact .mark (punctuation?_eq_some_iff.mp hKind)

theorem leading?_identifier {first : Char} {text : List Char} {length : Nat}
    (h : leading? first text = some (.identifier, length)) :
    length = (text.takeWhile fun c => isLetter c || c.isDigit).length := by
  unfold leading? at h
  split at h
  · cases h
  · split at h
    · cases h
      rfl
    · obtain ⟨_, hKind, hPair⟩ := Option.map_eq_some_iff.mp h
      cases hPair
      cases punctuation?_eq_some_iff.mp hKind

theorem length_le_takeWhile {p : Char → Bool} {lexeme text : List Char} (h : lexeme <+: text)
    (hAll : ∀ c ∈ lexeme, p c = true) : lexeme.length ≤ (text.takeWhile p).length := by
  obtain ⟨rest, rfl⟩ := h
  rw [List.takeWhile_append_of_pos hAll, List.length_append]
  exact Nat.le_add_right _ _

theorem takeWhile_le_numberTail (text : List Char) :
    (text.takeWhile Char.isDigit).length ≤ numberTail text := by
  obtain ⟨fraction, hTake, _⟩ := take_numberTail text
  calc
    _ ≤ (text.takeWhile Char.isDigit ++ fraction).length := by simp
    _ = (text.take (numberTail text)).length := by rw [hTake]
    _ ≤ numberTail text := List.length_take_le _ _

/-- A number takes a point and the places behind it along. -/
theorem numberTail_fraction {digits places rest : List Char}
    (hDigits : ∀ c ∈ digits, c.isDigit = true) (hPlace : places ≠ [])
    (hPlaces : ∀ c ∈ places, c.isDigit = true) :
    (digits ++ '.' :: places).length ≤ numberTail (digits ++ '.' :: places ++ rest) := by
  have hTake : (digits ++ '.' :: places ++ rest).takeWhile Char.isDigit = digits := by
    rw [List.append_assoc, List.takeWhile_append_of_pos hDigits]
    exact List.append_nil digits
  have hDrop : (digits ++ '.' :: places ++ rest).drop digits.length = '.' :: (places ++ rest) := by
    simp
  have hMore : places.length ≤ ((places ++ rest).takeWhile Char.isDigit).length :=
    length_le_takeWhile (List.prefix_append _ _) hPlaces
  have hPositive : 0 < places.length := List.length_pos_iff.mpr hPlace
  rw [numberTail, hTake]
  simp only [hDrop]
  rw [if_neg (by omega), List.length_append, List.length_cons]
  omega

/-- What is cut off a text as a token is as long as any lexeme that the text starts with, of
whatever kind. -/
theorem length_le_of_leading? {first : Char} {text : List Char} {kind other : Kind} {length : Nat}
    {lexeme : List Char} (h : leading? first text = some (kind, length))
    (hLexeme : Lexeme other lexeme) (hPrefix : lexeme <+: first :: text) :
    other = kind ∧ lexeme.length ≤ length + 1 := by
  have hKind : other = kind := by
    obtain ⟨_, rest, rfl, _⟩ := hLexeme.exists_first
    obtain ⟨rfl, _⟩ := List.cons_prefix_cons.mp hPrefix
    obtain ⟨_, hLeading⟩ := hLexeme.leading? text
    rw [hLeading] at h
    cases h
    rfl
  subst hKind
  refine ⟨rfl, ?_⟩
  cases hLexeme with
  | whole hSome hDigits =>
      obtain ⟨_, rest, rfl⟩ := List.exists_cons_of_ne_nil hSome
      obtain ⟨rfl, hRest⟩ := List.cons_prefix_cons.mp hPrefix
      obtain ⟨_, rfl⟩ := leading?_number h
      have hLength := length_le_takeWhile hRest fun c hc => hDigits c (List.mem_cons_of_mem _ hc)
      exact Nat.succ_le_succ (hLength.trans (takeWhile_le_numberTail text))
  | fraction hSome hDigits hPlace hPlaces =>
      obtain ⟨_, rest, rfl⟩ := List.exists_cons_of_ne_nil hSome
      obtain ⟨rfl, behind, rfl⟩ := List.cons_prefix_cons.mp hPrefix
      obtain ⟨_, rfl⟩ := leading?_number h
      exact Nat.succ_le_succ (numberTail_fraction
        (fun c hc => hDigits c (List.mem_cons_of_mem _ hc)) hPlace hPlaces)
  | identifier hFirst hRest =>
      obtain ⟨rfl, hRestPrefix⟩ := List.cons_prefix_cons.mp hPrefix
      obtain rfl := leading?_identifier h
      exact Nat.succ_le_succ (length_le_takeWhile hRestPrefix hRest)
  | mark hMark => exact Nat.le_add_left 1 length

end Token

namespace Scanned

/-- The characters of the source that a result of scanning stands for. -/
def spelling : Scanned → List Char
  | .ok token => token.lexeme.toList
  | .error e => [e.character]

def line : Scanned → Nat
  | .ok token => token.line
  | .error e => e.line

/-- The end of the input. -/
def IsEnd (item : Scanned) : Prop :=
  ∃ line, item = .ok ⟨.endOfInput, "", line⟩

/-- What scanning should give at the beginning of a text without blanks before it: the end if the
text is empty, the longest lexeme of any kind, or a character that no lexeme starts with. -/
inductive Begins : List Char → Scanned → Prop where
  | endOfInput (line : Nat) : Begins [] (.ok ⟨.endOfInput, "", line⟩)
  | token {text : List Char} {token : Token} (hLexeme : Token.Lexeme token.kind token.lexeme.toList)
      (hPrefix : token.lexeme.toList <+: text)
      (hLongest : ∀ kind lexeme, Token.Lexeme kind lexeme → lexeme <+: text →
        kind = token.kind ∧ lexeme.length ≤ token.lexeme.toList.length) :
      Begins text (.ok token)
  | unexpected {c : Char} (text : List Char) (line : Nat) (hBlank : Token.isBlank c = false)
      (hNone : ∀ kind rest, ¬Token.Lexeme kind (c :: rest)) : Begins (c :: text) (.error ⟨c, line⟩)

namespace Begins

/-- No item stands for a blank. -/
theorem ne_blank {text : List Char} {item : Scanned} (h : Begins text item) :
    ∀ c ∈ spelling item, Token.isBlank c = false := by
  cases h with
  | endOfInput line => simp [spelling]
  | token hLexeme hPrefix hLongest => exact hLexeme.ne_blank
  | unexpected rest line hBlank hNone => simpa [spelling] using hBlank

theorem first_ne_blank {first : Char} {text : List Char} {item : Scanned}
    (h : Begins (first :: text) item) : Token.isBlank first = false := by
  cases h with
  | token hLexeme hPrefix hLongest =>
      obtain ⟨_, rest, behind, hSpelling, hText⟩ := hLexeme.exists_cons hPrefix
      cases hText
      exact hLexeme.ne_blank _ (hSpelling ▸ List.mem_cons_self)
  | unexpected _ _ hBlank _ => exact hBlank

theorem count_newline {text : List Char} {item : Scanned} (h : Begins text item) :
    (spelling item).count '\n' = 0 :=
  List.count_eq_zero.mpr fun hNewline => absurd (h.ne_blank _ hNewline) (by decide)

/-- The end comes only behind everything else. -/
theorem eq_nil {text : List Char} {item : Scanned} (h : Begins text item) (hEnd : IsEnd item) :
    text = [] := by
  obtain ⟨endLine, rfl⟩ := hEnd
  cases h with
  | endOfInput => rfl
  | token hLexeme hPrefix hLongest =>
      obtain ⟨_, _, _, ⟨hKind, _⟩ | ⟨hKind, _⟩ | hMark⟩ := hLexeme.exists_first
      · cases hKind
      · cases hKind
      · cases hMark

/-- There is only one right result. -/
theorem unique {text : List Char} {item other : Scanned} (h : Begins text item)
    (hOther : Begins text other) (hLine : line item = line other) : item = other := by
  cases h with
  | endOfInput endLine =>
      cases hOther with
      | endOfInput otherLine => cases hLine; rfl
      | token hLexeme hPrefix hLongest =>
          obtain ⟨_, _, _, _, hText⟩ := hLexeme.exists_cons hPrefix
          cases hText
  | @token _ token hLexeme hPrefix hLongest =>
      cases hOther with
      | endOfInput otherLine =>
          obtain ⟨_, _, _, _, hText⟩ := hLexeme.exists_cons hPrefix
          cases hText
      | @token _ another hAnother hOtherPrefix hOtherLongest =>
          obtain ⟨hKind, hLess⟩ := hLongest _ _ hAnother hOtherPrefix
          obtain ⟨_, hGreater⟩ := hOtherLongest _ _ hLexeme hPrefix
          have hSame : token.lexeme.toList = another.lexeme.toList :=
            (List.prefix_of_prefix_length_le hPrefix hOtherPrefix hGreater).eq_of_length
              (Nat.le_antisymm hGreater hLess)
          obtain ⟨kind, lexeme, tokenLine⟩ := token
          obtain ⟨_, _, _⟩ := another
          cases hKind
          cases hLine
          cases String.toList_inj.mp hSame
          rfl
      | unexpected rest otherLine hBlank hNone =>
          obtain ⟨_, _, _, hSpelling, hText⟩ := hLexeme.exists_cons hPrefix
          cases hText
          exact absurd (hSpelling ▸ hLexeme) (hNone _ _)
  | unexpected rest line hBlank hNone =>
      cases hOther with
      | token hLexeme hPrefix hLongest =>
          obtain ⟨_, _, _, hSpelling, hText⟩ := hLexeme.exists_cons hPrefix
          cases hText
          exact absurd (hSpelling ▸ hLexeme) (hNone _ _)
      | unexpected _ otherLine _ _ => cases hLine; rfl

end Begins

end Scanned

namespace Scanner

/-- Scanning skips the blanks and gives what the rest begins with. -/
theorem scan_begins (s : Scanner) :
    ∃ blanks, (∀ c ∈ blanks, Token.isBlank c = true) ∧
      s.rest = blanks ++ (Scanned.spelling s.scan.1 ++ s.scan.2.rest) ∧
      Scanned.Begins (Scanned.spelling s.scan.1 ++ s.scan.2.rest) s.scan.1 ∧
      Scanned.line s.scan.1 = s.line + blanks.count '\n' ∧
      s.scan.2.line = Scanned.line s.scan.1 := by
  refine ⟨s.rest.takeWhile Token.isBlank, fun c hc => List.mem_takeWhile_imp hc, ?_⟩
  have hSplit : s.rest = s.rest.takeWhile Token.isBlank ++ s.rest.dropWhile Token.isBlank :=
    List.takeWhile_append_dropWhile.symm
  unfold scan
  split
  · rename_i hDrop
    rw [hDrop] at hSplit
    exact ⟨by simpa [Scanned.spelling] using hSplit, .endOfInput _, rfl, rfl⟩
  · rename_i first text hDrop
    rw [hDrop] at hSplit
    have hBlank : Token.isBlank first = false := by
      have hHead := List.head?_dropWhile_not Token.isBlank s.rest
      rwa [hDrop] at hHead
    split
    · rename_i hLeading
      refine ⟨hSplit, .unexpected text _ hBlank fun kind rest hLexeme => ?_, rfl, rfl⟩
      obtain ⟨_, hSome⟩ := hLexeme.leading? text
      cases hLeading.symm.trans hSome
    · rename_i kind length hLeading
      have hText : first :: text.take length ++ text.drop length = first :: text := by simp
      simp only [Scanned.spelling, String.toList_ofList, hText]
      refine ⟨hSplit, .token ?_ ?_ ?_, rfl, rfl⟩
      · simpa using Token.lexeme_of_leading? hLeading
      · simpa using List.take_prefix length text
      · intro kind lexeme hLexeme hPrefix
        obtain ⟨hKind, hLength⟩ := Token.length_le_of_leading? hLeading hLexeme hPrefix
        have hWithin := hPrefix.length_le
        rw [List.length_cons] at hWithin
        refine ⟨hKind, ?_⟩
        rw [String.toList_ofList, List.length_cons, List.length_take]
        omega

/-- A scanner that has not finished hands out what scanning gives, and finishes with the end. -/
theorem next_of_not_finished {s : Scanner} (h : s.finished = false) :
    ∃ after, s.next = (some s.scan.1, after) ∧ after.rest = s.scan.2.rest ∧
      after.line = s.scan.2.line ∧ (after.finished = true ↔ Scanned.IsEnd s.scan.1) := by
  rcases hScan : s.scan with ⟨_ | token, after⟩
  · have hAfter : after.finished = false := by
      rw [← h, ← finished_scan s, hScan]
    refine ⟨after, by simp [next, h, hScan], rfl, rfl, ?_⟩
    simp [Scanned.IsEnd, hAfter]
  · refine ⟨{ after with finished := token.kind == .endOfInput }, by simp [next, h, hScan], rfl,
      rfl, ?_⟩
    constructor
    · intro hKind
      exact ⟨token.line, by rw [← (scan_end hScan (by simpa using hKind)).1]⟩
    · rintro ⟨line, hToken⟩
      cases hToken
      rfl

theorem next_of_finished {s : Scanner} (h : s.finished = true) : s.next = (none, s) := by
  simp [next, h]

/-- A scanner hands out items through `next`, one after the other, and is then at another place. -/
inductive Yields : Scanner → List Scanned → Scanner → Prop where
  | nil (s : Scanner) : Yields s [] s
  | cons {s after last : Scanner} {item : Scanned} {items : List Scanned}
      (hNext : s.next = (some item, after)) (further : Yields after items last) :
      Yields s (item :: items) last

/-- Draining hands out everything there is. -/
theorem drain_yields (s : Scanner) :
    Yields s s.drain.1 s.drain.2 ∧ s.drain.2.next = (none, s.drain.2) := by
  fun_induction drain s with
  | case1 s after hNext =>
      cases hFinished : s.finished with
      | true =>
          cases hNext.symm.trans (next_of_finished hFinished)
          exact ⟨.nil s, hNext⟩
      | false =>
          obtain ⟨_, hSome, _⟩ := next_of_not_finished hFinished
          cases hNext.symm.trans hSome
  | case2 s item after hNext items last hDrain ih =>
      rw [hDrain] at ih
      exact ⟨.cons hNext ih.1, ih.2⟩

end Scanner

/-- A result of scanning and the blanks before it. -/
structure Piece where
  blanks : List Char
  item : Scanned

/-- The part of the source that a piece stands for. -/
def Piece.text (piece : Piece) : List Char :=
  piece.blanks ++ Scanned.spelling piece.item

/-- Pieces that a text is cut into, if it stands behind the text `before`. Only the last piece is
the end of the input. Each item is what the text from there on begins with, and its line counts the
newlines before it. -/
structure Tiling (before : List Char) (pieces : List Piece) : Prop where
  ends : ∃ front last, pieces = front ++ [last] ∧ Scanned.IsEnd last.item ∧
    ∀ piece ∈ front, ¬Scanned.IsEnd piece.item
  blank : ∀ piece ∈ pieces, ∀ c ∈ piece.blanks, Token.isBlank c = true
  begins : ∀ front piece back, pieces = front ++ piece :: back →
    Scanned.Begins (Scanned.spelling piece.item ++ back.flatMap Piece.text) piece.item
  line_eq : ∀ front piece back, pieces = front ++ piece :: back →
    Scanned.line piece.item =
      1 + (before ++ front.flatMap Piece.text ++ piece.blanks).count '\n'

namespace Tiling

theorem singleton {before : List Char} {piece : Piece}
    (hBlank : ∀ c ∈ piece.blanks, Token.isBlank c = true)
    (hBegins : Scanned.Begins (Scanned.spelling piece.item) piece.item)
    (hLine : Scanned.line piece.item = 1 + (before ++ piece.blanks).count '\n')
    (hEnd : Scanned.IsEnd piece.item) : Tiling before [piece] := by
  have hOnly : ∀ front other back, [piece] = front ++ other :: back →
      front = [] ∧ other = piece ∧ back = [] := by
    intro front other back hPieces
    cases front <;> simp_all
  refine ⟨⟨[], piece, rfl, hEnd, by simp⟩, by simpa using hBlank, ?_, ?_⟩
  · intro front other back hPieces
    obtain ⟨rfl, rfl, rfl⟩ := hOnly front other back hPieces
    simpa using hBegins
  · intro front other back hPieces
    obtain ⟨rfl, rfl, rfl⟩ := hOnly front other back hPieces
    simpa using hLine

theorem cons {before : List Char} {piece : Piece} {pieces : List Piece}
    (hBlank : ∀ c ∈ piece.blanks, Token.isBlank c = true)
    (hBegins : Scanned.Begins (Scanned.spelling piece.item ++ pieces.flatMap Piece.text) piece.item)
    (hLine : Scanned.line piece.item = 1 + (before ++ piece.blanks).count '\n')
    (hEnd : ¬Scanned.IsEnd piece.item) (h : Tiling (before ++ piece.text) pieces) :
    Tiling before (piece :: pieces) where
  ends := by
    obtain ⟨front, last, rfl, hLast, hFront⟩ := h.ends
    exact ⟨piece :: front, last, rfl, hLast, by simpa using ⟨hEnd, hFront⟩⟩
  blank := by simpa using ⟨hBlank, h.blank⟩
  begins := by
    intro front other back hPieces
    cases front with
    | nil =>
        cases hPieces
        exact hBegins
    | cons _ front =>
        cases hPieces
        exact h.begins front other back rfl
  line_eq := by
    intro front other back hPieces
    cases front with
    | nil =>
        cases hPieces
        simpa using hLine
    | cons _ front =>
        cases hPieces
        simpa using h.line_eq front other back rfl

/-- The end is followed by nothing, and anything else by pieces of the text behind it. -/
theorem tail {before : List Char} {piece : Piece} {pieces : List Piece}
    (h : Tiling before (piece :: pieces)) :
    Scanned.IsEnd piece.item ∧ pieces = [] ∨
      ¬Scanned.IsEnd piece.item ∧ Tiling (before ++ piece.text) pieces := by
  obtain ⟨front, last, hPieces, hLast, hFront⟩ := h.ends
  cases front with
  | nil =>
      cases hPieces
      exact .inl ⟨hLast, rfl⟩
  | cons _ front =>
      cases hPieces
      exact .inr ⟨hFront piece List.mem_cons_self, {
        ends := ⟨front, last, rfl, hLast, fun other hOther =>
          hFront other (List.mem_cons_of_mem _ hOther)⟩
        blank := fun other hOther => h.blank other (List.mem_cons_of_mem _ hOther)
        begins := fun middle other back hPieces =>
          h.begins (piece :: middle) other back (by rw [hPieces]; rfl)
        line_eq := fun middle other back hPieces => by
          simpa using h.line_eq (piece :: middle) other back (by rw [hPieces]; rfl) }⟩

/-- The first piece: blanks, and what the text behind them begins with. -/
theorem head {before : List Char} {piece : Piece} {pieces : List Piece}
    (h : Tiling before (piece :: pieces)) :
    (∀ c ∈ piece.blanks, Token.isBlank c = true) ∧
      Scanned.Begins (Scanned.spelling piece.item ++ pieces.flatMap Piece.text) piece.item ∧
      Scanned.line piece.item = 1 + (before ++ piece.blanks).count '\n' :=
  ⟨h.blank piece List.mem_cons_self, h.begins [] piece pieces rfl,
    by simpa using h.line_eq [] piece pieces rfl⟩

/-- The blanks before an item are all the blanks there are. -/
theorem blanks_eq {blanks text : List Char} {item : Scanned}
    (hBlank : ∀ c ∈ blanks, Token.isBlank c = true) (hBegins : Scanned.Begins text item) :
    (blanks ++ text).takeWhile Token.isBlank = blanks := by
  have hStop : text.takeWhile Token.isBlank = [] := by
    cases text with
    | nil => rfl
    | cons first rest => simp [hBegins.first_ne_blank]
  rw [List.takeWhile_append_of_pos hBlank, hStop, List.append_nil]

/-- A text can be cut into pieces in one way only. -/
theorem unique {before : List Char} {pieces others : List Piece} (h : Tiling before pieces)
    (hOthers : Tiling before others)
    (hText : pieces.flatMap Piece.text = others.flatMap Piece.text) : pieces = others := by
  induction pieces generalizing before others with
  | nil =>
      obtain ⟨front, last, hPieces, _⟩ := h.ends
      simp at hPieces
  | cons piece pieces ih =>
      cases others with
      | nil =>
          obtain ⟨front, last, hPieces, _⟩ := hOthers.ends
          simp at hPieces
      | cons other others =>
          obtain ⟨hBlank, hBegins, hLine⟩ := h.head
          obtain ⟨hOtherBlank, hOtherBegins, hOtherLine⟩ := hOthers.head
          simp only [List.flatMap_cons, Piece.text, List.append_assoc] at hText
          have hBlanks : piece.blanks = other.blanks := by
            rw [← blanks_eq hBlank hBegins, hText, blanks_eq hOtherBlank hOtherBegins]
          rw [hBlanks] at hText hLine
          have hBehind := List.append_cancel_left hText
          have hItem : piece.item = other.item :=
            hBegins.unique (hBehind ▸ hOtherBegins) (hLine.trans hOtherLine.symm)
          rw [hItem] at hBehind
          have hSame : piece = other := by
            cases piece
            cases other
            simp_all
          subst hSame
          rcases h.tail with ⟨hEnd, rfl⟩ | ⟨hEnd, hRest⟩
          · rcases hOthers.tail with ⟨_, rfl⟩ | ⟨hNotEnd, _⟩
            · rfl
            · exact absurd hEnd hNotEnd
          · rcases hOthers.tail with ⟨hOtherEnd, _⟩ | ⟨_, hOtherRest⟩
            · exact absurd hOtherEnd hEnd
            · rw [ih hRest hOtherRest (List.append_cancel_left hBehind)]

end Tiling

/-- Draining a scanner cuts what is left of the text into pieces. -/
theorem Scanner.drain_tiling {s : Scanner} (hFinished : s.finished = false) {before : List Char}
    (hLine : s.line = 1 + before.count '\n') :
    ∃ pieces, pieces.map Piece.item = s.drain.1 ∧ pieces.flatMap Piece.text = s.rest ∧
      Tiling before pieces := by
  fun_induction drain s generalizing before with
  | case1 s after hNext =>
      obtain ⟨_, hSome, _⟩ := next_of_not_finished hFinished
      cases hNext.symm.trans hSome
  | case2 s item after hNext items last hDrain ih =>
      obtain ⟨_, hSome, hAfterRest, hAfterLine, hEnd⟩ := next_of_not_finished hFinished
      cases hNext.symm.trans hSome
      obtain ⟨blanks, hBlank, hRest, hBegins, hItemLine, hScanLine⟩ := s.scan_begins
      have hPieceLine : Scanned.line s.scan.1 = 1 + (before ++ blanks).count '\n' := by
        rw [hItemLine, hLine, List.count_append, Nat.add_assoc]
      by_cases hIsEnd : Scanned.IsEnd s.scan.1
      · have hItems : items = [] := by
          rw [drain_of_next_none (next_of_finished (hEnd.mpr hIsEnd))] at hDrain
          cases hDrain
          rfl
        have hNil := List.append_eq_nil_iff.mp (hBegins.eq_nil hIsEnd)
        refine ⟨[⟨blanks, s.scan.1⟩], by simp [hItems], ?_,
          .singleton hBlank ?_ hPieceLine hIsEnd⟩
        · rw [hRest, hNil.2]
          simp [Piece.text]
        · simpa [hNil.2] using hBegins
      · have hAfter : after.finished = false := by simpa using mt hEnd.mp hIsEnd
        have hLonger : after.line =
            1 + (before ++ (Piece.mk blanks s.scan.1).text).count '\n' := by
          rw [hAfterLine, hScanLine, hPieceLine, Piece.text]
          simp [hBegins.count_newline]
        obtain ⟨pieces, hItems, hText, hTiling⟩ := ih hAfter hLonger
        rw [hDrain] at hItems
        refine ⟨⟨blanks, s.scan.1⟩ :: pieces, by simp [hItems], ?_,
          .cons hBlank ?_ hPieceLine hIsEnd hTiling⟩
        · rw [List.flatMap_cons, hText, hAfterRest, hRest, Piece.text, List.append_assoc]
        · rw [hText, hAfterRest]
          exact hBegins

/-- Scanning a text to its end gives the items of the pieces that the text is cut into. -/
theorem exists_tiling_scanAll (source : String) :
    ∃ pieces, Tiling [] pieces ∧ pieces.flatMap Piece.text = source.toList ∧
      scanAll source = pieces.map Piece.item := by
  have hLine : (Scanner.ofText source).line = 1 + ([] : List Char).count '\n' := rfl
  obtain ⟨pieces, hItems, hText, hTiling⟩ := Scanner.drain_tiling rfl hLine
  exact ⟨pieces, hTiling, hText, hItems.symm⟩

/-- Scanning a text to its end cuts it into pieces in the only way there is, and loses nothing. -/
theorem scanAll_is_only_tiling (source : String) :
    (∃ last, (Scanner.ofText source).Yields (scanAll source) last ∧ last.next = (none, last)) ∧
      ∃ pieces, pieces.map Piece.item = scanAll source ∧
        pieces.flatMap Piece.text = source.toList ∧ Tiling [] pieces ∧
        ∀ others, others.flatMap Piece.text = source.toList → Tiling [] others →
          others = pieces := by
  obtain ⟨hYields, hNone⟩ := (Scanner.ofText source).drain_yields
  have hLine : (Scanner.ofText source).line = 1 + ([] : List Char).count '\n' := rfl
  obtain ⟨pieces, hItems, hText, hTiling⟩ := Scanner.drain_tiling rfl hLine
  refine ⟨⟨_, hYields, hNone⟩, pieces, hItems, hText, hTiling, fun others hOthers hOther => ?_⟩
  exact hOther.unique hTiling (hOthers.trans hText.symm)

end StackCalculator
