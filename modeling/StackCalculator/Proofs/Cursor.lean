import Mathlib.Data.String.Basic
import StackCalculator.Proofs.LongestMatch

/-!
A scanner whose places in the text are counted in bytes. It reads a character by cutting the text at
a byte, which can fail: not every byte is between two characters, and a place can be behind the
end. Started at the beginning of a text, it never fails, and it hands out what a scanner that holds
the rest of the text hands out.
-/

namespace StackCalculator

open String (utf8Len)

namespace Text

/-- Cuts a text behind its first bytes, counted in UTF-8. There is no cut inside a character or
behind the end. -/
def splitBytes? : List Char → Nat → Option (List Char × List Char)
  | text, 0 => some ([], text)
  | [], _ + 1 => none
  | c :: text, count + 1 =>
      if c.utf8Size ≤ count + 1 then
        (splitBytes? text (count + 1 - c.utf8Size)).map fun (front, back) => (c :: front, back)
      else none

/-- The part of a text from one byte up to another. There is none if the text cannot be cut at one
of them, or if they are in the wrong order. -/
def slice? (text : List Char) (start stop : Nat) : Option (List Char) := do
  let (front, _) ← splitBytes? text stop
  let (_, middle) ← splitBytes? front start
  some middle

theorem splitBytes?_append (front back : List Char) :
    splitBytes? (front ++ back) (utf8Len front) = some (front, back) := by
  induction front with
  | nil => simp [splitBytes?]
  | cons c front ih =>
      obtain ⟨count, hCount⟩ : ∃ count, utf8Len (c :: front) = count + 1 :=
        ⟨utf8Len (c :: front) - 1, by have := c.utf8Size_pos; rw [String.utf8Len_cons]; omega⟩
      have hRest : count + 1 - c.utf8Size = utf8Len front := by
        rw [← hCount, String.utf8Len_cons, Nat.add_sub_cancel]
      have hLe : c.utf8Size ≤ count + 1 := by
        rw [← hCount, String.utf8Len_cons]
        exact Nat.le_add_left _ _
      rw [hCount, List.cons_append, splitBytes?, if_pos hLe, hRest, ih]
      rfl

/-- A cut gives the two parts of a text, and the first one has as many bytes as were asked for. -/
theorem splitBytes?_eq_some_iff {text front back : List Char} {count : Nat} :
    splitBytes? text count = some (front, back) ↔ text = front ++ back ∧ count = utf8Len front := by
  refine ⟨fun h => ?_, fun ⟨hText, hCount⟩ => hText ▸ hCount ▸ splitBytes?_append front back⟩
  fun_induction splitBytes? text count generalizing front back with
  | case1 text =>
      cases h
      exact ⟨rfl, rfl⟩
  | case2 count => cases h
  | case3 c text count hFits ih =>
      obtain ⟨⟨front, back⟩, hCut, hPair⟩ := Option.map_eq_some_iff.mp h
      cases hPair
      obtain ⟨rfl, hCount⟩ := ih hCut
      refine ⟨rfl, ?_⟩
      rw [String.utf8Len_cons, ← hCount]
      omega
  | case4 c text count hWide => cases h

/-- A text can be cut exactly where a position between its characters is. -/
theorem splitBytes?_isSome_iff {source : String} {count : Nat} :
    (splitBytes? source.toList count).isSome ↔ String.Pos.Raw.IsValid source ⟨count⟩ := by
  rw [Option.isSome_iff_exists, String.Pos.Raw.isValid_iff_exists_append]
  constructor
  · rintro ⟨⟨front, back⟩, hCut⟩
    obtain ⟨hText, rfl⟩ := splitBytes?_eq_some_iff.mp hCut
    refine ⟨String.ofList front, String.ofList back, ?_, by simp⟩
    rw [← String.ofList_append, ← hText, String.ofList_toList]
  · rintro ⟨front, back, rfl, hCount⟩
    refine ⟨(front.toList, back.toList), splitBytes?_eq_some_iff.mpr ⟨by simp, ?_⟩⟩
    rw [String.utf8Len_toList]
    exact congrArg String.Pos.Raw.byteIdx hCount

theorem slice?_append (before middle behind : List Char) :
    slice? (before ++ middle ++ behind) (utf8Len before) (utf8Len (before ++ middle)) =
      some middle := by
  simp only [slice?, splitBytes?_append, Option.bind_eq_bind, Option.bind_some]

end Text

/-- A scanner's places in its text, in bytes: where the lexeme starts that it scanned last, and
what it reads next. -/
structure Cursor where
  source : String
  start : Nat := 0
  current : Nat := 0
  line : Nat := 1
  finished : Bool := false

namespace Cursor

def ofText (source : String) : Cursor where
  source := source

/-- The text from the next byte on. -/
def ahead? (c : Cursor) : Option (List Char) :=
  (Text.splitBytes? c.source.toList c.current).map (·.2)

/-- The next character, if there is one. -/
def look? (c : Cursor) : Option (Option Char) :=
  c.ahead?.map List.head?

/-- The character behind the next one, if there is one. -/
def lookBeyond? (c : Cursor) : Option (Option Char) :=
  c.ahead?.map (·.tail.head?)

/-- Goes on behind a text that is next. -/
def forward (c : Cursor) (text : List Char) : Cursor :=
  { c with current := c.current + utf8Len text }

@[simp] theorem forward_line (c : Cursor) (text : List Char) : (c.forward text).line = c.line :=
  rfl

@[simp] theorem forward_nil (c : Cursor) : c.forward [] = c := rfl

theorem forward_append (c : Cursor) (text more : List Char) :
    c.forward (text ++ more) = (c.forward text).forward more := by
  simp [forward, Nat.add_assoc]

/-- Reads the next character and goes on behind it. At the end of the text it stays there. -/
def advance? (c : Cursor) : Option (Option Char × Cursor) := do
  match ← c.look? with
  | none => some (none, c)
  | some first => some (some first, c.forward [first])

theorem forward_left_lt {c : Cursor} {first : Char} (h : c.look? = some (some first)) :
    c.source.utf8ByteSize - (c.forward [first]).current < c.source.utf8ByteSize - c.current := by
  obtain ⟨text, hAhead, hFirst⟩ := Option.map_eq_some_iff.mp h
  obtain ⟨⟨front, back⟩, hCut, rfl⟩ := Option.map_eq_some_iff.mp hAhead
  obtain ⟨hText, hCurrent⟩ := Text.splitBytes?_eq_some_iff.mp hCut
  obtain ⟨rest, rfl⟩ := List.head?_eq_some_iff.mp hFirst
  have hPos := first.utf8Size_pos
  have hSize : c.source.utf8ByteSize = utf8Len front + (utf8Len rest + first.utf8Size) := by
    rw [← String.utf8Len_toList, hText, String.utf8Len_append, String.utf8Len_cons]
  simp only [forward, String.utf8Len_cons, String.utf8Len_nil]
  omega

/-- Goes over blanks and counts the newlines among them. -/
def skipBlanks? (c : Cursor) : Option Cursor :=
  match _ : c.look? with
  | none => none
  | some none => some c
  | some (some first) =>
      if first = '\n' then
        { c.forward [first] with line := c.line + 1 }.skipBlanks?
      else if Token.isBlank first then
        (c.forward [first]).skipBlanks?
      else
        some c
termination_by c.source.utf8ByteSize - c.current
decreasing_by all_goals exact forward_left_lt ‹_›

/-- Goes over characters of one sort. -/
def skipWhile? (sort : Char → Bool) (c : Cursor) : Option Cursor :=
  match _ : c.look? with
  | none => none
  | some none => some c
  | some (some first) => if sort first then (c.forward [first]).skipWhile? sort else some c
termination_by c.source.utf8ByteSize - c.current
decreasing_by exact forward_left_lt ‹_›

/-- The token from the start of the lexeme up to the next byte. -/
def token? (c : Cursor) (kind : Token.Kind) : Option Token := do
  let lexeme ← Text.slice? c.source.toList c.start c.current
  some ⟨kind, String.ofList lexeme, c.line⟩

/-- The rest of a number. A point that no digit follows is left for the next token. -/
def number? (c : Cursor) : Option (Token × Cursor) := do
  let c ← c.skipWhile? Char.isDigit
  let c ←
    if (← c.look?) = some '.' ∧ (← c.lookBeyond?).any Char.isDigit then do
      let (_, c) ← c.advance?
      c.skipWhile? Char.isDigit
    else
      some c
  some (← c.token? .number, c)

/-- The rest of an identifier. -/
def identifier? (c : Cursor) : Option (Token × Cursor) := do
  let c ← c.skipWhile? fun first => Token.isLetter first || first.isDigit
  some (← c.token? .identifier, c)

/-- Scans one token, or one character that starts none. -/
def scan? (c : Cursor) : Option (Scanned × Cursor) := do
  let c ← c.skipBlanks?
  match ← { c with start := c.current }.advance? with
  | (none, c) => some (.ok (← c.token? .endOfInput), c)
  | (some first, c) =>
      if first.isDigit then
        let (token, c) ← c.number?
        some (.ok token, c)
      else if Token.isLetter first then
        let (token, c) ← c.identifier?
        some (.ok token, c)
      else
        match Token.punctuation? first with
        | some kind => some (.ok (← c.token? kind), c)
        | none => some (.error ⟨first, c.line⟩, c)

/-- Scans on, until it has handed out the end of the input once. -/
def next? (c : Cursor) : Option (Option Scanned × Cursor) :=
  if c.finished then
    some (none, c)
  else do
    match ← c.scan? with
    | (.ok token, c) =>
        some (some (.ok token), if token.kind = .endOfInput then { c with finished := true } else c)
    | (.error e, c) => some (some (.error e), c)

/-- A cursor stands behind a lexeme of its text. -/
structure At (c : Cursor) (before lexeme rest : List Char) : Prop where
  text : c.source.toList = before ++ lexeme ++ rest
  start : c.start = utf8Len before
  current : c.current = utf8Len (before ++ lexeme)

namespace At

variable {c : Cursor} {before lexeme rest : List Char}

theorem ofText (source : String) : (Cursor.ofText source).At [] [] source.toList :=
  ⟨rfl, rfl, rfl⟩

theorem ahead? (h : c.At before lexeme rest) : c.ahead? = some rest := by
  rw [Cursor.ahead?, h.text, h.current, Text.splitBytes?_append]
  rfl

theorem look? (h : c.At before lexeme rest) : c.look? = some rest.head? := by
  rw [Cursor.look?, h.ahead?]
  rfl

theorem lookBeyond? (h : c.At before lexeme rest) : c.lookBeyond? = some rest.tail.head? := by
  rw [Cursor.lookBeyond?, h.ahead?]
  rfl

theorem forward {more : List Char} (h : c.At before lexeme (more ++ rest)) :
    (c.forward more).At before (lexeme ++ more) rest where
  text := by simp [Cursor.forward, h.text]
  start := h.start
  current := by simp [Cursor.forward, h.current, Nat.add_assoc]

theorem forward_takeWhile (h : c.At before lexeme rest) (sort : Char → Bool) :
    (c.forward (rest.takeWhile sort)).At before (lexeme ++ rest.takeWhile sort)
      (rest.dropWhile sort) :=
  forward (List.takeWhile_append_dropWhile.symm ▸ h)

/-- The next lexeme starts behind the last one. -/
theorem restart (h : c.At before lexeme rest) :
    { c with start := c.current }.At (before ++ lexeme) [] rest where
  text := by simpa using h.text
  start := h.current
  current := by simpa using h.current

theorem setLine (h : c.At before lexeme rest) (line : Nat) :
    { c with line := line }.At before lexeme rest :=
  ⟨h.text, h.start, h.current⟩

theorem advance?_nil (h : c.At before lexeme []) : c.advance? = some (none, c) := by
  simp [Cursor.advance?, h.look?]

theorem advance?_cons {first : Char} (h : c.At before lexeme (first :: rest)) :
    c.advance? = some (some first, c.forward [first]) := by
  simp [Cursor.advance?, h.look?]

theorem token? (h : c.At before lexeme rest) (kind : Token.Kind) :
    c.token? kind = some ⟨kind, String.ofList lexeme, c.line⟩ := by
  rw [Cursor.token?, h.text, h.start, h.current, Text.slice?_append]
  rfl

theorem skipWhile? (h : c.At before lexeme rest) (sort : Char → Bool) :
    c.skipWhile? sort = some (c.forward (rest.takeWhile sort)) := by
  induction rest generalizing c lexeme with
  | nil =>
      rw [Cursor.skipWhile?, h.look?]
      rfl
  | cons first rest ih =>
      have hLook : c.look? = some (some first) := h.look?
      have hOn : (c.forward [first]).At before (lexeme ++ [first]) rest := h.forward
      rw [Cursor.skipWhile?, hLook]
      cases hSort : sort first with
      | true => simp [hSort, ih hOn, ← forward_append]
      | false => simp [hSort]

theorem skipBlanks? (h : c.At before lexeme rest) :
    c.skipBlanks? = some { c.forward (rest.takeWhile Token.isBlank) with
      line := c.line + (rest.takeWhile Token.isBlank).count '\n' } := by
  induction rest generalizing c lexeme with
  | nil =>
      rw [Cursor.skipBlanks?, h.look?]
      rfl
  | cons first rest ih =>
      have hLook : c.look? = some (some first) := h.look?
      have hOn : (c.forward [first]).At before (lexeme ++ [first]) rest := h.forward
      have hForward := forward_append c [first] (rest.takeWhile Token.isBlank)
      rw [List.singleton_append] at hForward
      rw [Cursor.skipBlanks?, hLook]
      dsimp only
      by_cases hNewline : first = '\n'
      · subst hNewline
        have hBlank : Token.isBlank '\n' = true := rfl
        rw [if_pos rfl, ih (hOn.setLine (c.line + 1)), List.takeWhile_cons_of_pos hBlank,
          List.count_cons_self, hForward, Nat.add_comm (List.count _ _) 1, ← Nat.add_assoc c.line 1]
        rfl
      · rw [if_neg hNewline]
        cases hBlank : Token.isBlank first with
        | true =>
            rw [if_pos rfl, ih hOn, List.takeWhile_cons_of_pos hBlank,
              List.count_cons_of_ne hNewline, hForward, forward_line]
        | false => simp [hBlank]

/-- Behind the first digits of a number, the cursor takes a point only if one more digit follows. -/
theorem number? (h : c.At before lexeme rest) :
    c.number? = some (⟨.number, String.ofList (lexeme ++ rest.take (Token.numberTail rest)),
      c.line⟩, c.forward (rest.take (Token.numberTail rest))) := by
  have hWhole := h.forward_takeWhile Char.isDigit
  rw [Token.take_numberTail_eq rfl]
  simp only [Cursor.number?, h.skipWhile?, hWhole.look?, hWhole.lookBeyond?, Option.bind_eq_bind,
    Option.bind_some]
  generalize rest.dropWhile Char.isDigit = behind at hWhole ⊢
  split
  · rename_i hFraction
    obtain ⟨places, rfl⟩ : ∃ places, behind = '.' :: places := List.head?_eq_some_iff.mp hFraction.1
    have hPoint : ((c.forward _).forward ['.']).At before _ places := hWhole.forward
    simp only [hWhole.advance?_cons, Option.bind_some, hPoint.skipWhile?, List.tail_cons,
      (hPoint.forward_takeWhile Char.isDigit).token?]
    simp [← forward_append]
  · simp [hWhole.token?]

theorem identifier? (h : c.At before lexeme rest) :
    c.identifier? = some (⟨.identifier, String.ofList (lexeme ++ rest.takeWhile fun first =>
      Token.isLetter first || first.isDigit), c.line⟩, c.forward (rest.takeWhile fun first =>
        Token.isLetter first || first.isDigit)) := by
  simp only [Cursor.identifier?, h.skipWhile?, (h.forward_takeWhile _).token?, Option.bind_eq_bind,
    Option.bind_some, forward_line]

/-- Scanning from a cursor's place cannot fail, and gives what a scanner gives there. -/
theorem scan? {s : Scanner} (h : c.At before lexeme s.rest) (hLine : c.line = s.line) :
    ∃ after front next, c.scan? = some (s.scan.1, after) ∧ after.At front next s.scan.2.rest ∧
      after.line = s.scan.2.line ∧ after.source = c.source ∧ after.finished = c.finished := by
  have hBlanks := ((h.forward_takeWhile Token.isBlank).setLine
    (s.line + (s.rest.takeWhile Token.isBlank).count '\n')).restart
  simp only [Cursor.scan?, h.skipBlanks?, hLine, Option.bind_eq_bind, Option.bind_some]
  unfold Scanner.scan
  cases hRest : s.rest.dropWhile Token.isBlank with
  | nil =>
      rw [hRest] at hBlanks
      simp only [hBlanks.advance?_nil, hBlanks.token?, Option.bind_some]
      exact ⟨_, _, _, rfl, hBlanks, rfl, rfl, rfl⟩
  | cons first text =>
      rw [hRest] at hBlanks
      have hFirst := forward (show At _ _ _ ([first] ++ text) from hBlanks)
      simp only [hBlanks.advance?_cons, Option.bind_some, Token.leading?]
      split
      · simp only [hFirst.number?, Option.bind_some]
        have hText := List.take_append_drop (Token.numberTail text) text
        exact ⟨_, _, _, rfl, forward (hText.symm ▸ hFirst), rfl, rfl, rfl⟩
      · split
        · have hPrefix : (text.takeWhile fun c => Token.isLetter c || c.isDigit) <+: text :=
            List.takeWhile_prefix _
          have hTake := List.prefix_iff_eq_take.mp hPrefix
          simp only [hFirst.identifier?, Option.bind_some, List.nil_append, List.cons_append,
            ← hTake]
          have hText := List.take_append_drop
            (text.takeWhile fun c => Token.isLetter c || c.isDigit).length text
          rw [← hTake] at hText
          exact ⟨_, _, _, rfl, forward (hText.symm ▸ hFirst), rfl, rfl, rfl⟩
        · cases hMark : Token.punctuation? first with
          | none => exact ⟨_, _, _, rfl, hFirst, rfl, rfl, rfl⟩
          | some kind =>
              simp only [hFirst.token?, Option.bind_some]
              exact ⟨_, _, _, rfl, hFirst, rfl, rfl, rfl⟩

end At

/-- A cursor is at the place of a scanner: it has the same text in front of it, and the line counts
the newlines behind it. -/
structure Shows (c : Cursor) (s : Scanner) : Prop where
  place : ∃ before lexeme, c.At before lexeme s.rest ∧ c.line = 1 + (before ++ lexeme).count '\n'
  line : c.line = s.line
  finished : c.finished = s.finished

/-- Both places of a cursor are between characters and in order, and its line is the one that the
next byte is on. -/
structure WellPlaced (c : Cursor) : Prop where
  start_le_current : c.start ≤ c.current
  current_le_size : c.current ≤ c.source.utf8ByteSize
  isValid_start : String.Pos.Raw.IsValid c.source ⟨c.start⟩
  isValid_current : String.Pos.Raw.IsValid c.source ⟨c.current⟩
  line_eq : ∃ front, Text.slice? c.source.toList 0 c.current = some front ∧
    c.line = 1 + front.count '\n'

theorem ofText_shows (source : String) : (ofText source).Shows (Scanner.ofText source) where
  place := ⟨[], [], At.ofText source, rfl⟩
  line := rfl
  finished := rfl

namespace Shows

variable {c : Cursor} {s : Scanner}

theorem wellPlaced (h : c.Shows s) : c.WellPlaced := by
  obtain ⟨before, lexeme, hAt, hLine⟩ := h.place
  have hSize : c.source.utf8ByteSize = utf8Len before + utf8Len lexeme + utf8Len s.rest := by
    rw [← String.utf8Len_toList, hAt.text, String.utf8Len_append, String.utf8Len_append]
  have hCurrent : c.current = utf8Len before + utf8Len lexeme := by
    rw [hAt.current, String.utf8Len_append]
  constructor
  case start_le_current => rw [hAt.start, hCurrent]; exact Nat.le_add_right _ _
  case current_le_size => rw [hSize, hCurrent]; exact Nat.le_add_right _ _
  case isValid_start =>
    rw [← Text.splitBytes?_isSome_iff, hAt.text, hAt.start, List.append_assoc,
      Text.splitBytes?_append]
    rfl
  case isValid_current =>
    rw [← Text.splitBytes?_isSome_iff, hAt.text, hAt.current, Text.splitBytes?_append]
    rfl
  case line_eq =>
    refine ⟨before ++ lexeme, ?_, hLine⟩
    rw [hAt.text, hAt.current]
    exact Text.slice?_append [] (before ++ lexeme) s.rest

/-- A cursor scans what the scanner at its place scans, and is at the scanner's place again. -/
theorem scan? (h : c.Shows s) :
    ∃ after, c.scan? = some (s.scan.1, after) ∧ after.Shows s.scan.2 ∧ after.source = c.source := by
  obtain ⟨before, lexeme, hAt, hCount⟩ := h.place
  obtain ⟨after, front, next, hScan, hAfter, hLine, hSource, hFinished⟩ := hAt.scan? h.line
  obtain ⟨blanks, _, hRest, hBegins, hItem, hItemLine⟩ := s.scan_begins
  -- The two ways to cut the text at the place behind give the same text in front of it.
  have hFront : before ++ lexeme ++ blanks ++ Scanned.spelling s.scan.1 = front ++ next := by
    rw [← List.append_left_inj s.scan.2.rest, ← hAfter.text, hSource, hAt.text, hRest]
    simp
  refine ⟨after, hScan, ⟨⟨front, next, hAfter, ?_⟩, hLine, ?_⟩, hSource⟩
  · rw [← hFront, List.count_append, hBegins.count_newline, List.count_append, hLine, hItemLine,
      hItem, ← h.line, hCount]
    omega
  · rw [hFinished, Scanner.finished_scan, h.finished]

theorem setFinished (h : c.Shows s) (finished : Bool) :
    { c with finished := finished }.Shows { s with finished := finished } := by
  obtain ⟨before, lexeme, hAt, hCount⟩ := h.place
  exact ⟨⟨before, lexeme, ⟨hAt.text, hAt.start, hAt.current⟩, hCount⟩, h.line, rfl⟩

theorem next? (h : c.Shows s) :
    ∃ after, c.next? = some (s.next.1, after) ∧ after.Shows s.next.2 ∧
      after.source = c.source := by
  cases hFinished : s.finished with
  | true =>
      rw [Scanner.next_of_finished hFinished]
      exact ⟨c, by simp [Cursor.next?, h.finished, hFinished], h, rfl⟩
  | false =>
      obtain ⟨after, hScan, hAfter, hSource⟩ := h.scan?
      have hCursor : c.finished = false := by rw [h.finished, hFinished]
      have hOpen : after.finished = false := by
        rw [hAfter.finished, Scanner.finished_scan, hFinished]
      rcases hItem : s.scan with ⟨e | token, last⟩ <;> rw [hItem] at hScan hAfter
      · have hNext : s.next = (some (.error e), last) := by simp [Scanner.next, hFinished, hItem]
        rw [hNext]
        exact ⟨after, by simp [Cursor.next?, hCursor, hScan], hAfter, hSource⟩
      · have hNext : s.next = (some (.ok token), { last with
            finished := token.kind == .endOfInput }) := by
          simp [Scanner.next, hFinished, hItem]
        rw [hNext]
        refine ⟨{ after with finished := token.kind == .endOfInput }, ?_,
          hAfter.setFinished _, hSource⟩
        by_cases hKind : token.kind = .endOfInput
        · simp [Cursor.next?, hCursor, hScan, hKind]
        · have hSame : (token.kind == .endOfInput) = after.finished := by simp [hKind, hOpen]
          simp [Cursor.next?, hCursor, hScan, hKind, hSame]

end Shows

end Cursor
end StackCalculator
