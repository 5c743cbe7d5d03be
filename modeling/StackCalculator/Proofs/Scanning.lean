import Mathlib.Data.List.TakeWhile
import StackCalculator.Number.Decimal
import StackCalculator.Token.Scanner

/-!
What a scanner hands out, seen as one sequence of results that never ends. The tokens of a text
are the beginning of that sequence, and so are the items that draining the scanner gives.
-/

namespace StackCalculator

namespace Decimal

theorem read?_whole {whole : List Char} (hNonempty : whole ≠ [])
    (hWhole : whole.all Char.isDigit = true) : read? whole = some ⟨coefficientOf whole, 0⟩ := by
  have hTake : whole.takeWhile Char.isDigit = whole := List.takeWhile_eq_self_iff.mpr
    (List.all_eq_true.mp hWhole)
  have hDrop : whole.dropWhile Char.isDigit = [] := List.dropWhile_eq_nil_iff.mpr
    (List.all_eq_true.mp hWhole)
  simp [read?, hTake, hDrop, hNonempty]

theorem read?_places {whole places : List Char} (hNonempty : whole ≠ [])
    (hWhole : whole.all Char.isDigit = true) (hSome : places ≠ [])
    (hPlaces : places.all Char.isDigit = true) :
    read? (whole ++ '.' :: places) =
      some ⟨coefficientOf (whole ++ places), -places.length⟩ := by
  have hTake : (whole ++ '.' :: places).takeWhile Char.isDigit = whole := by
    rw [List.takeWhile_append_of_pos (List.all_eq_true.mp hWhole)]
    exact List.append_nil whole
  have hDrop : (whole ++ '.' :: places).dropWhile Char.isDigit = '.' :: places := by
    rw [List.dropWhile_append_of_pos (List.all_eq_true.mp hWhole)]
    rfl
  simp only [read?, hTake, hDrop]
  simp [hNonempty, hSome, hPlaces]

end Decimal

namespace Token

/-- A token other than the end of the input. If it is a number, its lexeme can be read as one. -/
structure IsWord (token : Token) : Prop where
  kind_ne : token.kind ≠ .endOfInput
  readable : token.kind = .number →
    ∃ decimal, Decimal.read? token.lexeme.toList = some decimal

/-- A number goes on behind its first digits if a point and one more digit follow them. -/
theorem take_numberTail_eq {text behind : List Char}
    (hBehind : text.dropWhile Char.isDigit = behind) :
    text.take (numberTail text) = text.takeWhile Char.isDigit ++
      if behind.head? = some '.' ∧ behind.tail.head?.any Char.isDigit then
        '.' :: behind.tail.takeWhile Char.isDigit
      else [] := by
  have hDigits (text : List Char) : text.take (text.takeWhile Char.isDigit).length =
      text.takeWhile Char.isDigit := (List.prefix_iff_eq_take.mp (List.takeWhile_prefix _)).symm
  have hDrop : text.drop (text.takeWhile Char.isDigit).length = behind := by
    have hLeft : (text.takeWhile Char.isDigit ++ behind).drop _ = behind := List.drop_left
    rwa [← hBehind, List.takeWhile_append_dropWhile, hBehind] at hLeft
  rw [numberTail, hDrop]
  split
  · rename_i places
    have hSome : places.head?.any Char.isDigit = true ↔
        (places.takeWhile Char.isDigit).length ≠ 0 := by
      rcases places with _ | ⟨place, places⟩
      · simp
      · cases hPlace : place.isDigit <;> simp [hPlace]
    simp only [List.head?_cons, List.tail_cons, true_and, hSome]
    split
    · rename_i hNone
      simp [hDigits, hNone]
    · rename_i hPlaces
      rw [Nat.add_assoc, List.take_add, hDigits, hDrop, Nat.add_comm 1,
        List.take_succ_cons, hDigits]
  · rename_i hNoPoint
    have hNone : behind.head? ≠ some '.' := by
      rcases behind with _ | ⟨first, places⟩
      · simp
      · simpa using fun hPoint => hNoPoint places (by rw [hPoint])
    simp [hDigits, hNone]

/-- The characters that go on with a number are digits, perhaps followed by a point and at least
one more digit. -/
theorem take_numberTail (text : List Char) :
    ∃ fraction, text.take (numberTail text) = text.takeWhile Char.isDigit ++ fraction ∧
      (fraction = [] ∨ ∃ places, fraction = '.' :: places ∧ places ≠ [] ∧
        places.all Char.isDigit = true) := by
  refine ⟨_, take_numberTail_eq rfl, ?_⟩
  split
  · rename_i hFraction
    refine .inr ⟨_, rfl, ?_, List.all_takeWhile⟩
    obtain ⟨place, hPlace, hDigit⟩ := (Option.any_eq_true _ _).mp hFraction.2
    obtain ⟨places, hPlaces⟩ := List.head?_eq_some_iff.mp hPlace
    rw [hPlaces, List.takeWhile_cons_of_pos hDigit]
    exact List.cons_ne_nil _ _
  · exact .inl rfl

theorem punctuation?_ne {c : Char} {kind : Kind} (h : punctuation? c = some kind) :
    kind ≠ .number ∧ kind ≠ .endOfInput := by
  unfold punctuation? at h
  split at h <;> simp_all <;> subst h <;> simp

theorem leading?_ne_endOfInput {first : Char} {text : List Char} {kind : Kind} {length : Nat}
    (h : leading? first text = some (kind, length)) : kind ≠ .endOfInput := by
  unfold leading? at h
  split at h
  · simp_all only [Option.some.injEq, Prod.mk.injEq]
    simp [← h.1]
  · split at h
    · simp_all only [Option.some.injEq, Prod.mk.injEq]
      simp [← h.1]
    · obtain ⟨_, hKind, hPair⟩ := Option.map_eq_some_iff.mp h
      cases hPair
      exact (punctuation?_ne hKind).2

/-- Only a digit starts a number. -/
theorem leading?_number {first : Char} {text : List Char} {length : Nat}
    (h : leading? first text = some (.number, length)) :
    first.isDigit = true ∧ length = numberTail text := by
  unfold leading? at h
  split at h
  · rename_i hDigit
    cases h
    exact ⟨hDigit, rfl⟩
  · split at h
    · cases h
    · obtain ⟨_, hKind, hPair⟩ := Option.map_eq_some_iff.mp h
      cases hPair
      exact absurd rfl (punctuation?_ne hKind).1

/-- Every number that is cut out of a text can be read: no lexeme of a number is refused. -/
theorem read?_leading {first : Char} {text : List Char} {length : Nat}
    (h : leading? first text = some (.number, length)) :
    ∃ decimal, Decimal.read? (first :: text.take length) = some decimal := by
  obtain ⟨hDigit, rfl⟩ := leading?_number h
  obtain ⟨fraction, hTake, hFraction⟩ := take_numberTail text
  have hWhole : (first :: text.takeWhile Char.isDigit).all Char.isDigit = true := by
    rw [List.all_cons, hDigit, List.all_takeWhile]
    rfl
  rw [hTake, ← List.cons_append]
  rcases hFraction with rfl | ⟨places, rfl, hPlaces, hDigits⟩
  · rw [List.append_nil]
    exact ⟨_, Decimal.read?_whole (List.cons_ne_nil _ _) hWhole⟩
  · exact ⟨_, Decimal.read?_places (List.cons_ne_nil _ _) hWhole hPlaces hDigits⟩

end Token

namespace Scanner

/-- The results of scanning again and again. The end of the input is handed out for ever. -/
def results (s : Scanner) : Nat → Scanned
  | 0 => s.scan.1
  | n + 1 => s.scan.2.results n

/-- A token with a kind other than the end of the input is a word. -/
theorem isWord_of_scan {s : Scanner} {token : Token} {after : Scanner}
    (h : s.scan = (.ok token, after)) (hKind : token.kind ≠ .endOfInput) : token.IsWord := by
  unfold scan at h
  split at h
  · cases h
    exact absurd rfl hKind
  · split at h
    · cases h
    · rename_i hLeading
      cases h
      refine ⟨hKind, fun hNumber => ?_⟩
      dsimp only at hNumber
      subst hNumber
      simpa using Token.read?_leading hLeading

/-- The end of the input has an empty lexeme, and scanning behind it gives the same end again. -/
theorem scan_end {s : Scanner} {token : Token} {after : Scanner}
    (h : s.scan = (.ok token, after)) (hKind : token.kind = .endOfInput) :
    token = ⟨.endOfInput, "", token.line⟩ ∧ after.scan = (.ok token, after) := by
  unfold scan at h
  split at h
  · cases h
    simp [scan]
  · split at h
    · cases h
    · rename_i hLeading
      cases h
      exact absurd hKind (Token.leading?_ne_endOfInput hLeading)

@[simp] theorem finished_scan (s : Scanner) : s.scan.2.finished = s.finished := by
  unfold scan
  split
  · rfl
  · split <;> rfl

theorem results_of_scan_fixed {s : Scanner} {scanned : Scanned} (h : s.scan = (scanned, s))
    (n : Nat) : s.results n = scanned := by
  induction n with
  | zero => simp [results, h]
  | succ n ih => simp [results, h, ih]

/-- Once scanning gives the end of the input, it gives the same end for ever. -/
theorem results_of_scan_end {s : Scanner} {token : Token} {after : Scanner}
    (h : s.scan = (.ok token, after)) (hKind : token.kind = .endOfInput) (n : Nat) :
    s.results n = .ok token := by
  cases n with
  | zero => rw [results, h]
  | succ n =>
      obtain ⟨_, hAgain⟩ := scan_end h hKind
      rw [results, h, results_of_scan_fixed hAgain]

end Scanner

/-- The result of scanning behind the last token of a text. -/
def Ending.scanned : Ending → Scanned
  | .endOfInput line => .ok ⟨.endOfInput, "", line⟩
  | .unexpected e => .error e

/-- The results from a place on begin with the given tokens and go on with the given ending. If
that is the end of the input, nothing else follows; what follows an unexpected character is left
open. -/
def Ending.Follows (ending : Ending) (results : Nat → Scanned) (place : Nat) : List Token → Prop
  | [] => results place = ending.scanned ∧
      ∀ line, ending = .endOfInput line → ∀ later, place ≤ later → results later = ending.scanned
  | token :: behind => results place = .ok token ∧ ending.Follows results (place + 1) behind

namespace Scanner

theorem follows_succ {s : Scanner} {ending : Ending} {tokens : List Token} {place : Nat}
    (h : ending.Follows s.scan.2.results place tokens) :
    ending.Follows s.results (place + 1) tokens := by
  induction tokens generalizing place with
  | nil =>
      refine ⟨h.1, fun line hLine later hLater => ?_⟩
      obtain ⟨earlier, rfl⟩ : ∃ earlier, later = earlier + 1 := ⟨later - 1, by omega⟩
      exact h.2 line hLine earlier (by omega)
  | cons token behind ih => exact ⟨h.1, ih h.2⟩

/-- The tokens of a text and their ending are what repeated scanning gives. -/
theorem tokenized_follows (s : Scanner) :
    s.tokenized.ending.Follows s.results 0 s.tokenized.tokens := by
  fun_induction tokenized s with
  | case1 s e after hScan => simp [Ending.Follows, Ending.scanned, results, hScan]
  | case2 s token after hScan hKind =>
      have hResults := results_of_scan_end hScan hKind
      rw [(scan_end hScan hKind).1] at hResults
      exact ⟨hResults 0, fun line _ later _ => hResults later⟩
  | case3 s token after hScan hKind further ih =>
      refine ⟨by simp [results, hScan], follows_succ ?_⟩
      simpa [hScan] using ih

theorem tokenized_isWord (s : Scanner) : ∀ token ∈ s.tokenized.tokens, token.IsWord := by
  fun_induction tokenized s with
  | case1 | case2 => simp
  | case3 s token after hScan hKind further ih =>
      intro word hWord
      rcases List.mem_cons.mp hWord with rfl | hWord
      · exact isWord_of_scan hScan hKind
      · exact ih word hWord

theorem drain_of_next_none {s after : Scanner} (h : s.next = (none, after)) :
    s.drain = ([], after) := by
  rw [drain, h]

theorem drain_of_next_some {s after : Scanner} {item : Scanned}
    (h : s.next = (some item, after)) : s.drain = (item :: after.drain.1, after.drain.2) := by
  rw [drain, h]

/-- Draining a scanner that has not finished gives its tokens first, and then their ending. If
that is the end of the input, it is the last item. -/
theorem drain_tokenized {s : Scanner} (hFinished : s.finished = false) :
    ∃ further, s.drain.1 =
        s.tokenized.tokens.map .ok ++ s.tokenized.ending.scanned :: further ∧
      ∀ line, s.tokenized.ending = .endOfInput line → further = [] := by
  fun_induction tokenized s with
  | case1 s e after hScan =>
      have hNext : s.next = (some (.error e), after) := by simp [next, hFinished, hScan]
      exact ⟨after.drain.1, by rw [drain_of_next_some hNext]; rfl, by simp⟩
  | case2 s token after hScan hKind =>
      have hNext : s.next = (some (.ok token), { after with finished := true }) := by
        simp [next, hFinished, hScan, hKind]
      have hStop : ({ after with finished := true } : Scanner).next =
          (none, { after with finished := true }) := by simp [next]
      refine ⟨[], ?_, fun _ _ => rfl⟩
      rw [drain_of_next_some hNext, drain_of_next_none hStop]
      simp [Ending.scanned, ← (scan_end hScan hKind).1]
  | case3 s token after hScan hKind further ih =>
      have hAfter : after.finished = false := by
        rw [← hFinished, ← finished_scan s, hScan]
      have hNext : s.next = (some (.ok token), after) := by
        have hSame : (token.kind == .endOfInput) = after.finished := by simp [hKind, hAfter]
        simp [next, hFinished, hScan, hSame]
      obtain ⟨items, hItems, hLast⟩ := ih hAfter
      refine ⟨items, ?_, hLast⟩
      rw [drain_of_next_some hNext]
      simp [hItems, further]

end Scanner

/-- A text consists of the given tokens if scanning it gives exactly them, and then the end of the
input on the given line. -/
def Spells (source : String) (tokens : List Token) (line : Nat) : Prop :=
  scanAll source = tokens.map .ok ++ [.ok ⟨.endOfInput, "", line⟩]

theorem spells_iff_tokenized {source : String} {tokens : List Token} {line : Nat} :
    Spells source tokens line ↔
      (Scanner.ofText source).tokenized = ⟨tokens, .endOfInput line⟩ := by
  obtain ⟨further, hDrain, hLast⟩ := Scanner.drain_tokenized (s := Scanner.ofText source) rfl
  rw [Spells, scanAll, hDrain]
  constructor
  · intro h
    cases hEnding : (Scanner.ofText source).tokenized.ending with
    | endOfInput endLine =>
        rw [hEnding, hLast endLine hEnding] at h
        obtain ⟨hTokens, hEnd⟩ := List.append_inj' h rfl
        have hSame : (Scanner.ofText source).tokenized.tokens = tokens :=
          (List.map_inj_right fun _ _ => Except.ok.inj).mp hTokens
        simp only [Ending.scanned, List.cons.injEq, Except.ok.injEq, Token.mk.injEq, and_true,
          true_and] at hEnd
        rw [← hSame, ← hEnd, ← hEnding]
    | unexpected e =>
        have hError : Except.error e ∈ tokens.map .ok ++ [.ok ⟨.endOfInput, "", line⟩] := by
          rw [← h, hEnding]
          simp [Ending.scanned]
        simp at hError
  · intro h
    rw [hLast line (by rw [h]), h]
    rfl

/-- Scanning a text gives the same tokens and the same end each time. -/
theorem Spells.unique {source : String} {tokens others : List Token} {line other : Nat}
    (h : Spells source tokens line) (hOther : Spells source others other) :
    tokens = others ∧ line = other := by
  have hSame := (spells_iff_tokenized.mp h).symm.trans (spells_iff_tokenized.mp hOther)
  simpa using hSame

theorem Spells.isWord {source : String} {tokens : List Token} {line : Nat}
    (h : Spells source tokens line) : ∀ token ∈ tokens, token.IsWord := by
  have hWords := (Scanner.ofText source).tokenized_isWord
  rwa [spells_iff_tokenized.mp h] at hWords

end StackCalculator
