import StackCalculator.Token.Basic

/-!
A scanner hands out the tokens of a text one at a time. It can be asked for tokens for ever, and
then repeats the end of the input, or be drained, which stops behind the first end it hands out.
-/

namespace StackCalculator

/-- A place in a source text. -/
structure Scanner where
  /-- What has not been scanned yet. -/
  rest : List Char
  /-- The line that the last scanned token ended on. -/
  line : Nat := 1
  /-- Whether `next` has handed out the end of the input. -/
  finished : Bool := false
  deriving DecidableEq

namespace Scanner

def ofText (source : String) : Scanner where
  rest := source.toList

/-- Scans one token, or one character that starts none. -/
def scan (s : Scanner) : Scanned × Scanner :=
  let line := s.line + (s.rest.takeWhile Token.isBlank).count '\n'
  match s.rest.dropWhile Token.isBlank with
  | [] => (.ok ⟨.endOfInput, "", line⟩, { s with rest := [], line := line })
  | first :: text =>
      match Token.leading? first text with
      | none => (.error ⟨first, line⟩, { s with rest := text, line := line })
      | some (kind, length) =>
          (.ok ⟨kind, String.ofList (first :: text.take length), line⟩,
            { s with rest := text.drop length, line := line })

/-- Looks at what `scan` would give, and leaves the scanner as it is. -/
def peek (s : Scanner) : Scanned :=
  s.scan.1

/-- Scans on, until it has handed out the end of the input once. An end that only `scan` has
handed out does not count. -/
def next (s : Scanner) : Option Scanned × Scanner :=
  if s.finished then
    (none, s)
  else
    match s.scan with
    | (.ok token, after) =>
        (some (.ok token), { after with finished := token.kind == .endOfInput })
    | (.error e, after) => (some (.error e), after)

/-- Scanning either hands out the end of the input or leaves less to scan. -/
theorem scan_eq_end_or_rest_lt (s : Scanner) :
    (∃ token, s.scan.1 = .ok token ∧ token.kind = .endOfInput) ∨
      s.scan.2.rest.length < s.rest.length := by
  have hLength : (s.rest.dropWhile Token.isBlank).length ≤ s.rest.length :=
    (List.dropWhile_sublist _).length_le
  unfold scan
  split
  · exact .inl ⟨_, rfl, rfl⟩
  · rename_i first text hRest
    rw [hRest, List.length_cons] at hLength
    split
    · exact .inr hLength
    · exact .inr (by simp only [List.length_drop]; omega)

theorem scan_rest_le (s : Scanner) : s.scan.2.rest.length ≤ s.rest.length := by
  have hLength : (s.rest.dropWhile Token.isBlank).length ≤ s.rest.length :=
    (List.dropWhile_sublist _).length_le
  unfold scan
  split
  · exact Nat.zero_le _
  · rename_i first text hRest
    rw [hRest, List.length_cons] at hLength
    split
    · exact Nat.le_of_succ_le hLength
    · simp only [List.length_drop]; omega

/-- A bound on how often `next` still hands something out. -/
def budget (s : Scanner) : Nat :=
  s.rest.length + if s.finished then 0 else 1

theorem budget_le (s : Scanner) : s.budget ≤ s.rest.length + 1 := by
  unfold budget
  split <;> omega

theorem next_budget_lt {s after : Scanner} {item : Scanned}
    (h : s.next = (some item, after)) : after.budget < s.budget := by
  have hLe := s.scan_rest_le
  have hLess := s.scan_eq_end_or_rest_lt
  unfold next at h
  split at h
  · simp at h
  · rename_i hFinished
    have hBudget : s.budget = s.rest.length + 1 := by simp [budget, hFinished]
    split at h
    · rename_i token middle hScan
      rw [hScan] at hLe hLess
      cases h
      rw [hBudget, Nat.lt_succ_iff]
      rcases hLess with ⟨_, hToken, hKind⟩ | hLess
      · cases hToken
        simpa [budget, hKind] using hLe
      · exact Nat.le_trans (budget_le _) hLess
    · rename_i hScan
      rw [hScan] at hLess
      cases h
      rcases hLess with ⟨_, hToken, _⟩ | hLess
      · cases hToken
      · rw [hBudget, Nat.lt_succ_iff]
        exact Nat.le_trans (budget_le _) hLess

/-- Everything that `next` still hands out, and the scanner afterwards. -/
def drain (s : Scanner) : List Scanned × Scanner :=
  match _ : s.next with
  | (none, after) => ([], after)
  | (some item, after) =>
      let (items, last) := after.drain
      (item :: items, last)
termination_by s.budget
decreasing_by exact next_budget_lt ‹_›

end Scanner

/-- How the tokens of a text end: with the whole text read, or before a character that starts no
token. -/
inductive Ending where
  | endOfInput (line : Nat)
  | unexpected (e : UnexpectedCharacter)
  deriving DecidableEq

/-- The tokens of a text, up to its end or to its first unexpected character. The end itself is
not among them. -/
structure Tokenized where
  tokens : List Token
  ending : Ending
  deriving DecidableEq

/-- Reads the tokens from a place in a text on. -/
def Scanner.tokenized (s : Scanner) : Tokenized :=
  match _ : s.scan with
  | (.error e, _) => ⟨[], .unexpected e⟩
  | (.ok token, after) =>
      if _ : token.kind = .endOfInput then
        ⟨[], .endOfInput token.line⟩
      else
        let further := after.tokenized
        ⟨token :: further.tokens, further.ending⟩
termination_by s.rest.length
decreasing_by
  rename_i hScan hKind
  have hLess := s.scan_eq_end_or_rest_lt
  rw [hScan] at hLess
  rcases hLess with ⟨_, hToken, hEnd⟩ | hLess
  · cases hToken
    exact absurd hEnd hKind
  · exact hLess

/-- Everything that scanning a text gives, characters that start no token included, up to and
including the end of the input. -/
def scanAll (source : String) : List Scanned :=
  (Scanner.ofText source).drain.1

end StackCalculator
