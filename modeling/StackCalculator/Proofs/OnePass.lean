import StackCalculator.Chunk.Compile
import StackCalculator.Proofs.CallStack

/-!
Compiling in one pass. A parser takes the tokens from the scanner one by one and writes the code while
it reads, with no tree in between. What it does with a token, and how tightly the token binds, stands
in a table of rules for a language with more levels of operators than are in use.
-/

namespace StackCalculator

/-- The levels on which tokens bind. Only two of them have operators so far. -/
inductive Precedence where
  | none
  | assignment
  | or
  | and
  | equality
  | comparison
  | term
  | factor
  | unary
  | call
  | primary
  deriving DecidableEq

namespace Precedence

/-- All levels, from the loosest to the tightest. -/
def levels : List Precedence :=
  [none, assignment, or, and, equality, comparison, term, factor, unary, call, primary]

def rank (level : Precedence) : Nat :=
  levels.idxOf level

instance : LE Precedence where
  le a b := a.rank ≤ b.rank

instance : LT Precedence where
  lt a b := a.rank < b.rank

instance (a b : Precedence) : Decidable (a ≤ b) :=
  inferInstanceAs (Decidable (a.rank ≤ b.rank))

instance (a b : Precedence) : Decidable (a < b) :=
  inferInstanceAs (Decidable (a.rank < b.rank))

/-- The level that many steps up, or the tightest if there are not so many. -/
def plus (level : Precedence) (steps : Nat) : Precedence :=
  levels[level.rank + steps]?.getD primary

end Precedence

/-- What can be done with a token that has just been taken. -/
inductive Handler where
  | grouping
  | number
  | binary
  deriving DecidableEq

/-- The rule for the tokens of a kind. By default nothing can be done with them. -/
structure Rule where
  /-- How an expression begins with such a token. -/
  begins? : Option Handler := none
  /-- How such a token goes on with the expression before it. -/
  goesOn? : Option Handler := none
  /-- The level on which it goes on. -/
  precedence : Precedence := .none

/-- The table of rules. -/
def rule : Token.Kind → Rule
  | .leftParen => { begins? := some .grouping }
  | .number => { begins? := some .number }
  | .minus | .plus => { goesOn? := some .binary, precedence := .term }
  | .slash | .star => { goesOn? := some .binary, precedence := .factor }
  | _ => {}

/-- Refuses a token, which can be the end of the input. -/
def Token.blame (token : Token) (reason : Refusal) : CompileError :=
  .refused token.line (if token.kind = .endOfInput then none else some token.lexeme) reason

/-- A parser in the middle of a text. -/
structure Parser where
  scanner : Scanner
  /-- What has been written so far. -/
  chunk : Chunk
  /-- The token that has been taken last. -/
  previous : Token
  /-- The token in view, which has been scanned and not yet taken. -/
  current : Token
  /-- How many groups are open. -/
  depth : Nat
  deriving DecidableEq

namespace Parser

/-- The largest index of a constant that one byte can hold. -/
def maxConstantIndex : Nat := 255

/-- A parser before the first token of a text. -/
def start (source : String) : Parser where
  scanner := .ofText source
  chunk := {}
  previous := ⟨.endOfInput, "", 1⟩
  current := ⟨.endOfInput, "", 1⟩
  depth := 0

/-- Takes the token in view and scans the next one. -/
def advance (p : Parser) : Except CompileError Parser :=
  match p.scanner.scan with
  | (.error e, _) => .error (.unexpected e)
  | (.ok token, after) =>
      .ok { p with scanner := after, previous := p.current, current := token }

/-- Takes the token in view, which must be of the given kind. -/
def consume (p : Parser) (kind : Token.Kind) (reason : Refusal) : Except CompileError Parser :=
  if p.current.kind = kind then p.advance else .error (p.current.blame reason)

/-- Writes a byte on the line of the token taken last. -/
def emitByte (p : Parser) (byte : UInt8) : Parser :=
  { p with chunk := p.chunk.write byte p.previous.line }

/-- Writes the code that pushes a new constant. -/
def emitConstant (p : Parser) (value : Number) : Except CompileError Parser :=
  if maxConstantIndex < p.chunk.constants.size then
    .error (p.previous.blame .tooManyConstants)
  else
    let (index, chunk) := p.chunk.addConstant value
    if index ≤ maxConstantIndex then
      .ok (({ p with chunk := chunk }.emitByte Opcode.constant.byte).emitByte (UInt8.ofNat index))
    else
      .error (p.previous.blame .tooManyConstants)

/-- Counts one more open group. -/
def enter (p : Parser) : Parser :=
  { p with depth := p.depth + 1 }

/-- Counts one open group less. -/
def leave (p : Parser) : Parser :=
  { p with depth := p.depth - 1 }

/-- Writes the code for the number taken last. -/
def number (p : Parser) : Except CompileError Parser :=
  match Decimal.read? p.previous.lexeme.toList with
  | none => .error (p.previous.blame .invalidNumber)
  | some decimal => p.emitConstant decimal.toNumber

/-- The handler for the token taken last, from one of the columns of the table. -/
def handler (p : Parser) (handler? : Rule → Option Handler) : Except CompileError Handler :=
  match handler? (rule p.previous.kind) with
  | none => .error (p.previous.blame .expectExpression)
  | some handler => .ok handler

/-- How much is left to scan, the token in view included. -/
def remaining (p : Parser) : Nat :=
  CallStack.Moment.remaining p.current p.scanner

/-- A parser that has gone on and has no more left than a bound. -/
structure Within (bound : Nat) where
  parser : Parser
  remaining_le : parser.remaining ≤ bound

/-- An outcome that knows where it comes from. -/
def traced {α : Type} (outcome : Except CompileError α) :
    Except CompileError { result : α // outcome = .ok result } :=
  match outcome with
  | .error e => .error e
  | .ok result => .ok ⟨result, rfl⟩

theorem exists_of_advance {p next : Parser} (h : p.advance = .ok next) :
    ∃ token after, p.scanner.scan = (.ok token, after) ∧
      next = { p with scanner := after, previous := p.current, current := token } := by
  unfold advance at h
  split at h
  · cases h
  · cases h
    exact ⟨_, _, ‹_›, rfl⟩

theorem fields_of_advance {p next : Parser} (h : p.advance = .ok next) :
    next.previous = p.current ∧ next.chunk = p.chunk ∧ next.depth = p.depth := by
  obtain ⟨token, after, _, rfl⟩ := exists_of_advance h
  exact ⟨rfl, rfl, rfl⟩

theorem remaining_of_advance {p next : Parser} (h : p.advance = .ok next)
    (hWord : next.previous.kind ≠ .endOfInput) : next.remaining < p.remaining := by
  obtain ⟨token, after, hScan, rfl⟩ := exists_of_advance h
  exact CallStack.Moment.remaining_lt hScan hWord

theorem remaining_of_consume {p next : Parser} {kind : Token.Kind} {reason : Refusal}
    (h : p.consume kind reason = .ok next) (hWord : kind ≠ .endOfInput) :
    next.remaining < p.remaining := by
  unfold consume at h
  split at h
  · rename_i hKind
    refine remaining_of_advance h ?_
    obtain ⟨token, after, hScan, rfl⟩ := exists_of_advance h
    exact hKind.trans_ne hWord
  · cases h

theorem remaining_of_number {p next : Parser} (h : p.number = .ok next) :
    next.remaining = p.remaining := by
  simp only [number, emitConstant] at h
  split at h
  · cases h
  · split at h
    · cases h
    · split at h
      · cases h
        rfl
      · cases h

/-- A token that has a handler is not the end of the input, so less is left behind it. -/
theorem remaining_of_handler {p next : Parser} {handler : Handler}
    {handler? : Rule → Option Handler} (hTable : handler? {} = none) (hNext : p.advance = .ok next)
    (hHandler : next.handler handler? = .ok handler) : next.remaining < p.remaining := by
  refine remaining_of_advance hNext fun hEnd => ?_
  have hRule : rule .endOfInput = {} := rfl
  rw [Parser.handler, hEnd, hRule, hTable] at hHandler
  cases hHandler

mutual

/-- Reads an expression whose operators outside of groups all bind at least as tightly as the given
level, and writes its code. -/
def parseWithin (least : Precedence) (p : Parser) : Except CompileError (Within p.remaining) := do
  let ⟨next, hNext⟩ ← traced p.advance
  let ⟨handler, hHandler⟩ ← traced (next.handler Rule.begins?)
  let ⟨operand, hOperand⟩ ← handleWithin handler next
  let ⟨whole, hWhole⟩ ← operatorsWithin least operand
  have hLess := remaining_of_handler rfl hNext hHandler
  return ⟨whole, by omega⟩
termination_by 2 * p.remaining
decreasing_by
  all_goals
    have hLess := remaining_of_handler rfl hNext hHandler
    omega

/-- Does with the token taken last what its handler is for. The right operand of an operator is read
one level further up, so operators of one level associate to the left. -/
def handleWithin (handler : Handler) (p : Parser) : Except CompileError (Within p.remaining) :=
  match handler with
  | .grouping =>
      if p.depth = Tree.maxNesting then
        .error (p.previous.blame .tooMuchNesting)
      else do
        let ⟨inner, hInner⟩ ← parseWithin .assignment p.enter
        let ⟨closed, hClosed⟩ ← traced (inner.leave.consume .rightParen .expectRightParen)
        have hLess := remaining_of_consume hClosed (by decide)
        return ⟨closed, Nat.le_of_lt (Nat.lt_of_lt_of_le hLess hInner)⟩
  | .number => do
      let ⟨after, hAfter⟩ ← traced p.number
      return ⟨after, Nat.le_of_eq (remaining_of_number hAfter)⟩
  | .binary => do
      let ⟨right, hRight⟩ ← parseWithin ((rule p.previous.kind).precedence.plus 1) p
      match p.previous.kind.operator? with
      | none => .error (right.previous.blame .expectExpression)
      | some operator => return ⟨right.emitByte (Opcode.operate operator).byte, hRight⟩
termination_by 2 * p.remaining + 1
decreasing_by
  all_goals exact Nat.lt_succ_self _

/-- Goes on behind an operand, as long as an operator follows that binds at least as tightly as the
given level. -/
def operatorsWithin (least : Precedence) (p : Parser) : Except CompileError (Within p.remaining) :=
  if least ≤ (rule p.current.kind).precedence then do
    let ⟨next, hNext⟩ ← traced p.advance
    let ⟨handler, hHandler⟩ ← traced (next.handler Rule.goesOn?)
    let ⟨longer, hLonger⟩ ← handleWithin handler next
    let ⟨whole, hWhole⟩ ← operatorsWithin least longer
    have hLess := remaining_of_handler rfl hNext hHandler
    return ⟨whole, by omega⟩
  else
    .ok ⟨p, Nat.le_refl _⟩
termination_by 2 * p.remaining
decreasing_by
  all_goals
    have hLess := remaining_of_handler rfl hNext hHandler
    omega

end

section Outcomes

variable (least : Precedence) (handler : Handler) (p : Parser)

/-- What `parseWithin` gives, in a type that does not depend on the parser. -/
def parse : Except CompileError Parser :=
  (parseWithin least p).map Within.parser

/-- What `handleWithin` gives, in a type that does not depend on the parser. -/
def handle : Except CompileError Parser :=
  (handleWithin handler p).map Within.parser

/-- What `operatorsWithin` gives, in a type that does not depend on the parser. -/
def operators : Except CompileError Parser :=
  (operatorsWithin least p).map Within.parser

end Outcomes

/-- Compiles a source text that is one expression. -/
def compile (source : String) : Except CompileError Chunk := do
  let first ← (start source).advance
  let whole ← first.parse .assignment
  let last ← whole.consume .endOfInput .expectEnd
  return (last.emitByte Opcode.ret.byte).chunk

section Equations

variable {α β γ : Type}

/-- What an outcome comes from does not matter to the result. -/
theorem map_traced_bind {outcome : Except CompileError α} {result : β → γ}
    {next : { result : α // outcome = .ok result } → Except CompileError β}
    {other : α → Except CompileError γ}
    (h : ∀ a hOutcome, (next ⟨a, hOutcome⟩).map result = other a) :
    (traced outcome >>= next).map result = outcome >>= other := by
  cases outcome with
  | error e => rfl
  | ok a => exact h a rfl

/-- Neither does the bound on what is left. -/
theorem map_within_bind {bound : Nat} {outcome : Except CompileError (Within bound)} {result : β → γ}
    {next : Within bound → Except CompileError β} {other : Parser → Except CompileError γ}
    (h : ∀ within, (next within).map result = other within.parser) :
    (outcome >>= next).map result = outcome.map Within.parser >>= other := by
  cases outcome with
  | error e => rfl
  | ok within => exact h within

theorem parse_eq (least : Precedence) (p : Parser) :
    p.parse least = (do
      let next ← p.advance
      let handler ← next.handler Rule.begins?
      let operand ← next.handle handler
      operand.operators least) := by
  rw [parse, parseWithin]
  refine map_traced_bind fun next hNext => map_traced_bind fun handler hHandler =>
    map_within_bind fun ⟨operand, hOperand⟩ => ?_
  exact (map_within_bind fun whole => rfl).trans (bind_pure _)

theorem parse_eq_bind {least : Precedence} {p next : Parser} (hNext : p.advance = .ok next) :
    p.parse least =
      next.handler Rule.begins? >>= fun handler => next.handle handler >>= operators least := by
  rw [parse_eq, hNext]
  rfl

theorem operators_eq (least : Precedence) (p : Parser) :
    p.operators least =
      if least ≤ (rule p.current.kind).precedence then do
        let next ← p.advance
        let handler ← next.handler Rule.goesOn?
        let longer ← next.handle handler
        longer.operators least
      else
        .ok p := by
  rw [operators, operatorsWithin]
  split
  · refine map_traced_bind fun next hNext => map_traced_bind fun handler hHandler =>
      map_within_bind fun ⟨longer, hLonger⟩ => ?_
    exact (map_within_bind fun whole => rfl).trans (bind_pure _)
  · rfl

theorem handle_number (p : Parser) : p.handle .number = p.number := by
  rw [handle, handleWithin]
  exact (map_traced_bind fun after hAfter => rfl).trans (bind_pure p.number)

theorem handle_grouping (p : Parser) :
    p.handle .grouping =
      if p.depth = Tree.maxNesting then
        .error (p.previous.blame .tooMuchNesting)
      else (do
        let inner ← p.enter.parse .assignment
        inner.leave.consume .rightParen .expectRightParen) := by
  rw [handle, handleWithin]
  split
  · rfl
  · refine map_within_bind fun ⟨inner, hInner⟩ => ?_
    exact (map_traced_bind fun closed hClosed => rfl).trans (bind_pure _)

theorem handle_binary (p : Parser) :
    p.handle .binary = do
      let right ← p.parse ((rule p.previous.kind).precedence.plus 1)
      match p.previous.kind.operator? with
      | none => .error (right.previous.blame .expectExpression)
      | some operator => return right.emitByte (Opcode.operate operator).byte := by
  rw [handle, handleWithin]
  refine map_within_bind fun ⟨right, hRight⟩ => ?_
  cases p.previous.kind.operator? <;> rfl

end Equations

end Parser

end StackCalculator
