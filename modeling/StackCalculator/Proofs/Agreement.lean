import StackCalculator.Proofs.CallDepth
import StackCalculator.Proofs.OnePass
import StackCalculator.Proofs.Postorder

/-!
The parser that writes code while it reads against the reader that builds a tree. Where the parser
arrives, it has written the code of the tree that the reader gives, and the tokens that are left are
the same. The parser always has one more token in view, so an unexpected character can stop it where
the reader still has an expression; behind the whole text the reader finds the character as well.
-/

namespace StackCalculator

namespace Precedence

/-- The least binding of the operators on a level and above it. Bindings count the levels in use. -/
def binding (level : Precedence) : Nat :=
  max 1 (level.rank - 5)

theorem binding_pos (level : Precedence) : 1 ≤ level.binding :=
  Nat.le_max_left 1 _

end Precedence

section Table

variable {least : Precedence} {kind : Token.Kind} {operator : Operator}

theorem le_precedence_iff (hLeast : .assignment ≤ least) (h : kind.operator? = some operator) :
    least ≤ (rule kind).precedence ↔ least.binding ≤ operator.binding := by
  revert hLeast
  cases kind <;> cases h <;> cases least <;> decide

theorem not_le_precedence (hLeast : .assignment ≤ least) (h : kind.operator? = none) :
    ¬least ≤ (rule kind).precedence := by
  revert hLeast
  cases kind <;> cases h <;> cases least <;> decide

/-- One level above an operator there are only operators that bind tighter. -/
theorem binding_plus_one (h : kind.operator? = some operator) :
    .assignment ≤ (rule kind).precedence.plus 1 ∧
      ((rule kind).precedence.plus 1).binding = operator.binding + 1 := by
  cases kind <;> cases h <;> decide

theorem goesOn?_rule (h : kind.operator? = some operator) : (rule kind).goesOn? = some .binary := by
  cases kind <;> cases h <;> rfl

theorem begins?_rule_eq_some_iff {handler : Handler} :
    (rule kind).begins? = some handler ↔
      kind = .leftParen ∧ handler = .grouping ∨ kind = .number ∧ handler = .number := by
  cases kind <;> cases handler <;> simp [rule]

theorem ne_endOfInput_of_begins? {handler : Handler} (h : (rule kind).begins? = some handler) :
    kind ≠ .endOfInput := by
  rintro rfl
  cases h

theorem begins?_rule_eq_none_iff :
    (rule kind).begins? = none ↔ kind ≠ .number ∧ kind ≠ .leftParen := by
  cases kind <;> simp [rule]

end Table

namespace Tree

/-- Behind an expression that has been read, the reader goes on with the operators that follow. -/
def goOn (ending : Ending) (binding depth : Nat) :
    Tree × Nat × List Token → Except CompileError (Tree × Nat × List Token)
  | (left, read, rest) => operatorsView ending binding depth read left rest

/-- What has been read becomes the right operand of an operator. -/
def asRight (left : Tree) (operator : Operator) (sign : Token) :
    Tree × Nat × List Token → Except CompileError (Tree × Nat × List Token)
  | (right, read, rest) => .ok (.binary left operator sign right, read, rest)

theorem operatorsView_eq_goOn {ending : Ending} {binding depth literals : Nat} {left : Tree}
    {sign : Token} {behind : List Token} {operator : Operator}
    (hOperator : sign.kind.operator? = some operator) (hBinding : binding ≤ operator.binding) :
    operatorsView ending binding depth literals left (sign :: behind) =
      (exprView ending (operator.binding + 1) depth literals behind >>= asRight left operator sign) >>=
        goOn ending binding depth := by
  rw [operatorsView_eq_bind hOperator hBinding, bind_assoc]
  rfl

end Tree

namespace Parser

/-- The tokens that are left, and how they end. -/
def ahead (p : Parser) : Tokenized :=
  CallStack.upcoming p.current p.scanner

/-- Behind the end of the input the scanner finds no unexpected character. -/
def Scanned (p : Parser) : Prop :=
  p.current.kind = .endOfInput → ∃ token after, p.scanner.scan = (.ok token, after)

theorem rule_of_handler {p : Parser} {handler : Handler} {handler? : Rule → Option Handler}
    (h : p.handler handler? = .ok handler) : handler? (rule p.previous.kind) = some handler := by
  rw [Parser.handler] at h
  split at h
  · cases h
  · cases h
    assumption

theorem remaining_of_handle {p after : Parser} {handler : Handler} (h : p.handle handler = .ok after) :
    after.remaining ≤ p.remaining := by
  rw [handle] at h
  cases hWithin : handleWithin handler p with
  | error e =>
      rw [hWithin] at h
      cases h
  | ok within =>
      rw [hWithin] at h
      cases h
      exact within.remaining_le

theorem blame_word {token : Token} {reason : Refusal} (h : token.kind ≠ .endOfInput) :
    token.blame reason = token.refuse reason := by
  rw [Token.blame, if_neg h, Token.refuse]

/-- What stands in view is refused as the first of the tokens that are left, or as their end. -/
theorem blame_current (p : Parser) (reason : Refusal) :
    p.ahead.ending.refuseFirst p.ahead.tokens reason = p.current.blame reason := by
  by_cases hEnd : p.current.kind = .endOfInput
  · rw [ahead, CallStack.upcoming_of_end hEnd, Token.blame, if_pos hEnd]
    rfl
  · rw [ahead, CallStack.upcoming_of_word hEnd, blame_word hEnd]
    rfl

theorem tokenized_of_advance {p next : Parser} (h : p.advance = .ok next) :
    p.scanner.tokenized = next.ahead := by
  obtain ⟨token, after, hScan, rfl⟩ := exists_of_advance h
  exact CallStack.tokenized_of_ok hScan

/-- Taking a word moves it from the tokens that are left. -/
theorem ahead_of_advance {p next : Parser} (h : p.advance = .ok next)
    (hWord : p.current.kind ≠ .endOfInput) :
    p.ahead = ⟨p.current :: next.ahead.tokens, next.ahead.ending⟩ := by
  rw [ahead, CallStack.upcoming_of_word hWord, tokenized_of_advance h]

theorem exists_of_advance_error {p : Parser} {e : CompileError} (h : p.advance = .error e) :
    ∃ unexpected after, p.scanner.scan = (.error unexpected, after) ∧ e = .unexpected unexpected := by
  unfold advance at h
  split at h
  · cases h
    exact ⟨_, _, ‹_›, rfl⟩
  · cases h

theorem ahead_of_advance_error {p : Parser} {e : CompileError} (h : p.advance = .error e)
    (hWord : p.current.kind ≠ .endOfInput) :
    ∃ unexpected, e = .unexpected unexpected ∧ p.ahead = ⟨[p.current], .unexpected unexpected⟩ := by
  obtain ⟨unexpected, after, hScan, rfl⟩ := exists_of_advance_error h
  refine ⟨unexpected, rfl, ?_⟩
  rw [ahead, CallStack.upcoming_of_word hWord, CallStack.tokenized_of_error hScan]

/-- The end of the input is found again and again. -/
theorem scanned_of_advance {p next : Parser} (h : p.advance = .ok next) : next.Scanned := by
  obtain ⟨token, after, hScan, rfl⟩ := exists_of_advance h
  intro hEnd
  exact ⟨token, after, (Scanner.scan_end hScan hEnd).2⟩

theorem Scanned.ne_end {p : Parser} {e : CompileError} (h : p.Scanned) (hNext : p.advance = .error e) :
    p.current.kind ≠ .endOfInput := by
  intro hEnd
  obtain ⟨token, after, hOk⟩ := h hEnd
  obtain ⟨unexpected, other, hScan, rfl⟩ := exists_of_advance_error hNext
  rw [hScan] at hOk
  cases hOk

/-- A parser has read a tree and has written the tree's code behind a chunk. -/
structure Arrives (begun : Chunk) (depth : Nat) (ending : Ending) (tree : Tree) (p : Parser) :
    Prop where
  chunk_eq : p.chunk = begun.emit tree
  depth_eq : p.depth = depth
  ending_eq : p.ahead.ending = ending
  line_eq : p.previous.line = tree.lastLine
  scanned : p.Scanned
  constants_le : p.chunk.constants.size ≤ Tree.maxLiterals

/-- An error of a parser is that of a reader, except that the parser looks one token further. It can
find an unexpected character where the reader has an expression that ends before it. -/
inductive Blames (ending : Ending) :
    CompileError → Except CompileError (Tree × Nat × List Token) → Prop where
  | same (e : CompileError) : Blames ending e (.error e)
  | early {e : UnexpectedCharacter} (hEnding : ending = .unexpected e) (tree : Tree) (read : Nat) :
      Blames ending (.unexpected e) (.ok (tree, read, []))

/-- What a parser comes to, against what a reader does. Where the parser arrives, so does the reader;
that their errors agree takes a condition on the parser. -/
inductive Mirrors (regular : Prop) (begun : Chunk) (depth : Nat) (ending : Ending) :
    Except CompileError Parser → Except CompileError (Tree × Nat × List Token) → Prop where
  | ok {tree : Tree} {after : Parser} (h : Arrives begun depth ending tree after) :
      Mirrors regular begun depth ending (.ok after)
        (.ok (tree, after.chunk.constants.size, after.ahead.tokens))
  | error {e : CompileError} {reading : Except CompileError (Tree × Nat × List Token)}
      (h : regular → Blames ending e reading) :
      Mirrors regular begun depth ending (.error e) reading

theorem Mirrors.imp {regular stricter : Prop} {begun : Chunk} {depth : Nat} {ending : Ending}
    {outcome : Except CompileError Parser}
    {reading : Except CompileError (Tree × Nat × List Token)}
    (h : Mirrors regular begun depth ending outcome reading) (hRegular : stricter → regular) :
    Mirrors stricter begun depth ending outcome reading := by
  cases h with
  | ok hArrives => exact .ok hArrives
  | error hBlames => exact .error fun hStricter => hBlames (hRegular hStricter)

/-- If each of two steps mirrors what a reader does, then so do both together. -/
theorem Mirrors.bind {innerRegular regular : Prop} {innerBegun begun : Chunk}
    {innerDepth depth : Nat} {ending : Ending} {outcome : Except CompileError Parser}
    {reading : Except CompileError (Tree × Nat × List Token)}
    {next : Parser → Except CompileError Parser}
    {further : Tree × Nat × List Token → Except CompileError (Tree × Nat × List Token)}
    (h : Mirrors innerRegular innerBegun innerDepth ending outcome reading)
    (hRegular : regular → innerRegular)
    (hNext : ∀ tree after, outcome = .ok after → Arrives innerBegun innerDepth ending tree after →
      Mirrors True begun depth ending (next after)
        (further (tree, after.chunk.constants.size, after.ahead.tokens)))
    (hEarly : ∀ e tree read, ending = .unexpected e →
      Blames ending (.unexpected e) (further (tree, read, []))) :
    Mirrors regular begun depth ending (outcome >>= next) (reading >>= further) := by
  cases h with
  | ok hArrives => exact (hNext _ _ rfl hArrives).imp fun _ => trivial
  | error hBlames =>
      refine .error fun hHolds => ?_
      cases hBlames (hRegular hHolds) with
      | same => exact .same _
      | early hEnding tree read => exact hEarly _ tree read hEnding

/-- With nothing more to read, the reader gives back what it has. -/
theorem blames_goOn {e : UnexpectedCharacter} {ending : Ending} (binding depth : Nat) (tree : Tree)
    (read : Nat) (hEnding : ending = .unexpected e) :
    Blames ending (.unexpected e) (Tree.goOn ending binding depth (tree, read, [])) := by
  rw [Tree.goOn, Tree.operatorsView_nil]
  exact .early hEnding tree read

theorem blames_closeGroup {e : UnexpectedCharacter} {ending : Ending} (opening : Token) (tree : Tree)
    (read : Nat) (hEnding : ending = .unexpected e) :
    Blames ending (.unexpected e) (Tree.closeGroup ending opening (tree, read, [])) := by
  subst hEnding
  exact .same _

/-- The parser takes the first token before it looks at it, and finds an unexpected character behind
it then. -/
theorem blames_exprView (e : UnexpectedCharacter) (binding depth literals : Nat) (token : Token) :
    Blames (.unexpected e) (.unexpected e)
      (Tree.exprView (.unexpected e) binding depth literals [token]) := by
  obtain hFound | ⟨tree, hRead⟩ := Tree.exprView_single e token
  · rw [hFound]
    exact .same _
  · rw [hRead]
    exact .early rfl tree _

/-- A refused operand is blamed on itself, once it has been taken. -/
theorem refuseOperand_ahead {p : Parser} (reason : Refusal) (hWord : p.previous.kind ≠ .endOfInput) :
    p.ahead.ending.refuseOperand p.previous p.ahead.tokens reason = p.previous.blame reason := by
  rw [ahead, CallStack.refuseOperand_upcoming, blame_word hWord]

theorem mirrors_number {p : Parser} (hScanned : p.Scanned) (hKind : p.previous.kind = .number) :
    Mirrors (p.chunk.constants.size ≤ Tree.maxLiterals) p.chunk p.depth p.ahead.ending p.number
      (Tree.operandView p.ahead.ending p.depth p.chunk.constants.size
        (p.previous :: p.ahead.tokens)) := by
  have hWord := hKind.trans_ne (by decide : Token.Kind.number ≠ .endOfInput)
  rw [number]
  cases hRead : Decimal.read? p.previous.lexeme.toList with
  | none =>
      rw [Tree.operandView_unreadable hKind hRead, refuseOperand_ahead _ hWord]
      exact .error fun _ => .same _
  | some decimal =>
      dsimp only
      rw [emitConstant]
      split
      · rename_i hFull
        refine .error fun hConstants => ?_
        have hSize : p.chunk.constants.size = Tree.maxLiterals := Nat.le_antisymm hConstants hFull
        rw [hSize, Tree.operandView_tooManyConstants hKind hRead, refuseOperand_ahead _ hWord]
        exact .same _
      · rename_i hRoom
        have hIndex : p.chunk.constants.size ≤ maxConstantIndex := Nat.le_of_not_lt hRoom
        let tree : Tree := .literal p.previous decimal.toNumber
        have hSize : (p.chunk.emit tree).constants.size = p.chunk.constants.size + 1 :=
          p.chunk.size_constants_emit tree
        have hLess : p.chunk.constants.size < Tree.maxLiterals := Nat.lt_succ_of_le hIndex
        rw [Tree.operandView_literal hKind (by rw [hRead]; rfl) hLess.ne, ← hSize]
        dsimp only [Chunk.addConstant]
        rw [if_pos hIndex]
        exact .ok ⟨rfl, rfl, rfl, rfl, hScanned, hSize.trans_le hLess⟩

/-- A handler does with the token taken last what the reader does with it. -/
structure Follows (handler : Handler) (p : Parser) : Prop where
  begins : (rule p.previous.kind).begins? = some handler →
    Mirrors (p.chunk.constants.size ≤ Tree.maxLiterals) p.chunk p.depth p.ahead.ending
      (p.handle handler)
      (Tree.operandView p.ahead.ending p.depth p.chunk.constants.size
        (p.previous :: p.ahead.tokens))
  goesOn : (rule p.previous.kind).goesOn? = some handler →
    ∀ (begun : Chunk) (left : Tree) (operator : Operator), p.chunk = begun.emit left →
      p.previous.kind.operator? = some operator →
      Mirrors (p.chunk.constants.size ≤ Tree.maxLiterals) begun p.depth p.ahead.ending
        (p.handle handler)
        (Tree.exprView p.ahead.ending (operator.binding + 1) p.depth p.chunk.constants.size
            p.ahead.tokens >>= Tree.asRight left operator p.previous)

/-- Only an operator goes on with an expression. -/
theorem follows_of_begins {handler : Handler} {p : Parser} (hHandler : handler ≠ .binary)
    (h : (rule p.previous.kind).begins? = some handler →
      Mirrors (p.chunk.constants.size ≤ Tree.maxLiterals) p.chunk p.depth p.ahead.ending
        (p.handle handler)
        (Tree.operandView p.ahead.ending p.depth p.chunk.constants.size
          (p.previous :: p.ahead.tokens))) : p.Follows handler where
  begins := h
  goesOn hRule begun left operator hChunk hOperator := by
    rw [goesOn?_rule hOperator] at hRule
    exact absurd (Option.some.inj hRule).symm hHandler

theorem Arrives.leave {begun : Chunk} {depth : Nat} {ending : Ending} {tree : Tree} {p : Parser}
    (h : Arrives begun (depth + 1) ending tree p) : Arrives begun depth ending tree p.leave :=
  { h with depth_eq := by rw [Parser.leave, h.depth_eq, Nat.add_sub_cancel] }

/-- Behind the expression in a group, the parser closes the group as the reader does. -/
theorem mirrors_close {begun : Chunk} {depth : Nat} {ending : Ending} {tree : Tree} {p : Parser}
    (opening : Token) (h : Arrives begun depth ending tree p) :
    Mirrors True begun depth ending (p.consume .rightParen .expectRightParen)
      (Tree.closeGroup ending opening (tree, p.chunk.constants.size, p.ahead.tokens)) := by
  obtain ⟨hChunk, rfl, rfl, _, _, hConstants⟩ := h
  rw [consume]
  split
  · rename_i hKind
    have hWord : p.current.kind ≠ .endOfInput := hKind.trans_ne (by decide)
    cases hNext : p.advance with
    | error e =>
        obtain ⟨unexpected, rfl, hAhead⟩ := ahead_of_advance_error hNext hWord
        rw [hAhead, Tree.closeGroup, if_pos hKind]
        exact .error fun _ => .early rfl _ _
    | ok next =>
        have hScanned := scanned_of_advance hNext
        rw [ahead_of_advance hNext hWord, Tree.closeGroup, if_pos hKind]
        obtain ⟨token, after, hScan, rfl⟩ := exists_of_advance hNext
        exact .ok ⟨hChunk, rfl, rfl, rfl, hScanned, hConstants⟩
  · rename_i hKind
    have hRefuse : Tree.closeGroup p.ahead.ending opening
          (tree, p.chunk.constants.size, p.ahead.tokens) =
        .error (p.ahead.ending.refuseFirst p.ahead.tokens .expectRightParen) := by
      by_cases hEnd : p.current.kind = .endOfInput
      · rw [ahead, CallStack.upcoming_of_end hEnd]
        rfl
      · rw [ahead, CallStack.upcoming_of_word hEnd]
        exact if_neg hKind
    rw [hRefuse, blame_current]
    exact .error fun _ => .same _

/-- A token that no expression begins with is refused by both. -/
theorem exprView_of_handler_error {p next : Parser} {e : CompileError} (hNext : p.advance = .ok next)
    (h : next.handler Rule.begins? = .error e) (binding depth literals : Nat) :
    Tree.exprView p.ahead.ending binding depth literals p.ahead.tokens = .error e := by
  obtain ⟨hPrevious, _, _⟩ := fields_of_advance hNext
  rw [handler] at h
  split at h
  · rename_i hNone
    cases h
    by_cases hEnd : p.current.kind = .endOfInput
    · rw [ahead, CallStack.upcoming_of_end hEnd, Tree.exprView_nil, hPrevious, ← blame_current, ahead,
        CallStack.upcoming_of_end hEnd]
      rfl
    · obtain ⟨hNumber, hOpening⟩ := begins?_rule_eq_none_iff.mp hNone
      rw [ahead_of_advance hNext hEnd, ← hPrevious,
        Tree.exprView_error (Tree.operandView_other hNumber hOpening), refuseOperand_ahead]
      rwa [hPrevious]
  · cases h

/-- What the parser does on each of its ways is what the reader does: reading on a level, going on
behind a left operand that has been written, and handling a token. -/
theorem mirrors_all :
    (∀ least (p : Parser), .assignment ≤ least →
      Mirrors (p.Scanned ∧ p.chunk.constants.size ≤ Tree.maxLiterals) p.chunk p.depth p.ahead.ending
        (p.parse least)
        (Tree.exprView p.ahead.ending least.binding p.depth p.chunk.constants.size p.ahead.tokens)) ∧
    (∀ least (p : Parser), .assignment ≤ least → ∀ begun depth ending left,
      Arrives begun depth ending left p →
      Mirrors True begun depth ending (p.operators least)
        (Tree.operatorsView ending least.binding depth p.chunk.constants.size left
          p.ahead.tokens)) ∧
    (∀ handler (p : Parser), p.Scanned → p.Follows handler) := by
  -- The induction is on the calls. A call that succeeds hands on `Arrives`, which is what the next one
  -- needs; only at the beginning is a condition on the parser left.
  refine parseWithin.mutual_induct _ _ _ ?parse ?operator ?stop ?deepest ?group ?number ?binary
  case parse =>
    intro least p ihHandle ihOperators hLeast
    cases hNext : p.advance with
    | error e =>
        -- The parser has not looked at its token yet, and the reader may have an expression.
        rw [parse_eq, hNext]
        refine .error fun ⟨hScanned, _⟩ => ?_
        obtain ⟨unexpected, rfl, hAhead⟩ := ahead_of_advance_error hNext (hScanned.ne_end hNext)
        rw [hAhead]
        exact blames_exprView _ _ _ _ _
    | ok next =>
        cases hHandler : next.handler Rule.begins? with
        | error e =>
            rw [parse_eq_bind hNext, hHandler, exprView_of_handler_error hNext hHandler]
            exact .error fun _ => .same _
        | ok handler =>
            obtain ⟨hPrevious, hChunk, hDepth⟩ := fields_of_advance hNext
            have hWord := ne_endOfInput_of_begins? (rule_of_handler hHandler)
            have hFollows := ihHandle next hNext handler hHandler (scanned_of_advance hNext)
            have hOperand := hFollows.begins (rule_of_handler hHandler)
            rw [hPrevious] at hWord
            rw [hPrevious, hChunk, hDepth] at hOperand
            rw [parse_eq_bind hNext, hHandler, ahead_of_advance hNext hWord, Tree.exprView_eq_bind]
            exact hOperand.bind And.right
              (fun tree operand hHandle => ihOperators next hNext handler hHandler operand
                (remaining_of_handle hHandle) hLeast _ _ _ tree)
              (fun e => blames_goOn _ _)
  case operator =>
    intro least p hTighter ihHandle ihOperators hLeast begun depth ending left hArrives
    obtain ⟨operator, hOperator⟩ : ∃ operator, p.current.kind.operator? = some operator := by
      refine Option.ne_none_iff_exists'.mp fun hNone => ?_
      exact not_le_precedence hLeast hNone hTighter
    have hBinding := (le_precedence_iff hLeast hOperator).mp hTighter
    have hWord := Token.Kind.ne_endOfInput_of_operator? hOperator
    have hRule := goesOn?_rule hOperator
    obtain ⟨hChunk, rfl, rfl, _, _, hConstants⟩ := hArrives
    rw [operators_eq, if_pos hTighter]
    cases hNext : p.advance with
    | error e =>
        obtain ⟨unexpected, rfl, hAhead⟩ := ahead_of_advance_error hNext hWord
        rw [hAhead, Tree.operatorsView_error hOperator hBinding Tree.exprView_nil]
        exact .error fun _ => .same _
    | ok next =>
        obtain ⟨hPrevious, hNextChunk, hDepth⟩ := fields_of_advance hNext
        rw [← hPrevious] at hRule
        have hHandler : next.handler Rule.goesOn? = .ok .binary := by rw [handler, hRule]
        have hFollows := ihHandle next hNext .binary hHandler (scanned_of_advance hNext)
        have hRight := hFollows.goesOn hRule begun left operator (hNextChunk.trans hChunk)
          (hPrevious ▸ hOperator)
        rw [hPrevious, hNextChunk, hDepth] at hRight
        -- What is written so far is the left operand, and with the right one it is the next of them.
        rw [ahead_of_advance hNext hWord, Tree.operatorsView_eq_goOn hOperator hBinding]
        change Mirrors True begun p.depth _ (next.handler Rule.goesOn? >>= _) _
        rw [hHandler]
        exact hRight.bind (fun _ => hConstants)
          (fun tree longer hHandle => ihOperators next hNext .binary hHandler longer
            (remaining_of_handle hHandle) hLeast _ _ _ tree)
          (fun e => blames_goOn _ _)
  case stop =>
    intro least p hLooser hLeast begun depth ending left hArrives
    rw [operators_eq, if_neg hLooser, Tree.operatorsView_stop]
    · exact .ok hArrives
    · rw [ahead, CallStack.nextBinding_upcoming]
      cases hOperator : p.current.kind.operator? with
      | none => exact least.binding_pos
      | some operator =>
          exact Nat.lt_of_not_le fun hLe => hLooser ((le_precedence_iff hLeast hOperator).mpr hLe)
  case deepest =>
    intro p hDepth hScanned
    refine follows_of_begins (by decide) fun hRule => ?_
    obtain ⟨hKind, _⟩ | ⟨_, hOther⟩ := begins?_rule_eq_some_iff.mp hRule
    · rw [handle_grouping, if_pos hDepth, hDepth, Tree.operandView_tooMuchNesting hKind,
        refuseOperand_ahead _ (hKind.trans_ne (by decide))]
      exact .error fun _ => .same _
    · cases hOther
  case group =>
    intro p hRoom ihInner hScanned
    refine follows_of_begins (by decide) fun hRule => ?_
    obtain ⟨hKind, _⟩ | ⟨_, hOther⟩ := begins?_rule_eq_some_iff.mp hRule
    · rw [handle_grouping, if_neg hRoom, Tree.operandView_eq_bind _ hKind hRoom]
      exact (ihInner (by decide)).bind (fun hConstants => ⟨hScanned, hConstants⟩)
        (fun tree inner _ hArrives => mirrors_close p.previous hArrives.leave)
        (fun e => blames_closeGroup p.previous)
    · cases hOther
  case number =>
    intro p hScanned
    refine follows_of_begins (by decide) fun hRule => ?_
    obtain ⟨_, hOther⟩ | ⟨hKind, _⟩ := begins?_rule_eq_some_iff.mp hRule
    · cases hOther
    · rw [handle_number]
      exact mirrors_number hScanned hKind
  case binary =>
    intro p ihRight hScanned
    constructor
    · intro hRule
      obtain ⟨_, hOther⟩ | ⟨_, hOther⟩ := begins?_rule_eq_some_iff.mp hRule <;> cases hOther
    · intro hRule begun left operator hChunk hOperator
      obtain ⟨hLeast, hBinding⟩ := binding_plus_one hOperator
      rw [handle_binary, hOperator, ← hBinding]
      refine (ihRight hLeast).bind (fun hConstants => ⟨hScanned, hConstants⟩)
        (fun right after _ hArrives => ?_) (fun e tree read hEnding => .early hEnding _ _)
      refine .ok ⟨?_, hArrives.depth_eq, hArrives.ending_eq, hArrives.line_eq, hArrives.scanned,
        hArrives.constants_le⟩
      rw [emitByte, hArrives.chunk_eq, hArrives.line_eq, hChunk]
      rfl

/-- Behind the whole text, the parser finishes the code as the reader finishes the tree. -/
theorem finish_eq {ending : Ending} {tree : Tree} {p : Parser} (h : Arrives {} 0 ending tree p) :
    (p.consume .endOfInput .expectEnd >>= fun last => pure (last.emitByte Opcode.ret.byte).chunk) =
      (CallStack.resume ending [] 0 (tree, p.chunk.constants.size, p.ahead.tokens)).map
        fun (tree, endLine) => Chunk.ofTree tree endLine := by
  rw [consume, ← h.ending_eq]
  split
  · rename_i hEnd
    obtain ⟨token, after, hScan⟩ := h.scanned hEnd
    rw [advance, hScan, ahead, CallStack.upcoming_of_end hEnd]
    simp only [bind, Except.bind, pure, Except.pure, Except.map, emitByte, CallStack.resume,
      h.chunk_eq, Chunk.ofTree]
  · rename_i hWord
    rw [← blame_current, ahead, CallStack.upcoming_of_word hWord]
    rfl

/-- The outermost call begins with nothing written and no group open. -/
theorem mirrors_first {source : String} {first : Parser}
    (hFirst : (start source).advance = .ok first) :
    Mirrors True {} 0 first.ahead.ending (first.parse .assignment)
      (Tree.exprView first.ahead.ending 1 0 0 first.ahead.tokens) := by
  have hMirrors := mirrors_all.1 .assignment first (by decide)
  obtain ⟨_, hChunk, hDepth⟩ := fields_of_advance hFirst
  rw [hChunk, hDepth] at hMirrors
  exact hMirrors.imp fun _ => ⟨scanned_of_advance hFirst, Nat.zero_le _⟩

/-- Compiling in one pass gives the code of the tree, or the error that reading the tree gives. -/
theorem compile_eq (source : String) : compile source = StackCalculator.compile source := by
  have hReader : StackCalculator.compile source =
      (Tree.ofSource source).map fun (tree, endLine) => Chunk.ofTree tree endLine := by
    rw [StackCalculator.compile]
    cases Tree.ofSource source <;> rfl
  rw [hReader, CallStack.ofSource_eq_bind, compile]
  cases hFirst : (start source).advance with
  | error e =>
      obtain ⟨unexpected, after, hScan, rfl⟩ := exists_of_advance_error hFirst
      have hText : (Scanner.ofText source).tokenized = ⟨[], .unexpected unexpected⟩ :=
        CallStack.tokenized_of_error hScan
      rw [hText, Tree.exprView_nil]
      rfl
  | ok first =>
      have hText : (Scanner.ofText source).tokenized = first.ahead := tokenized_of_advance hFirst
      have hMirrors := mirrors_first hFirst
      rw [hText]
      change first.parse .assignment >>= _ = _
      generalize first.parse .assignment = outcome at hMirrors ⊢
      generalize Tree.exprView first.ahead.ending 1 0 0 first.ahead.tokens = reading at hMirrors ⊢
      cases hMirrors with
      | ok hArrives => exact finish_eq hArrives
      | error hBlames =>
          cases hBlames trivial with
          | same => rfl
          | early hEnding tree read =>
              -- The reader has a whole expression, and finds the character when it looks behind it.
              rw [hEnding]
              rfl

/-- Where the parser arrives, the reader gives a tree whose code the parser has written. -/
theorem exists_tree_of_parse {least : Precedence} {p after : Parser} (hLeast : .assignment ≤ least)
    (hParse : p.parse least = .ok after) :
    ∃ tree, Arrives p.chunk p.depth p.ahead.ending tree after ∧
      Tree.exprView p.ahead.ending least.binding p.depth p.chunk.constants.size p.ahead.tokens =
        .ok (tree, after.chunk.constants.size, after.ahead.tokens) := by
  have hMirrors := mirrors_all.1 least p hLeast
  rw [hParse] at hMirrors
  generalize Tree.exprView p.ahead.ending least.binding p.depth p.chunk.constants.size
    p.ahead.tokens = reading at hMirrors ⊢
  cases hMirrors with
  | ok hArrives => exact ⟨_, hArrives, rfl⟩

end Parser

end StackCalculator
