import StackCalculator.Chunk.Compile
import StackCalculator.Proofs.Grammar

/-!
The reader against the grammar: it reads exactly the parse trees that keep within its two limits,
and of each expression as many tokens as it can.
-/

namespace StackCalculator

namespace Tree

/-- The binding of the operator that comes next, and zero if none does. -/
def nextBinding : List Token → Nat
  | [] => 0
  | token :: _ =>
      match token.kind.operator? with
      | none => 0
      | some operator => operator.binding

/-- What a reading says, without its bound on what is left. -/
def Reading.view {bound : Nat} (reading : Reading bound) : Tree × Nat × List Token :=
  (reading.tree, reading.literals, reading.rest)

theorem map_view_eq_ok {bound : Nat} {outcome : Except CompileError (Reading bound)} {tree : Tree}
    {read : Nat} {rest : List Token} :
    outcome.map Reading.view = .ok (tree, read, rest) ↔
      ∃ h, outcome = .ok ⟨tree, read, rest, h⟩ := by
  constructor
  · intro h
    cases outcome with
    | error e => cases h
    | ok reading =>
        cases h
        exact ⟨reading.rest_lt, rfl⟩
  · rintro ⟨_, rfl⟩
    rfl

section Views

variable (ending : Ending) (binding depth literals : Nat) (left : Tree) (tokens : List Token)

/-- What `readOperand` gives, in a type that does not depend on the tokens. -/
def operandView : Except CompileError (Tree × Nat × List Token) :=
  (readOperand ending depth literals tokens).map Reading.view

/-- What `readExpr` gives, in a type that does not depend on the tokens. -/
def exprView : Except CompileError (Tree × Nat × List Token) :=
  (readExpr ending binding depth literals tokens).map Reading.view

/-- What `readOperators` gives, in a type that does not depend on the tokens. -/
def operatorsView : Except CompileError (Tree × Nat × List Token) :=
  (readOperators ending binding depth literals left tokens).map Reading.view

end Views

/-- A group is closed behind its inner expression. -/
def closeGroup (ending : Ending) (opening : Token) :
    Tree × Nat × List Token → Except CompileError (Tree × Nat × List Token)
  | (_, _, []) => .error (ending.refuse .expectRightParen)
  | (inner, read, closing :: rest) =>
      if closing.kind = .rightParen then
        .ok (.group opening inner closing, read, rest)
      else
        .error (closing.refuse .expectRightParen)

section Equations

variable {ending : Ending} {binding depth literals : Nat}

theorem operandView_literal {token : Token} {behind : List Token} {value : Number}
    (hKind : token.kind = .number)
    (hValue : (Decimal.read? token.lexeme.toList).map Decimal.toNumber = some value)
    (hRoom : literals ≠ maxLiterals) :
    operandView ending depth literals (token :: behind) =
      .ok (.literal token value, literals + 1, behind) := by
  obtain ⟨decimal, hDecimal, rfl⟩ := Option.map_eq_some_iff.mp hValue
  rw [operandView, readOperand]
  simp [hKind, hDecimal, hRoom, Except.map, Reading.view]

theorem operandView_group {opening closing : Token} {behind rest : List Token} {inner : Tree}
    {read : Nat} (hOpening : opening.kind = .leftParen) (hRoom : depth ≠ maxNesting)
    (hInner : exprView ending 1 (depth + 1) literals behind = .ok (inner, read, closing :: rest))
    (hClosing : closing.kind = .rightParen) :
    operandView ending depth literals (opening :: behind) =
      .ok (.group opening inner closing, read, rest) := by
  obtain ⟨_, hRead⟩ := map_view_eq_ok.mp hInner
  rw [operandView, readOperand]
  simp [hOpening, hRoom, hRead, hClosing, Except.map, Reading.view]

theorem exprView_eq {tokens rest : List Token} {operand : Tree} {read : Nat}
    (h : operandView ending depth literals tokens = .ok (operand, read, rest)) :
    exprView ending binding depth literals tokens =
      operatorsView ending binding depth read operand rest := by
  obtain ⟨_, hRead⟩ := map_view_eq_ok.mp h
  rw [exprView, operatorsView, readExpr, hRead]
  dsimp only
  cases readOperators ending binding depth read operand rest <;> rfl

theorem operatorsView_nil (left : Tree) :
    operatorsView ending binding depth literals left [] = .ok (left, literals, []) := by
  rw [operatorsView, readOperators]
  rfl

theorem operatorsView_stop {tokens : List Token} {left : Tree}
    (h : nextBinding tokens < binding) :
    operatorsView ending binding depth literals left tokens = .ok (left, literals, tokens) := by
  cases tokens with
  | nil => exact operatorsView_nil left
  | cons sign behind =>
      rw [operatorsView, readOperators]
      cases hOperator : sign.kind.operator? with
      | none => simp [Except.map, Reading.view]
      | some operator =>
          have hLess : ¬ binding ≤ operator.binding := by
            simpa [nextBinding, hOperator] using h
          simp [hLess, Except.map, Reading.view]

theorem operatorsView_step {sign : Token} {behind rest : List Token} {left right : Tree}
    {operator : Operator} {read : Nat} (hOperator : sign.kind.operator? = some operator)
    (hBinding : binding ≤ operator.binding)
    (hRight : exprView ending (operator.binding + 1) depth literals behind =
      .ok (right, read, rest)) :
    operatorsView ending binding depth literals left (sign :: behind) =
      operatorsView ending binding depth read (.binary left operator sign right) rest := by
  obtain ⟨_, hRead⟩ := map_view_eq_ok.mp hRight
  rw [operatorsView, operatorsView, readOperators]
  simp only [hOperator, hBinding, if_true, hRead]
  cases readOperators ending binding depth read (.binary left operator sign right) rest <;> rfl

theorem map_view_eq_error {bound : Nat} {outcome : Except CompileError (Reading bound)}
    {e : CompileError} : outcome.map Reading.view = .error e ↔ outcome = .error e := by
  cases outcome <;> simp [Except.map]

theorem operandView_nil :
    operandView ending depth literals [] = .error (ending.refuse .expectExpression) := by
  rw [operandView, readOperand]
  rfl

theorem operandView_unreadable {token : Token} {behind : List Token} (hKind : token.kind = .number)
    (hRead : Decimal.read? token.lexeme.toList = none) :
    operandView ending depth literals (token :: behind) =
      .error (ending.refuseOperand token behind .invalidNumber) := by
  rw [operandView, readOperand]
  simp [hKind, hRead, Except.map]

theorem operandView_tooManyConstants {token : Token} {behind : List Token} {decimal : Decimal}
    (hKind : token.kind = .number) (hRead : Decimal.read? token.lexeme.toList = some decimal) :
    operandView ending depth maxLiterals (token :: behind) =
      .error (ending.refuseOperand token behind .tooManyConstants) := by
  rw [operandView, readOperand]
  simp [hKind, hRead, Except.map]

theorem operandView_tooMuchNesting {opening : Token} {behind : List Token}
    (hOpening : opening.kind = .leftParen) :
    operandView ending maxNesting literals (opening :: behind) =
      .error (ending.refuseOperand opening behind .tooMuchNesting) := by
  rw [operandView, readOperand]
  simp [hOpening, Except.map]

theorem operandView_inner {opening : Token} {behind : List Token} {e : CompileError}
    (hOpening : opening.kind = .leftParen) (hRoom : depth ≠ maxNesting)
    (hInner : exprView ending 1 (depth + 1) literals behind = .error e) :
    operandView ending depth literals (opening :: behind) = .error e := by
  rw [operandView, readOperand]
  simp [hOpening, hRoom, map_view_eq_error.mp hInner, Except.map]

theorem operandView_unclosed {opening : Token} {behind rest : List Token} {inner : Tree}
    {read : Nat} (hOpening : opening.kind = .leftParen) (hRoom : depth ≠ maxNesting)
    (hInner : exprView ending 1 (depth + 1) literals behind = .ok (inner, read, rest))
    (hRest : ∀ closing after, rest = closing :: after → closing.kind ≠ .rightParen) :
    operandView ending depth literals (opening :: behind) =
      .error (ending.refuseFirst rest .expectRightParen) := by
  obtain ⟨_, hRead⟩ := map_view_eq_ok.mp hInner
  rw [operandView, readOperand]
  cases rest with
  | nil => simp [hOpening, hRoom, hRead, Except.map, Ending.refuseFirst]
  | cons closing after =>
      simp [hOpening, hRoom, hRead, hRest closing after rfl, Except.map, Ending.refuseFirst]

theorem operandView_other {token : Token} {behind : List Token} (hNumber : token.kind ≠ .number)
    (hOpening : token.kind ≠ .leftParen) :
    operandView ending depth literals (token :: behind) =
      .error (ending.refuseOperand token behind .expectExpression) := by
  rw [operandView, readOperand]
  split <;> simp_all [Except.map]

theorem exprView_error {tokens : List Token} {e : CompileError}
    (h : operandView ending depth literals tokens = .error e) :
    exprView ending binding depth literals tokens = .error e := by
  rw [exprView, readExpr, map_view_eq_error.mp h]
  rfl

theorem exprView_nil :
    exprView ending binding depth literals [] = .error (ending.refuse .expectExpression) :=
  exprView_error operandView_nil

theorem exprView_eq_bind (tokens : List Token) :
    exprView ending binding depth literals tokens =
      operandView ending depth literals tokens >>= fun (operand, count, rest) =>
        operatorsView ending binding depth count operand rest := by
  cases hOperand : operandView ending depth literals tokens with
  | error e => exact exprView_error hOperand
  | ok reading => exact exprView_eq hOperand

theorem operatorsView_error {sign : Token} {behind : List Token} {left : Tree}
    {operator : Operator} {e : CompileError} (hOperator : sign.kind.operator? = some operator)
    (hBinding : binding ≤ operator.binding)
    (hRight : exprView ending (operator.binding + 1) depth literals behind = .error e) :
    operatorsView ending binding depth literals left (sign :: behind) = .error e := by
  rw [operatorsView, readOperators]
  simp [hOperator, hBinding, map_view_eq_error.mp hRight, Except.map]

theorem operatorsView_eq_bind {sign : Token} {behind : List Token} {left : Tree}
    {operator : Operator} (hOperator : sign.kind.operator? = some operator)
    (hBinding : binding ≤ operator.binding) :
    operatorsView ending binding depth literals left (sign :: behind) =
      exprView ending (operator.binding + 1) depth literals behind >>= fun (right, count, rest) =>
        operatorsView ending binding depth count (.binary left operator sign right) rest := by
  cases hRight : exprView ending (operator.binding + 1) depth literals behind with
  | error e => exact operatorsView_error hOperator hBinding hRight
  | ok reading => exact operatorsView_step hOperator hBinding hRight

theorem operandView_eq_bind {opening : Token} (behind : List Token)
    (hOpening : opening.kind = .leftParen) (hRoom : depth ≠ maxNesting) :
    operandView ending depth literals (opening :: behind) =
      exprView ending 1 (depth + 1) literals behind >>= closeGroup ending opening := by
  cases hInner : exprView ending 1 (depth + 1) literals behind with
  | error e => exact operandView_inner hOpening hRoom hInner
  | ok reading =>
      obtain ⟨inner, read, _ | ⟨closing, rest⟩⟩ := reading
      · exact operandView_unclosed hOpening hRoom hInner (by simp)
      · by_cases hClosing : closing.kind = .rightParen
        · rw [operandView_group hOpening hRoom hInner hClosing]
          simp [bind, Except.bind, closeGroup, hClosing]
        · rw [operandView_unclosed hOpening hRoom hInner (by rintro _ _ ⟨⟩; exact hClosing)]
          simp [bind, Except.bind, closeGroup, hClosing, Ending.refuseFirst]

/-- Before an unexpected character, a single token is a whole expression, or the character is found
first. -/
theorem exprView_single (e : UnexpectedCharacter) (token : Token) :
    exprView (.unexpected e) binding depth literals [token] = .error (.unexpected e) ∨
      ∃ tree, exprView (.unexpected e) binding depth literals [token] =
        .ok (tree, literals + 1, []) := by
  rw [exprView_eq_bind]
  by_cases hOpening : token.kind = .leftParen
  · -- Whether there is room for the group or not, the reader has to look behind it.
    by_cases hRoom : depth = maxNesting
    · rw [hRoom, operandView_tooMuchNesting hOpening]
      exact .inl rfl
    · rw [operandView_eq_bind [] hOpening hRoom, exprView_nil]
      exact .inl rfl
  · by_cases hNumber : token.kind = .number
    · cases hRead : Decimal.read? token.lexeme.toList with
      | none =>
          rw [operandView_unreadable hNumber hRead]
          exact .inl rfl
      | some decimal =>
          by_cases hRoom : literals = maxLiterals
          · rw [hRoom, operandView_tooManyConstants hNumber hRead]
            exact .inl rfl
          · rw [operandView_literal hNumber (by rw [hRead]; rfl) hRoom]
            exact .inr ⟨_, operatorsView_nil _⟩
    · rw [operandView_other hNumber hOpening]
      exact .inl rfl

end Equations

/-- A tree has been read from the front of a list of tokens, inside `depth` open groups and after
`literals` literals. It has these tokens, and neither limit has been passed on the way. -/
structure Reads (depth literals : Nat) (tokens : List Token) (tree : Tree) (read : Nat)
    (rest : List Token) : Prop where
  tokens_eq : tree.tokens ++ rest = tokens
  read_eq : read = literals + tree.toExpr.literals.length
  read_le : literals ≤ maxLiterals → read ≤ maxLiterals
  nesting_le : depth ≤ maxNesting → depth + tree.nesting ≤ maxNesting

namespace Reads

variable {depth literals read : Nat} {tokens rest : List Token}

theorem literal {token : Token} {value : Number} (hRoom : literals ≠ maxLiterals) :
    Reads depth literals (token :: rest) (.literal token value) (literals + 1) rest :=
  ⟨rfl, rfl, fun hLe => by omega, fun hLe => hLe⟩

theorem group {opening closing : Token} {inner : Tree}
    (h : Reads (depth + 1) literals tokens inner read (closing :: rest))
    (hRoom : depth ≠ maxNesting) :
    Reads depth literals (opening :: tokens) (.group opening inner closing) read rest := by
  refine ⟨?_, h.read_eq, h.read_le, fun hDepth => ?_⟩
  · simp [Tree.tokens, ← h.tokens_eq]
  · have hNesting := h.nesting_le (by omega)
    simp only [nesting]
    omega

/-- One round of the loop over operators: the tree so far becomes the left operand. -/
theorem binary {first between : Nat} {sign : Token} {behind : List Token} {left right : Tree}
    {operator : Operator} (hLeft : Reads depth first tokens left between (sign :: behind))
    (hRight : Reads depth between behind right read rest) :
    Reads depth first tokens (.binary left operator sign right) read rest := by
  refine ⟨?_, ?_, fun hFirst => hRight.read_le (hLeft.read_le hFirst), fun hDepth => ?_⟩
  · simp [Tree.tokens, hRight.tokens_eq, hLeft.tokens_eq]
  · simp [toExpr, Expr.literals, hRight.read_eq, hLeft.read_eq, Nat.add_assoc]
  · have hLeftNesting := hLeft.nesting_le hDepth
    have hRightNesting := hRight.nesting_le hDepth
    simp only [nesting]
    omega

end Reads

theorem nextBinding_cons {sign : Token} {behind : List Token} {operator : Operator}
    (h : sign.kind.operator? = some operator) :
    nextBinding (sign :: behind) = operator.binding := by
  simp [nextBinding, h]

/-- Where the loop over operators stops, what it gives back is its left operand. -/
theorem reads_of_stop {ending : Ending} {binding depth literals first read : Nat}
    {left tree : Tree} {tokens whole rest : List Token} (hStop : nextBinding tokens < binding)
    (h : operatorsView ending binding depth literals left tokens = .ok (tree, read, rest))
    (hReads : Reads depth first whole left literals tokens)
    (hLayered : left.Layered (max binding (nextBinding tokens))) :
    Reads depth first whole tree read rest ∧ tree.Layered binding ∧
      nextBinding rest < binding := by
  rw [operatorsView_stop hStop] at h
  cases h
  exact ⟨hReads, hLayered.mono (Nat.le_max_left _ _), hStop⟩

/-- What is read is a parse tree, and it cannot be continued with the next operator. In the loop
over operators, the left operand is a parse tree that the next operator may take as its own: the
right operand before it has left no tighter one behind. -/
theorem reads_all (ending : Ending) :
    (∀ depth literals tokens, ∀ tree read rest,
      operandView ending depth literals tokens = .ok (tree, read, rest) →
        Reads depth literals tokens tree read rest ∧ ∀ level, tree.Layered level) ∧
    (∀ binding depth literals tokens, ∀ tree read rest, 1 ≤ binding →
      exprView ending binding depth literals tokens = .ok (tree, read, rest) →
        Reads depth literals tokens tree read rest ∧ tree.Layered binding ∧
          nextBinding rest < binding) ∧
    (∀ binding depth literals left tokens, ∀ first whole tree read rest, 1 ≤ binding →
      operatorsView ending binding depth literals left tokens = .ok (tree, read, rest) →
      Reads depth first whole left literals tokens →
      left.Layered (max binding (nextBinding tokens)) →
        Reads depth first whole tree read rest ∧ tree.Layered binding ∧
          nextBinding rest < binding) := by
  refine readOperand.mutual_induct ending _ _ _ ?noToken ?unreadable ?tooManyConstants ?literal
    ?tooMuchNesting ?inner ?unclosedAtEnd ?group ?unclosed ?other ?operandError ?operatorsError ?expr
    ?stopAtEnd ?stopAtToken ?rightError ?furtherError ?step ?stopAtLooser
  case literal =>
    intro depth literals token behind hKind decimal hDecimal hRoom tree read rest h
    have hValue : (Decimal.read? token.lexeme.toList).map Decimal.toNumber =
        some decimal.toNumber := by
      rw [hDecimal]
      rfl
    rw [operandView_literal hKind hValue hRoom] at h
    cases h
    exact ⟨.literal hRoom, fun level => ⟨hKind, hValue⟩⟩
  case group =>
    intro depth literals opening behind hOpening hRoom inner count closing after _ hInner hClosing
      ih tree read rest h
    have hView := map_view_eq_ok.mpr ⟨_, hInner⟩
    obtain ⟨hReads, hLayered, _⟩ := ih _ _ _ (Nat.le_refl 1) hView
    rw [operandView_group hOpening hRoom hView hClosing] at h
    cases h
    exact ⟨hReads.group hRoom, fun level => ⟨hOpening, hLayered, hClosing⟩⟩
  case expr =>
    intro binding depth literals tokens operand count after _ hOperand reading _ ihOperand
      ihOperators tree read rest hPositive h
    have hView := map_view_eq_ok.mpr ⟨_, hOperand⟩
    obtain ⟨hReads, hLayered⟩ := ihOperand _ _ _ hView
    rw [exprView_eq hView] at h
    exact ihOperators _ _ _ _ _ hPositive h hReads (hLayered _)
  case stopAtEnd =>
    intro binding depth literals left first whole tree read rest hPositive
    exact reads_of_stop hPositive
  case stopAtToken =>
    intro binding depth literals left sign behind hNone first whole tree read rest hPositive
    exact reads_of_stop (by simp only [nextBinding, hNone]; omega)
  case step =>
    intro binding depth literals left sign behind operator hOperator hBinding right count after _
      hRight reading _ ihRight ihOperators first whole tree read rest hPositive h hReads hLayered
    have hView := map_view_eq_ok.mpr ⟨_, hRight⟩
    obtain ⟨hRightReads, hRightLayered, hNext⟩ := ihRight _ _ _ (Nat.le_add_left 1 _) hView
    rw [operatorsView_step hOperator hBinding hView] at h
    rw [nextBinding_cons hOperator] at hLayered
    exact ihOperators _ _ _ _ _ hPositive h (hReads.binary hRightReads)
      ⟨hOperator, by omega, hLayered.mono (Nat.le_max_right _ _), hRightLayered⟩
  case stopAtLooser =>
    intro binding depth literals left sign behind operator hOperator hBinding first whole tree read
      rest _
    exact reads_of_stop (by rw [nextBinding_cons hOperator]; omega)
  -- All other cases are refusals, and there is nothing to show of them.
  case noToken | unreadable | tooManyConstants | tooMuchNesting | inner | unclosedAtEnd | unclosed |
      other =>
    intros
    simp_all [operandView, readOperand, Except.map]
  case operandError | operatorsError =>
    intros
    simp_all [exprView, readExpr, Except.map]
  case rightError | furtherError =>
    intros
    simp_all [operatorsView, readOperators, Except.map]

theorem reads_of_operandView {ending : Ending} {depth literals read : Nat} {tree : Tree}
    {tokens rest : List Token}
    (h : operandView ending depth literals tokens = .ok (tree, read, rest)) :
    Reads depth literals tokens tree read rest ∧ ∀ level, tree.Layered level :=
  (reads_all ending).1 _ _ _ _ _ _ h

theorem reads_of_exprView {ending : Ending} {binding depth literals read : Nat} {tree : Tree}
    {tokens rest : List Token} (hPositive : 1 ≤ binding)
    (h : exprView ending binding depth literals tokens = .ok (tree, read, rest)) :
    Reads depth literals tokens tree read rest ∧ tree.Layered binding ∧
      nextBinding rest < binding :=
  (reads_all ending).2.1 _ _ _ _ _ _ _ hPositive h

/-- The tokens of a parse tree are read as that tree, and reading goes on behind them. It does not
matter what follows, unless it is an operator that binds tighter than those of the tree. -/
theorem Layered.exprView_tokens {tree : Tree} {ending : Ending} {level : Nat}
    (h : tree.Layered level) {binding depth literals : Nat} {rest : List Token}
    (hBinding : binding ≤ level) (hNext : nextBinding rest ≤ level)
    (hDepth : depth + tree.nesting ≤ maxNesting)
    (hLiterals : literals + tree.toExpr.literals.length ≤ maxLiterals) :
    exprView ending binding depth literals (tree.tokens ++ rest) =
      operatorsView ending binding depth (literals + tree.toExpr.literals.length) tree rest := by
  induction tree generalizing level binding depth literals rest with
  | literal token value =>
      simp only [toExpr, Expr.literals, List.length_singleton] at hLiterals
      exact exprView_eq (operandView_literal h.1 h.2 (by omega))
  | group opening inner closing ih =>
      obtain ⟨hOpening, hInner, hClosing⟩ := h
      simp only [nesting] at hDepth
      have hStop : nextBinding (closing :: rest) = 0 := by
        simp [nextBinding, hClosing, Token.Kind.operator?]
      have hRead : exprView ending 1 (depth + 1) literals (inner.tokens ++ closing :: rest) =
          .ok (inner, literals + inner.toExpr.literals.length, closing :: rest) := by
        rw [ih hInner (Nat.le_refl 1) (by omega) (by omega) hLiterals]
        exact operatorsView_stop (by omega)
      simp only [tokens, List.cons_append, List.append_assoc, List.nil_append]
      exact exprView_eq (operandView_group hOpening (by omega) hRead hClosing)
  | binary left operator sign right ihLeft ihRight =>
      obtain ⟨hSign, hLevel, hLeft, hRight⟩ := h
      simp only [nesting, toExpr, Expr.literals, List.length_append] at hDepth hLiterals ⊢
      have hOperator : nextBinding (sign :: (right.tokens ++ rest)) = operator.binding :=
        nextBinding_cons hSign
      have hRead : exprView ending (operator.binding + 1) depth
            (literals + left.toExpr.literals.length) (right.tokens ++ rest) =
          .ok (right, literals + left.toExpr.literals.length + right.toExpr.literals.length,
            rest) := by
        rw [ihRight hRight (Nat.le_refl _) (by omega) (by omega) (by omega)]
        exact operatorsView_stop (by omega)
      simp only [tokens, List.append_assoc, List.cons_append]
      rw [ihLeft hLeft (hBinding.trans hLevel) hOperator.le (by omega) (by omega),
        operatorsView_step hSign (hBinding.trans hLevel) hRead, Nat.add_assoc]

theorem read_eq_ok_iff {text : Tokenized} {tree : Tree} {endLine : Nat} :
    read text = .ok (tree, endLine) ↔
      (∃ literals, exprView text.ending 1 0 0 text.tokens = .ok (tree, literals, [])) ∧
        text.ending = .endOfInput endLine := by
  obtain ⟨tokens, ending⟩ := text
  rw [read]
  cases hRead : readExpr ending 1 0 0 tokens with
  | error e => simp [exprView, hRead, Except.map]
  | ok reading =>
      obtain ⟨result, literals, rest, hRest⟩ := reading
      cases rest with
      | nil => cases ending <;> simp [exprView, hRead, Except.map, Reading.view]
      | cons token behind => simp [exprView, hRead, Except.map, Reading.view]

end Tree

/-- An outcome of which something is known is not an error. -/
theorem exists_ok_of_toOption {ε α β : Type} {outcome : Except ε α} {f : α → β} {result : β}
    (h : outcome.toOption.map f = some result) : ∃ value, outcome = .ok value ∧ f value = result := by
  cases outcome with
  | error e => cases h
  | ok value => exact ⟨value, rfl, Option.some.inj h⟩

/-- A parse of a source text: a parse tree that has exactly the tokens of the text. -/
structure IsParse (source : String) (tree : Tree) (endLine : Nat) : Prop where
  spells : Spells source tree.tokens endLine
  layered : tree.Layered 1

/-- A text is read if and only if it has a parse within the limits, and that is what is read. -/
theorem Tree.ofSource_eq_ok_iff {source : String} {tree : Tree} {endLine : Nat} :
    Tree.ofSource source = .ok (tree, endLine) ↔
      IsParse source tree endLine ∧ tree.tokens.countP (·.kind = .number) ≤ maxLiterals ∧
        NestedWithin maxNesting tree.tokens := by
  rw [ofSource, read_eq_ok_iff]
  constructor
  · rintro ⟨⟨literals, hRead⟩, hEnding⟩
    obtain ⟨hReads, hLayered, _⟩ := reads_of_exprView (Nat.le_refl 1) hRead
    have hTokens : (Scanner.ofText source).tokenized.tokens = tree.tokens := by
      simpa using hReads.tokens_eq.symm
    have hSpells : Spells source tree.tokens endLine :=
      spells_iff_tokenized.mpr (by rw [← hTokens, ← hEnding])
    refine ⟨⟨hSpells, hLayered⟩, ?_, ?_⟩
    · simpa [hLayered.countP_number, hReads.read_eq] using hReads.read_le (Nat.zero_le _)
    · simpa [hLayered.nestedWithin_iff] using hReads.nesting_le (Nat.zero_le _)
  · rintro ⟨⟨hSpells, hLayered⟩, hLiterals, hNested⟩
    rw [hLayered.countP_number] at hLiterals
    rw [hLayered.nestedWithin_iff] at hNested
    rw [spells_iff_tokenized.mp hSpells]
    refine ⟨⟨0 + tree.toExpr.literals.length, ?_⟩, rfl⟩
    dsimp only
    rw [← List.append_nil tree.tokens, hLayered.exprView_tokens (Nat.le_refl 1) (Nat.zero_le _)
      (by simpa using hNested) (by simpa using hLiterals)]
    exact operatorsView_stop Nat.one_pos

/-- A text that can be read has one parse. -/
theorem IsParse.unique {source : String} {tree other : Tree} {endLine line : Nat}
    (hOther : IsParse source other line) (h : Tree.ofSource source = .ok (tree, endLine)) :
    other = tree := by
  obtain ⟨hParse, hLimits⟩ := Tree.ofSource_eq_ok_iff.mp h
  obtain ⟨hTokens, _⟩ := hParse.spells.unique hOther.spells
  rw [hTokens] at hLimits
  have hSame := h.symm.trans (Tree.ofSource_eq_ok_iff.mpr ⟨hOther, hLimits⟩)
  cases hSame
  rfl

theorem compile_eq_ok_iff {source : String} {chunk : Chunk} :
    compile source = .ok chunk ↔ ∃ tree endLine, Tree.ofSource source = .ok (tree, endLine) ∧
      Chunk.ofTree tree endLine = chunk := by
  rw [compile]
  cases Tree.ofSource source with
  | error e => simp
  | ok result =>
      obtain ⟨tree, endLine⟩ := result
      simp [and_assoc]

/-- A text that compiles has one parse, and its code is that of the parse. -/
theorem exists_parse_of_compile {source : String} {chunk : Chunk}
    (h : compile source = .ok chunk) :
    ∃ tree endLine, IsParse source tree endLine ∧
      (∀ other line, IsParse source other line → other = tree) ∧
      tree.toExpr.literals.length ≤ 256 ∧ Chunk.ofTree tree endLine = chunk := by
  obtain ⟨tree, endLine, hRead, hChunk⟩ := compile_eq_ok_iff.mp h
  obtain ⟨hParse, hLiterals, _⟩ := Tree.ofSource_eq_ok_iff.mp hRead
  rw [hParse.layered.countP_number] at hLiterals
  exact ⟨tree, endLine, hParse, fun other line hOther => hOther.unique hRead, hLiterals, hChunk⟩

/-- The texts that compile are those without an unexpected character whose tokens the grammar
derives, with at most 256 numbers and at most 256 groups open at once. -/
theorem compiles_iff_derives (source : String) :
    (∃ chunk, compile source = .ok chunk) ↔
      ∃ tokens endLine, Spells source tokens endLine ∧ Derives .expression tokens ∧
        tokens.countP (·.kind = .number) ≤ 256 ∧ NestedWithin 256 tokens := by
  constructor
  · rintro ⟨chunk, hCompile⟩
    obtain ⟨tree, endLine, hRead, _⟩ := compile_eq_ok_iff.mp hCompile
    obtain ⟨hParse, hLiterals, hNested⟩ := Tree.ofSource_eq_ok_iff.mp hRead
    exact ⟨tree.tokens, endLine, hParse.spells, hParse.layered.derives .expression, hLiterals,
      hNested⟩
  · rintro ⟨tokens, endLine, hSpells, hDerives, hLiterals, hNested⟩
    obtain ⟨tree, hLayered, rfl⟩ := hDerives.exists_tree hSpells.isWord
    have hRead : Tree.ofSource source = .ok (tree, endLine) :=
      Tree.ofSource_eq_ok_iff.mpr ⟨⟨hSpells, hLayered⟩, hLiterals, hNested⟩
    exact ⟨_, compile_eq_ok_iff.mpr ⟨tree, endLine, hRead, rfl⟩⟩

/-- The text is an expression of the grammar within the limits, and the tree is its parse. -/
structure Expresses (source : String) (tree : Tree) : Prop where
  parse : ∃ endLine, IsParse source tree endLine
  literals_le : tree.tokens.countP (·.kind = .number) ≤ 256
  nested : NestedWithin 256 tree.tokens

theorem expresses_iff {source : String} {tree : Tree} :
    Expresses source tree ↔ ∃ endLine, Tree.ofSource source = .ok (tree, endLine) := by
  constructor
  · rintro ⟨⟨endLine, hParse⟩, hLiterals, hNested⟩
    exact ⟨endLine, Tree.ofSource_eq_ok_iff.mpr ⟨hParse, hLiterals, hNested⟩⟩
  · rintro ⟨endLine, hRead⟩
    obtain ⟨hParse, hLiterals, hNested⟩ := Tree.ofSource_eq_ok_iff.mp hRead
    exact ⟨⟨endLine, hParse⟩, hLiterals, hNested⟩

theorem Expresses.exists_compile {source : String} {tree : Tree} (h : Expresses source tree) :
    ∃ endLine, compile source = .ok (Chunk.ofTree tree endLine) := by
  obtain ⟨endLine, hRead⟩ := expresses_iff.mp h
  exact ⟨endLine, compile_eq_ok_iff.mpr ⟨tree, endLine, hRead, rfl⟩⟩

/-- A text either is an expression within the limits or has a compile error. -/
theorem exists_compile_error {source : String} (h : ¬ ∃ tree, Expresses source tree) :
    ∃ e, compile source = .error e := by
  cases hCompile : compile source with
  | error e => exact ⟨e, rfl⟩
  | ok chunk =>
      obtain ⟨tree, endLine, hRead, _⟩ := compile_eq_ok_iff.mp hCompile
      exact absurd ⟨tree, expresses_iff.mpr ⟨endLine, hRead⟩⟩ h

end StackCalculator
