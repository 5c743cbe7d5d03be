import StackCalculator.Proofs.Agreement
import StackCalculator.Proofs.Evaluation
import StackCalculator.Proofs.Extension
import StackCalculator.Proofs.LineTable

/-!
What the parser does when it reads a part of a text, from any of its states and on any level. It takes
the longest expression that has no looser operator outside of its groups, and the code that it writes
pushes the expression's value.
-/

namespace StackCalculator

/-- Every operator that stands outside of groups binds at least as tightly as a level. -/
def Precedence.Bounds (least : Precedence) (tokens : List Token) : Prop :=
  ∀ before sign behind operator, tokens = before ++ sign :: behind → opens before = closes before →
    sign.kind.operator? = some operator → least ≤ (rule sign.kind).precedence

/-- A place in two sequences with a token between them is in one of the two, or between them. -/
theorem split_join {left right before behind : List Token} {between sign : Token}
    (hSplit : left ++ between :: right = before ++ sign :: behind) :
    (∃ middle, left = before ++ sign :: middle) ∨ before = left ∧ sign = between ∨
      ∃ front, before = left ++ between :: front ∧ right = front ++ sign :: behind := by
  rcases List.append_eq_append_iff.mp hSplit with ⟨middle, rfl, hRest⟩ | ⟨middle, rfl, hRest⟩
  · cases middle with
    | nil =>
        cases hRest
        exact .inr (.inl ⟨List.append_nil _, rfl⟩)
    | cons first front =>
        cases hRest
        exact .inr (.inr ⟨front, rfl, rfl⟩)
  · cases middle with
    | nil =>
        cases hRest
        exact .inr (.inl ⟨(List.append_nil _).symm, rfl⟩)
    | cons first front =>
        cases hRest
        exact .inl ⟨front, rfl⟩

/-- A sequence of tokens that closes every group it opens, and no other. -/
structure Balanced (tokens : List Token) : Prop where
  opens_eq : opens tokens = closes tokens
  closes_le : ∀ before sign behind, tokens = before ++ sign :: behind → closes before ≤ opens before

/-- A token that an operand ends with. -/
def Token.EndsOperand (token : Token) : Prop :=
  token.kind = .number ∨ token.kind = .rightParen

/-- What stands outside of groups: operators of at least a binding, and behind each operand an
operator. -/
def Separated (binding : Nat) (tokens : List Token) : Prop :=
  ∀ before sign behind, tokens = before ++ sign :: behind → opens before = closes before →
    (∀ operator, sign.kind.operator? = some operator → binding ≤ operator.binding) ∧
      ∀ last, before.getLast? = some last → last.EndsOperand →
        ∃ operator, sign.kind.operator? = some operator

section Joining

variable {left right inner : List Token} {sign opening closing : Token} {operator : Operator}

theorem Balanced.join (hLeft : Balanced left) (hSign : sign.kind.operator? = some operator)
    (hRight : Balanced right) : Balanced (left ++ sign :: right) := by
  obtain ⟨hOpening, hClosing, _⟩ := Token.Kind.ne_of_operator? hSign
  constructor
  · simp [hOpening, hClosing, hLeft.opens_eq, hRight.opens_eq]
  · intro before token behind hSplit
    rcases split_join hSplit with ⟨middle, hInLeft⟩ | ⟨rfl, _⟩ | ⟨front, rfl, hInRight⟩
    · exact hLeft.closes_le before token middle hInLeft
    · exact hLeft.opens_eq.ge
    · have hFront := hRight.closes_le front token behind hInRight
      simp [hOpening, hClosing, hLeft.opens_eq, hFront]

/-- Behind the opening of a group, the group is open until its closing has been taken. -/
theorem Balanced.closes_lt_of_group (hInner : Balanced inner) (hOpening : opening.kind = .leftParen)
    {before behind : List Token} {token : Token}
    (hSplit : opening :: (inner ++ [closing]) = before ++ token :: behind) :
    before = [] ∧ token = opening ∨ closes before < opens before := by
  cases before with
  | nil =>
      cases hSplit
      exact .inl ⟨rfl, rfl⟩
  | cons first front =>
      obtain ⟨rfl, hFront⟩ := List.cons.inj hSplit
      have hLe : closes front ≤ opens front := by
        rcases split_join hFront with ⟨middle, hInside⟩ | ⟨rfl, _⟩ | ⟨rest, _, hRest⟩
        · exact hInner.closes_le front token middle hInside
        · exact hInner.opens_eq.ge
        · simp at hRest
      refine .inr ?_
      simp [hOpening]
      omega

theorem Balanced.group (hOpening : opening.kind = .leftParen) (hInner : Balanced inner)
    (hClosing : closing.kind = .rightParen) : Balanced (opening :: (inner ++ [closing])) := by
  constructor
  · simp [hOpening, hClosing, hInner.opens_eq]
  · intro before token behind hSplit
    rcases hInner.closes_lt_of_group hOpening hSplit with ⟨rfl, _⟩ | hLess
    · exact Nat.le_refl 0
    · exact hLess.le

theorem Separated.mono {binding looser : Nat} {tokens : List Token} (h : Separated binding tokens)
    (hLe : looser ≤ binding) : Separated looser tokens := by
  intro before token behind hSplit hOutside
  obtain ⟨hBinding, hOperand⟩ := h before token behind hSplit hOutside
  exact ⟨fun other hOther => hLe.trans (hBinding other hOther), hOperand⟩

theorem Separated.join {binding : Nat} (hLeft : Separated binding left) (hClosed : Balanced left)
    (hSign : sign.kind.operator? = some operator) (hBinding : binding ≤ operator.binding)
    (hRight : Separated binding right) : Separated binding (left ++ sign :: right) := by
  obtain ⟨hOpening, hClosing, hNumber⟩ := Token.Kind.ne_of_operator? hSign
  intro before token behind hSplit hOutside
  rcases split_join hSplit with ⟨middle, hInLeft⟩ | ⟨rfl, rfl⟩ | ⟨front, rfl, hInRight⟩
  · exact hLeft before token middle hInLeft hOutside
  · refine ⟨fun other hOther => ?_, fun _ _ _ => ⟨operator, hSign⟩⟩
    rw [hSign] at hOther
    cases hOther
    exact hBinding
  · have hFront : opens front = closes front := by
      simpa [hOpening, hClosing, hClosed.opens_eq] using hOutside
    obtain ⟨hOperator, hOperand⟩ := hRight front token behind hInRight hFront
    refine ⟨hOperator, fun last hLast hEnds => ?_⟩
    rw [List.getLast?_append_cons, List.getLast?_cons] at hLast
    cases hRest : front.getLast? with
    | none =>
        -- The token before is the operator itself, and no operand ends with one.
        simp only [hRest, Option.getD_none, Option.some.injEq] at hLast
        subst hLast
        exact absurd hEnds (not_or.mpr ⟨hNumber, hClosing⟩)
    | some token =>
        simp only [hRest, Option.getD_some, Option.some.injEq] at hLast
        subst hLast
        exact hOperand _ hRest hEnds

theorem Balanced.single {token : Token} (hKind : token.kind = .number) : Balanced [token] := by
  constructor
  · simp [hKind]
  · intro before sign behind hSplit
    cases before with
    | nil => exact Nat.le_refl 0
    | cons first front => simp at hSplit

theorem Separated.single (binding : Nat) {token : Token} (hKind : token.kind = .number) :
    Separated binding [token] := by
  intro before sign behind hSplit _
  cases before with
  | nil =>
      cases hSplit
      refine ⟨fun operator hOperator => ?_, fun last hLast => by simp at hLast⟩
      rw [hKind] at hOperator
      cases hOperator
  | cons first front => simp at hSplit

theorem Separated.group (binding : Nat) (hOpening : opening.kind = .leftParen)
    (hInner : Balanced inner) : Separated binding (opening :: (inner ++ [closing])) := by
  intro before token behind hSplit hOutside
  rcases hInner.closes_lt_of_group hOpening hSplit with ⟨rfl, rfl⟩ | hLess
  · refine ⟨fun operator hOperator => ?_, fun last hLast => by simp at hLast⟩
    rw [hOpening] at hOperator
    cases hOperator
  · exact absurd hOutside hLess.ne'

end Joining

namespace Derives

variable {layer : Nonterminal} {tokens : List Token}

theorem balanced (h : Derives layer tokens) : Balanced tokens := by
  induction h with
  | term _ ih | factor _ ih => exact ih
  | sum _ hSign _ ihLeft ihRight =>
      obtain ⟨operator, hOperator, _⟩ := Token.Kind.exists_binding_one_iff.mpr hSign
      exact ihLeft.join hOperator ihRight
  | product _ hSign _ ihLeft ihRight =>
      obtain ⟨operator, hOperator, _⟩ := Token.Kind.exists_binding_two_iff.mpr hSign
      exact ihLeft.join hOperator ihRight
  | number hKind => exact .single hKind
  | group hOpening _ hClosing ih => exact .group hOpening ih hClosing

theorem separated (h : Derives layer tokens) : Separated layer.binding tokens := by
  induction h with
  | term _ ih | factor _ ih => exact ih.mono (by decide)
  | sum hLeft hSign _ ihLeft ihRight =>
      obtain ⟨operator, hOperator, hBinding⟩ := Token.Kind.exists_binding_one_iff.mpr hSign
      exact ihLeft.join hLeft.balanced hOperator hBinding.ge (ihRight.mono (by decide))
  | product hLeft hSign _ ihLeft ihRight =>
      obtain ⟨operator, hOperator, hBinding⟩ := Token.Kind.exists_binding_two_iff.mpr hSign
      exact ihLeft.join hLeft.balanced hOperator hBinding.ge (ihRight.mono (by decide))
  | number hKind => exact .single _ hKind
  | group hOpening hInner _ _ => exact .group _ hOpening hInner.balanced

end Derives

theorem Operator.binding_pos (operator : Operator) : 1 ≤ operator.binding := by
  cases operator <;> decide

theorem Tree.Layered.separated {tree : Tree} {binding : Nat} (h : tree.Layered binding) :
    Separated binding tree.tokens := by
  induction tree generalizing binding with
  | literal token value => exact .single binding h.1
  | group opening inner closing ih =>
      exact .group binding h.1 (h.2.1.derives .expression).balanced
  | binary left operator sign right ihLeft ihRight =>
      obtain ⟨hSign, hBinding, hLeft, hRight⟩ := h
      have hClosed := ((hLeft.mono operator.binding_pos).derives .expression).balanced
      exact ((ihLeft hLeft).mono hBinding).join hClosed hSign hBinding
        ((ihRight hRight).mono (hBinding.trans (Nat.le_succ _)))

namespace Precedence

theorem lt_of_not_le {a b : Precedence} (h : ¬a ≤ b) : b < a :=
  Nat.lt_of_not_le h

theorem bounds_of_separated {least : Precedence} {tokens : List Token}
    (hLeast : .assignment ≤ least) (h : Separated least.binding tokens) : least.Bounds tokens := by
  intro before sign behind operator hSplit hOutside hOperator
  obtain ⟨hBinding, _⟩ := h before sign behind hSplit hOutside
  exact (le_precedence_iff hLeast hOperator).mpr (hBinding operator hOperator)

end Precedence

/-- A parse tree is the only one of its tokens. -/
theorem Tree.Layered.unique {tree other : Tree} (h : tree.Layered 1) (hOther : other.Layered 1)
    (hTokens : other.tokens = tree.tokens) (hNesting : tree.nesting ≤ maxNesting)
    (hLiterals : tree.toExpr.literals.length ≤ maxLiterals) : other = tree := by
  have hRead (t : Tree) (hLayered : t.Layered 1) (hSame : t.tokens = tree.tokens) :
      exprView (.endOfInput 1) 1 0 0 tree.tokens = .ok (t, t.toExpr.literals.length, []) := by
    have hLimit : t.nesting ≤ maxNesting := by
      rw [← hLayered.nestedWithin_iff, hSame, h.nestedWithin_iff]
      exact hNesting
    have hCount : t.toExpr.literals.length ≤ maxLiterals := by
      rw [← hLayered.countP_number, hSame, h.countP_number]
      exact hLiterals
    have hView : exprView (.endOfInput 1) 1 0 0 (t.tokens ++ []) = _ :=
      hLayered.exprView_tokens (Nat.le_refl 1) (Nat.zero_le _) (by simpa using hLimit)
        (by simpa using hCount)
    rw [operatorsView_nil, List.append_nil, hSame, Nat.zero_add] at hView
    exact hView
  have hBoth := (hRead tree h rfl).symm.trans (hRead other hOther hTokens)
  cases hBoth
  rfl

namespace Machine

/-- The code that is written for a tree pushes the tree's value, whatever code and whatever constants
follow. -/
theorem runFrom_emit {chunk : Chunk} {tree : Tree} {pool : Array Number}
    (hPool : (chunk.emit tree).constants.toList <+: pool.toList)
    (hBytes : (chunk.emit tree).constants.size ≤ 256) (rest : List UInt8) (offset : Nat)
    (stack : List Number) (hRoom : stack.length + tree.toExpr.stackNeed ≤ stackLimit) :
    ∃ snapshots,
      runFrom pool ((tree.toExpr.indexed chunk.constants.size).code ++ rest) offset stack =
        (runFrom pool rest (offset + (tree.toExpr.indexed chunk.constants.size).code.length)
          (tree.toExpr.eval :: stack)).behind snapshots := by
  obtain ⟨more, hMore⟩ := hPool
  rw [Chunk.constants_emit, List.append_assoc] at hMore
  rw [Chunk.size_constants_emit] at hBytes
  have hLookup := Expr.lookup_indexed tree.toExpr chunk.constants.toList more hMore.symm
    (by rwa [Buffer.length_toList])
  rw [Buffer.length_toList] at hLookup
  exact runFrom_code hLookup rest offset stack hRoom

end Machine

namespace Parser

variable {p : Parser}

/-- A token on a looser level is no operator that could go on with the expression. -/
theorem precedence_lt_of_stop {least : Precedence} (hLeast : .assignment ≤ least)
    (hStop : Tree.nextBinding p.ahead.tokens < least.binding) :
    (rule p.current.kind).precedence < least := by
  refine Precedence.lt_of_not_le fun hLe => ?_
  rw [ahead, CallStack.nextBinding_upcoming] at hStop
  cases hOperator : p.current.kind.operator? with
  | none => exact not_le_precedence hLeast hOperator hLe
  | some operator =>
      rw [hOperator] at hStop
      exact Nat.not_lt.mpr ((le_precedence_iff hLeast hOperator).mp hLe) hStop

theorem head_ahead {first : Token} {more : List Token} (h : p.ahead.tokens = first :: more) :
    first = p.current := by
  by_cases hEnd : p.current.kind = .endOfInput
  · rw [ahead, CallStack.upcoming_of_end hEnd] at h
    cases h
  · rw [ahead, CallStack.upcoming_of_word hEnd] at h
    exact (List.cons.inj h).1.symm

/-- Behind an expression, only an operator can go on with it. If the token in view is on a looser
level, the expression is as long as it can be. -/
theorem not_bounds_of_append {least : Precedence} {tree : Tree} (hLayered : tree.Layered 1)
    (hNext : (rule p.current.kind).precedence < least) {more : List Token} (hMore : more ≠ [])
    (hPrefix : more <+: p.ahead.tokens) (hDerives : Derives .expression (tree.tokens ++ more)) :
    ¬least.Bounds (tree.tokens ++ more) := by
  intro hBounds
  obtain ⟨behind, hAhead⟩ := hPrefix
  obtain ⟨first, further, rfl⟩ := List.exists_cons_of_ne_nil hMore
  obtain rfl := head_ahead hAhead.symm
  obtain ⟨before, last, hTokens, _, hEnds⟩ := hLayered.exists_last
  have hLast : tree.tokens.getLast? = some last := by rw [hTokens, List.getLast?_concat]
  have hClosed := (hLayered.derives .expression).balanced.opens_eq
  obtain ⟨_, hOperand⟩ := hDerives.separated tree.tokens p.current further rfl hClosed
  obtain ⟨operator, hOperator⟩ := hOperand last hLast hEnds
  have hLevel := hBounds tree.tokens p.current further operator rfl hClosed hOperator
  exact Nat.not_le_of_lt hNext hLevel

/-- What a parser has done that has read on a level. It has taken an expression that has only
operators of at least this level outside of its groups, and no longer part of the text is one. As many
groups are open as before, nothing that was written before has changed, and the new code pushes the
value of the expression wherever there is room for it. -/
theorem parse_contract {least : Precedence} {p after : Parser} (hLeast : .assignment ≤ least)
    (hDepth : p.depth ≤ 256) (hParse : p.parse least = .ok after) :
    ∃ tree : Tree,
      tree.tokens ≠ [] ∧
      p.ahead.tokens = tree.tokens ++ after.ahead.tokens ∧ after.ahead.ending = p.ahead.ending ∧
      Derives .expression tree.tokens ∧ least.Bounds tree.tokens ∧
      (rule after.current.kind).precedence < least ∧
      (∀ more, more ≠ [] → more <+: after.ahead.tokens →
        Derives .expression (tree.tokens ++ more) → ¬least.Bounds (tree.tokens ++ more)) ∧
      tree.Layered 1 ∧
      (∀ other : Tree, other.Layered 1 → other.tokens = tree.tokens → other = tree) ∧
      after.depth = p.depth ∧
      ∃ code lines constants,
        after.chunk.code = p.chunk.code ++ code ∧
        after.chunk.lines = p.chunk.lines ++ lines ∧
        after.chunk.constants.toList = p.chunk.constants.toList ++ constants ∧
        ∀ pool : Array Number, after.chunk.constants.toList <+: pool.toList →
          ∀ rest offset stack, stack.length + tree.toExpr.stackNeed ≤ 256 →
            ∃ snapshots, Machine.runFrom pool (code ++ rest) offset stack =
              (Machine.runFrom pool rest (offset + code.length)
                (tree.toExpr.eval :: stack)).behind snapshots := by
  obtain ⟨tree, hArrives, hReading⟩ := exists_tree_of_parse hLeast hParse
  obtain ⟨hReads, hLevel, hStop⟩ := Tree.reads_of_exprView least.binding_pos hReading
  have hLayered : tree.Layered 1 := hLevel.mono least.binding_pos
  have hNext := precedence_lt_of_stop hLeast hStop
  have hConstants := hArrives.constants_le
  rw [hArrives.chunk_eq] at hConstants
  refine ⟨tree, ?_, hReads.tokens_eq.symm, hArrives.ending_eq, hLayered.derives .expression,
    Precedence.bounds_of_separated hLeast hLevel.separated, hNext,
    fun more => not_bounds_of_append hLayered hNext, hLayered, fun other hOther hTokens => ?_,
    hArrives.depth_eq, (tree.toExpr.indexed p.chunk.constants.size).code, tree.lines,
    tree.toExpr.literals, ?_, ?_, ?_, fun pool hPool => ?_⟩
  · obtain ⟨before, last, hTokens, _⟩ := hLayered.exists_last
    simp [hTokens]
  · have hNesting := hReads.nesting_le hDepth
    rw [Chunk.size_constants_emit] at hConstants
    exact hLayered.unique hOther hTokens (by omega) (by omega)
  · rw [hArrives.chunk_eq, Chunk.code_emit]
  · rw [hArrives.chunk_eq, Chunk.lines_emit]
  · rw [hArrives.chunk_eq, Chunk.constants_emit]
  · rw [hArrives.chunk_eq] at hPool
    exact Machine.runFrom_emit hPool hConstants

/-- Behind a first operand that has been written, inside 255 open groups: on the level of products the
group still belongs to the expression, and the difference behind it does not. -/
theorem parse_contract_of_product :
    ∃ (p after : Parser) (tree : Tree), p.chunk.code = [1, 0] ∧ p.depth = 255 ∧
      p.parse .factor = .ok after ∧ tree.tokens.map Token.lexeme = ["2", "*", "(", "3", ")"] ∧
      after.current.kind = .minus ∧ after.depth = 255 ∧
      after.chunk.code = [1, 0] ++ [1, 1, 1, 2, 4] ∧
      (Machine.runFrom after.chunk.pool ([1, 1, 1, 2, 4] ++ [Opcode.ret.byte]) 2 [⟨5⟩]).outcome =
        .ok tree.toExpr.eval := by
  let p : Parser := ⟨Scanner.ofText "*(3)-4", ⟨⟨#[⟨1, 1⟩, ⟨0, 1⟩], 8⟩, ⟨#[⟨5⟩], 4⟩⟩, ⟨.plus, "+", 1⟩,
    ⟨.number, "2", 1⟩, 255⟩
  have hKnown : (p.parse .factor).toOption.map
        (fun after => (after.ahead.tokens.map Token.lexeme, after.current.kind, after.chunk.code)) =
      some (["-", "4"], .minus, [1, 0] ++ [1, 1, 1, 2, 4]) := by decide +kernel
  have hAhead : p.ahead.tokens.map Token.lexeme = ["2", "*", "(", "3", ")"] ++ ["-", "4"] := by
    decide +kernel
  obtain ⟨after, hParse, hAfter⟩ := exists_ok_of_toOption hKnown
  simp only [Prod.mk.injEq] at hAfter
  obtain ⟨hLeft, hKind, hCode⟩ := hAfter
  obtain ⟨tree, _, hTokens, _, _, _, _, _, hLayered, _, hDepth, code, _, _, hAppended, _, _, hRun⟩ :=
    parse_contract (by decide) (by decide) hParse
  rw [hTokens, List.map_append, hLeft] at hAhead
  rw [hCode] at hAppended
  obtain rfl := List.append_cancel_left hAppended
  have hTaken := List.append_cancel_right hAhead
  have hNeed : tree.toExpr.stackNeed ≤ 5 :=
    calc tree.toExpr.stackNeed
      _ ≤ tree.toExpr.literals.length := tree.toExpr.stackNeed_le_literals
      _ = tree.tokens.countP (·.kind = .number) := hLayered.countP_number.symm
      _ ≤ tree.tokens.length := List.countP_le_length
      _ = (tree.tokens.map Token.lexeme).length := (List.length_map _).symm
      _ = 5 := by rw [hTaken]; rfl
  obtain ⟨snapshots, hOutcome⟩ := hRun after.chunk.pool List.prefix_rfl [Opcode.ret.byte] 2 [⟨5⟩]
    (Nat.le_trans (Nat.add_le_add_left hNeed 1) (by decide))
  refine ⟨p, after, tree, rfl, rfl, hParse, hTaken, hKind, hDepth, hCode, ?_⟩
  rw [hOutcome, Machine.runFrom_ret]
  rfl

end Parser

end StackCalculator
