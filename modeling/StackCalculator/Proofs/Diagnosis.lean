import StackCalculator.Proofs.Reading

/-!
Which error a text gives that does not compile: the one that a single pass over the results of
scanning finds, with two counters and without any recursion.
-/

namespace StackCalculator

namespace Diagnosis

/-- What can stand at a place of an expression. -/
inductive Position where
  | operand
  | operator
  deriving DecidableEq

/-- The state of the pass: where it is in the expression, how many groups are open and how many
literals came before. -/
structure State where
  position : Position := .operand
  groups : Nat := 0
  literals : Nat := 0
  deriving DecidableEq

inductive Verdict where
  | legal (next : State)
  | complete
  | illegal (reason : Refusal)
  deriving DecidableEq

/-- What the next token means in a state. -/
def State.judge (state : State) (kind : Token.Kind) : Verdict :=
  match state.position, kind with
  | .operand, .number =>
      if state.literals = 256 then .illegal .tooManyConstants
      else .legal { state with position := .operator, literals := state.literals + 1 }
  | .operand, .leftParen =>
      if state.groups = 256 then .illegal .tooMuchNesting
      else .legal { state with groups := state.groups + 1 }
  | .operand, _ => .illegal .expectExpression
  | .operator, .plus | .operator, .minus | .operator, .star | .operator, .slash =>
      .legal { state with position := .operand }
  | .operator, .rightParen =>
      if state.groups = 0 then .illegal .expectEnd
      else .legal { state with groups := state.groups - 1 }
  | .operator, .endOfInput =>
      if state.groups = 0 then .complete else .illegal .expectRightParen
  | .operator, _ =>
      if state.groups = 0 then .illegal .expectEnd else .illegal .expectRightParen

/-- The state in which a result is met, if all results before it are tokens and legal. -/
def stateBefore (results : Nat → Scanned) : Nat → Option State
  | 0 => some {}
  | place + 1 =>
      match stateBefore results place, results place with
      | some state, .ok token =>
          match state.judge token.kind with
          | .legal next => some next
          | _ => none
      | _, _ => none

/-- The error that the result at a place gives, if all results before it are tokens and legal. An
unexpected character is reported itself. It also takes the place of the token before it, if that
is illegal where an operand should stand. -/
def errorAt (results : Nat → Scanned) (place : Nat) : Option CompileError :=
  match stateBefore results place, results place with
  | none, _ => none
  | some _, .error e => some (.unexpected e)
  | some state, .ok token =>
      match state.judge token.kind with
      | .illegal reason =>
          match state.position, results (place + 1) with
          | .operand, .error e => some (.unexpected e)
          | _, _ =>
              let lexeme := if token.kind = .endOfInput then none else some token.lexeme
              some (.refused token.line lexeme reason)
      | _ => none

theorem judge_number {groups literals : Nat} (h : literals ≠ 256) :
    State.judge ⟨.operand, groups, literals⟩ .number = .legal ⟨.operator, groups, literals + 1⟩ :=
  if_neg h

theorem judge_leftParen {groups literals : Nat} (h : groups ≠ 256) :
    State.judge ⟨.operand, groups, literals⟩ .leftParen =
      .legal ⟨.operand, groups + 1, literals⟩ :=
  if_neg h

theorem judge_rightParen {groups literals : Nat} :
    State.judge ⟨.operator, groups + 1, literals⟩ .rightParen =
      .legal ⟨.operator, groups, literals⟩ := rfl

theorem judge_operator {state : State} {kind : Token.Kind} {operator : Operator}
    (hPosition : state.position = .operator) (h : kind.operator? = some operator) :
    state.judge kind = .legal { state with position := .operand } := by
  cases state
  cases hPosition
  cases kind with
  | plus | minus | star | slash => rfl
  | _ => cases h

theorem judge_expectRightParen {state : State} {kind : Token.Kind}
    (hPosition : state.position = .operator) (hGroups : state.groups ≠ 0)
    (hOperator : kind.operator? = none) (hClosing : kind ≠ .rightParen) :
    state.judge kind = .illegal .expectRightParen := by
  cases state
  cases hPosition
  cases kind with
  | plus | minus | star | slash => cases hOperator
  | rightParen => exact absurd rfl hClosing
  | _ => exact if_neg hGroups

theorem judge_expectEnd {state : State} {kind : Token.Kind}
    (hPosition : state.position = .operator) (hGroups : state.groups = 0)
    (hOperator : kind.operator? = none) (hEnd : kind ≠ .endOfInput) :
    state.judge kind = .illegal .expectEnd := by
  cases state
  cases hPosition
  cases kind with
  | plus | minus | star | slash => cases hOperator
  | endOfInput => exact absurd rfl hEnd
  | _ => exact if_pos hGroups

theorem judge_expectExpression {state : State} {kind : Token.Kind}
    (hPosition : state.position = .operand) (hNumber : kind ≠ .number)
    (hOpening : kind ≠ .leftParen) : state.judge kind = .illegal .expectExpression := by
  cases state
  cases hPosition
  cases kind with
  | number => exact absurd rfl hNumber
  | leftParen => exact absurd rfl hOpening
  | _ => rfl

/-- A legal token keeps both counters within their limits. -/
theorem judge_legal_le {state next : State} {kind : Token.Kind}
    (h : state.judge kind = .legal next) (hGroups : state.groups ≤ 256)
    (hLiterals : state.literals ≤ 256) : next.groups ≤ 256 ∧ next.literals ≤ 256 := by
  unfold State.judge at h
  split at h <;> (try split at h) <;> cases h <;> exact ⟨by simp; omega, by simp; omega⟩

theorem stateBefore_succ {results : Nat → Scanned} {place : Nat} {state next : State}
    {token : Token} (hState : stateBefore results place = some state)
    (hResult : results place = .ok token) (hLegal : state.judge token.kind = .legal next) :
    stateBefore results (place + 1) = some next := by
  simp [stateBefore, hState, hResult, hLegal]

theorem stateBefore_le {results : Nat → Scanned} {place : Nat} {state : State}
    (h : stateBefore results place = some state) : state.groups ≤ 256 ∧ state.literals ≤ 256 := by
  induction place generalizing state with
  | zero =>
      cases h
      exact ⟨Nat.zero_le _, Nat.zero_le _⟩
  | succ place ih =>
      rw [stateBefore] at h
      split at h
      · rename_i before token hBefore _
        split at h
        · rename_i next hLegal
          cases h
          obtain ⟨hGroups, hLiterals⟩ := ih hBefore
          exact judge_legal_le hLegal hGroups hLiterals
        · cases h
      · cases h

theorem stateBefore_none {results : Nat → Scanned} {place later : Nat}
    (h : stateBefore results place = none) (hLater : place ≤ later) :
    stateBefore results later = none := by
  induction later, hLater using Nat.le_induction with
  | base => exact h
  | succ later _ ih => simp [stateBefore, ih]

/-- The pass ends at one place only. -/
theorem last_unique {results : Nat → Scanned} {place other : Nat}
    (h : stateBefore results place ≠ none) (hNext : stateBefore results (place + 1) = none)
    (hOther : stateBefore results other ≠ none)
    (hOtherNext : stateBefore results (other + 1) = none) : place = other := by
  rcases Nat.lt_trichotomy place other with hLess | hEqual | hLess
  · exact absurd (stateBefore_none hNext hLess) hOther
  · exact hEqual
  · exact absurd (stateBefore_none hOtherNext hLess) h

/-- An error ends the pass. -/
theorem errorAt_last {results : Nat → Scanned} {place : Nat} {e : CompileError}
    (h : errorAt results place = some e) :
    stateBefore results place ≠ none ∧ stateBefore results (place + 1) = none := by
  unfold errorAt at h
  split at h
  · cases h
  · rename_i hState hResult
    exact ⟨by simp [hState], by simp [stateBefore, hState, hResult]⟩
  · rename_i hState hResult
    split at h
    · rename_i hIllegal
      exact ⟨by simp [hState], by simp [stateBefore, hState, hResult, hIllegal]⟩
    · cases h

theorem errorAt_unique {results : Nat → Scanned} {place other : Nat} {e e' : CompileError}
    (h : errorAt results place = some e) (hOther : errorAt results other = some e') : e = e' := by
  obtain ⟨hState, hNext⟩ := errorAt_last h
  obtain ⟨hOtherState, hOtherNext⟩ := errorAt_last hOther
  cases last_unique hState hNext hOtherState hOtherNext
  exact Option.some.inj (h.symm.trans hOther)

theorem operator?_of_nextBinding {token : Token} {behind : List Token}
    (h : Tree.nextBinding (token :: behind) < 1) : token.kind.operator? = none := by
  cases hOperator : token.kind.operator? with
  | none => rfl
  | some operator =>
      rw [Tree.nextBinding_cons hOperator] at h
      cases operator <;> simp [Operator.binding] at h

/-- The pass has come to a state without an error, and what follows there are the given words and
their ending. -/
structure Standing (results : Nat → Scanned) (ending : Ending) (state : State)
    (tokens : List Token) : Prop where
  reached : ∃ place, stateBefore results place = some state ∧
    ending.Follows results place tokens
  words : ∀ token ∈ tokens, token.IsWord

namespace Standing

variable {results : Nat → Scanned} {ending : Ending} {state : State}

theorem initial (s : Scanner) : Standing s.results s.tokenized.ending {} s.tokenized.tokens :=
  ⟨⟨0, rfl, s.tokenized_follows⟩, s.tokenized_isWord⟩

theorem step {next : State} {token : Token} {behind : List Token}
    (h : Standing results ending state (token :: behind))
    (hLegal : state.judge token.kind = .legal next) : Standing results ending next behind := by
  obtain ⟨place, hState, hResult, hFollows⟩ := h.reached
  exact ⟨⟨place + 1, stateBefore_succ hState hResult hLegal, hFollows⟩,
    fun word hWord => h.words word (List.mem_cons_of_mem _ hWord)⟩

/-- The pass goes over the tokens of a parse tree without an error. Behind them it has counted the
literals of the tree, and the tree's groups are closed again. -/
theorem walk {tree : Tree} {level depth literals : Nat} {rest : List Token}
    (h : Standing results ending ⟨.operand, depth, literals⟩ (tree.tokens ++ rest))
    (hLayered : tree.Layered level) (hDepth : depth + tree.nesting ≤ 256)
    (hLiterals : literals + tree.toExpr.literals.length ≤ 256) :
    Standing results ending ⟨.operator, depth, literals + tree.toExpr.literals.length⟩ rest := by
  induction tree generalizing level depth literals rest with
  | literal token value =>
      simp only [Tree.toExpr, Expr.literals, List.length_singleton] at hLiterals ⊢
      apply h.step
      rw [hLayered.1]
      exact judge_number (by omega)
  | group opening inner closing ih =>
      obtain ⟨hOpening, hInner, hClosing⟩ := hLayered
      simp only [Tree.nesting] at hDepth
      simp only [Tree.tokens, List.cons_append, List.append_assoc, List.nil_append] at h
      have hOpened : Standing results ending ⟨.operand, depth + 1, literals⟩
          (inner.tokens ++ closing :: rest) := by
        apply h.step
        rw [hOpening]
        exact judge_leftParen (by omega)
      apply (ih hOpened hInner (by omega) hLiterals).step
      rw [hClosing]
      exact judge_rightParen
  | binary left operator sign right ihLeft ihRight =>
      obtain ⟨hSign, _, hLeft, hRight⟩ := hLayered
      simp only [Tree.nesting, Tree.toExpr, Expr.literals, List.length_append] at hDepth hLiterals ⊢
      simp only [Tree.tokens, List.append_assoc, List.cons_append] at h
      have hBehindLeft := ihLeft h hLeft (by omega) (by omega)
      have hBehindSign := hBehindLeft.step (judge_operator rfl hSign)
      rw [← Nat.add_assoc]
      exact ihRight hBehindSign hRight (by omega) (by omega)

/-- Where an unexpected character follows, it is reported. -/
theorem unexpected {e : UnexpectedCharacter} (h : Standing results (.unexpected e) state []) :
    ∃ place, errorAt results place = some (.unexpected e) := by
  obtain ⟨place, hState, hResult, _⟩ := h.reached
  exact ⟨place, by simp [errorAt, hState, hResult, Ending.scanned]⟩

/-- Where the first of the remaining tokens, or the end of the input, is illegal in the place of an
operator, it is refused. -/
theorem refuseFirst {tokens : List Token} {reason : Refusal}
    (h : Standing results ending state tokens) (hPosition : state.position = .operator)
    (hEnd : tokens = [] → ∀ line, ending = .endOfInput line →
      state.judge .endOfInput = .illegal reason)
    (hToken : ∀ token behind, tokens = token :: behind →
      state.judge token.kind = .illegal reason) :
    ∃ place, errorAt results place = some (ending.refuseFirst tokens reason) := by
  cases tokens with
  | nil =>
      cases ending with
      | unexpected e => exact h.unexpected
      | endOfInput line =>
          obtain ⟨place, hState, hResult, _⟩ := h.reached
          refine ⟨place, ?_⟩
          simp [errorAt, hState, hResult, Ending.scanned, hEnd rfl line rfl, hPosition,
            Ending.refuseFirst, Ending.refuse]
  | cons token behind =>
      obtain ⟨place, hState, hResult, _⟩ := h.reached
      have hKind := (h.words token List.mem_cons_self).kind_ne
      refine ⟨place, ?_⟩
      simp [errorAt, hState, hResult, hToken token behind rfl, hPosition, hKind,
        Ending.refuseFirst, Token.refuse]

/-- A token that is illegal in the place of an operand is refused, unless an unexpected character
comes right behind it. -/
theorem refuseOperand {token : Token} {behind : List Token} {reason : Refusal}
    (h : Standing results ending state (token :: behind)) (hPosition : state.position = .operand)
    (hIllegal : state.judge token.kind = .illegal reason) :
    ∃ place, errorAt results place = some (ending.refuseOperand token behind reason) := by
  obtain ⟨place, hState, hResult, hFollows⟩ := h.reached
  have hKind := (h.words token List.mem_cons_self).kind_ne
  refine ⟨place, ?_⟩
  cases behind with
  | nil =>
      have hNext := hFollows.1
      cases ending <;>
        simp [errorAt, hState, hResult, hIllegal, hPosition, hNext, hKind, Ending.scanned,
          Ending.refuseOperand, Token.refuse]
  | cons next further =>
      have hNext := hFollows.1
      simp [errorAt, hState, hResult, hIllegal, hPosition, hNext, hKind, Ending.refuseOperand,
        Token.refuse]

/-- At the end of the input no operand can be missing without notice. -/
theorem refuseEnd {depth literals : Nat}
    (h : Standing results ending ⟨.operand, depth, literals⟩ []) :
    ∃ place, errorAt results place = some (ending.refuse .expectExpression) := by
  cases ending with
  | unexpected e => exact h.unexpected
  | endOfInput line =>
      obtain ⟨place, hState, hResult, hLater⟩ := h.reached
      have hNext := hLater line rfl (place + 1) (Nat.le_succ place)
      refine ⟨place, ?_⟩
      simp [errorAt, hState, hResult, hNext, State.judge, Ending.scanned, Ending.refuse]

theorem le {tokens : List Token} (h : Standing results ending state tokens) :
    state.groups ≤ 256 ∧ state.literals ≤ 256 := by
  obtain ⟨_, hState, _⟩ := h.reached
  exact stateBefore_le hState

/-- Behind what the reader has read as a tree, the pass stands before the rest. -/
theorem behind {tree : Tree} {level depth literals read : Nat} {tokens rest : List Token}
    (h : Standing results ending ⟨.operand, depth, literals⟩ tokens)
    (hReads : Tree.Reads depth literals tokens tree read rest) (hLayered : tree.Layered level) :
    Standing results ending ⟨.operator, depth, read⟩ rest := by
  obtain ⟨hDepth, hLiterals⟩ := h.le
  have hRead := hReads.read_le hLiterals
  rw [hReads.read_eq] at hRead ⊢
  rw [← hReads.tokens_eq] at h
  exact h.walk hLayered (hReads.nesting_le hDepth) hRead

open StackCalculator.Tree in
/-- A group that the reader finds unclosed is refused at the token behind its inner expression. -/
theorem refuseUnclosed {depth literals read : Nat} {opening : Token} {behind rest : List Token}
    {inner : Tree} {e : CompileError}
    (hStanding : Standing results ending ⟨.operand, depth, literals⟩ (opening :: behind))
    (hOpening : opening.kind = .leftParen) (hRoom : depth ≠ maxNesting)
    (hInner : exprView ending 1 (depth + 1) literals behind = .ok (inner, read, rest))
    (hRest : ∀ closing after, rest = closing :: after → closing.kind ≠ .rightParen)
    (h : operandView ending depth literals (opening :: behind) = .error e) :
    ∃ place, errorAt results place = some e := by
  obtain ⟨hReads, hLayered, hNext⟩ := reads_of_exprView (Nat.le_refl 1) hInner
  have hOpened : Standing results ending ⟨.operand, depth + 1, literals⟩ behind :=
    hStanding.step (by rw [hOpening]; exact judge_leftParen hRoom)
  rw [operandView_unclosed hOpening hRoom hInner hRest] at h
  cases h
  refine (hOpened.behind hReads hLayered).refuseFirst rfl (fun _ _ _ => rfl) ?_
  rintro closing after rfl
  exact judge_expectRightParen rfl (Nat.succ_ne_zero depth) (operator?_of_nextBinding hNext)
    (hRest closing after rfl)

end Standing

open StackCalculator.Tree in
/-- Every refusal of the reader is the error of the pass. The reader stands at an operand or at an
operator with the counters of the pass, and what it has read before as a tree the pass goes over
in one piece. -/
theorem refuses_all (results : Nat → Scanned) (ending : Ending) :
    (∀ depth literals tokens, ∀ e,
      operandView ending depth literals tokens = .error e →
      Standing results ending ⟨.operand, depth, literals⟩ tokens →
        ∃ place, errorAt results place = some e) ∧
    (∀ binding depth literals tokens, ∀ e,
      exprView ending binding depth literals tokens = .error e →
      Standing results ending ⟨.operand, depth, literals⟩ tokens →
        ∃ place, errorAt results place = some e) ∧
    (∀ binding depth literals (left : Tree) tokens, ∀ e,
      operatorsView ending binding depth literals left tokens = .error e →
      Standing results ending ⟨.operator, depth, literals⟩ tokens →
        ∃ place, errorAt results place = some e) := by
  refine readOperand.mutual_induct ending _ _ _ ?noToken ?unreadable ?tooManyConstants ?literal
    ?tooMuchNesting ?inner ?unclosedAtEnd ?group ?unclosed ?other ?operandError ?operatorsError ?expr
    ?stopAtEnd ?stopAtToken ?rightError ?furtherError ?step ?stopAtLooser
  case noToken =>
    intro depth literals e h hStanding
    rw [operandView_nil] at h
    cases h
    exact hStanding.refuseEnd
  case unreadable =>
    intro depth literals token behind hKind hRead e h hStanding
    obtain ⟨decimal, hDecimal⟩ := (hStanding.words token List.mem_cons_self).readable hKind
    rw [hRead] at hDecimal
    cases hDecimal
  case tooManyConstants =>
    intro depth token behind hKind decimal hDecimal e h hStanding
    rw [operandView_tooManyConstants hKind hDecimal] at h
    cases h
    exact hStanding.refuseOperand rfl (by rw [hKind]; rfl)
  case tooMuchNesting =>
    intro literals opening behind hOpening e h hStanding
    rw [operandView_tooMuchNesting hOpening] at h
    cases h
    exact hStanding.refuseOperand rfl (by rw [hOpening]; rfl)
  case other =>
    intro depth literals token behind hNumber hOpening e h hStanding
    rw [operandView_other hNumber hOpening] at h
    cases h
    exact hStanding.refuseOperand rfl (judge_expectExpression rfl hNumber hOpening)
  case inner =>
    intro depth literals opening behind hOpening hRoom e hInner ih e' h hStanding
    have hView := map_view_eq_error.mpr hInner
    rw [operandView_inner hOpening hRoom hView] at h
    cases h
    exact ih e hView (hStanding.step (by rw [hOpening]; exact judge_leftParen hRoom))
  case unclosedAtEnd =>
    intro depth literals opening behind hOpening hRoom inner read _ hInner _ e h hStanding
    exact hStanding.refuseUnclosed hOpening hRoom (map_view_eq_ok.mpr ⟨_, hInner⟩) (by simp) h
  case unclosed =>
    intro depth literals opening behind hOpening hRoom inner read closing rest _ hInner hClosing _ e h
      hStanding
    exact hStanding.refuseUnclosed hOpening hRoom (map_view_eq_ok.mpr ⟨_, hInner⟩)
      (by rintro _ _ ⟨⟩; exact hClosing) h
  case operandError =>
    intro binding depth literals tokens e hOperand ih e' h hStanding
    have hView := map_view_eq_error.mpr hOperand
    rw [exprView_error hView] at h
    cases h
    exact ih e hView hStanding
  case operatorsError =>
    intro binding depth literals tokens operand read rest _ hOperand e hOperators _ ih e' h
      hStanding
    have hView := map_view_eq_ok.mpr ⟨_, hOperand⟩
    obtain ⟨hReads, hLayered⟩ := reads_of_operandView hView
    rw [exprView_eq hView] at h
    exact ih e' h (hStanding.behind hReads (hLayered 0))
  case rightError =>
    intro binding depth literals left sign behind operator hOperator hBinding e hRight ih e' h
      hStanding
    have hView := map_view_eq_error.mpr hRight
    rw [operatorsView_error hOperator hBinding hView] at h
    cases h
    exact ih e hView (hStanding.step (judge_operator rfl hOperator))
  case furtherError =>
    intro binding depth literals left sign behind operator hOperator hBinding right read rest _
      hRight e hOperators _ ih e' h hStanding
    have hView := map_view_eq_ok.mpr ⟨_, hRight⟩
    obtain ⟨hReads, hLayered, _⟩ := reads_of_exprView (Nat.le_add_left 1 _) hView
    rw [operatorsView_step hOperator hBinding hView] at h
    have hBehindSign := hStanding.step (judge_operator rfl hOperator)
    exact ih e' h (hBehindSign.behind hReads hLayered)
  -- All other cases give a tree, and no error.
  case literal | group =>
    intros
    simp_all [operandView, readOperand, Except.map]
  case expr =>
    intros
    simp_all [exprView, readExpr, Except.map]
  case stopAtEnd | stopAtToken | step =>
    intros
    simp_all [operatorsView, readOperators, Except.map]
  case stopAtLooser =>
    intro binding depth literals left sign behind operator hOperator hBinding e h
    rw [operatorsView_stop (by rw [nextBinding_cons hOperator]; omega)] at h
    cases h

/-- What the reader accepts, the pass goes over to the end. -/
theorem stateBefore_of_read {s : Scanner} {tree : Tree} {endLine : Nat}
    (h : Tree.read s.tokenized = .ok (tree, endLine)) :
    ∃ place, stateBefore s.results place ≠ none ∧ stateBefore s.results (place + 1) = none ∧
      errorAt s.results place = none := by
  obtain ⟨⟨read, hView⟩, hEnding⟩ := Tree.read_eq_ok_iff.mp h
  obtain ⟨hReads, hLayered, _⟩ := Tree.reads_of_exprView (Nat.le_refl 1) hView
  have hStanding := (Standing.initial s).behind hReads hLayered
  rw [hEnding] at hStanding
  obtain ⟨place, hState, hResult, _⟩ := hStanding.reached
  refine ⟨place, by simp [hState], ?_, ?_⟩
  · simp [stateBefore, hState, hResult, Ending.scanned, State.judge]
  · simp [errorAt, hState, hResult, Ending.scanned, State.judge]

/-- What the reader refuses, the pass refuses with the same error. -/
theorem exists_errorAt_of_read {s : Scanner} {e : CompileError}
    (h : Tree.read s.tokenized = .error e) : ∃ place, errorAt s.results place = some e := by
  rw [Tree.read] at h
  cases hRead : Tree.readExpr s.tokenized.ending 1 0 0 s.tokenized.tokens with
  | error e' =>
      rw [hRead] at h
      cases h
      exact (refuses_all _ _).2.1 _ _ _ _ _ (Tree.map_view_eq_error.mpr hRead) (.initial s)
  | ok reading =>
      obtain ⟨tree, read, rest, hRest⟩ := reading
      have hView := Tree.map_view_eq_ok.mpr ⟨_, hRead⟩
      obtain ⟨hReads, hLayered, hNext⟩ := Tree.reads_of_exprView (Nat.le_refl 1) hView
      have hStanding := (Standing.initial s).behind hReads hLayered
      rw [hRead] at h
      dsimp only at h
      split at h
      · cases h
      · rename_i hOther
        cases h
        refine hStanding.refuseFirst rfl
          (fun hNil line hLine => (hOther line hNil hLine).elim) ?_
        rintro token behind rfl
        exact judge_expectEnd rfl rfl (operator?_of_nextBinding hNext)
          (hStanding.words token List.mem_cons_self).kind_ne

theorem judge_ne_invalidNumber (state : State) (kind : Token.Kind) :
    state.judge kind ≠ .illegal .invalidNumber := by
  unfold State.judge
  split <;> (try split) <;> simp

theorem errorAt_ne_invalidNumber {results : Nat → Scanned} {place line : Nat}
    {lexeme : Option String} :
    errorAt results place ≠ some (.refused line lexeme .invalidNumber) := by
  intro h
  unfold errorAt at h
  split at h
  · cases h
  · cases h
  · split at h
    · rename_i hIllegal
      split at h
      · cases h
      · cases h
        exact judge_ne_invalidNumber _ _ hIllegal
    · cases h

end Diagnosis

/-- A text that does not compile gives the error that one pass over the results of scanning finds:
that of the first result that is no legal token in its place. No number literal is ever
refused as such. -/
theorem compile_error_iff_errorAt (source : String) :
    (∀ e, compile source = .error e ↔
      ∃ place, Diagnosis.errorAt (Scanner.ofText source).results place = some e) ∧
    ∀ line lexeme, compile source ≠ .error (.refused line lexeme .invalidNumber) := by
  have hFound : ∀ e, compile source = .error e →
      ∃ place, Diagnosis.errorAt (Scanner.ofText source).results place = some e := by
    intro e h
    apply Diagnosis.exists_errorAt_of_read
    rw [compile, Tree.ofSource] at h
    split at h
    · rename_i hRead
      cases h
      exact hRead
    · cases h
  refine ⟨fun e => ⟨hFound e, ?_⟩, ?_⟩
  · rintro ⟨place, hError⟩
    cases hCompile : compile source with
    | error e' =>
        obtain ⟨other, hOther⟩ := hFound e' hCompile
        rw [Diagnosis.errorAt_unique hError hOther]
    | ok chunk =>
        obtain ⟨tree, endLine, hRead, _⟩ := compile_eq_ok_iff.mp hCompile
        obtain ⟨last, hState, hNext, hNone⟩ := Diagnosis.stateBefore_of_read hRead
        obtain ⟨hErrorState, hErrorNext⟩ := Diagnosis.errorAt_last hError
        rw [Diagnosis.last_unique hErrorState hErrorNext hState hNext, hNone] at hError
        cases hError
  · intro line lexeme h
    obtain ⟨place, hError⟩ := hFound _ h
    exact Diagnosis.errorAt_ne_invalidNumber hError

end StackCalculator
