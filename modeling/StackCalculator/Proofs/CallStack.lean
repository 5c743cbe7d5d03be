import Mathlib.Logic.Basic
import StackCalculator.Tree.Reader

/-!
Reading with the unfinished calls on a list. A machine takes its tokens from the scanner one by one,
with one of them in view, and counts the open groups. No step of it calls anything. It takes a number
of steps that is linear in the text, and never has more than three unfinished calls for each open
group and for the whole text.
-/

namespace StackCalculator

theorem Token.Kind.ne_endOfInput_of_operator? {kind : Kind} {operator : Operator}
    (h : kind.operator? = some operator) : kind ≠ .endOfInput := by
  rintro rfl
  cases h

namespace CallStack

/-- A call that reads an expression and waits for a further call on top of it. -/
inductive Pending where
  /-- It has opened a group and waits for the expression inside. -/
  | group (binding : Nat) (opening : Token)
  /-- It has read an operator and waits for the right operand. -/
  | right (binding : Nat) (left : Tree) (operator : Operator) (sign : Token)

/-- Whether a call has a group open whose inner expression is still being read. -/
def Pending.isGroup : Pending → Bool
  | .group _ _ => true
  | .right _ _ _ _ => false

/-- A moment of reading, between two steps. -/
structure Moment where
  /-- The least binding of the operators that the innermost call takes in. -/
  binding : Nat
  /-- What the innermost call has read so far. Until it has its first operand there is nothing. -/
  left? : Option Tree
  /-- The calls that wait for the innermost one, the last one made first. -/
  pending : List Pending
  /-- The counter of open groups. -/
  depth : Nat
  literals : Nat
  /-- The token in view, which has been scanned and not yet taken. -/
  ahead : Token
  scanner : Scanner

/-- How many calls are under way, the innermost one included. -/
def Moment.calls (m : Moment) : Nat :=
  m.pending.length + 1

/-- How many groups are open whose inner expression is still being read. -/
def Moment.openGroups (m : Moment) : Nat :=
  m.pending.countP Pending.isGroup

/-- The first moment: the outermost call begins, with a token in view. -/
def Moment.first (ahead : Token) (scanner : Scanner) : Moment where
  binding := 1
  left? := none
  pending := []
  depth := 0
  literals := 0
  ahead := ahead
  scanner := scanner

/-- How reading can end: with a tree and the line on which the input ends, or with an error. -/
abbrev Outcome :=
  Except CompileError (Tree × Nat)

/-- What a step comes to. -/
inductive Next where
  | goOn (moment : Moment)
  | finished (outcome : Outcome)

/-- Refuses a token, which can be the end of the input. -/
def refuse (token : Token) (reason : Refusal) : Next :=
  let lexeme := if token.kind = .endOfInput then none else some token.lexeme
  .finished (.error (.refused token.line lexeme reason))

namespace Moment

/-- Takes the token in view. The next one comes into view, unless it is an unexpected character, which
ends the reading. -/
def advance (m : Moment) (goOn : Moment → Next) : Next :=
  match m.scanner.scan with
  | (.error e, _) => .finished (.error (.unexpected e))
  | (.ok token, after) => goOn { m with ahead := token, scanner := after }

/-- The first step of a call: it takes a literal, or opens a group and calls for what is inside. -/
def readOperand (m : Moment) : Next :=
  m.advance fun next =>
    match m.ahead.kind with
    | .number =>
        match Decimal.read? m.ahead.lexeme.toList with
        | none => refuse m.ahead .invalidNumber
        | some decimal =>
            if m.literals = Tree.maxLiterals then
              refuse m.ahead .tooManyConstants
            else
              .goOn { next with
                left? := some (.literal m.ahead decimal.toNumber)
                literals := m.literals + 1 }
    | .leftParen =>
        if m.depth = Tree.maxNesting then
          refuse m.ahead .tooMuchNesting
        else
          .goOn { next with
            binding := 1
            left? := none
            pending := .group m.binding m.ahead :: m.pending
            depth := m.depth + 1 }
    | _ => refuse m.ahead .expectExpression

/-- The last step of a call: what it has read goes to the call that waits for it. A group must be
closed then, and behind the outermost call nothing may follow. -/
def giveBack (m : Moment) (tree : Tree) : Next :=
  match m.pending with
  | [] =>
      if m.ahead.kind = .endOfInput then
        .finished (.ok (tree, m.ahead.line))
      else
        refuse m.ahead .expectEnd
  | .right binding left operator sign :: pending =>
      .goOn { m with
        binding := binding
        left? := some (.binary left operator sign tree)
        pending := pending }
  | .group binding opening :: pending =>
      if m.ahead.kind = .rightParen then
        m.advance fun next => .goOn { next with
          binding := binding
          left? := some (.group opening tree m.ahead)
          pending := pending
          depth := m.depth - 1 }
      else
        refuse m.ahead .expectRightParen

/-- A step behind an operand: an operator that binds tightly enough calls for its right operand, and
otherwise the call is over. -/
def readOperator (m : Moment) (left : Tree) : Next :=
  match m.ahead.kind.operator? with
  | none => m.giveBack left
  | some operator =>
      if m.binding ≤ operator.binding then
        m.advance fun next => .goOn { next with
          binding := operator.binding + 1
          left? := none
          pending := .right m.binding left operator m.ahead :: m.pending }
      else
        m.giveBack left

def step (m : Moment) : Next :=
  match m.left? with
  | none => m.readOperand
  | some left => m.readOperator left

/-- The steps that do not end the reading. -/
inductive Moves (m : Moment) : Moment → Prop where
  | literal {token : Token} {after : Scanner} {tree : Tree} (hKind : m.ahead.kind = .number)
      (hScan : m.scanner.scan = (.ok token, after)) :
      Moves m ⟨m.binding, some tree, m.pending, m.depth, m.literals + 1, token, after⟩
  | enter {token : Token} {after : Scanner} (hKind : m.ahead.kind = .leftParen)
      (hRoom : m.depth ≠ Tree.maxNesting) (hScan : m.scanner.scan = (.ok token, after)) :
      Moves m ⟨1, none, .group m.binding m.ahead :: m.pending, m.depth + 1, m.literals, token, after⟩
  | operand {token : Token} {after : Scanner} {left : Tree} {operator : Operator}
      (hOperator : m.ahead.kind.operator? = some operator)
      (hBinding : m.binding ≤ operator.binding)
      (hScan : m.scanner.scan = (.ok token, after)) :
      Moves m ⟨operator.binding + 1, none, .right m.binding left operator m.ahead :: m.pending,
        m.depth, m.literals, token, after⟩
  | apply {binding : Nat} {left tree : Tree} {operator : Operator} {sign : Token}
      {pending : List Pending} (hPending : m.pending = .right binding left operator sign :: pending) :
      Moves m ⟨binding, some tree, pending, m.depth, m.literals, m.ahead, m.scanner⟩
  | leave {token : Token} {after : Scanner} {binding : Nat} {opening : Token} {tree : Tree}
      {pending : List Pending} (hPending : m.pending = .group binding opening :: pending)
      (hKind : m.ahead.kind = .rightParen) (hScan : m.scanner.scan = (.ok token, after)) :
      Moves m ⟨binding, some tree, pending, m.depth - 1, m.literals, token, after⟩

theorem exists_of_advance {m next : Moment} {goOn : Moment → Next}
    (h : m.advance goOn = .goOn next) :
    ∃ token after, m.scanner.scan = (.ok token, after) ∧
      goOn { m with ahead := token, scanner := after } = .goOn next := by
  unfold advance at h
  split at h
  · cases h
  · exact ⟨_, _, ‹_›, h⟩

theorem moves_of_readOperand {m next : Moment} (h : m.readOperand = .goOn next) :
    m.Moves next := by
  obtain ⟨token, after, hScan, h⟩ := exists_of_advance h
  split at h
  · rename_i hKind
    split at h
    · cases h
    · split at h
      · cases h
      · cases h
        exact .literal hKind hScan
  · rename_i hKind
    split at h
    · cases h
    · rename_i hRoom
      cases h
      exact .enter hKind hRoom hScan
  · cases h

theorem moves_of_giveBack {m next : Moment} {tree : Tree} (h : m.giveBack tree = .goOn next) :
    m.Moves next := by
  unfold giveBack at h
  split at h
  · split at h <;> cases h
  · rename_i hPending
    cases h
    exact .apply hPending
  · rename_i hPending
    split at h
    · rename_i hKind
      obtain ⟨token, after, hScan, h⟩ := exists_of_advance h
      cases h
      exact .leave hPending hKind hScan
    · cases h

/-- Every step that goes on is one of the five. -/
theorem moves_of_step {m next : Moment} (h : m.step = .goOn next) : m.Moves next := by
  unfold step at h
  split at h
  · exact moves_of_readOperand h
  · rename_i left _
    unfold readOperator at h
    split at h
    · exact moves_of_giveBack h
    · rename_i operator hOperator
      split at h
      · rename_i hBinding
        obtain ⟨token, after, hScan, h⟩ := exists_of_advance h
        cases h
        exact .operand hOperator hBinding hScan
      · exact moves_of_giveBack h

/-- How much is left to scan, the token in view included. Nothing is left behind the end of the
input, although it can be scanned again and again. -/
def remaining (ahead : Token) (scanner : Scanner) : Nat :=
  if ahead.kind = .endOfInput then 0 else scanner.rest.length + 1

theorem remaining_le {token : Token} {s after : Scanner} (hScan : s.scan = (.ok token, after)) :
    remaining token after ≤ s.rest.length := by
  rw [remaining]
  split
  · exact Nat.zero_le _
  · rename_i hKind
    rcases s.scan_eq_end_or_rest_lt with ⟨_, hToken, hEnd⟩ | hLess
    · rw [hScan] at hToken
      cases hToken
      exact absurd hEnd hKind
    · rw [hScan] at hLess
      exact hLess

theorem remaining_lt {ahead token : Token} {s after : Scanner} (hScan : s.scan = (.ok token, after))
    (hKind : ahead.kind ≠ .endOfInput) : remaining token after < remaining ahead s := by
  have hAhead : remaining ahead s = s.rest.length + 1 := if_neg hKind
  rw [hAhead]
  exact Nat.lt_succ_of_le (remaining_le hScan)

/-- A bound on the steps that are left. Every token lets at most one call begin, and one more step
ends it. -/
def stepsLeft (m : Moment) : Nat :=
  2 * remaining m.ahead m.scanner + m.pending.length

theorem Moves.stepsLeft_lt {m next : Moment} (h : m.Moves next) : next.stepsLeft < m.stepsLeft := by
  cases h with
  | literal hKind hScan =>
      have hLess := remaining_lt hScan (hKind.trans_ne (by decide))
      simp only [stepsLeft]
      omega
  | enter hKind _ hScan =>
      have hLess := remaining_lt hScan (hKind.trans_ne (by decide))
      simp only [stepsLeft, List.length_cons]
      omega
  | operand hOperator _ hScan =>
      have hLess := remaining_lt hScan (Token.Kind.ne_endOfInput_of_operator? hOperator)
      simp only [stepsLeft, List.length_cons]
      omega
  | apply hPending => simp [stepsLeft, hPending]
  | leave hPending hKind hScan =>
      have hLess := remaining_lt hScan (hKind.trans_ne (by decide))
      simp only [stepsLeft, hPending, List.length_cons]
      omega

/-- A reading from a moment on: its moments lead from one to the next, and the last of them to the
outcome. -/
inductive Execution : Moment → List Moment → Outcome → Prop where
  | ends {m : Moment} {outcome : Outcome} (hStep : m.step = .finished outcome) :
      Execution m [m] outcome
  | goesOn {m next : Moment} {moments : List Moment} {outcome : Outcome}
      (hStep : m.step = .goOn next) (further : Execution next moments outcome) :
      Execution m (m :: moments) outcome

/-- Reads to the end: all moments from this one on, and the outcome. -/
def run (m : Moment) : List Moment × Outcome :=
  match _ : m.step with
  | .finished outcome => ([m], outcome)
  | .goOn next =>
      let (moments, outcome) := next.run
      (m :: moments, outcome)
termination_by m.stepsLeft
decreasing_by exact (moves_of_step ‹_›).stepsLeft_lt

theorem execution_run (m : Moment) : m.Execution m.run.1 m.run.2 := by
  fun_induction run m with
  | case1 m outcome hStep => exact .ends hStep
  | case2 m next hStep moments outcome hRun ih =>
      rw [hRun] at ih
      exact .goesOn hStep ih

namespace Execution

variable {m : Moment} {moments : List Moment} {outcome : Outcome}

theorem unique (h : m.Execution moments outcome) {others : List Moment} {last : Outcome}
    (hOther : m.Execution others last) : others = moments ∧ last = outcome := by
  induction h generalizing others with
  | ends hStep =>
      cases hOther with
      | ends hSame =>
          rw [hStep] at hSame
          cases hSame
          exact ⟨rfl, rfl⟩
      | goesOn hOtherStep _ =>
          rw [hStep] at hOtherStep
          cases hOtherStep
  | goesOn hStep _ ih =>
      cases hOther with
      | ends hOtherStep =>
          rw [hStep] at hOtherStep
          cases hOtherStep
      | goesOn hSame hFurther =>
          rw [hStep] at hSame
          cases hSame
          obtain ⟨rfl, rfl⟩ := ih hFurther
          exact ⟨rfl, rfl⟩

theorem length_le (h : m.Execution moments outcome) : moments.length ≤ m.stepsLeft + 1 := by
  induction h with
  | ends _ => exact Nat.le_add_left 1 _
  | goesOn hStep _ ih =>
      have hLess := (moves_of_step hStep).stepsLeft_lt
      rw [List.length_cons]
      omega

end Execution

/-- A call waits for an expression in a group, which takes in every operator, or for a right operand,
which takes in only tighter ones than the operator before it. The outermost call takes in every
operator. -/
def Nested : Nat → List Pending → Prop
  | binding, [] => binding = 1
  | binding, .group outer _ :: pending => binding = 1 ∧ Nested outer pending
  | binding, .right outer _ operator _ :: pending =>
      binding = operator.binding + 1 ∧ outer ≤ operator.binding ∧ Nested outer pending

theorem Nested.bounds {binding : Nat} {pending : List Pending} (h : Nested binding pending) :
    1 ≤ binding ∧ binding ≤ 3 := by
  cases pending with
  | nil =>
      have hLoosest : binding = 1 := h
      omega
  | cons first rest =>
      cases first with
      | group outer opening =>
          have hLoosest : binding = 1 := h.1
          omega
      | right outer left operator sign =>
          rw [h.1]
          cases operator <;> decide

/-- Within one group the calls take in tighter and tighter operators, and there are three levels. -/
theorem Nested.length_le {binding : Nat} {pending : List Pending} (h : Nested binding pending) :
    pending.length + 1 ≤ 3 * pending.countP Pending.isGroup + binding := by
  induction pending generalizing binding with
  | nil =>
      cases h
      exact Nat.le_refl 1
  | cons first rest ih =>
      cases first with
      | group outer opening =>
          -- The call inside begins with the loosest level again. The group itself allows for this.
          have hRest := ih h.2
          have hOuter := h.2.bounds
          rw [List.countP_cons_of_pos rfl, List.length_cons, h.1]
          omega
      | right outer left operator sign =>
          have hRest := ih h.2.2
          rw [List.countP_cons_of_neg Bool.false_ne_true, List.length_cons, h.1]
          have hOuter := h.2.1
          omega

/-- What holds at every moment. -/
structure Sound (m : Moment) : Prop where
  nested : Nested m.binding m.pending
  depth_eq : m.depth = m.openGroups
  depth_le : m.depth ≤ Tree.maxNesting
  /-- The token in view is what the scanner has given last. -/
  scanned : ∃ s : Scanner, s.scan = (.ok m.ahead, m.scanner)

theorem sound_first {s after : Scanner} {token : Token} (hScan : s.scan = (.ok token, after)) :
    (first token after).Sound :=
  ⟨rfl, rfl, Nat.zero_le _, _, hScan⟩

theorem Sound.calls_le {m : Moment} (h : m.Sound) : m.calls ≤ 3 * (m.openGroups + 1) := by
  have hLength := h.nested.length_le
  have hBinding := h.nested.bounds
  rw [calls, openGroups]
  omega

theorem Moves.sound {m next : Moment} (h : m.Moves next) (hSound : m.Sound) : next.Sound := by
  obtain ⟨hNested, hDepth, hLimit, hAhead⟩ := hSound
  rw [openGroups] at hDepth
  cases h with
  | literal _ hScan => exact ⟨hNested, hDepth, hLimit, _, hScan⟩
  | enter _ hRoom hScan =>
      refine ⟨⟨rfl, hNested⟩, ?_, by dsimp only; omega, _, hScan⟩
      rw [openGroups, List.countP_cons_of_pos rfl, hDepth]
  | operand _ hBinding hScan =>
      refine ⟨⟨rfl, hBinding, hNested⟩, ?_, hLimit, _, hScan⟩
      rw [openGroups, List.countP_cons_of_neg Bool.false_ne_true, hDepth]
  | apply hPending =>
      rw [hPending] at hNested hDepth
      rw [List.countP_cons_of_neg Bool.false_ne_true] at hDepth
      exact ⟨hNested.2.2, hDepth, hLimit, hAhead⟩
  | leave hPending _ hScan =>
      -- A group that is left was counted, so the counter does not stop at zero.
      rw [hPending] at hNested hDepth
      rw [List.countP_cons_of_pos rfl] at hDepth
      refine ⟨hNested.2, ?_, by dsimp only; omega, _, hScan⟩
      rw [openGroups, hDepth, Nat.add_sub_cancel]

theorem Execution.sound {m : Moment} {moments : List Moment} {outcome : Outcome}
    (h : m.Execution moments outcome) (hSound : m.Sound) : ∀ moment ∈ moments, moment.Sound := by
  induction h with
  | ends _ => exact List.forall_mem_singleton.mpr hSound
  | goesOn hStep _ ih =>
      exact List.forall_mem_cons.mpr ⟨hSound, ih ((moves_of_step hStep).sound hSound)⟩

end Moment

end CallStack

end StackCalculator
