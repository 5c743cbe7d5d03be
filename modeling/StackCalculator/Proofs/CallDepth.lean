import StackCalculator.Proofs.CallStack
import StackCalculator.Proofs.Reading

/-!
How deeply reading recurses. At each moment, the machine with a list of unfinished calls stands for
the reader's own calls: the innermost one, and those that wait for it. No step changes what they come
to, so the machine ends with what the reader gives.
-/

namespace StackCalculator

namespace CallStack

/-- What the waiting calls make of what the innermost one gives back: its tree, the number of literals
so far and the tokens behind it. The reader goes on with each of them in turn. -/
def resume (ending : Ending) : List Pending → Nat → Tree × Nat × List Token → Outcome
  | [], _, (tree, _, rest) =>
      match rest, ending with
      | [], .endOfInput line => .ok (tree, line)
      | rest, ending => .error (ending.refuseFirst rest .expectEnd)
  | .right binding left operator sign :: pending, depth, (tree, read, rest) =>
      Tree.operatorsView ending binding depth read (.binary left operator sign tree) rest >>=
        resume ending pending depth
  | .group _ _ :: _, _, (_, _, []) => .error (ending.refuse .expectRightParen)
  | .group binding opening :: pending, depth, (tree, read, closing :: rest) =>
      if closing.kind = .rightParen then
        Tree.operatorsView ending binding (depth - 1) read (.group opening tree closing) rest >>=
          resume ending pending (depth - 1)
      else
        .error (closing.refuse .expectRightParen)

/-- The tokens that are left, and how they end. -/
def upcoming (ahead : Token) (scanner : Scanner) : Tokenized :=
  if ahead.kind = .endOfInput then
    ⟨[], .endOfInput ahead.line⟩
  else
    ⟨ahead :: scanner.tokenized.tokens, scanner.tokenized.ending⟩

/-- What the reader comes to, if it makes the innermost call and goes on with the waiting ones. -/
def Moment.outcome (m : Moment) : Outcome :=
  let text := upcoming m.ahead m.scanner
  let innermost :=
    match m.left? with
    | none => Tree.exprView text.ending m.binding m.depth m.literals text.tokens
    | some left => Tree.operatorsView text.ending m.binding m.depth m.literals left text.tokens
  innermost >>= resume text.ending m.pending m.depth

def Next.outcome : Next → Outcome
  | .goOn moment => moment.outcome
  | .finished outcome => outcome

theorem upcoming_of_end {ahead : Token} {scanner : Scanner} (h : ahead.kind = .endOfInput) :
    upcoming ahead scanner = ⟨[], .endOfInput ahead.line⟩ :=
  if_pos h

theorem upcoming_of_word {ahead : Token} {scanner : Scanner} (h : ahead.kind ≠ .endOfInput) :
    upcoming ahead scanner = ⟨ahead :: scanner.tokenized.tokens, scanner.tokenized.ending⟩ :=
  if_neg h

theorem tokenized_of_ok {s after : Scanner} {token : Token} (h : s.scan = (.ok token, after)) :
    s.tokenized = upcoming token after := by
  rw [Scanner.tokenized, h]
  dsimp only
  rw [upcoming]
  split <;> rfl

theorem tokenized_of_error {s after : Scanner} {e : UnexpectedCharacter}
    (h : s.scan = (.error e, after)) : s.tokenized = ⟨[], .unexpected e⟩ := by
  rw [Scanner.tokenized, h]

theorem outcome_refuse_end {ahead : Token} {reason : Refusal} (h : ahead.kind = .endOfInput) :
    (refuse ahead reason).outcome = .error (.refused ahead.line none reason) := by
  simp [refuse, Next.outcome, h]

theorem outcome_refuse_word {ahead : Token} {reason : Refusal} (h : ahead.kind ≠ .endOfInput) :
    (refuse ahead reason).outcome = .error (ahead.refuse reason) := by
  simp [refuse, Next.outcome, h, Token.refuse]

/-- Going on behind an open group comes to the same as the reader's own call for the operand. -/
theorem bind_resume_group {ending : Ending} {binding depth literals : Nat} {opening : Token}
    {behind : List Token} {pending : List Pending}
    (hOpening : opening.kind = .leftParen) (hRoom : depth ≠ Tree.maxNesting) :
    Tree.exprView ending binding depth literals (opening :: behind) >>=
        resume ending pending depth =
      Tree.exprView ending 1 (depth + 1) literals behind >>=
        resume ending (.group binding opening :: pending) (depth + 1) := by
  rw [Tree.exprView_eq_bind, Tree.operandView_eq_bind behind hOpening hRoom, bind_assoc, bind_assoc]
  congr 1
  funext ⟨inner, read, rest⟩
  cases rest with
  | nil => rfl
  | cons closing after =>
      by_cases hClosing : closing.kind = .rightParen
      · simp [bind, Except.bind, resume, Tree.closeGroup, hClosing]
      · simp [bind, Except.bind, resume, Tree.closeGroup, hClosing]

/-- In front of an unexpected character no call can be completed without finding it. -/
theorem resume_unexpected (e : UnexpectedCharacter) (pending : List Pending) (depth read : Nat)
    (tree : Tree) : resume (.unexpected e) pending depth (tree, read, []) = .error (.unexpected e) := by
  induction pending generalizing read tree with
  | nil => rfl
  | cons first rest ih =>
      cases first with
      | group binding opening => rfl
      | right binding left operator sign =>
          rw [resume, Tree.operatorsView_nil]
          exact ih read (.binary left operator sign tree)

/-- The same before the first operand of a call is complete. -/
theorem bind_resume_unexpected (e : UnexpectedCharacter) (pending : List Pending)
    (binding depth literals : Nat) (token : Token) :
    Tree.exprView (.unexpected e) binding depth literals [token] >>=
      resume (.unexpected e) pending depth = .error (.unexpected e) := by
  obtain hFound | ⟨tree, hRead⟩ := Tree.exprView_single e token
  · rw [hFound]
    rfl
  · rw [hRead]
    exact resume_unexpected e pending depth _ tree

/-- A refused operand is blamed on itself, once the token behind it is in view. -/
theorem refuseOperand_upcoming (ahead token : Token) (after : Scanner) (reason : Refusal) :
    (upcoming token after).ending.refuseOperand ahead (upcoming token after).tokens reason =
      ahead.refuse reason := by
  rw [upcoming]
  split <;> rfl

theorem nextBinding_upcoming (ahead : Token) (scanner : Scanner) :
    Tree.nextBinding (upcoming ahead scanner).tokens =
      match ahead.kind.operator? with
      | none => 0
      | some operator => operator.binding := by
  by_cases hEnd : ahead.kind = .endOfInput
  · rw [upcoming_of_end hEnd, hEnd]
    rfl
  · rw [upcoming_of_word hEnd]
    rfl

namespace Moment

/-- To scan one more token changes nothing, if what comes out is right for each way the text can go
on. -/
theorem outcome_advance {m : Moment} {goOn : Moment → Next} (wanted : Tokenized → Outcome)
    (hUnexpected : ∀ e, wanted ⟨[], .unexpected e⟩ = .error (.unexpected e))
    (hGoOn : ∀ token after,
      (goOn { m with ahead := token, scanner := after }).outcome = wanted (upcoming token after)) :
    (m.advance goOn).outcome = wanted m.scanner.tokenized := by
  unfold advance
  split
  · rename_i hScan
    rw [tokenized_of_error hScan, hUnexpected]
    rfl
  · rename_i hScan
    rw [tokenized_of_ok hScan, hGoOn]

theorem outcome_giveBack {m : Moment} {tree : Tree} (hLeft : m.left? = some tree)
    (hStop : Tree.nextBinding (upcoming m.ahead m.scanner).tokens < m.binding) :
    (m.giveBack tree).outcome = m.outcome := by
  have hOutcome : m.outcome = resume (upcoming m.ahead m.scanner).ending m.pending m.depth
      (tree, m.literals, (upcoming m.ahead m.scanner).tokens) := by
    rw [outcome, hLeft]
    dsimp only
    rw [Tree.operatorsView_stop hStop]
    rfl
  rw [hOutcome, giveBack]
  split
  · rename_i hPending
    rw [hPending]
    split
    · rename_i hEnd
      rw [upcoming_of_end hEnd]
      rfl
    · rename_i hEnd
      rw [upcoming_of_word hEnd, outcome_refuse_word hEnd]
      rfl
  · rename_i hPending
    rw [hPending]
    rfl
  · rename_i binding opening pending hPending
    rw [hPending]
    split
    · rename_i hKind
      rw [upcoming_of_word (hKind.trans_ne (by decide)), resume, if_pos hKind]
      exact outcome_advance
        (fun text => Tree.operatorsView text.ending binding (m.depth - 1) m.literals
          (.group opening tree m.ahead) text.tokens >>= resume text.ending pending (m.depth - 1))
        (fun e => by rw [Tree.operatorsView_nil]; exact resume_unexpected e pending _ _ _)
        (fun token after => rfl)
    · rename_i hKind
      by_cases hEnd : m.ahead.kind = .endOfInput
      · rw [upcoming_of_end hEnd, outcome_refuse_end hEnd]
        rfl
      · rw [upcoming_of_word hEnd, outcome_refuse_word hEnd, resume, if_neg hKind]

theorem outcome_readOperator {m : Moment} {left : Tree} (hLeft : m.left? = some left)
    (hBinding : 1 ≤ m.binding) : (m.readOperator left).outcome = m.outcome := by
  unfold readOperator
  split
  · rename_i hNone
    refine outcome_giveBack hLeft ?_
    rw [nextBinding_upcoming, hNone]
    exact hBinding
  · rename_i operator hOperator
    split
    · rename_i hTighter
      rw [outcome, hLeft, upcoming_of_word (Token.Kind.ne_endOfInput_of_operator? hOperator)]
      refine outcome_advance
        (fun text => Tree.operatorsView text.ending m.binding m.depth m.literals left
          (m.ahead :: text.tokens) >>= resume text.ending m.pending m.depth)
        (fun e => ?_) (fun token after => ?_)
      · rw [Tree.operatorsView_eq_bind hOperator hTighter, Tree.exprView_nil]
        rfl
      · rw [Tree.operatorsView_eq_bind hOperator hTighter, bind_assoc]
        rfl
    · rename_i hLooser
      refine outcome_giveBack hLeft ?_
      rw [nextBinding_upcoming, hOperator]
      exact Nat.lt_of_not_le hLooser

theorem outcome_readOperand {m : Moment} (hLeft : m.left? = none)
    (hScanned : ∃ s : Scanner, s.scan = (.ok m.ahead, m.scanner)) :
    m.readOperand.outcome = m.outcome := by
  by_cases hEnd : m.ahead.kind = .endOfInput
  · -- Behind the end the scanner gives the end again, so no unexpected character is met.
    obtain ⟨s, hScan⟩ := hScanned
    have hAgain := (Scanner.scan_end hScan hEnd).2
    rw [outcome, hLeft, readOperand, advance, hAgain, upcoming_of_end hEnd]
    dsimp only
    rw [Tree.exprView_nil, hEnd]
    dsimp only
    rw [outcome_refuse_end hEnd]
    rfl
  · rw [outcome, hLeft, upcoming_of_word hEnd]
    refine outcome_advance
      (fun text => Tree.exprView text.ending m.binding m.depth m.literals
        (m.ahead :: text.tokens) >>= resume text.ending m.pending m.depth)
      (fun e => bind_resume_unexpected e _ _ _ _ _) (fun token after => ?_)
    dsimp only
    split
    · rename_i hKind
      rw [Tree.exprView_eq_bind, bind_assoc]
      split
      · rename_i hRead
        rw [Tree.operandView_unreadable hKind hRead, refuseOperand_upcoming, outcome_refuse_word hEnd]
        rfl
      · rename_i decimal hRead
        split
        · rename_i hFull
          rw [hFull, Tree.operandView_tooManyConstants hKind hRead, refuseOperand_upcoming,
            outcome_refuse_word hEnd]
          rfl
        · rename_i hRoom
          rw [Tree.operandView_literal hKind (by rw [hRead]; rfl) hRoom]
          rfl
    · rename_i hKind
      split
      · rename_i hDeepest
        rw [Tree.exprView_eq_bind, bind_assoc, hDeepest, Tree.operandView_tooMuchNesting hKind,
          refuseOperand_upcoming, outcome_refuse_word hEnd]
        rfl
      · rename_i hRoom
        rw [bind_resume_group hKind hRoom]
        rfl
    · rename_i hNumber hOpening
      rw [Tree.exprView_eq_bind, bind_assoc, Tree.operandView_other hNumber hOpening,
        refuseOperand_upcoming, outcome_refuse_word hEnd]
      rfl

/-- No step changes what the reading comes to. -/
theorem outcome_step {m : Moment} (h : m.Sound) : m.step.outcome = m.outcome := by
  unfold step
  split
  · exact outcome_readOperand ‹_› h.scanned
  · exact outcome_readOperator ‹_› h.nested.bounds.1

theorem Execution.outcome_eq {m : Moment} {moments : List Moment} {outcome : Outcome}
    (h : m.Execution moments outcome) (hSound : m.Sound) :
    outcome = m.outcome ∧ ∀ moment ∈ moments, moment.outcome = m.outcome := by
  induction h with
  | ends hStep =>
      have hSame := outcome_step hSound
      rw [hStep] at hSame
      exact ⟨hSame, List.forall_mem_singleton.mpr rfl⟩
  | goesOn hStep _ ih =>
      have hSame := outcome_step hSound
      rw [hStep] at hSame
      obtain ⟨hOutcome, hMoments⟩ := ih ((moves_of_step hStep).sound hSound)
      refine ⟨hOutcome.trans hSame, List.forall_mem_cons.mpr ⟨rfl, fun moment hMoment => ?_⟩⟩
      exact (hMoments moment hMoment).trans hSame

end Moment

/-- A reading of a text: its moments and its outcome. It begins with the outermost call, once a token
is in view. -/
inductive IsReading (source : String) : List Moment → Outcome → Prop where
  | unexpected {e : UnexpectedCharacter} {after : Scanner}
      (hScan : (Scanner.ofText source).scan = (.error e, after)) :
      IsReading source [] (.error (.unexpected e))
  | begins {token : Token} {after : Scanner} {moments : List Moment} {outcome : Outcome}
      (hScan : (Scanner.ofText source).scan = (.ok token, after))
      (execution : (Moment.first token after).Execution moments outcome) :
      IsReading source moments outcome

theorem exists_isReading (source : String) :
    ∃ moments outcome, IsReading source moments outcome := by
  cases hScan : (Scanner.ofText source).scan with
  | mk scanned after =>
      cases scanned with
      | error e => exact ⟨_, _, .unexpected hScan⟩
      | ok token => exact ⟨_, _, .begins hScan (Moment.first token after).execution_run⟩

/-- The reader makes its outermost call for the whole text. -/
theorem ofSource_eq_bind (source : String) :
    Tree.ofSource source =
      Tree.exprView (Scanner.ofText source).tokenized.ending 1 0 0
          (Scanner.ofText source).tokenized.tokens >>=
        resume (Scanner.ofText source).tokenized.ending [] 0 := by
  rw [Tree.ofSource, Tree.read, Tree.exprView]
  cases Tree.readExpr (Scanner.ofText source).tokenized.ending 1 0 0
    (Scanner.ofText source).tokenized.tokens <;> rfl

namespace IsReading

variable {source : String} {moments : List Moment} {outcome : Outcome}

theorem unique (h : IsReading source moments outcome) {others : List Moment} {last : Outcome}
    (hOther : IsReading source others last) : others = moments ∧ last = outcome := by
  cases h with
  | unexpected hScan =>
      cases hOther with
      | unexpected hSame =>
          rw [hScan] at hSame
          cases hSame
          exact ⟨rfl, rfl⟩
      | begins hOtherScan _ =>
          rw [hScan] at hOtherScan
          cases hOtherScan
  | begins hScan execution =>
      cases hOther with
      | unexpected hOtherScan =>
          rw [hScan] at hOtherScan
          cases hOtherScan
      | begins hSame other =>
          rw [hScan] at hSame
          cases hSame
          exact execution.unique other

theorem length_le (h : IsReading source moments outcome) :
    moments.length ≤ 2 * source.length + 1 := by
  cases h with
  | unexpected _ => exact Nat.zero_le _
  | @begins token after _ _ hScan execution =>
      have hSteps := execution.length_le
      have hLeft : Moment.remaining token after ≤ source.length := Moment.remaining_le hScan
      simp only [Moment.stepsLeft, Moment.first, List.length_nil] at hSteps
      omega

theorem sound (h : IsReading source moments outcome) : ∀ moment ∈ moments, moment.Sound := by
  cases h with
  | unexpected _ => exact List.forall_mem_nil _
  | begins hScan execution => exact execution.sound (Moment.sound_first hScan)

/-- A reading comes to what the reader gives, at each of its moments. -/
theorem outcome_eq (h : IsReading source moments outcome) :
    outcome = Tree.ofSource source ∧
      ∀ moment ∈ moments, moment.outcome = Tree.ofSource source := by
  rw [ofSource_eq_bind]
  cases h with
  | unexpected hScan =>
      rw [tokenized_of_error hScan]
      dsimp only
      rw [Tree.exprView_nil]
      exact ⟨rfl, List.forall_mem_nil _⟩
  | begins hScan execution =>
      rw [tokenized_of_ok hScan]
      exact execution.outcome_eq (Moment.sound_first hScan)

end IsReading

/-- Reading any text comes to an end, in one way and after at most two steps for each character, with
what is compiled. At each moment the reader's own calls come to the same. The counter says how many
groups are open then, which is at most 256, and there are at most three calls under way for each of
them and for the whole text. -/
theorem reading_stays_shallow (source : String) :
    ∃ moments outcome, IsReading source moments outcome ∧
      (∀ others last, IsReading source others last → others = moments ∧ last = outcome) ∧
      compile source = outcome.map (fun (tree, endLine) => Chunk.ofTree tree endLine) ∧
      moments.length ≤ 2 * source.length + 1 ∧
      ∀ moment ∈ moments,
        moment.outcome = Tree.ofSource source ∧
        moment.depth = moment.openGroups ∧
        moment.depth ≤ 256 ∧
        moment.calls ≤ 3 * (moment.openGroups + 1) ∧
        moment.calls ≤ 3 * 257 := by
  obtain ⟨moments, outcome, hReading⟩ := exists_isReading source
  obtain ⟨hOutcome, hMoments⟩ := hReading.outcome_eq
  refine ⟨moments, outcome, hReading, fun others last hOther => hReading.unique hOther, ?_,
    hReading.length_le, fun moment hMoment => ?_⟩
  · rw [hOutcome, compile]
    cases Tree.ofSource source <;> rfl
  · have hSound := hReading.sound moment hMoment
    have hDepth := hSound.depth_eq
    have hLimit : moment.depth ≤ 256 := hSound.depth_le
    have hCalls := hSound.calls_le
    exact ⟨hMoments moment hMoment, hDepth, hLimit, hCalls, by omega⟩

/-- Each of the three levels can have a call under way. -/
example : (Moment.first ⟨.number, "1", 1⟩ (Scanner.ofText "+2*3")).run.1.map Moment.calls =
    [1, 1, 2, 2, 3, 3, 2, 1] := by
  decide +kernel

end CallStack

end StackCalculator
