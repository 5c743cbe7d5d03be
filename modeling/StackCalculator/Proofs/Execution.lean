import StackCalculator.Proofs.Postorder
import StackCalculator.Proofs.Writing

/-!
Executing a program in two passes. The whole code is taken apart into instructions first, from its
first byte on, and the instructions are then folded over a stack that starts empty and has a limit.
The machine decodes one instruction at a time and stops where it ends, and comes to the same.
-/

namespace StackCalculator

/-- The bytes that an instruction stands for. -/
def Instruction.bytes : Instruction → List UInt8
  | .push index => [Opcode.constant.byte, index]
  | .operate operator => [(Opcode.operate operator).byte]
  | .negate => [Opcode.negate.byte]
  | .ret => [Opcode.ret.byte]
  | .unknown byte => [byte]
  | .truncated => [Opcode.constant.byte]

/-- Instructions with the offset of their first byte, one behind the other from an offset on. -/
def placed (offset : Nat) : List Instruction → List (Nat × Instruction)
  | [] => []
  | instruction :: rest => (offset, instruction) :: placed (offset + instruction.bytes.length) rest

/-- Decoding loses nothing: every byte of the code belongs to one instruction. -/
theorem flatMap_bytes_decode (code : List UInt8) :
    (decode code).flatMap Instruction.bytes = code := by
  induction code using decode.induct with
  | case1 => rfl
  | case2 byte behind hByte ih =>
      rw [decode.eq_def]
      simp [hByte, Instruction.bytes, ih]
  | case3 byte hByte =>
      rw [decode.eq_def]
      simp [hByte, Instruction.bytes, Opcode.byte_of_ofByte? hByte]
  | case4 byte hByte index behind ih =>
      rw [decode.eq_def]
      simp [hByte, Instruction.bytes, Opcode.byte_of_ofByte? hByte, ih]
  | case5 byte behind operator hByte ih =>
      rw [decode.eq_def]
      simp [hByte, Instruction.bytes, Opcode.byte_of_ofByte? hByte, ih]
  | case6 byte behind hByte ih =>
      rw [decode.eq_def]
      simp [hByte, Instruction.bytes, Opcode.byte_of_ofByte? hByte, ih]
  | case7 byte behind hByte ih =>
      rw [decode.eq_def]
      simp [hByte, Instruction.bytes, Opcode.byte_of_ofByte? hByte, ih]

namespace Execution

/-- Something done to a stack, whose top comes first. It can end the whole execution, with a fault
or with a value. -/
abbrev Effect :=
  Action (Except Fault Number) (List Number)

/-- Puts a number on the stack, which has room for 256 of them. -/
def push (value : Number) : Effect Unit := do
  let stack ← get
  if stack.length < 256 then
    set (value :: stack)
  else
    throw (.error .stackOverflow)

/-- Takes the top off the stack. -/
def pop : Effect Number := do
  match ← get with
  | [] => throw (.error .stackUnderflow)
  | value :: below =>
      set below
      return value

/-- What an instruction does. The offset is that of its first byte, and the length is that of the
whole code. -/
def perform (pool : Array Number) (length offset : Nat) : Instruction → Effect Unit
  | .push index =>
      match pool[index.toNat]? with
      | none => throw (.error (.invalidConstant index offset))
      | some value => push value
  | .operate operator => do
      let right ← pop
      let left ← pop
      push (operator.apply left right)
  | .negate => throw (.error (.unsupportedOpcode .negate offset))
  | .ret => do
      let value ← pop
      throw (.ok value)
  | .unknown byte => throw (.error (.unknownOpcode byte offset))
  | .truncated => throw (.error (.unexpectedEnd length))

/-- Performs instructions in their order, up to the first that ends the execution. -/
def performAll (pool : Array Number) (length : Nat) (program : List (Nat × Instruction)) :
    Effect Unit :=
  program.forM fun placed => perform pool length placed.1 placed.2

/-- The outcome of code of a length, and the stack it leaves. Code that runs out has no value. -/
def settle (length : Nat) :
    Except (Except Fault Number) Unit × List Number → Except Fault Number × List Number
  | (.error outcome, stack) => (outcome, stack)
  | (.ok (), stack) => (.error (.unexpectedEnd length), stack)

/-- Decodes the whole code and folds its instructions over an empty stack. -/
def fold (pool : Array Number) (code : List UInt8) : Except Fault Number × List Number :=
  settle code.length ((performAll pool code.length (placed 0 (decode code))).on [])

theorem on_push (value : Number) (stack : List Number) :
    (push value).on stack =
      if stack.length < 256 then (.ok (), value :: stack)
      else (.error (.error .stackOverflow), stack) := by
  change (ite _ _ _ : Effect Unit).on stack = _
  split <;> rfl

theorem performAll_cons (pool : Array Number) (length offset : Nat) (instruction : Instruction)
    (rest : List (Nat × Instruction)) :
    performAll pool length ((offset, instruction) :: rest) =
      (perform pool length offset instruction >>= fun _ => performAll pool length rest) :=
  rfl

theorem on_perform_push (pool : Array Number) (length offset : Nat) (index : UInt8)
    (stack : List Number) :
    (perform pool length offset (.push index)).on stack =
      match pool[index.toNat]? with
      | none => (.error (.error (.invalidConstant index offset)), stack)
      | some value => (push value).on stack := by
  simp only [perform]
  split <;> rfl

/-- The second operand is taken off before the first is missed. -/
theorem on_perform_operate (pool : Array Number) (length offset : Nat) (operator : Operator)
    (stack : List Number) :
    (perform pool length offset (.operate operator)).on stack =
      match stack with
      | right :: left :: below => (push (operator.apply left right)).on below
      | _ => (.error (.error .stackUnderflow), []) := by
  rcases stack with _ | ⟨right, _ | ⟨left, below⟩⟩ <;> rfl

theorem on_perform_ret (pool : Array Number) (length offset : Nat) (stack : List Number) :
    (perform pool length offset .ret).on stack =
      match stack with
      | value :: below => (.error (.ok value), below)
      | [] => (.error (.error .stackUnderflow), []) := by
  rcases stack with _ | ⟨value, below⟩ <;> rfl

/-- A run that performs a program on a stack: it goes on for as long as the instructions let it, and
ends with the first that does not, or behind the last. The run's states are the stacks before each
instruction. -/
inductive Performs (pool : Array Number) (length : Nat) :
    List (Nat × Instruction) → List Number → Machine.Run → Prop where
  | exhausted (stack : List Number) :
      Performs pool length [] stack
        ⟨.error (.unexpectedEnd length), stack, [⟨length, stack⟩]⟩
  | ended {offset : Nat} {instruction : Instruction} {rest : List (Nat × Instruction)}
      {stack left : List Number} {outcome : Except Fault Number}
      (hEnd : (perform pool length offset instruction).on stack = (.error outcome, left)) :
      Performs pool length ((offset, instruction) :: rest) stack
        ⟨outcome, left, [⟨offset, stack⟩]⟩
  | next {offset : Nat} {instruction : Instruction} {rest : List (Nat × Instruction)}
      {stack after : List Number} {run : Machine.Run}
      (hNext : (perform pool length offset instruction).on stack = (.ok (), after))
      (further : Performs pool length rest after run) :
      Performs pool length ((offset, instruction) :: rest) stack (run.after ⟨offset, stack⟩)

/-- The machine performs the instructions of its code, although it never sees them all at once. -/
theorem runFrom_performs (pool : Array Number) (code : List UInt8) (offset : Nat)
    (stack : List Number) (hRoom : stack.length ≤ 256) :
    Performs pool (offset + code.length) (placed offset (decode code)) stack
      (Machine.runFrom pool code offset stack) := by
  -- The cases are those of `decode`. The end of the code stays where it is, so the offset and the
  -- length of what is left are only moved against each other.
  induction code using decode.induct generalizing offset stack with
  | case1 =>
      rw [Machine.runFrom.eq_def]
      exact .exhausted stack
  | case2 byte behind hByte ih =>
      rw [Machine.runFrom.eq_def, decode.eq_def]
      simp only [hByte]
      exact .ended rfl
  | case3 byte hByte =>
      rw [Machine.runFrom.eq_def, decode.eq_def]
      simp only [hByte]
      exact .ended rfl
  | case4 byte hByte index behind ih =>
      have hEffect := on_perform_push pool (offset + (behind.length + 2)) offset index stack
      rw [Machine.runFrom.eq_def, decode.eq_def]
      simp only [hByte]
      cases hValue : pool[index.toNat]? with
      | none =>
          rw [hValue] at hEffect
          exact .ended hEffect
      | some value =>
          simp only [hValue, on_push] at hEffect
          dsimp only
          split
          · rename_i hLess
            rw [if_pos (show stack.length < 256 from hLess)] at hEffect
            have hRest := ih (offset + 2) (value :: stack) hLess
            rw [Nat.add_assoc, Nat.add_comm 2] at hRest
            exact .next hEffect hRest
          · rename_i hFull
            rw [if_neg (show ¬stack.length < 256 from hFull)] at hEffect
            exact .ended hEffect
  | case5 byte behind operator hByte ih =>
      rw [Machine.runFrom.eq_def, decode.eq_def]
      simp only [hByte]
      rcases stack with _ | ⟨right, _ | ⟨left, below⟩⟩
      · exact .ended (on_perform_operate ..)
      · exact .ended (on_perform_operate ..)
      · have hLess : below.length < 256 := Nat.lt_of_succ_lt hRoom
        have hEffect := on_perform_operate pool (offset + (behind.length + 1)) offset operator
          (right :: left :: below)
        simp only [on_push, if_pos hLess] at hEffect
        have hRest := ih (offset + 1) (operator.apply left right :: below) hLess
        rw [Nat.add_assoc, Nat.add_comm 1] at hRest
        exact .next hEffect hRest
  | case6 byte behind hByte ih =>
      rw [Machine.runFrom.eq_def, decode.eq_def]
      simp only [hByte]
      exact .ended rfl
  | case7 byte behind hByte ih =>
      rw [Machine.runFrom.eq_def, decode.eq_def]
      simp only [hByte]
      rcases stack with _ | ⟨value, below⟩
      · exact .ended (on_perform_ret ..)
      · exact .ended (on_perform_ret ..)

/-- How an instruction ends an execution, with the stack before it, the outcome and the stack that
is left. -/
inductive Ends (pool : Array Number) (length offset : Nat) :
    Instruction → List Number → Except Fault Number → List Number → Prop where
  | invalidConstant {index : UInt8} {stack : List Number} (hNone : pool[index.toNat]? = none) :
      Ends pool length offset (.push index) stack (.error (.invalidConstant index offset)) stack
  | overflow {index : UInt8} {stack : List Number} (hFull : stack.length = 256) :
      Ends pool length offset (.push index) stack (.error .stackOverflow) stack
  | underflow {operator : Operator} {stack : List Number} (hShort : stack.length < 2) :
      Ends pool length offset (.operate operator) stack (.error .stackUnderflow) []
  | unsupported (stack : List Number) :
      Ends pool length offset .negate stack (.error (.unsupportedOpcode .negate offset)) stack
  | nothingToReturn : Ends pool length offset .ret [] (.error .stackUnderflow) []
  | returned (value : Number) (below : List Number) :
      Ends pool length offset .ret (value :: below) (.ok value) below
  | unknown (byte : UInt8) (stack : List Number) :
      Ends pool length offset (.unknown byte) stack (.error (.unknownOpcode byte offset)) stack
  | truncated (stack : List Number) :
      Ends pool length offset .truncated stack (.error (.unexpectedEnd length)) stack

/-- There are no other ways to end an execution. In particular only a constant overflows the stack,
since the operands of an operator make room for its result. -/
theorem ends_of_perform {pool : Array Number} {length offset : Nat} {instruction : Instruction}
    {stack left : List Number} {outcome : Except Fault Number}
    (hEnd : (perform pool length offset instruction).on stack = (.error outcome, left))
    (hRoom : stack.length ≤ 256) : Ends pool length offset instruction stack outcome left := by
  cases instruction with
  | push index =>
      rw [on_perform_push] at hEnd
      split at hEnd
      · cases hEnd
        exact .invalidConstant (by assumption)
      · rw [on_push] at hEnd
        split at hEnd
        · cases hEnd
        · cases hEnd
          exact .overflow (by omega)
  | operate operator =>
      rw [on_perform_operate] at hEnd
      split at hEnd
      · rename_i below
        have hLess : below.length < 256 := Nat.lt_of_succ_lt hRoom
        rw [on_push, if_pos hLess] at hEnd
        cases hEnd
      · rename_i hShort
        cases hEnd
        rcases stack with _ | ⟨right, _ | ⟨left, below⟩⟩
        · exact .underflow Nat.two_pos
        · exact .underflow Nat.one_lt_two
        · exact absurd rfl (hShort right left below)
  | negate =>
      cases hEnd
      exact .unsupported stack
  | ret =>
      rw [on_perform_ret] at hEnd
      split at hEnd
      · cases hEnd
        exact .returned _ _
      · cases hEnd
        exact .nothingToReturn
  | unknown byte =>
      cases hEnd
      exact .unknown byte stack
  | truncated =>
      cases hEnd
      exact .truncated stack

/-- No instruction leaves more on the stack than there is room for. -/
theorem length_perform_le (pool : Array Number) (length offset : Nat) (instruction : Instruction)
    {stack : List Number} (hRoom : stack.length ≤ 256) :
    ((perform pool length offset instruction).on stack).2.length ≤ 256 := by
  have hPush : ∀ (value : Number) {below : List Number}, below.length ≤ 256 →
      ((push value).on below).2.length ≤ 256 := by
    intro value below hBelow
    rw [on_push]
    split
    · assumption
    · exact hBelow
  cases instruction with
  | push index =>
      rw [on_perform_push]
      split
      · exact hRoom
      · exact hPush _ hRoom
  | operate operator =>
      rw [on_perform_operate]
      split
      · exact hPush _ (by simp only [List.length_cons] at hRoom; omega)
      · exact Nat.zero_le _
  | ret =>
      rw [on_perform_ret]
      split
      · exact Nat.le_of_succ_le hRoom
      · exact Nat.zero_le _
  | negate | unknown | truncated => exact hRoom

namespace Performs

variable {pool : Array Number} {length : Nat} {program : List (Nat × Instruction)}
  {stack : List Number} {run : Machine.Run}

/-- Performing a program gives what folding it gives. -/
theorem settle_performAll (h : Performs pool length program stack run) :
    settle length ((performAll pool length program).on stack) = (run.outcome, run.stack) := by
  induction h with
  | exhausted stack => rfl
  | ended hEnd =>
      rw [performAll_cons, Action.on_bind, hEnd]
      rfl
  | next hNext further ih =>
      rw [performAll_cons, Action.on_bind, hNext]
      exact ih

theorem length_stack_le (h : Performs pool length program stack run)
    (hRoom : stack.length ≤ 256) :
    (∀ snapshot ∈ run.trace, snapshot.stack.length ≤ 256) ∧ run.stack.length ≤ 256 := by
  induction h with
  | exhausted stack => simpa using hRoom
  | @ended offset instruction rest stack left outcome hEnd =>
      have hLeft := length_perform_le pool length offset instruction hRoom
      rw [hEnd] at hLeft
      exact ⟨by simpa using hRoom, hLeft⟩
  | @next offset instruction rest stack after run hNext further ih =>
      have hAfter := length_perform_le pool length offset instruction hRoom
      rw [hNext] at hAfter
      obtain ⟨hTrace, hStack⟩ := ih hAfter
      exact ⟨by simpa [Machine.Run.after] using ⟨hRoom, hTrace⟩, hStack⟩

/-- An instruction that the run comes to, and that ends the execution, is the last. -/
theorem eq_of_ended (h : Performs pool length program stack run) {snapshot : Machine.Snapshot}
    {offset : Nat} {instruction : Instruction} {outcome : Except Fault Number}
    {left : List Number} (hMem : (snapshot, offset, instruction) ∈ run.trace.zip program)
    (hEnd : (perform pool length offset instruction).on snapshot.stack = (.error outcome, left)) :
    run.outcome = outcome ∧ run.stack = left := by
  induction h with
  | exhausted stack => simp at hMem
  | ended hLast =>
      simp only [List.zip_cons_cons, List.zip_nil_left, List.mem_singleton, Prod.mk.injEq] at hMem
      obtain ⟨rfl, rfl, rfl⟩ := hMem
      cases hLast.symm.trans hEnd
      exact ⟨rfl, rfl⟩
  | next hNext further ih =>
      simp only [Machine.Run.after, List.zip_cons_cons, List.mem_cons, Prod.mk.injEq] at hMem
      rcases hMem with ⟨rfl, rfl, rfl⟩ | hMem
      · cases hNext.symm.trans hEnd
      · exact ih hMem

/-- A run comes to every instruction of the program and ends behind them, or it comes to the first
of them and ends with the last that it came to. -/
theorem last (h : Performs pool length program stack run) :
    (run.outcome = .error (.unexpectedEnd length) ∧
      run.trace.map (·.offset) = program.map (·.1) ++ [length]) ∨
      run.trace.map (·.offset) <+: program.map (·.1) ∧
        ∃ snapshot instruction, run.trace.getLast? = some snapshot ∧
          (snapshot, snapshot.offset, instruction) ∈ run.trace.zip program ∧
          (perform pool length snapshot.offset instruction).on snapshot.stack =
            (.error run.outcome, run.stack) := by
  induction h with
  | exhausted stack => exact .inl ⟨rfl, rfl⟩
  | @ended offset instruction rest stack left outcome hEnd =>
      exact .inr ⟨by simp, ⟨offset, stack⟩, instruction, rfl, by simp, hEnd⟩
  | next hNext further ih =>
      rcases ih with ⟨hEnd, hOffsets⟩ | ⟨hOffsets, snapshot, instruction, hLast, hMem, hEnd⟩
      · exact .inl ⟨hEnd, by simp [Machine.Run.after, hOffsets]⟩
      · refine .inr ⟨?_, snapshot, instruction, ?_, ?_, hEnd⟩
        · simpa [Machine.Run.after] using hOffsets
        · simp [Machine.Run.after, List.getLast?_cons, hLast]
        · simpa [Machine.Run.after] using .inr hMem

end Performs

end Execution

/-- The instructions of a chunk with their offsets. -/
def Chunk.program (chunk : Chunk) : List (Nat × Instruction) :=
  placed 0 (decode chunk.code)

namespace Machine

/-- The run of a chunk comes to an instruction at an offset with a stack. -/
def Reaches (chunk : Chunk) (offset : Nat) (instruction : Instruction) (stack : List Number) :
    Prop :=
  (⟨offset, stack⟩, offset, instruction) ∈ (run chunk).trace.zip chunk.program

/-- The run of a chunk comes to an instruction and goes no further. -/
def StopsAt (chunk : Chunk) (offset : Nat) (instruction : Instruction) (stack : List Number) :
    Prop :=
  Reaches chunk offset instruction stack ∧ (run chunk).trace.getLast? = some ⟨offset, stack⟩

theorem run_performs (chunk : Chunk) :
    Execution.Performs chunk.pool chunk.code.length chunk.program [] (run chunk) := by
  rw [run_eq_runFrom]
  simpa [Chunk.program] using
    Execution.runFrom_performs chunk.pool chunk.code 0 [] (Nat.zero_le _)

/-- The machine gives what decoding first and folding then gives. -/
theorem run_eq_fold (chunk : Chunk) :
    ((run chunk).outcome, (run chunk).stack) = Execution.fold chunk.pool chunk.code :=
  (run_performs chunk).settle_performAll.symm

theorem stack_of_run_le (chunk : Chunk) :
    (∀ snapshot ∈ (run chunk).trace, snapshot.stack.length ≤ 256) ∧
      (run chunk).stack.length ≤ 256 :=
  (run_performs chunk).length_stack_le (Nat.zero_le _)

/-- A run ends behind the code, or with the instruction that it stops at. -/
theorem run_stops (chunk : Chunk) :
    (run chunk).outcome = .error (.unexpectedEnd chunk.code.length) ∨
      ∃ offset instruction stack, StopsAt chunk offset instruction stack ∧
        Execution.Ends chunk.pool chunk.code.length offset instruction stack (run chunk).outcome
          (run chunk).stack := by
  rcases (run_performs chunk).last with
    ⟨hEnd, _⟩ | ⟨_, ⟨offset, stack⟩, instruction, hLast, hMem, hEnd⟩
  · exact .inl hEnd
  · have hRoom := (stack_of_run_le chunk).1 _ (List.mem_of_getLast? hLast)
    exact .inr ⟨offset, instruction, stack, ⟨hMem, hLast⟩, Execution.ends_of_perform hEnd hRoom⟩

end Machine

/-- What a fault says of a chunk whose run leaves a stack. Every offset is that of the instruction
that the run stopped at, except that code which runs out, be it inside an instruction, is reported
at its end. -/
def Fault.Describes (fault : Fault) (chunk : Chunk) (left : List Number) : Prop :=
  match fault with
  | .unexpectedEnd offset => offset = chunk.code.length
  | .unknownOpcode byte offset => Machine.StopsAt chunk offset (.unknown byte) left
  | .unsupportedOpcode opcode offset =>
      opcode = .negate ∧ Machine.StopsAt chunk offset .negate left
  | .invalidConstant index offset =>
      chunk.pool[index.toNat]? = none ∧ Machine.StopsAt chunk offset (.push index) left
  | .stackOverflow =>
      left.length = 256 ∧ ∃ offset index, Machine.StopsAt chunk offset (.push index) left
  | .stackUnderflow =>
      left = [] ∧ ∃ offset stack,
        (∃ operator, Machine.StopsAt chunk offset (.operate operator) stack ∧ stack.length < 2) ∨
          Machine.StopsAt chunk offset .ret stack ∧ stack = []

namespace Machine

theorem run_describes {chunk : Chunk} {fault : Fault} (h : (run chunk).outcome = .error fault) :
    fault.Describes chunk (run chunk).stack := by
  rcases run_stops chunk with hEnd | ⟨offset, instruction, stack, hStop, hEnds⟩
  · cases h.symm.trans hEnd
    rfl
  · rw [h] at hEnds
    generalize (run chunk).stack = left at hEnds ⊢
    cases hEnds with
    | invalidConstant hNone => exact ⟨hNone, hStop⟩
    | overflow hFull => exact ⟨hFull, offset, _, hStop⟩
    | underflow hShort => exact ⟨rfl, offset, stack, .inl ⟨_, hStop, hShort⟩⟩
    | unsupported => exact ⟨rfl, hStop⟩
    | nothingToReturn => exact ⟨rfl, offset, [], .inr ⟨hStop, rfl⟩⟩
    | unknown => exact hStop
    | truncated => rfl

/-- A run that gives a value stops at a return, and has just taken the value off the stack. -/
theorem stopsAt_ret_of_run {chunk : Chunk} {value : Number} (h : (run chunk).outcome = .ok value) :
    ∃ offset, StopsAt chunk offset .ret (value :: (run chunk).stack) := by
  rcases run_stops chunk with hEnd | ⟨offset, instruction, stack, hStop, hEnds⟩
  · cases h.symm.trans hEnd
  · rw [h] at hEnds
    generalize (run chunk).stack = left at hEnds ⊢
    cases hEnds with
    | returned => exact ⟨offset, hStop⟩

/-- An instruction that the run reaches, and that ends the execution, decides the outcome. -/
theorem run_of_reaches {chunk : Chunk} {offset : Nat} {instruction : Instruction}
    {stack left : List Number} {outcome : Except Fault Number}
    (h : Reaches chunk offset instruction stack)
    (hEnd : (Execution.perform chunk.pool chunk.code.length offset instruction).on stack =
      (.error outcome, left)) :
    (run chunk).outcome = outcome ∧ (run chunk).stack = left :=
  (run_performs chunk).eq_of_ended h hEnd

theorem run_of_operate_single {chunk : Chunk} {offset : Nat} {operator : Operator} {value : Number}
    (h : Reaches chunk offset (.operate operator) [value]) :
    (run chunk).outcome = .error .stackUnderflow ∧ (run chunk).stack = [] :=
  run_of_reaches h (Execution.on_perform_operate ..)

theorem run_of_push_full {chunk : Chunk} {offset : Nat} {index : UInt8} {value : Number}
    {stack : List Number} (h : Reaches chunk offset (.push index) stack)
    (hValue : chunk.pool[index.toNat]? = some value) (hFull : stack.length = 256) :
    (run chunk).outcome = .error .stackOverflow ∧ (run chunk).stack = stack := by
  apply run_of_reaches h
  rw [Execution.on_perform_push, hValue]
  dsimp only
  rw [Execution.on_push, if_neg (by omega)]

end Machine

namespace Session

variable {σ : Type} [Sink σ]

/-- In any session whose sink takes everything, a chunk of any bytes gives what decoding it first
and folding its instructions over an empty stack gives, and leaves the same stack. No stack on the
way has more numbers than the limit. A fault tells the truth about where the run stopped, an
operator with a single operand takes it off, and a constant for which there is no room leaves a
full stack as it is. -/
theorem run_refines_fold (sinks : Sink.Unlimited σ) (session : Session σ) (chunk : Chunk)
    (hSink : sinks.accepts session.sink) :
    (decode chunk.code).flatMap Instruction.bytes = chunk.code ∧
      (session.run chunk).1.result =
        (Execution.fold chunk.pool chunk.code).1.mapError .fault ∧
      (session.run chunk).2.stack = (Execution.fold chunk.pool chunk.code).2 ∧
      (∀ snapshot ∈ (Machine.run chunk).trace, snapshot.stack.length ≤ 256) ∧
      (session.run chunk).2.stack.length ≤ 256 ∧
      (∀ fault, (session.run chunk).1.result = .error (.fault fault) →
        fault.Describes chunk (session.run chunk).2.stack) ∧
      (∀ offset operator value, Machine.Reaches chunk offset (.operate operator) [value] →
        (session.run chunk).1.result = .error (.fault .stackUnderflow) ∧
          (session.run chunk).2.stack = []) ∧
      (∀ offset index value stack, Machine.Reaches chunk offset (.push index) stack →
        chunk.pool[index.toNat]? = some value → stack.length = 256 →
        (session.run chunk).1.result = .error (.fault .stackOverflow) ∧
          (session.run chunk).2.stack = stack) := by
  obtain ⟨after, hRun, _, _⟩ := run_of_accepts sinks hSink chunk
  have hResult : (session.run chunk).1.result = (Machine.run chunk).outcome.mapError .fault := by
    rw [hRun]
    rfl
  have hStack : (session.run chunk).2.stack = (Machine.run chunk).stack := by
    rw [hRun]
    rfl
  have hFold := Machine.run_eq_fold chunk
  obtain ⟨hTrace, hLeft⟩ := Machine.stack_of_run_le chunk
  rw [hResult, hStack]
  refine ⟨flatMap_bytes_decode chunk.code, by rw [← hFold], by rw [← hFold], hTrace, hLeft,
    ?_, ?_, ?_⟩
  · intro fault hFault
    apply Machine.run_describes
    cases hOutcome : (Machine.run chunk).outcome with
    | ok value =>
        rw [hOutcome] at hFault
        cases hFault
    | error other =>
        rw [hOutcome] at hFault
        cases hFault
        rfl
  · intro offset operator value hReach
    obtain ⟨hOutcome, hEmpty⟩ := Machine.run_of_operate_single hReach
    exact ⟨by rw [hOutcome]; rfl, hEmpty⟩
  · intro offset index value stack hReach hValue hFull
    obtain ⟨hOutcome, hSame⟩ := Machine.run_of_push_full hReach hValue hFull
    exact ⟨by rw [hOutcome]; rfl, hSame⟩

/-- Three faults in a session that has been left with three numbers, all its slots filled and the
counter inside the code: an operator that finds one operand, which is the result of another, the
257th number, and code that ends inside an instruction. -/
theorem run_refines_fold_of_faults :
    ∃ session : Session MemorySink, session.registers.slots = .replicate 256 ⟨9⟩ ∧
      session.stack = [⟨9⟩, ⟨9⟩, ⟨9⟩] ∧ session.registers.counter = 2 ∧
      (let short := session.run (.assemble [1, 0, 1, 0, 3, 2, 7] #[⟨5⟩])
      short.1.result = .error (.fault .stackUnderflow) ∧ short.2.stack = []) ∧
      (let full := session.run (.assemble (List.replicate 257 [1, 0]).flatten #[⟨5⟩])
      full.1.result = .error (.fault .stackOverflow) ∧ full.2.stack = .replicate 256 ⟨5⟩) ∧
      (let cut := session.run (.assemble [1, 0, 1] #[⟨5⟩])
      cut.1.result = .error (.fault (.unexpectedEnd 3)) ∧ cut.2.stack = [⟨5⟩]) := by
  let session : Session MemorySink :=
    { sink := {}
      registers := { slots := .replicate 256 ⟨9⟩, top := 3, counter := 2, top_le := by decide } }
  have hFold (code : List UInt8) :
      (session.run (.assemble code #[⟨5⟩])).1.result =
          (Execution.fold #[⟨5⟩] code).1.mapError .fault ∧
        (session.run (.assemble code #[⟨5⟩])).2.stack = (Execution.fold #[⟨5⟩] code).2 := by
    obtain ⟨_, hResult, hStack, _⟩ :=
      run_refines_fold MemorySink.unlimited session (.assemble code #[⟨5⟩]) rfl
    rw [Chunk.code_assemble] at hResult hStack
    exact ⟨hResult, hStack⟩
  refine ⟨session, rfl, by decide +kernel, rfl, ⟨?_, ?_⟩, ⟨?_, ?_⟩, ⟨?_, ?_⟩⟩
  · exact (hFold _).1.trans (by decide +kernel)
  · exact (hFold _).2.trans (by decide +kernel)
  · exact (hFold _).1.trans (by decide +kernel)
  · exact (hFold _).2.trans (by decide +kernel)
  · exact (hFold _).1.trans (by decide +kernel)
  · exact (hFold _).2.trans (by decide +kernel)

end Session

end StackCalculator
