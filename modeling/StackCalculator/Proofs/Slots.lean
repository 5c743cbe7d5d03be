import StackCalculator.Session

/-!
The machine without its slots. What can be seen of a run is the run of a machine that has nothing
but the code that is left and a list of numbers: slots that are not in use never matter, whatever
they hold. The list never grows past the number of slots.
-/

namespace StackCalculator

theorem Chunk.byte?_eq (chunk : Chunk) (offset : Nat) :
    chunk.byte? offset = chunk.code[offset]? := by
  simp [byte?, code, Buffer.toList]

/-- The code from an offset on starts with the byte there, if there is one. -/
theorem Chunk.drop_code (chunk : Chunk) (offset : Nat) :
    chunk.code.drop offset =
      match chunk.byte? offset with
      | none => []
      | some byte => byte :: chunk.code.drop (offset + 1) := by
  rw [byte?_eq]
  split
  · rename_i hNone
    rw [List.drop_eq_nil_iff]
    exact List.getElem?_eq_none_iff.mp hNone
  · rename_i hByte
    obtain ⟨hOffset, hByte⟩ := List.getElem?_eq_some_iff.mp hByte
    rw [List.drop_eq_getElem_cons hOffset, hByte]

namespace Machine

namespace Registers

@[simp] theorem length_stack (registers : Registers) : registers.stack.length = registers.top := by
  rw [stack, List.length_reverse, List.length_take, Vector.length_toList,
    Nat.min_eq_left registers.top_le]

/-- Nothing is left of what the registers were. -/
theorem reset_eq (registers : Registers) : registers.reset = {} := by
  have hSlots : registers.slots.map (fun _ => (default : Number)) =
      .replicate stackLimit default := Vector.map_const
  rw [reset]
  congr

end Registers

variable {registers : Registers}

/-- A number that there is a slot for stands on top of the others. -/
theorem on_push_of_room (value : Number) (hRoom : registers.stack.length < stackLimit) :
    ∃ after, (push value).on registers = (.ok (), after) ∧
      after.stack = value :: registers.stack ∧ after.counter = registers.counter := by
  rw [Registers.length_stack] at hRoom
  rw [push, Action.on_bind, Action.on_get]
  dsimp only
  rw [dif_neg (Nat.ne_of_lt hRoom)]
  refine ⟨_, rfl, ?_, rfl⟩
  have hWithin : registers.top < registers.slots.toList.length := by rwa [Vector.length_toList]
  have hWritten : (registers.slots.set registers.top value).toList.take (registers.top + 1) =
      registers.slots.toList.take registers.top ++ [value] := by
    rw [Vector.toList_set, List.set_eq_take_append_cons_drop, if_pos hWithin, List.append_cons]
    apply List.take_left'
    rw [List.length_append, List.length_take_of_le (Nat.le_of_lt hWithin), List.length_singleton]
  rw [Registers.stack, hWritten, List.reverse_concat]
  rfl

theorem on_push_of_full (value : Number) (hFull : stackLimit ≤ registers.stack.length) :
    (push value).on registers = (.error .stackOverflow, registers) := by
  rw [Registers.length_stack] at hFull
  rw [push, Action.on_bind, Action.on_get]
  dsimp only
  rw [dif_pos (Nat.le_antisymm registers.top_le hFull)]
  rfl

/-- The top comes off, and the others stay as they are. -/
theorem on_pop_of_cons {value : Number} {below : List Number}
    (hStack : registers.stack = value :: below) :
    ∃ after, pop.on registers = (.ok value, after) ∧ after.stack = below ∧
      after.counter = registers.counter := by
  have hTop : registers.top = below.length + 1 := by
    rw [← registers.length_stack, hStack, List.length_cons]
  have hSlots : registers.slots.toList.take registers.top = below.reverse ++ [value] := by
    rw [← List.reverse_cons, ← hStack, Registers.stack, List.reverse_reverse]
  have hRoom : below.length < stackLimit := by
    have hTopLe := registers.top_le
    omega
  rw [hTop, List.take_succ_eq_append_getElem (by simpa using hRoom),
    Vector.getElem_toList] at hSlots
  obtain ⟨hBelow, hValue⟩ := List.append_inj' hSlots rfl
  have hLast : registers.top - 1 = below.length := by omega
  rw [pop, Action.on_bind, Action.on_get]
  dsimp only
  rw [dif_neg (by omega)]
  refine ⟨{ registers with top := registers.top - 1, top_le := by omega }, ?_, ?_, rfl⟩
  · simp only [hLast, (List.cons.inj hValue).1]
    rfl
  · rw [Registers.stack]
    dsimp only
    rw [hLast, hBelow, List.reverse_reverse]

theorem on_pop_of_nil (hStack : registers.stack = []) :
    pop.on registers = (.error .stackUnderflow, registers) := by
  have hTop : registers.top = 0 := by
    rw [← registers.length_stack, hStack, List.length_nil]
  rw [pop, Action.on_bind, Action.on_get]
  dsimp only
  rw [dif_pos hTop]
  rfl

/-- The same run, one instruction earlier. -/
def Run.after (snapshot : Snapshot) (run : Run) : Run :=
  { run with trace := snapshot :: run.trace }

/-- Runs the rest of a program, whose first byte has the given offset, on a stack. Operands that
were taken off before a fault stay off. -/
def runFrom (pool : Array Number) (code : List UInt8) (offset : Nat) (stack : List Number) : Run :=
  Run.after ⟨offset, stack⟩ <|
    match code with
    | [] => ⟨.error (.unexpectedEnd offset), stack, []⟩
    | byte :: behind =>
        match Opcode.ofByte? byte with
        | none => ⟨.error (.unknownOpcode byte offset), stack, []⟩
        | some .constant =>
            match behind with
            | [] => ⟨.error (.unexpectedEnd (offset + 1)), stack, []⟩
            | index :: behind =>
                match pool[index.toNat]? with
                | none => ⟨.error (.invalidConstant index offset), stack, []⟩
                | some value =>
                    if stack.length < stackLimit then
                      runFrom pool behind (offset + 2) (value :: stack)
                    else
                      ⟨.error .stackOverflow, stack, []⟩
        | some (.operate operator) =>
            match stack with
            | right :: left :: below =>
                runFrom pool behind (offset + 1) (operator.apply left right :: below)
            | _ => ⟨.error .stackUnderflow, [], []⟩
        | some .negate => ⟨.error (.unsupportedOpcode .negate offset), stack, []⟩
        | some .ret =>
            match stack with
            | [] => ⟨.error .stackUnderflow, [], []⟩
            | value :: below => ⟨.ok value, below, []⟩

/-- What a step makes of a run, seen from the machine without slots. -/
def stepped (chunk : Chunk) (snapshot : Snapshot) :
    Except Fault (Option Number) × Registers → Run
  | (.error fault, after) => ⟨.error fault, after.stack, [snapshot]⟩
  | (.ok (some value), after) => ⟨.ok value, after.stack, [snapshot]⟩
  | (.ok none, after) =>
      (runFrom chunk.pool (chunk.code.drop after.counter) after.counter after.stack).after snapshot

section Instructions

variable (chunk : Chunk) (snapshot : Snapshot) (offset : Nat) (registers : Registers)

theorem stepped_constant :
    stepped chunk snapshot ((perform chunk offset .constant).on registers) =
      Run.after snapshot
        (match chunk.code.drop registers.counter with
        | [] => ⟨.error (.unexpectedEnd registers.counter), registers.stack, []⟩
        | index :: behind =>
            match chunk.pool[index.toNat]? with
            | none => ⟨.error (.invalidConstant index offset), registers.stack, []⟩
            | some value =>
                if registers.stack.length < stackLimit then
                  runFrom chunk.pool behind (registers.counter + 1) (value :: registers.stack)
                else
                  ⟨.error .stackOverflow, registers.stack, []⟩) := by
  rw [perform, Action.on_bind, on_readByte, chunk.drop_code]
  cases chunk.byte? registers.counter with
  | none => rfl
  | some index =>
      dsimp only
      rw [Chunk.constant?]
      cases chunk.pool[index.toNat]? with
      | none => rfl
      | some value =>
          let behind := { registers with counter := registers.counter + 1 }
          dsimp only
          rw [Action.on_bind]
          rcases Nat.lt_or_ge registers.stack.length stackLimit with hRoom | hFull
          · obtain ⟨after, hPush, hStack, hCounter⟩ :=
              on_push_of_room value (show behind.stack.length < stackLimit from hRoom)
            rw [if_pos hRoom, hPush]
            simp only [stepped, Action.on_pure, hStack, hCounter]
            rfl
          · rw [if_neg (Nat.not_lt_of_ge hFull),
              on_push_of_full value (show stackLimit ≤ behind.stack.length from hFull)]
            rfl

/-- The operand on top comes off even if there is no other. -/
theorem stepped_operate (operator : Operator) :
    stepped chunk snapshot ((perform chunk offset (.operate operator)).on registers) =
      Run.after snapshot
        (match registers.stack with
        | right :: left :: below =>
            runFrom chunk.pool (chunk.code.drop registers.counter) registers.counter
              (operator.apply left right :: below)
        | _ => ⟨.error .stackUnderflow, [], []⟩) := by
  rw [perform, Action.on_bind]
  rcases hStack : registers.stack with _ | ⟨right, below⟩
  · rw [on_pop_of_nil hStack]
    dsimp only [stepped]
    rw [hStack]
    rfl
  · obtain ⟨middle, hRight, hMiddle, hCounter⟩ := on_pop_of_cons hStack
    rw [hRight]
    dsimp only
    rw [Action.on_bind]
    rcases below with _ | ⟨left, below⟩
    · rw [on_pop_of_nil hMiddle]
      dsimp only [stepped]
      rw [hMiddle]
      rfl
    · obtain ⟨last, hLeft, hLast, hLastCounter⟩ := on_pop_of_cons hMiddle
      have hRoom : last.stack.length < stackLimit := by
        have hTop := registers.top_le
        rw [← registers.length_stack, hStack] at hTop
        rw [hLast]
        exact Nat.lt_of_succ_lt hTop
      obtain ⟨after, hPush, hAfter, hAfterCounter⟩ :=
        on_push_of_room (operator.apply left right) hRoom
      rw [hLeft]
      dsimp only
      rw [Action.on_bind, hPush]
      simp only [stepped, Action.on_pure, hAfter, hAfterCounter, hLast, hLastCounter, hCounter]

theorem stepped_ret :
    stepped chunk snapshot ((perform chunk offset .ret).on registers) =
      Run.after snapshot
        (match registers.stack with
        | [] => ⟨.error .stackUnderflow, [], []⟩
        | value :: below => ⟨.ok value, below, []⟩) := by
  rw [perform, Action.on_bind]
  rcases hStack : registers.stack with _ | ⟨value, below⟩
  · rw [on_pop_of_nil hStack]
    dsimp only [stepped]
    rw [hStack]
    rfl
  · obtain ⟨after, hPop, hAfter, _⟩ := on_pop_of_cons hStack
    rw [hPop]
    simp only [stepped, Action.on_pure, hAfter]
    rfl

end Instructions

/-- One instruction of the machine without slots. -/
theorem runFrom_eq_stepped (chunk : Chunk) (registers : Registers) :
    runFrom chunk.pool (chunk.code.drop registers.counter) registers.counter registers.stack =
      stepped chunk registers.snapshot ((step chunk).on registers) := by
  rw [runFrom.eq_def, chunk.drop_code, on_step]
  cases chunk.byte? registers.counter with
  | none => rfl
  | some byte =>
      dsimp only
      cases Opcode.ofByte? byte with
      | none => rfl
      | some opcode =>
          let behind := { registers with counter := registers.counter + 1 }
          cases opcode with
          | constant => exact (stepped_constant chunk _ _ behind).symm
          | operate operator => exact (stepped_operate chunk _ _ behind operator).symm
          | negate => rfl
          | ret => exact (stepped_ret chunk _ _ behind).symm

/-- What can be seen of a run from any registers is the run of the machine without slots on the code
that is left and the numbers in the slots in use. -/
theorem toRun_execute (chunk : Chunk) (registers : Registers) :
    (execute chunk registers).toRun =
      runFrom chunk.pool (chunk.code.drop registers.counter) registers.counter registers.stack := by
  rw [runFrom_eq_stepped]
  fun_induction execute chunk registers with
  | case1 registers fault after hStep
  | case2 registers value after hStep =>
      rw [hStep]
      rfl
  | case3 registers after hStep ih =>
      rw [hStep, stepped, runFrom_eq_stepped, ← ih]
      rfl

theorem execute_reset (chunk : Chunk) (registers : Registers) :
    execute chunk registers.reset = halt chunk := by
  rw [registers.reset_eq, halt]

theorem run_eq_runFrom (chunk : Chunk) : run chunk = runFrom chunk.pool chunk.code 0 [] :=
  toRun_execute chunk {}

theorem execute_eq (chunk : Chunk) (registers : Registers) :
    execute chunk registers =
      match (step chunk).on registers with
      | (.error fault, after) => ⟨.error fault, after, [registers.snapshot]⟩
      | (.ok (some value), after) => ⟨.ok value, after, [registers.snapshot]⟩
      | (.ok none, after) => (execute chunk after).after registers.snapshot := by
  rw [execute.eq_def]
  split <;> (rename_i hStep; rw [hStep])

/-- Steps that are the same, except where they end in a fault of some kind, make runs that are the
same unless they end in such a fault. -/
theorem execute_eq_of_steps {chunk other : Chunk} {excluded : Fault → Prop}
    (hSteps : ∀ registers, (∀ fault, ((step chunk).on registers).1 = .error fault →
      ¬excluded fault) → (step other).on registers = (step chunk).on registers)
    (registers : Registers) (hOutcome : ∀ fault,
      (execute chunk registers).outcome = .error fault → ¬excluded fault) :
    execute other registers = execute chunk registers := by
  fun_induction execute chunk registers with
  | case1 registers fault after hStep =>
      have hSame := hSteps registers (by rw [hStep]; rintro _ ⟨⟩; exact hOutcome fault rfl)
      rw [execute_eq, hSame, hStep]
  | case2 registers value after hStep =>
      have hSame := hSteps registers (by rw [hStep]; rintro _ ⟨⟩)
      rw [execute_eq, hSame, hStep]
  | case3 registers after hStep ih =>
      have hSame := hSteps registers (by rw [hStep]; rintro _ ⟨⟩)
      rw [execute_eq, hSame, hStep]
      dsimp only
      rw [ih hOutcome]

end Machine

namespace Session

variable {σ : Type} [Sink σ]

/-- A run starts from registers that have been reset, so those that the session had are nowhere to
be found in it. -/
theorem run_eq (session : Session σ) (chunk : Chunk) :
    session.run chunk =
      let left := { session with registers := (Machine.halt chunk).registers }
      let diagnostics :=
        if session.switches.traceExecution then (Machine.run chunk).traceText chunk else ""
      match (Machine.run chunk).outcome with
      | .error e => (⟨.error (.fault e), diagnostics, [.running chunk.size]⟩, left)
      | .ok value =>
          match Sink.writeAll session.sink value.lineParts with
          | (.error e, sink) =>
              (⟨.error (.io e), diagnostics, [.running chunk.size]⟩, { left with sink := sink })
          | (.ok (), sink) =>
              (⟨.ok value, diagnostics, [.running chunk.size, .returned value]⟩,
                { left with sink := sink }) := by
  rw [run, reset, Machine.execute_reset]
  rfl

/-- The stack is left as the run leaves it, whether or not the result could be written. -/
theorem stack_run (session : Session σ) (chunk : Chunk) :
    (session.run chunk).2.stack = (Machine.run chunk).stack := by
  rw [run_eq]
  dsimp only
  split
  · rfl
  · split <;> rfl

end Session

end StackCalculator
