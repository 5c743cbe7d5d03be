import StackCalculator.Action
import StackCalculator.Chunk.Basic

/-!
The stack machine. Its stack stands in a fixed number of slots, of which the first ones are in use;
the others hold what is left over from before. The machine goes through the code once, from the
first byte on, with no jumps, so every run ends.
-/

namespace StackCalculator

/-- Why a run ends without a value. An offset is that of the instruction's first byte, and for
`unexpectedEnd` the length of the code. -/
inductive Fault where
  | stackOverflow
  | stackUnderflow
  | unknownOpcode (byte : UInt8) (offset : Nat)
  | unsupportedOpcode (opcode : Opcode) (offset : Nat)
  | invalidConstant (index : UInt8) (offset : Nat)
  | unexpectedEnd (offset : Nat)
  deriving DecidableEq

namespace Machine

/-- How many numbers the stack can hold. -/
def stackLimit : Nat := 256

/-- What can be seen of the machine before an instruction: where it is, and its stack with the top
first. -/
structure Snapshot where
  offset : Nat
  stack : List Number
  deriving DecidableEq

/-- What can be seen of a finished run: its outcome, the stack it leaves with the top first, and the
machine's states before each instruction that it came to. -/
structure Run where
  outcome : Except Fault Number
  stack : List Number
  trace : List Snapshot := []

/-- All that the machine keeps while it runs. The slots in use are the first ones, and the last of
them is the top of the stack. -/
structure Registers where
  slots : Vector Number stackLimit := .replicate stackLimit default
  /-- How many slots are in use. -/
  top : Nat := 0
  /-- The offset of the next byte of code. -/
  counter : Nat := 0
  top_le : top ≤ stackLimit := by exact Nat.zero_le _
  deriving DecidableEq

namespace Registers

/-- The numbers in the slots that are in use, the top first. -/
def stack (registers : Registers) : List Number :=
  (registers.slots.toList.take registers.top).reverse

def snapshot (registers : Registers) : Snapshot :=
  ⟨registers.counter, registers.stack⟩

/-- Goes back to the beginning of the code with no slot in use, and wipes all slots. -/
def reset (registers : Registers) : Registers where
  slots := registers.slots.map fun _ => default
  top := 0
  counter := 0

end Registers

/-- Reads the byte at the counter and moves the counter behind it. -/
def readByte (chunk : Chunk) : Action Fault Registers UInt8 := do
  let registers ← get
  match chunk.byte? registers.counter with
  | none => throw (.unexpectedEnd registers.counter)
  | some byte =>
      set { registers with counter := registers.counter + 1 }
      return byte

/-- Puts a number into the first slot that is not in use. -/
def push (value : Number) : Action Fault Registers Unit := do
  let registers ← get
  if hFull : registers.top = stackLimit then
    throw .stackOverflow
  else
    have hRoom : registers.top < stackLimit := Nat.lt_of_le_of_ne registers.top_le hFull
    set { registers with
      slots := registers.slots.set registers.top value
      top := registers.top + 1
      top_le := hRoom }

/-- Gives the number in the last slot in use, which then is no longer in use. It keeps its
contents. -/
def pop : Action Fault Registers Number := do
  let registers ← get
  if hEmpty : registers.top = 0 then
    throw .stackUnderflow
  else
    have hTop : registers.top - 1 < stackLimit :=
      Nat.lt_of_lt_of_le (Nat.sub_one_lt hEmpty) registers.top_le
    set { registers with
      top := registers.top - 1
      top_le := Nat.le_of_lt hTop }
    return registers.slots[registers.top - 1]

/-- Performs an instruction whose opcode has been read and has the given offset. A return gives the
number that it takes off the stack. -/
def perform (chunk : Chunk) (offset : Nat) : Opcode → Action Fault Registers (Option Number)
  | .constant => do
      let index ← readByte chunk
      match chunk.constant? index.toNat with
      | none => throw (.invalidConstant index offset)
      | some value =>
          push value
          return none
  | .operate operator => do
      let right ← pop
      let left ← pop
      push (operator.apply left right)
      return none
  | .negate => throw (.unsupportedOpcode .negate offset)
  | .ret => do
      let value ← pop
      return some value

/-- Reads the opcode at the counter and performs its instruction. -/
def step (chunk : Chunk) : Action Fault Registers (Option Number) := do
  let offset := (← get).counter
  let byte ← readByte chunk
  match Opcode.ofByte? byte with
  | none => throw (.unknownOpcode byte offset)
  | some opcode => perform chunk offset opcode

theorem on_readByte (chunk : Chunk) (registers : Registers) :
    (readByte chunk).on registers =
      match chunk.byte? registers.counter with
      | none => (.error (.unexpectedEnd registers.counter), registers)
      | some byte => (.ok byte, { registers with counter := registers.counter + 1 }) := by
  rw [readByte, Action.on_bind, Action.on_get]
  dsimp only
  cases chunk.byte? registers.counter <;> rfl

theorem on_step (chunk : Chunk) (registers : Registers) :
    (step chunk).on registers =
      match chunk.byte? registers.counter with
      | none => (.error (.unexpectedEnd registers.counter), registers)
      | some byte =>
          let behind := { registers with counter := registers.counter + 1 }
          match Opcode.ofByte? byte with
          | none => (.error (.unknownOpcode byte registers.counter), behind)
          | some opcode => (perform chunk registers.counter opcode).on behind := by
  rw [step, Action.on_bind, Action.on_get]
  dsimp only
  rw [Action.on_bind, on_readByte]
  cases chunk.byte? registers.counter with
  | none => rfl
  | some byte =>
      dsimp only
      cases Opcode.ofByte? byte <;> rfl

theorem counter_push (value : Number) (registers : Registers) :
    ((push value).on registers).2.counter = registers.counter := by
  rw [push, Action.on_bind, Action.on_get]
  dsimp only
  split <;> rfl

theorem counter_pop (registers : Registers) :
    (pop.on registers).2.counter = registers.counter := by
  rw [pop, Action.on_bind, Action.on_get]
  dsimp only
  split <;> rfl

theorem counter_le_bind {α β : Type} {first : Action Fault Registers α}
    {next : α → Action Fault Registers β} {registers : Registers}
    (hFirst : registers.counter ≤ (first.on registers).2.counter)
    (hNext : ∀ value after, after.counter ≤ ((next value).on after).2.counter) :
    registers.counter ≤ ((first >>= next).on registers).2.counter := by
  rw [Action.on_bind]
  rcases hOn : first.on registers with ⟨_ | value, after⟩
  · rwa [hOn] at hFirst
  · rw [hOn] at hFirst
    exact Nat.le_trans hFirst (hNext value after)

/-- No instruction moves the counter back. -/
theorem counter_le_perform (chunk : Chunk) (offset : Nat) (opcode : Opcode)
    (registers : Registers) :
    registers.counter ≤ ((perform chunk offset opcode).on registers).2.counter := by
  have hPush (value : Number) (r : Registers) : r.counter ≤ ((push value).on r).2.counter :=
    Nat.le_of_eq (counter_push value r).symm
  have hPop (r : Registers) : r.counter ≤ (pop.on r).2.counter :=
    Nat.le_of_eq (counter_pop r).symm
  cases opcode with
  | constant =>
      apply counter_le_bind
      · rw [on_readByte]
        cases chunk.byte? registers.counter
        · exact Nat.le_refl _
        · exact Nat.le_succ _
      · intro index after
        split
        · exact Nat.le_refl _
        · exact counter_le_bind (hPush ..) fun _ _ => Nat.le_refl _
  | operate operator =>
      exact counter_le_bind (hPop _) fun _ _ => counter_le_bind (hPop _) fun _ _ =>
        counter_le_bind (hPush ..) fun _ _ => Nat.le_refl _
  | negate => exact Nat.le_refl _
  | ret => exact counter_le_bind (hPop _) fun _ _ => Nat.le_refl _

/-- A step that does not end the run has read code and moved the counter on. -/
theorem counter_of_step {chunk : Chunk} {registers after : Registers}
    (h : (step chunk).on registers = (.ok none, after)) :
    registers.counter < chunk.size ∧ registers.counter < after.counter := by
  rw [on_step] at h
  split at h
  · cases h
  · rename_i hByte
    refine ⟨Chunk.lt_size_of_byte? hByte, ?_⟩
    dsimp only at h
    split at h
    · cases h
    · rename_i opcode _
      have hFurther := counter_le_perform chunk registers.counter opcode
        { registers with counter := registers.counter + 1 }
      rwa [h] at hFurther

/-- The machine at the end of a run: the outcome, the registers, and what could be seen of the
machine before each instruction that it came to. -/
structure Halted where
  outcome : Except Fault Number
  registers : Registers
  trace : List Snapshot

/-- The same end, one instruction earlier. -/
def Halted.after (snapshot : Snapshot) (halted : Halted) : Halted :=
  { halted with trace := snapshot :: halted.trace }

/-- Performs instructions from the counter on until one of them returns a number or fails. -/
def execute (chunk : Chunk) (registers : Registers) : Halted :=
  match _ : (step chunk).on registers with
  | (.error fault, after) => ⟨.error fault, after, [registers.snapshot]⟩
  | (.ok (some value), after) => ⟨.ok value, after, [registers.snapshot]⟩
  | (.ok none, after) => (execute chunk after).after registers.snapshot
termination_by chunk.size - registers.counter
decreasing_by
  rename_i hStep
  obtain ⟨hWithin, hFurther⟩ := counter_of_step hStep
  exact Nat.sub_lt_sub_left hWithin hFurther

/-- What can be seen of the run. -/
def Halted.toRun (halted : Halted) : Run :=
  ⟨halted.outcome, halted.registers.stack, halted.trace⟩

/-- The machine after a run of a chunk from its first byte, with an empty stack. -/
def halt (chunk : Chunk) : Halted :=
  execute chunk {}

/-- What can be seen of a run of a chunk from its first byte, with an empty stack. -/
def run (chunk : Chunk) : Run :=
  (halt chunk).toRun

end Machine

/-- What is said of a fault. -/
def Fault.message : Fault → String
  | .stackOverflow =>
      "Stack overflow: more than " ++ toString Machine.stackLimit ++ " values."
  | .stackUnderflow => "Stack underflow."
  | .unknownOpcode byte offset =>
      Opcode.unknownMessage byte ++ " at offset " ++ toString offset ++ "."
  | .unsupportedOpcode opcode offset =>
      "Unsupported instruction " ++ opcode.name ++ " at offset " ++ toString offset ++ "."
  | .invalidConstant index offset =>
      "Constant " ++ toString index.toNat ++ " at offset " ++ toString offset ++
        " is outside the constant pool."
  | .unexpectedEnd offset =>
      "Reached the end of the code at offset " ++ toString offset ++ " without returning."

end StackCalculator
