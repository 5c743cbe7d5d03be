import StackCalculator.Expr
import StackCalculator.Text.Padding

/-!
The instruction set: opcodes, the bytes that encode them and their names.
-/

namespace StackCalculator

/-- What an instruction does. `negate` is reserved: it has a byte and a name, but no program that
contains it runs past it. -/
inductive Opcode where
  | constant
  | operate (operator : Operator)
  | negate
  | ret
  deriving DecidableEq

namespace Opcode

/-- The byte that encodes an opcode. Zero encodes none. -/
def byte : Opcode → UInt8
  | .constant => 1
  | .operate .add => 2
  | .operate .subtract => 3
  | .operate .multiply => 4
  | .operate .divide => 5
  | .negate => 6
  | .ret => 7

/-- The opcode that a byte encodes, if it encodes one. -/
def ofByte? (byte : UInt8) : Option Opcode :=
  match byte with
  | 1 => some .constant
  | 2 => some (.operate .add)
  | 3 => some (.operate .subtract)
  | 4 => some (.operate .multiply)
  | 5 => some (.operate .divide)
  | 6 => some .negate
  | 7 => some .ret
  | _ => none

@[simp] theorem ofByte?_byte (opcode : Opcode) : ofByte? opcode.byte = some opcode := by
  match opcode with
  | .constant | .negate | .ret => rfl
  | .operate .add | .operate .subtract | .operate .multiply | .operate .divide => rfl

theorem byte_of_ofByte? {byte : UInt8} {opcode : Opcode} (h : ofByte? byte = some opcode) :
    opcode.byte = byte := by
  unfold ofByte? at h
  split at h <;> simp_all [Opcode.byte] <;> subst h <;> rfl

/-- How many bytes of operand follow the opcode. -/
def operandCount : Opcode → Nat
  | .constant => 1
  | _ => 0

/-- The opcode's name in listings and messages. -/
def name : Opcode → String
  | .constant => "OP_CONSTANT"
  | .operate .add => "OP_ADD"
  | .operate .subtract => "OP_SUBTRACT"
  | .operate .multiply => "OP_MULTIPLY"
  | .operate .divide => "OP_DIVIDE"
  | .negate => "OP_NEGATE"
  | .ret => "OP_RETURN"

/-- The name as it is shown in a column. -/
def shown (opcode : Opcode) (layout : Text.Layout) : String :=
  layout.fit opcode.name

@[simp] theorem shown_left (opcode : Opcode) (width : Nat) :
    opcode.shown { width := width } = Text.padRight width ' ' opcode.name :=
  rfl

/-- What is said of a byte that encodes no opcode. -/
def unknownMessage (byte : UInt8) : String :=
  "Unknown opcode " ++ toString byte.toNat

end Opcode

end StackCalculator
