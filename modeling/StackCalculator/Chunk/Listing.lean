import StackCalculator.Chunk.Basic
import StackCalculator.Number.Text

/-!
Listings show code one instruction a line: the offset, the source line or a bar if it is that of
the byte before, and the instruction. Any bytes can be listed.
-/

namespace StackCalculator.Chunk

/-- An offset in a listing, four digits wide or wider. -/
def offsetText (offset : Nat) : String :=
  Text.padLeft 4 '0' (toString offset)

/-- The source line in a listing, or a bar if it is the line of the byte before. -/
def lineText (previous : Option Nat) (line : Nat) : String :=
  if previous = some line then "   |" else Text.padLeft 4 ' ' (toString line)

/-- What an instruction does, given the byte behind its opcode. -/
def describe (pool : Array Number) (byte : UInt8) (operand : Option UInt8) : String :=
  match Opcode.ofByte? byte with
  | none => Opcode.unknownMessage byte
  | some .constant =>
      Opcode.constant.shown { width := 16 } ++ " " ++
        match operand with
        | none => "<truncated>"
        | some index =>
            Text.padLeft 4 ' ' (toString index.toNat) ++ " " ++
              match pool[index.toNat]? with
              | some value => "'" ++ value.text ++ "'"
              | none => "<missing>"
  | some opcode => opcode.name

/-- The line of a listing for the instruction that starts at an offset, given the cells from
there on and the source line of the byte before. -/
def instructionText (pool : Array Number) (offset : Nat) (previous : Option Nat) :
    List Cell → String
  | [] => offsetText offset ++ " <end of code>\n"
  | cell :: behind =>
      offsetText offset ++ " " ++ lineText previous cell.line ++ " " ++
        describe pool cell.byte (behind.head?.map (·.byte)) ++ "\n"

/-- The line of a listing for the instruction at an offset. An offset past the code says so, and
one inside an instruction takes what stands there for an opcode. -/
def instruction (chunk : Chunk) (offset : Nat) : String :=
  let previous := if offset = 0 then none else chunk.lines[offset - 1]?
  instructionText chunk.pool offset previous (chunk.cells.toList.drop offset)

/-- Whether a byte is an opcode with an operand behind it. -/
def takesOperand (byte : UInt8) : Bool :=
  match Opcode.ofByte? byte with
  | some opcode => opcode.operandCount = 1
  | none => false

/-- The lines of a listing from an offset on. An opcode takes its operand along if there is
one. -/
def instructionsFrom (pool : Array Number) (offset : Nat) (previous : Option Nat) :
    List Cell → List String
  | [] => []
  | [cell] => [instructionText pool offset previous [cell]]
  | cell :: operand :: behind =>
      instructionText pool offset previous (cell :: operand :: behind) ::
        if takesOperand cell.byte then
          instructionsFrom pool (offset + 2) (some operand.line) behind
        else
          instructionsFrom pool (offset + 1) (some cell.line) (operand :: behind)

/-- The lines of a whole listing, without its heading. -/
def instructions (chunk : Chunk) : List String :=
  instructionsFrom chunk.pool 0 none chunk.cells.toList

/-- A chunk's listing under a name. -/
def listing (chunk : Chunk) (name : String) : String :=
  "== " ++ name ++ " ==\n" ++ String.join chunk.instructions

end StackCalculator.Chunk
