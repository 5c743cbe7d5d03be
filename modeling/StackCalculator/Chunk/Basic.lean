import StackCalculator.Buffer
import StackCalculator.Opcode

/-!
Chunks: bytecode with the source line of every byte, and the pool of constants that it refers to.
-/

namespace StackCalculator

/-- A byte of code and the source line it comes from. -/
structure Cell where
  byte : UInt8
  line : Nat
  deriving DecidableEq

/-- Bytecode with its line table and constant pool. Any bytes can stand in it, whether or not
they form instructions. -/
structure Chunk where
  cells : Buffer Cell := {}
  constants : Buffer Number := {}
  deriving DecidableEq

namespace Chunk

/-- The bytes of a chunk. -/
def code (chunk : Chunk) : List UInt8 :=
  chunk.cells.toList.map (·.byte)

/-- The source lines of a chunk's bytes, one for each. -/
def lines (chunk : Chunk) : List Nat :=
  chunk.cells.toList.map (·.line)

/-- How many bytes of code a chunk has. -/
def size (chunk : Chunk) : Nat :=
  chunk.cells.size

/-- The numbers that the code can refer to by index. -/
def pool (chunk : Chunk) : Array Number :=
  chunk.constants.items

/-- Appends a byte of code. -/
def write (chunk : Chunk) (byte : UInt8) (line : Nat) : Chunk :=
  { chunk with cells := chunk.cells.push ⟨byte, line⟩ }

/-- Appends a number to the pool and gives its index. Equal numbers are stored again. -/
def addConstant (chunk : Chunk) (value : Number) : Nat × Chunk :=
  (chunk.constants.size, { chunk with constants := chunk.constants.push value })

/-- The byte at an offset of the code. -/
def byte? (chunk : Chunk) (offset : Nat) : Option UInt8 :=
  chunk.cells.items[offset]?.map (·.byte)

/-- The number at an index of the pool. -/
def constant? (chunk : Chunk) (index : Nat) : Option Number :=
  chunk.pool[index]?

/-- A copy has the same contents and no room to spare. -/
def copy (chunk : Chunk) : Chunk where
  cells := chunk.cells.copy
  constants := chunk.constants.copy

/-- Whether two chunks have the same bytes on the same lines and constants of the same values.
Constants are compared as numbers, so a chunk with a NaN differs from itself. Reserved room does
not count. -/
def sameContents (a b : Chunk) : Bool :=
  a.cells.toList == b.cells.toList &&
    (a.constants.size == b.constants.size &&
      (List.zipWith Number.sameValue a.constants.toList b.constants.toList).all id)

theorem lt_size_of_byte? {chunk : Chunk} {offset : Nat} {byte : UInt8}
    (h : chunk.byte? offset = some byte) : offset < chunk.size := by
  obtain ⟨_, hCell, _⟩ := Option.map_eq_some_iff.mp h
  exact (Array.getElem?_eq_some_iff.mp hCell).1

end Chunk

end StackCalculator
