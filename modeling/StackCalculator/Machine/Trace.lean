import StackCalculator.Chunk.Listing
import StackCalculator.Machine.Basic

/-!
The text of a trace: before each instruction, the stack from the bottom up and the instruction as
a listing shows it.
-/

namespace StackCalculator.Machine

/-- The stack on a line of its own. -/
def stackText (stack : List Number) : String :=
  Text.run 10 ' ' ++ String.join (stack.reverse.map fun value => "[ " ++ value.text ++ " ]") ++ "\n"

/-- A state of the machine and the instruction it has come to. -/
def Snapshot.text (chunk : Chunk) (snapshot : Snapshot) : String :=
  stackText snapshot.stack ++ chunk.instruction snapshot.offset

/-- The trace of a run of a chunk. -/
def Run.traceText (chunk : Chunk) (run : Run) : String :=
  String.join (run.trace.map (Snapshot.text chunk))

end StackCalculator.Machine
