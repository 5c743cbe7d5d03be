import StackCalculator.Chunk.Listing
import StackCalculator.Report
import StackCalculator.Switches
import StackCalculator.Tree.Reader

/-!
Compiling: a source text becomes a parse tree, and the tree becomes code in postfix order.
-/

namespace StackCalculator

namespace Chunk

/-- Appends the code that pushes the value of a tree. A literal gets a new constant and stands on
its token's line; an operator follows its operands and stands on the line where they end. -/
def emit (chunk : Chunk) : Tree → Chunk
  | .literal token value =>
      let (index, chunk) := chunk.addConstant value
      (chunk.write Opcode.constant.byte token.line).write (UInt8.ofNat index) token.line
  | .group _ inner _ => chunk.emit inner
  | .binary left operator _ right =>
      ((chunk.emit left).emit right).write (Opcode.operate operator).byte right.lastLine

/-- The code that returns the value of a tree. The return stands on the line where the input
ends. -/
def ofTree (tree : Tree) (endLine : Nat) : Chunk :=
  (emit {} tree).write Opcode.ret.byte endLine

end Chunk

/-- Compiles a source text that is one expression. -/
def compile (source : String) : Except CompileError Chunk :=
  match Tree.ofSource source with
  | .error e => .error e
  | .ok (tree, endLine) => .ok (Chunk.ofTree tree endLine)

/-- Compiles a source text and tells about it. The code is listed only if a switch asks for it,
and only if there is any. -/
def compileReporting (switches : Switches) (source : String) : Reported CompileError Chunk :=
  match compile source with
  | .error e => { result := .error e }
  | .ok chunk =>
      { result := .ok chunk
        diagnostics := if switches.printCode then chunk.listing "code" else ""
        events := [.compiled chunk.size chunk.constants.size] }

end StackCalculator
