/-!
The two diagnostic switches. They add text to the diagnostic stream and change no result.
-/

namespace StackCalculator

structure Switches where
  /-- List the code of every chunk that compiles. -/
  printCode : Bool := false
  /-- Show the stack and the next instruction before each step of a run. -/
  traceExecution : Bool := false
  deriving DecidableEq, Inhabited

namespace Switches

/-- The switches that an environment turns on. Only the value `1` counts; an unset variable and
any other value leave the switch off. -/
def ofEnvironment (lookup : String → Option String) : Switches where
  printCode := lookup "DEBUG_PRINT_CODE" == some "1"
  traceExecution := lookup "DEBUG_TRACE_EXECUTION" == some "1"

/-- Turns code listings on if asked to, and never off. -/
def withPrintCode (s : Switches) (on : Bool) : Switches :=
  { s with printCode := s.printCode || on }

/-- Turns traces on if asked to, and never off. -/
def withTraceExecution (s : Switches) (on : Bool) : Switches :=
  { s with traceExecution := s.traceExecution || on }

end Switches

end StackCalculator
