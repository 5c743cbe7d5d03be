/-!
The report of a thread that cannot go on.
-/

namespace StackCalculator.CommandLine

/-- The main thread, as far as its report shows it. -/
structure Thread where
  /-- The number that the system knows it by. -/
  number : Nat
  /-- The trace of its calls, if it is to be shown. -/
  calls? : Option String
  deriving DecidableEq

namespace Thread

/-- Whether the environment asks for the trace of the calls. -/
def showsCalls (environment : String → Option String) : Bool :=
  match environment "RUST_BACKTRACE" with
  | none => false
  | some value => value != "0"

/-- A thread whose calls are shown if the environment asks for them. -/
def ofEnvironment (environment : String → Option String) (number : Nat) (calls : String) :
    Thread where
  number := number
  calls? := if showsCalls environment then some calls else none

/-- Where printing fails. -/
def printingPlace : String :=
  "/rustc/b940084d7eb6a299eb4bfeb8e34901bc051e7ac4/library/std/src/io/stdio.rs:1168:9"

/-- What is said in place of the calls. -/
def callsHint : String :=
  "note: run with `RUST_BACKTRACE=1` environment variable to display a backtrace\n"

/-- The report that the thread cannot go on at a place for a reason. -/
def report (thread : Thread) (place reason : String) : String :=
  "\nthread 'main' (" ++ toString thread.number ++ ") panicked at " ++ place ++ ":\n" ++
    reason ++ "\n" ++ thread.calls?.getD callsHint

end Thread

end StackCalculator.CommandLine
