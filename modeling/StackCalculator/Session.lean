import StackCalculator.Chunk.Compile
import StackCalculator.Machine.Trace
import StackCalculator.Sink

/-!
A session runs one program after another and writes each result as a line to its sink. What a
program leaves on the stack stays to be seen until the next one starts.
-/

namespace StackCalculator

/-- Why a session gives no value. -/
inductive SessionError where
  | compile (e : CompileError)
  | fault (e : Fault)
  | io (e : IoError)
  deriving DecidableEq

def SessionError.message : SessionError → String
  | .compile e => e.message
  | .fault e => e.message
  | .io e => "I/O error: " ++ e.message

/-- The line that shows a number, in the parts in which it is written. -/
def Number.lineParts (x : Number) : List String :=
  x.parts.map String.ofList ++ ["\n"]

structure Session (σ : Type) where
  sink : σ
  switches : Switches := {}
  /-- The machine's registers as the last run left them. -/
  registers : Machine.Registers := {}

namespace Session

variable {σ : Type}

/-- The stack as the last run left it, the top first. -/
def stack (session : Session σ) : List Number :=
  session.registers.stack

/-- Clears the stack and sets the machine to the beginning of its code. -/
def reset (session : Session σ) : Session σ :=
  { session with registers := session.registers.reset }

variable [Sink σ]

/-- Resets the machine, runs a chunk and writes the value it returns. A value that cannot be written
is not given back, but it is off the stack all the same, and some parts of its line may have been
written. -/
def run (session : Session σ) (chunk : Chunk) : Reported SessionError Number × Session σ :=
  let session := session.reset
  let halted := Machine.execute chunk session.registers
  let session := { session with registers := halted.registers }
  let diagnostics :=
    if session.switches.traceExecution then halted.toRun.traceText chunk else ""
  let started : List Event := [.running chunk.size]
  match halted.outcome with
  | .error e => (⟨.error (.fault e), diagnostics, started⟩, session)
  | .ok value =>
      match Sink.writeAll session.sink value.lineParts with
      | (.error e, sink) =>
          (⟨.error (.io e), diagnostics, started⟩, { session with sink := sink })
      | (.ok (), sink) =>
          (⟨.ok value, diagnostics, started ++ [.returned value]⟩, { session with sink := sink })

/-- Compiles a source text and runs it. If it does not compile, the session stays as it is. -/
def interpret (session : Session σ) (source : String) : Reported SessionError Number × Session σ :=
  let compiled := compileReporting session.switches source
  match compiled.result with
  | .error e => (⟨.error (.compile e), compiled.diagnostics, compiled.events⟩, session)
  | .ok chunk =>
      let (ran, session) := session.run chunk
      (⟨ran.result, compiled.diagnostics ++ ran.diagnostics, compiled.events ++ ran.events⟩,
        session)

end Session

end StackCalculator
