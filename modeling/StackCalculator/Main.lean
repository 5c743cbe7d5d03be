import StackCalculator.CommandLine.Command

/-!
The command itself: it fetches what a run finds and shows what a run leaves. All decisions are
made elsewhere.
-/

namespace StackCalculator.CommandLine

/-- Reads a file from the disk. -/
def fetchFile (path : String) : IO (Except IoError (List UInt8)) := do
  try
    return .ok (← IO.FS.readBinFile path).toList
  catch
    | .noFileOrDirectory .. => return .error .notFound
    | .inappropriateType _ code _ =>
        return .error (if code = 20 || code = -20 then .notADirectory else .isADirectory)
    | e => return .error (.other e.toString)

/-- Looks up the number of the main thread, which is that of the process. -/
def fetchThreadNumber : IO Nat := do
  try
    let fields ← IO.FS.readFile "/proc/self/stat"
    return (fields.takeWhile Char.isDigit).toNat?.getD 0
  catch _ =>
    return 0

/-- Reads a line of standard input, byte by byte. At the end of the input there is none. -/
def fetchLine (input : IO.FS.Stream) : IO (Option Line) := do
  let mut bytes := #[]
  repeat
    let byte ← input.read 1
    bytes := bytes ++ byte.data
    if byte.isEmpty || byte.data == #[10] then
      break
  return if bytes.isEmpty then none else some (.ofBytes bytes.toList)

/-- Hands a text to standard output. With no text, standard output is left alone. -/
def showOutput (text : String) : IO Unit := do
  unless text.isEmpty do
    let output ← IO.getStdout
    output.putStr text
    output.flush

/-- Shows what a prompt has delivered and told, and forgets it. -/
def showProgress (prompt : Prompt) : IO Prompt := do
  showOutput prompt.session.sink.delivered
  IO.eprint prompt.diagnostics
  return { prompt with session.sink.delivered := "", diagnostics := "" }

def showStep : Prompt.Step → IO Prompt.Step
  | .goOn prompt => return .goOn (← showProgress prompt)
  | .ended prompt status => return .ended (← showProgress prompt) status

/-- Runs a prompt against the terminal. Whether standard output takes anything shows when the
first words are written to it. -/
def converse (start : Device → Prompt) : IO Status := do
  let input ← IO.getStdin
  let mut step ←
    try
      showStep (start .accepting).ask
    catch _ =>
      showStep (start .full).ask
  repeat
    match step with
    | .ended _ status => return status
    | .goOn asked =>
        match ← fetchLine input with
        | none =>
            let (last, status) := asked.close
            discard (showProgress last)
            return status
        | some line =>
            match ← showStep (asked.take line) with
            | .ended _ status => return status
            | .goOn answered => step ← showStep answered.ask
  return .success

/-- Shows what a run leaves. If standard output takes nothing, that is what the run finds. -/
def showFinished (finish : Device → Finished) : IO Status := do
  let finished ←
    try
      showOutput (finish .accepting).output
      pure (finish .accepting)
    catch _ =>
      pure (finish .full)
  IO.eprint finished.diagnostics
  return finished.status

end StackCalculator.CommandLine

open StackCalculator CommandLine in
def main (arguments : List String) : IO UInt32 := do
  let printCode ← IO.getEnv "DEBUG_PRINT_CODE"
  let traceExecution ← IO.getEnv "DEBUG_TRACE_EXECUTION"
  let backtrace ← IO.getEnv "RUST_BACKTRACE"
  let threadNumber ← fetchThreadNumber
  let surroundings (contents : Except IoError (List UInt8)) (device : Device) : Surroundings :=
    { environment := fun name =>
        if name = "DEBUG_PRINT_CODE" then printCode
        else if name = "DEBUG_TRACE_EXECUTION" then traceExecution
        else if name = "RUST_BACKTRACE" then backtrace
        else none
      input := []
      contentsOf := fun _ => contents
      device := device
      threadNumber := threadNumber }
  let status ←
    match Invocation.parse? arguments with
    | some (.evaluate options) =>
        match options.path with
        | none =>
            converse fun device => startPrompt (surroundings (.error .notFound) device) options
        | some path =>
            let contents ← fetchFile path
            showFinished fun device => run arguments (surroundings contents device)
    | _ => showFinished fun device => run arguments (surroundings (.error .notFound) device)
  return UInt32.ofNat status.code
