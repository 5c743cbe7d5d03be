import StackCalculator.CommandLine.Arguments
import StackCalculator.CommandLine.Prompt

/-!
The whole command as a function of what it finds: its arguments, the environment, standard input
and the files.
-/

namespace StackCalculator.CommandLine

/-- What a run of the command finds. -/
structure Surroundings where
  environment : String → Option String
  input : List UInt8
  contentsOf : String → Except IoError (List UInt8)
  device : Device := .accepting
  /-- The number of the main thread, which is 3 if only an init process and a shell were started
  before. -/
  threadNumber : Nat := 3
  /-- The trace of the calls that lead to where printing fails. -/
  calls : String := ""

/-- What a run of the command leaves. -/
structure Finished where
  status : Status
  output : String
  diagnostics : String

/-- How the command ends after an error. -/
def Status.ofError : SessionError → Status
  | .compile _ => .compileError
  | .fault _ => .fault
  | .io _ => .ioError

/-- A session on a fresh console, with the switches of the environment and of the options. -/
def startSession (surroundings : Surroundings) (options : Options) : Session Console where
  sink := { device := surroundings.device }
  switches :=
    ((Switches.ofEnvironment surroundings.environment).withPrintCode
      options.printCode).withTraceExecution options.traceExecution

/-- The prompt before its first line. -/
def startPrompt (surroundings : Surroundings) (options : Options) : Prompt where
  session := startSession surroundings options
  thread :=
    .ofEnvironment surroundings.environment surroundings.threadNumber surroundings.calls

/-- Evaluates the contents of a file, which has to be text and one expression. -/
def evaluateFile (session : Session Console) (contents : Except IoError (List UInt8)) :
    Reported SessionError Number × Session Console :=
  match contents with
  | .error e => ({ result := .error (.io e) }, session)
  | .ok bytes =>
      match String.fromUTF8? ⟨bytes.toArray⟩ with
      | none => ({ result := .error (.io .invalidText) }, session)
      | some source => session.interpret source

/-- Runs the command on a file. -/
def runFile (session : Session Console) (contents : Except IoError (List UInt8)) : Finished :=
  let (report, session) := evaluateFile session contents
  match report.result with
  | .ok _ => ⟨.success, session.sink.output, report.diagnostics⟩
  | .error e =>
      ⟨.ofError e, session.sink.output, report.diagnostics ++ e.message ++ "\n"⟩

/-- Runs the command on its standard input. -/
def runPrompt (prompt : Prompt) (input : List UInt8) : Finished :=
  let (prompt, status) := prompt.run (Line.all input)
  ⟨status, prompt.session.sink.output, prompt.diagnostics⟩

/-- Prints a text and ends. Whether the text could be delivered does not matter. -/
def runNotice (device : Device) (text : String) : Finished :=
  let console : Console := { device := device }
  ⟨.success, (console.deliver text).2.output, ""⟩

/-- Runs the command. -/
def run (arguments : List String) (surroundings : Surroundings) : Finished :=
  match Invocation.parse? arguments with
  | none => ⟨.usage, "", usageText⟩
  | some .help => runNotice surroundings.device helpText
  | some .version => runNotice surroundings.device versionText
  | some (.evaluate options) =>
      match options.path with
      | some path => runFile (startSession surroundings options) (surroundings.contentsOf path)
      | none => runPrompt (startPrompt surroundings options) surroundings.input

end StackCalculator.CommandLine
