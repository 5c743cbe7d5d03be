import StackCalculator.CommandLine.Console
import StackCalculator.CommandLine.Thread
import StackCalculator.Session
import StackCalculator.Text.Blank

/-!
The prompt: a session on the console that evaluates one line of input after another. Errors are
told and do not end it.
-/

namespace StackCalculator.CommandLine

/-- How the command ends. -/
inductive Status where
  | success
  | usage
  | compileError
  | fault
  | ioError
  | aborted
  deriving DecidableEq

/-- The exit code of the command. -/
def Status.code : Status → Nat
  | .success => 0
  | .usage => 2
  | .compileError => 65
  | .fault => 70
  | .ioError => 74
  | .aborted => 101

/-- A line of input, with its newline if it has one. -/
inductive Line where
  | text (content : String)
  | unreadable
  deriving DecidableEq

namespace Line

/-- Splits bytes behind each newline. What stands behind the last newline is a line if it is not
empty. -/
def split : List UInt8 → List (List UInt8)
  | [] => []
  | byte :: rest =>
      if byte = 10 then
        [byte] :: split rest
      else
        match split rest with
        | [] => [[byte]]
        | first :: others => (byte :: first) :: others

/-- Reads the bytes of a line. Bytes that are no text cannot be read. -/
def ofBytes (bytes : List UInt8) : Line :=
  match String.fromUTF8? ⟨bytes.toArray⟩ with
  | some content => .text content
  | none => .unreadable

/-- The lines of the whole input. -/
def all (input : List UInt8) : List Line :=
  (split input).map ofBytes

end Line

/-- The session of a prompt, the thread that it runs on and all that it has told on standard
error. -/
structure Prompt where
  session : Session Console
  thread : Thread
  diagnostics : String := ""

namespace Prompt

/-- A prompt either goes on or has ended. -/
inductive Step where
  | goOn (prompt : Prompt)
  | ended (prompt : Prompt) (status : Status)

/-- Tells something on standard error, on a line of its own. -/
def tell (prompt : Prompt) (message : String) : Prompt :=
  { prompt with diagnostics := prompt.diagnostics ++ message ++ "\n" }

/-- Gives up printing: the thread reports why it cannot go on. -/
def abort (prompt : Prompt) (e : IoError) : Prompt :=
  { prompt with
    diagnostics := prompt.diagnostics ++
      prompt.thread.report Thread.printingPlace ("failed printing to stdout: " ++ e.message) }

/-- Prints a text. That this fails is not foreseen and ends the command. -/
def print (prompt : Prompt) (text : String) : Step :=
  match prompt.session.sink.write text with
  | (.ok (), console) => .goOn { prompt with session.sink := console }
  | (.error e, console) => .ended (abort { prompt with session.sink := console } e) .aborted

/-- Asks for a line. If what was printed cannot be delivered, that is told and nothing else
happens. -/
def ask (prompt : Prompt) : Step :=
  match prompt.print "> " with
  | .ended prompt status => .ended prompt status
  | .goOn prompt =>
      match prompt.session.sink.flush with
      | (.ok (), console) => .goOn { prompt with session.sink := console }
      | (.error e, console) =>
          .goOn (tell { prompt with session.sink := console }
            ("Failed to flush stdout: " ++ e.message))

/-- Whether a line, without the white space around it, asks to leave. The case of its letters does
not count. -/
def isExit (line : String) : Bool :=
  line.toList.map Char.toLower == "exit".toList

/-- Evaluates a source text and tells what went wrong, if anything. -/
def evaluate (prompt : Prompt) (source : String) : Prompt :=
  let (report, session) := prompt.session.interpret source
  let prompt : Prompt :=
    { prompt with session, diagnostics := prompt.diagnostics ++ report.diagnostics }
  match report.result with
  | .ok _ => prompt
  | .error e => prompt.tell e.message

/-- Takes a line. A blank line is passed over. -/
def take (prompt : Prompt) : Line → Step
  | .unreadable =>
      .ended (prompt.tell ("Failed to read line: " ++ IoError.invalidText.message)) .success
  | .text content =>
      let line := Text.trim content
      if isExit line then
        .ended prompt .success
      else if line.isEmpty then
        .goOn prompt
      else
        .goOn (prompt.evaluate line)

/-- Ends at the end of the input, behind a last newline. -/
def close (prompt : Prompt) : Prompt × Status :=
  match prompt.print "\n" with
  | .goOn prompt => (prompt, .success)
  | .ended prompt status => (prompt, status)

/-- Asks for lines and takes them, up to the first one that ends the prompt. -/
def run (prompt : Prompt) (lines : List Line) : Prompt × Status :=
  match prompt.ask with
  | .ended prompt status => (prompt, status)
  | .goOn prompt =>
      match lines with
      | [] => prompt.close
      | line :: rest =>
          match prompt.take line with
          | .ended prompt status => (prompt, status)
          | .goOn prompt => prompt.run rest

end Prompt

end StackCalculator.CommandLine
