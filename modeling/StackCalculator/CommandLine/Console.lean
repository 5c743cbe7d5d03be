import StackCalculator.Sink

/-!
Standard output, which is buffered by lines: what does not end a line is held back until a line
ends, a flush is asked for or the room is used up. What cannot be delivered stays held back.
-/

namespace StackCalculator.CommandLine

/-- Whether the device behind standard output takes all that is delivered or nothing. -/
inductive Device where
  | accepting
  | full
  deriving DecidableEq

structure Console where
  device : Device := .accepting
  /-- What is held back. -/
  pending : String := ""
  /-- What the device has taken. -/
  delivered : String := ""
  deriving DecidableEq

namespace Console

/-- How many bytes can be held back. -/
def capacity : Nat := 1024

/-- Whether a text ends a line. -/
def endsLine (text : String) : Bool :=
  text.toList.getLast? == some '\n'

/-- Hands a text to the device at once. -/
def deliver (console : Console) (text : String) : Except IoError Unit × Console :=
  match console.device with
  | .accepting => (.ok (), { console with delivered := console.delivered ++ text })
  | .full => (.error .noSpace, console)

/-- Delivers what is held back. With nothing held back, the device is not asked. -/
def flush (console : Console) : Except IoError Unit × Console :=
  if console.pending.isEmpty then
    (.ok (), console)
  else
    match console.deliver console.pending with
    | (.ok (), console) => (.ok (), { console with pending := "" })
    | (.error e, console) => (.error e, console)

/-- Holds a text back. If there is no room for it, what was held back before is delivered. -/
def hold (console : Console) (text : String) : Except IoError Unit × Console :=
  if console.pending.utf8ByteSize + text.utf8ByteSize ≤ capacity then
    (.ok (), { console with pending := console.pending ++ text })
  else
    match console.flush with
    | (.ok (), console) => (.ok (), { console with pending := console.pending ++ text })
    | (.error e, console) => (.error e, console)

/-- Writes a text that has no newline, except perhaps as its last character. The end of a line
takes along what was held back before it; a line that could not be delivered then is tried again
before anything is added to it. -/
def write (console : Console) (text : String) : Except IoError Unit × Console :=
  if endsLine text then
    if console.pending.isEmpty then
      console.deliver text
    else
      match console.hold text with
      | (.ok (), console) => console.flush
      | (.error e, console) => (.error e, console)
  else if endsLine console.pending then
    match console.flush with
    | (.ok (), console) => console.hold text
    | (.error e, console) => (.error e, console)
  else
    console.hold text

instance : Sink Console := ⟨write⟩

/-- All that standard output has taken when the command ends, which flushes it a last time. -/
def output (console : Console) : String :=
  console.flush.2.delivered

end Console

end StackCalculator.CommandLine
