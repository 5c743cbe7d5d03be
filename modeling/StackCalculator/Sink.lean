/-!
Places that result lines are written to, and what can go wrong with input and output.
-/

namespace StackCalculator

/-- Why reading or writing fails. -/
inductive IoError where
  | sinkFull
  | noSpace
  | notFound
  | notADirectory
  | isADirectory
  | invalidText
  /-- Anything else that the operating system reports, in its words. -/
  | other (description : String)
  deriving DecidableEq

def IoError.message : IoError → String
  | .sinkFull => "sink full"
  | .noSpace => "No space left on device (os error 28)"
  | .notFound => "No such file or directory (os error 2)"
  | .notADirectory => "Not a directory (os error 20)"
  | .isADirectory => "Is a directory (os error 21)"
  | .invalidText => "stream did not contain valid UTF-8"
  | .other description => description

/-- Something that takes text. A write that fails can still have taken a part. -/
class Sink (σ : Type) where
  write : σ → String → Except IoError Unit × σ

/-- Writes texts one after the other, up to the first that fails. -/
def Sink.writeAll {σ : Type} [Sink σ] (sink : σ) : List String → Except IoError Unit × σ
  | [] => (.ok (), sink)
  | text :: rest =>
      match write sink text with
      | (.error e, sink) => (.error e, sink)
      | (.ok (), sink) => writeAll sink rest

/-- A sink in memory that keeps a limited number of bytes, if there is a limit. It keeps every
byte up to the limit and fails on the first one past it. -/
structure MemorySink where
  limit : Option Nat := none
  kept : List UInt8 := []
  deriving DecidableEq

namespace MemorySink

def write (sink : MemorySink) (text : String) : Except IoError Unit × MemorySink :=
  let bytes := text.toUTF8.data.toList
  match sink.limit with
  | none => (.ok (), { sink with kept := sink.kept ++ bytes })
  | some limit =>
      let room := limit - sink.kept.length
      (if bytes.length ≤ room then .ok () else .error .sinkFull,
        { sink with kept := sink.kept ++ bytes.take room })

instance : Sink MemorySink := ⟨write⟩

/-- What the sink has kept, if it is text. -/
def text? (sink : MemorySink) : Option String :=
  String.fromUTF8? ⟨sink.kept.toArray⟩

end MemorySink

end StackCalculator
