import StackCalculator.Proofs.Slots

/-!
What a sink takes when a result line is written to it in parts, and what that makes of the run that
the result comes from. Sinks either take everything or keep a number of bytes and no more.
-/

namespace StackCalculator

/-- The bytes of a text. -/
def Text.bytes (text : String) : List UInt8 :=
  text.toUTF8.data.toList

@[simp] theorem Text.bytes_append (first second : String) :
    bytes (first ++ second) = bytes first ++ bytes second := by
  simp [bytes, String.toByteArray_append]

theorem Text.bytes_ofList_flatten (parts : List (List Char)) :
    bytes (String.ofList parts.flatten) = (parts.map String.ofList).flatMap bytes := by
  induction parts with
  | nil => rfl
  | cons part rest ih =>
      rw [List.flatten_cons, String.ofList_append, bytes_append, ih]
      rfl

/-- The parts of a result line make up the number's text and a newline. -/
theorem Number.flatMap_lineParts (x : Number) :
    x.lineParts.flatMap Text.bytes = Text.bytes (x.text ++ "\n") := by
  rw [Text.bytes_append, text, chars, Text.bytes_ofList_flatten, lineParts, List.flatMap_append]
  simp

/-- The bytes of the line that shows a number. -/
def Number.line (x : Number) : List UInt8 :=
  Text.bytes (x.text ++ "\n")

theorem Number.line_length_pos (x : Number) : 0 < x.line.length := by
  rw [line, Text.bytes_append, List.length_append]
  exact Nat.lt_add_left _ (by decide)

namespace Sink

/-- States of a sink in which every text is taken whole, with the bytes taken so far. Such a sink
stays in these states as long as it is only written to. -/
structure Unlimited (σ : Type) [Sink σ] where
  accepts : σ → Prop
  taken : σ → List UInt8
  write_accepts : ∀ sink text, accepts sink → ∃ after, write sink text = (.ok (), after) ∧
    accepts after ∧ taken after = taken sink ++ Text.bytes text

theorem Unlimited.writeAll_accepts {σ : Type} [Sink σ] (sinks : Unlimited σ) {sink : σ}
    (h : sinks.accepts sink) (texts : List String) :
    ∃ after, writeAll sink texts = (.ok (), after) ∧ sinks.accepts after ∧
      sinks.taken after = sinks.taken sink ++ texts.flatMap Text.bytes := by
  induction texts generalizing sink with
  | nil => exact ⟨sink, rfl, h, by simp⟩
  | cons text rest ih =>
      obtain ⟨middle, hWrite, hMiddle, hTaken⟩ := sinks.write_accepts sink text h
      obtain ⟨after, hRest, hAfter, hAll⟩ := ih hMiddle
      refine ⟨after, ?_, hAfter, ?_⟩
      · rw [writeAll, hWrite]
        exact hRest
      · rw [hAll, hTaken, List.append_assoc, List.flatMap_cons]

/-- States of a sink that keeps the first bytes written to it, up to a limit, and refuses a text
that goes past it. A text is refused after the part of it that there is room for has been kept. -/
structure Limited (σ : Type) [Sink σ] (limit : Nat) where
  keeps : σ → Prop
  taken : σ → List UInt8
  refusal : IoError
  write_keeps : ∀ sink text, keeps sink → ∃ after,
    write sink text =
      (if (taken sink ++ Text.bytes text).length ≤ limit then .ok () else .error refusal, after) ∧
    keeps after ∧ taken after = (taken sink ++ Text.bytes text).take limit

/-- It does not matter in which parts a text is written: the sink keeps as much of the whole as it
can, and refuses it if that is not all. -/
theorem Limited.writeAll_keeps {σ : Type} [Sink σ] {limit : Nat} (sinks : Limited σ limit)
    {sink : σ} (h : sinks.keeps sink) (hTaken : (sinks.taken sink).length ≤ limit)
    (texts : List String) :
    ∃ after, writeAll sink texts =
        (if (sinks.taken sink ++ texts.flatMap Text.bytes).length ≤ limit then .ok ()
          else .error sinks.refusal, after) ∧
      sinks.keeps after ∧
      sinks.taken after = (sinks.taken sink ++ texts.flatMap Text.bytes).take limit := by
  induction texts generalizing sink with
  | nil =>
      refine ⟨sink, ?_, h, ?_⟩
      · rw [List.flatMap_nil, List.append_nil, if_pos hTaken]
        rfl
      · rw [List.flatMap_nil, List.append_nil, List.take_of_length_le hTaken]
  | cons text rest ih =>
      obtain ⟨middle, hWrite, hMiddle, hFirst⟩ := sinks.write_keeps sink text h
      rw [List.flatMap_cons, ← List.append_assoc]
      by_cases hFits : (sinks.taken sink ++ Text.bytes text).length ≤ limit
      · rw [if_pos hFits] at hWrite
        rw [List.take_of_length_le hFits] at hFirst
        rw [writeAll, hWrite, ← hFirst]
        exact ih hMiddle (hFirst ▸ hFits)
      · rw [if_neg hFits] at hWrite
        refine ⟨middle, ?_, hMiddle, ?_⟩
        · rw [writeAll, hWrite, if_neg (by rw [List.length_append]; omega)]
        · exact hFirst.trans (List.take_append_of_le_length (by omega)).symm

end Sink

/-- A sink in memory takes everything if it has no limit. -/
def MemorySink.unlimited : Sink.Unlimited MemorySink where
  accepts sink := sink.limit = none
  taken sink := sink.kept
  write_accepts := by
    intro sink text hLimit
    exact ⟨{ sink with kept := sink.kept ++ Text.bytes text },
      by simp [Sink.write, write, hLimit, Text.bytes], hLimit, rfl⟩

/-- A sink in memory keeps as many bytes as its limit says. -/
def MemorySink.limited (limit : Nat) : Sink.Limited MemorySink limit where
  keeps sink := sink.limit = some limit ∧ sink.kept.length ≤ limit
  taken sink := sink.kept
  refusal := .sinkFull
  write_keeps := by
    rintro sink text ⟨hLimit, hKept⟩
    have hTake : sink.kept ++ (Text.bytes text).take (limit - sink.kept.length) =
        (sink.kept ++ Text.bytes text).take limit := by
      rw [List.take_append, List.take_of_length_le hKept]
    refine ⟨{ sink with kept := (sink.kept ++ Text.bytes text).take limit }, ?_,
      ⟨hLimit, List.length_take_le _ _⟩, rfl⟩
    have hRoom : (Text.bytes text).length ≤ limit - sink.kept.length ↔
        (sink.kept ++ Text.bytes text).length ≤ limit := by
      rw [List.length_append]
      omega
    simp only [Sink.write, write, hLimit]
    rw [← Text.bytes, hTake]
    simp only [hRoom]

namespace Session

variable {σ : Type} [Sink σ]

/-- The bytes that an outcome is written as. A fault is not written. -/
def lineOf : Except Fault Number → List UInt8
  | .ok value => value.line
  | .error _ => []

/-- What running a chunk reports if its result can be written. -/
def reportOf (switches : Switches) (chunk : Chunk) : Reported SessionError Number where
  result := (Machine.run chunk).outcome.mapError .fault
  diagnostics := if switches.traceExecution then (Machine.run chunk).traceText chunk else ""
  events := .running chunk.size ::
    match (Machine.run chunk).outcome with
    | .ok value => [.returned value]
    | .error _ => []

/-- A run in a session whose sink takes everything. Neither the sink nor what was on the stack has a
part in the report. -/
theorem run_of_accepts (sinks : Sink.Unlimited σ) {session : Session σ}
    (hSink : sinks.accepts session.sink) (chunk : Chunk) :
    ∃ after, session.run chunk = (reportOf session.switches chunk,
        { session with sink := after, registers := (Machine.halt chunk).registers }) ∧
      sinks.accepts after ∧
      sinks.taken after = sinks.taken session.sink ++ lineOf (Machine.run chunk).outcome := by
  cases hOutcome : (Machine.run chunk).outcome with
  | error fault =>
      refine ⟨session.sink, ?_, hSink, (List.append_nil _).symm⟩
      simp only [run_eq, reportOf, hOutcome]
      rfl
  | ok value =>
      obtain ⟨after, hWrite, hAfter, hTaken⟩ := sinks.writeAll_accepts hSink value.lineParts
      refine ⟨after, ?_, hAfter, by rw [hTaken, Number.flatMap_lineParts]; rfl⟩
      simp only [run_eq, reportOf, hOutcome, hWrite]
      rfl

/-- A run in a session whose sink has a limit. The value is off the stack whether or not its line
has room. -/
theorem run_of_keeps {limit : Nat} (sinks : Sink.Limited σ limit) {session : Session σ}
    (hSink : sinks.keeps session.sink) (hTaken : (sinks.taken session.sink).length ≤ limit)
    (chunk : Chunk) :
    ∃ after, (session.run chunk).1.result =
        (match (Machine.run chunk).outcome with
        | .error fault => .error (.fault fault)
        | .ok value =>
            if (sinks.taken session.sink ++ value.line).length ≤ limit then .ok value
            else .error (.io sinks.refusal)) ∧
      (session.run chunk).2 = { session with sink := after, registers := (Machine.halt chunk).registers } ∧
      sinks.keeps after ∧
      sinks.taken after =
        (sinks.taken session.sink ++ lineOf (Machine.run chunk).outcome).take limit := by
  cases hOutcome : (Machine.run chunk).outcome with
  | error fault =>
      refine ⟨session.sink, by simp [run_eq, hOutcome], by simp [run_eq, hOutcome], hSink, ?_⟩
      rw [lineOf, List.append_nil, List.take_of_length_le hTaken]
  | ok value =>
      obtain ⟨after, hWrite, hAfter, hKept⟩ := sinks.writeAll_keeps hSink hTaken value.lineParts
      rw [Number.flatMap_lineParts, ← Number.line] at hWrite hKept
      by_cases hFits : (sinks.taken session.sink ++ value.line).length ≤ limit
      · rw [if_pos hFits] at hWrite
        refine ⟨after, ?_, ?_, hAfter, hKept⟩
        · simp only [run_eq, hOutcome, hWrite, if_pos hFits]
        · simp only [run_eq, hOutcome, hWrite]
      · rw [if_neg hFits] at hWrite
        refine ⟨after, ?_, ?_, hAfter, hKept⟩
        · simp only [run_eq, hOutcome, hWrite, if_neg hFits]
        · simp only [run_eq, hOutcome, hWrite]

end Session

end StackCalculator
