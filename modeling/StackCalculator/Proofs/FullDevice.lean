import StackCalculator.Proofs.Notation
import StackCalculator.Proofs.Transcript

/-!
A prompt whose output is refused. Everything that is printed stays held back, so how long the prompt
goes on depends on how many bytes the prompts and the results before have left there. A flush that
fails and a result that cannot be written are told, and the prompt goes on. A prompt that has no
room, or that would follow a line held back whole, cannot be printed, and neither can the newline at
the end of the input; each of these ends the command with a report.
-/

namespace StackCalculator

/-- A number is written without a newline. -/
theorem Number.newline_not_mem_parts (x : Number) : '\n' ∉ x.parts.flatten :=
  fun hMem => absurd (digit_or_mark_of_mem_chars hMem) (by decide)

theorem Text.length_bytes (text : String) : (bytes text).length = text.utf8ByteSize :=
  rfl

namespace Session

variable {σ τ : Type} [Sink σ] [Sink τ]

/-- What is told about a text depends on the switches only. -/
theorem diagnostics_interpret_eq {session : Session σ} {other : Session τ}
    (h : session.switches = other.switches) (source : String) :
    (session.interpret source).1.diagnostics = (other.interpret source).1.diagnostics := by
  cases hCompile : compile source with
  | error e => rw [interpret_of_compile_error _ hCompile, interpret_of_compile_error _ hCompile]
  | ok chunk => simp [interpret, compileReporting, hCompile, diagnostics_run, h]

/-- A program that returns a value, on a sink that refuses the value's line. -/
theorem run_of_refused {session : Session σ} {chunk : Chunk} {value : Number} {e : IoError}
    {after : σ} (hOutcome : (Machine.run chunk).outcome = .ok value)
    (hWrite : Sink.writeAll session.sink value.lineParts = (.error e, after)) :
    (session.run chunk).1.result = .error (.io e) ∧
      (session.run chunk).2 =
        { session with sink := after, registers := (Machine.halt chunk).registers } := by
  simp [run_eq, hOutcome, hWrite]

end Session

namespace CommandLine

namespace Console

theorem endsLine_of_not_mem {text : String} (h : '\n' ∉ text.toList) : endsLine text = false := by
  rw [endsLine, beq_eq_false_iff_ne]
  exact fun hLast => h (List.mem_of_getLast? hLast)

theorem endsLine_append {first second : String} (hFirst : endsLine first = false)
    (hSecond : endsLine second = false) : endsLine (first ++ second) = false := by
  rw [endsLine, beq_eq_false_iff_ne] at *
  rw [String.toList_append, List.getLast?_append]
  cases hLast : second.toList.getLast? with
  | none => simpa using hFirst
  | some last => simpa [hLast] using hSecond

theorem endsLine_append_newline (text : String) : endsLine (text ++ "\n") = true := by
  simp [endsLine]

/-- How many bytes are held back after texts have been written one after the other, up to the first
that there is no room for. -/
def filled (held : Nat) : List String → Nat
  | [] => held
  | text :: rest =>
      if held + text.utf8ByteSize ≤ capacity then filled (held + text.utf8ByteSize) rest else held

@[simp] theorem filled_nil (held : Nat) : filled held [] = held :=
  rfl

/-- A console whose device takes nothing, by the number of bytes that it holds back. -/
structure Refusing (console : Console) (held : Nat) : Prop where
  device_eq : console.device = .full
  delivered_eq : console.delivered = ""
  size_eq : console.pending.utf8ByteSize = held

namespace Refusing

variable {console : Console} {held : Nat} {text : String}

theorem pending_isEmpty (h : console.Refusing held) (hSome : 0 < held) :
    console.pending.isEmpty = false := by
  rw [String.isEmpty, h.size_eq, beq_eq_false_iff_ne]
  exact Nat.ne_of_gt hSome

theorem flush_fails (h : console.Refusing held) (hSome : 0 < held) :
    console.flush = (.error .noSpace, console) := by
  simp [flush, h.pending_isEmpty hSome, deliver, h.device_eq]

theorem hold_of_room (h : console.Refusing held) (hRoom : held + text.utf8ByteSize ≤ capacity) :
    ∃ after, console.hold text = (.ok (), after) ∧ after.Refusing (held + text.utf8ByteSize) ∧
      after.pending = console.pending ++ text := by
  refine ⟨{ console with pending := console.pending ++ text }, ?_,
    ⟨h.device_eq, h.delivered_eq, ?_⟩, rfl⟩
  · rw [hold, if_pos (by rwa [h.size_eq])]
  · rw [String.utf8ByteSize_append, h.size_eq]

theorem hold_of_no_room (h : console.Refusing held) (hSome : 0 < held)
    (hRoom : capacity < held + text.utf8ByteSize) :
    console.hold text = (.error .noSpace, console) := by
  rw [hold, if_neg (by rw [h.size_eq]; omega), h.flush_fails hSome]

/-- A text that does not end a line is held back if there is room. -/
theorem write_of_room (h : console.Refusing held) (hOpen : endsLine console.pending = false)
    (hText : endsLine text = false) (hRoom : held + text.utf8ByteSize ≤ capacity) :
    ∃ after, console.write text = (.ok (), after) ∧ after.Refusing (held + text.utf8ByteSize) ∧
      endsLine after.pending = false := by
  obtain ⟨after, hHold, hAfter, hPending⟩ := h.hold_of_room hRoom
  refine ⟨after, ?_, hAfter, ?_⟩
  · simp [write, hText, hOpen, hHold]
  · rw [hPending]
    exact endsLine_append hOpen hText

/-- A text is refused if there is no room, and behind a line that is held back whole. -/
theorem write_of_no_room (h : console.Refusing held) (hSome : 0 < held)
    (hText : endsLine text = false)
    (hRoom : endsLine console.pending = true ∨ capacity < held + text.utf8ByteSize) :
    console.write text = (.error .noSpace, console) := by
  cases hEnd : endsLine console.pending with
  | true => simp [write, hText, hEnd, h.flush_fails hSome]
  | false =>
      have hFull : capacity < held + text.utf8ByteSize := by simpa [hEnd] using hRoom
      simp [write, hText, hEnd, h.hold_of_no_room hSome hFull]

/-- The end of a line always fails, but it is held back if there is room. -/
theorem write_newline (h : console.Refusing held) (hSome : 0 < held)
    (hOpen : endsLine console.pending = false) :
    ∃ after, console.write "\n" = (.error .noSpace, after) ∧
      after.Refusing (filled held ["\n"]) ∧
      (endsLine after.pending = true ↔ held + "\n".utf8ByteSize ≤ capacity) := by
  have hPending := h.pending_isEmpty hSome
  have hNewline : endsLine "\n" = true := rfl
  rcases Nat.lt_or_ge capacity (held + "\n".utf8ByteSize) with hNone | hRoom
  · refine ⟨console, ?_, ?_, ?_⟩
    · simp [write, hNewline, hPending, h.hold_of_no_room hSome hNone]
    · rw [filled, if_neg (Nat.not_le_of_gt hNone)]
      exact h
    · simp only [hOpen, Bool.false_eq_true, Nat.not_le_of_gt hNone]
  · obtain ⟨after, hHold, hAfter, hAppend⟩ := h.hold_of_room hRoom
    refine ⟨after, ?_, ?_, ?_⟩
    · simp [write, hNewline, hPending, hHold, hAfter.flush_fails (Nat.add_pos_left hSome _)]
    · rw [filled, if_pos hRoom]
      exact hAfter
    · rw [hAppend, endsLine_append_newline]
      exact iff_of_true rfl hRoom

/-- A line that is written in parts always fails. The parts that there is room for are held back. -/
theorem writeAll_line (h : console.Refusing held) (hSome : 0 < held)
    (hOpen : endsLine console.pending = false) {parts : List String}
    (hParts : ∀ part ∈ parts, endsLine part = false) :
    ∃ after, Sink.writeAll console (parts ++ ["\n"]) = (.error .noSpace, after) ∧
      after.Refusing (filled held (parts ++ ["\n"])) ∧
      (endsLine after.pending = true ↔
        held + ((parts ++ ["\n"]).flatMap Text.bytes).length ≤ capacity) := by
  induction parts generalizing console held with
  | nil =>
      obtain ⟨after, hWrite, hAfter, hEnds⟩ := h.write_newline hSome hOpen
      refine ⟨after, ?_, hAfter, hEnds⟩
      have hSink : Sink.write console "\n" = (.error .noSpace, after) := hWrite
      simp [Sink.writeAll, hSink]
  | cons part rest ih =>
      obtain ⟨hPart, hRest⟩ := List.forall_mem_cons.mp hParts
      rw [List.cons_append, List.flatMap_cons, List.length_append, Text.length_bytes,
        ← Nat.add_assoc, filled]
      rcases Nat.lt_or_ge capacity (held + part.utf8ByteSize) with hNone | hRoom
      · have hSink : Sink.write console part = (.error .noSpace, console) :=
          h.write_of_no_room hSome hPart (.inr hNone)
        refine ⟨console, ?_, ?_, ?_⟩
        · rw [Sink.writeAll, hSink]
        · rw [if_neg (Nat.not_le_of_gt hNone)]
          exact h
        · rw [hOpen]
          exact iff_of_false Bool.false_ne_true (by omega)
      · obtain ⟨middle, hWrite, hMiddle, hStillOpen⟩ := h.write_of_room hOpen hPart hRoom
        obtain ⟨after, hWriteRest, hAfter, hEnds⟩ :=
          ih hMiddle (Nat.add_pos_left hSome _) hStillOpen hRest
        have hSink : Sink.write console part = (.ok (), middle) := hWrite
        refine ⟨after, ?_, ?_, hEnds⟩
        · rw [Sink.writeAll, hSink]
          exact hWriteRest
        · rwa [if_pos hRoom]

theorem output_eq (h : console.Refusing held) : console.output = "" := by
  rw [output, flush]
  split
  · exact h.delivered_eq
  · simp [deliver, h.device_eq, h.delivered_eq]

end Refusing

end Console

theorem endsLine_parts (x : Number) :
    ∀ part ∈ x.parts.map String.ofList, Console.endsLine part = false := by
  intro part hPart
  obtain ⟨chars, hChars, rfl⟩ := List.mem_map.mp hPart
  apply Console.endsLine_of_not_mem
  rw [String.toList_ofList]
  exact fun hMem => x.newline_not_mem_parts (List.mem_flatten_of_mem hChars hMem)

/-- The number that a line evaluates to, if it does. -/
def Line.value? (line : Line) : Option Number :=
  line.source?.bind fun source => Request.value? (.interpret source)

/-- The parts in which the result of a line is written. -/
def Line.resultParts (line : Line) : List String :=
  (line.value?.map Number.lineParts).getD []

/-- The line that says what went wrong when no result can be written. -/
def refusalLine (report : Reported SessionError Number) : String :=
  match report.result with
  | .ok _ => "I/O error: No space left on device (os error 28)\n"
  | .error e => e.message ++ "\n"

/-- What a line adds to standard error when no result can be written. -/
def Line.toldOnRefusal (switches : Switches) (line : Line) : String :=
  ((line.report? switches).map fun report => report.diagnostics ++ refusalLine report).getD ""

/-- What is told when what is held back cannot be delivered. -/
def flushFailure : String :=
  "Failed to flush stdout: No space left on device (os error 28)\n"

/-- What is told when a prompt or the newline at the end of the input cannot be printed. -/
def printFailure (thread : Thread) : String :=
  thread.report Thread.printingPlace
    "failed printing to stdout: No space left on device (os error 28)"

/-- What lines that are asked for and taken add to standard error when no result can be written. -/
def refusals (switches : Switches) (lines : List Line) : String :=
  String.join (lines.map fun line => flushFailure ++ line.toldOnRefusal switches)

theorem refusals_append (switches : Switches) (first second : List Line) :
    refusals switches (first ++ second) = refusals switches first ++ refusals switches second := by
  simp [refusals]

/-- Whether a prompt whose output is refused, and that holds back a number of bytes, comes to ask
for a line after the given ones. There has to be room for every prompt. A result line, on the other
hand, must not have room to its end, for nothing can be printed behind a whole line. -/
def Survives (held : Nat) : List Line → Prop
  | [] => held + 2 ≤ Console.capacity
  | line :: rest =>
      held + 2 ≤ Console.capacity ∧
        (∀ value, line.value? = some value →
          Console.capacity < held + 2 + value.line.length) ∧
        Survives (Console.filled (held + 2) line.resultParts) rest

/-- How many bytes are held back behind lines that are asked for and taken. -/
def leftBehind (held : Nat) (lines : List Line) : Nat :=
  lines.foldl (fun held line => Console.filled (held + 2) line.resultParts) held

theorem Survives.room {held : Nat} {lines : List Line} (h : Survives held lines) :
    held + 2 ≤ Console.capacity := by
  cases lines with
  | nil => exact h
  | cons line rest => exact h.1

theorem survives_append {held : Nat} {first second : List Line} :
    Survives held (first ++ second) ↔
      Survives held first ∧ Survives (leftBehind held first) second := by
  induction first generalizing held with
  | nil => exact ⟨fun h => ⟨h.room, h⟩, And.right⟩
  | cons line rest ih => simp [Survives, leftBehind, ih, and_assoc]

theorem Survives.room_behind {held : Nat} {lines : List Line} (h : Survives held lines) :
    leftBehind held lines + 2 ≤ Console.capacity := by
  rw [← lines.append_nil] at h
  exact (survives_append.mp h).2

/-- Among lines that are not survived there is a first one that is too many. -/
theorem exists_first_not_survived {held : Nat} (hRoom : held + 2 ≤ Console.capacity)
    {lines : List Line} (h : ¬ Survives held lines) :
    ∃ first last rest, lines = first ++ last :: rest ∧ Survives held first ∧
      ¬ Survives held (first ++ [last]) := by
  induction lines using List.reverseRecOn with
  | nil => exact absurd hRoom h
  | append_singleton lines line ih =>
      by_cases hLines : Survives held lines
      · exact ⟨lines, line, [], rfl, hLines, h⟩
      · obtain ⟨first, last, rest, rfl, hSplit⟩ := ih hLines
        exact ⟨first, last, rest ++ [line], by simp, hSplit⟩

theorem Line.value?_of_compile {line : Line} {source : String} {chunk : Chunk} {value : Number}
    (hSource : line.source? = some source) (hCompile : compile source = .ok chunk)
    (hOutcome : (Machine.run chunk).outcome = .ok value) : line.value? = some value := by
  simp [value?, hSource, Request.value?, Request.chunk?, hCompile,
    hOutcome, Except.toOption]

theorem Line.value?_of_compile_error {line : Line} {source : String} {e : CompileError}
    (hSource : line.source? = some source) (hCompile : compile source = .error e) :
    line.value? = none := by
  simp [value?, hSource, Request.value?, Request.chunk?, hCompile,
    Except.toOption]

/-- The result of a line that has a value is what cannot be written. -/
theorem Line.toldOnRefusal_of_compile {line : Line} {source : String} {chunk : Chunk}
    (switches : Switches) (hSource : line.source? = some source)
    (hCompile : compile source = .ok chunk) :
    line.toldOnRefusal switches =
      ((Session.fresh ({} : MemorySink) switches).interpret source).1.diagnostics ++
        "I/O error: No space left on device (os error 28)\n" := by
  have hReport : line.report? switches =
      some ((Session.fresh ({} : MemorySink) switches).interpret source).1 := by
    rw [report?, hSource, Option.map_some]
  rw [toldOnRefusal, hReport, Option.map_some, Option.getD_some, refusalLine]
  split
  · rfl
  · rename_i hError
    obtain ⟨other, _, hOther, hFails, _⟩ := compile_error_of_report hReport hError
    cases hSource.symm.trans hOther
    rw [hCompile] at hFails
    cases hFails

namespace Prompt

/-- A prompt whose output is refused, by its switches, its thread and the number of bytes that are
held back. -/
structure Refused (prompt : Prompt) (switches : Switches) (thread : Thread) (held : Nat) :
    Prop where
  sink : prompt.session.sink.Refusing held
  switches_eq : prompt.session.switches = switches
  thread_eq : prompt.thread = thread

/-- Whether a line that is held back is whole. -/
def atLineEnd (prompt : Prompt) : Bool :=
  Console.endsLine prompt.session.sink.pending

variable {prompt : Prompt} {switches : Switches} {thread : Thread} {held : Nat}

theorem print_of_ok {text : String} {console : Console}
    (h : prompt.session.sink.write text = (.ok (), console)) :
    prompt.print text = .goOn { prompt with session.sink := console } := by
  rw [print, h]

/-- A text that cannot be printed ends the command, with a report. -/
theorem print_of_error {text : String} {console : Console}
    (h : prompt.session.sink.write text = (.error .noSpace, console)) :
    ∃ after, prompt.print text = .ended after .aborted ∧ after.session.sink = console ∧
      after.diagnostics = prompt.diagnostics ++ printFailure prompt.thread := by
  refine ⟨_, by rw [print, h], rfl, rfl⟩

theorem ask_of_room (h : prompt.Refused switches thread held) (hOpen : prompt.atLineEnd = false)
    (hRoom : held + 2 ≤ Console.capacity) :
    ∃ after, prompt.ask = .goOn after ∧ after.Refused switches thread (held + 2) ∧
      after.atLineEnd = false ∧ after.diagnostics = prompt.diagnostics ++ flushFailure := by
  obtain ⟨console, hWrite, hConsole, hStillOpen⟩ := h.sink.write_of_room hOpen
    (show Console.endsLine "> " = false from rfl) hRoom
  have hFlush := hConsole.flush_fails (Nat.zero_lt_succ _)
  refine ⟨⟨{ prompt.session with sink := console }, prompt.thread,
    prompt.diagnostics ++ flushFailure⟩, ?_, ⟨hConsole, h.switches_eq, h.thread_eq⟩, hStillOpen,
    rfl⟩
  simp [ask, print_of_ok hWrite, hFlush, tell, flushFailure, IoError.message, String.append_assoc]

theorem ask_of_no_room (h : prompt.Refused switches thread held)
    (hRoom : prompt.atLineEnd = true ∨ Console.capacity < held + 2) :
    ∃ after, prompt.ask = .ended after .aborted ∧ after.session.sink.Refusing held ∧
      after.diagnostics = prompt.diagnostics ++ printFailure thread := by
  have hSome : 0 < held := by
    rcases hRoom with hEnd | hNone
    · refine Nat.pos_of_ne_zero fun hZero => ?_
      have hNothing := String.utf8ByteSize_eq_zero_iff.mp (h.sink.size_eq.trans hZero)
      simp [atLineEnd, hNothing, Console.endsLine] at hEnd
    · exact Nat.pos_of_ne_zero fun hZero => by simp [hZero, Console.capacity] at hNone
  obtain ⟨after, hPrint, hSink, hTold⟩ := print_of_error
    (h.sink.write_of_no_room hSome (show Console.endsLine "> " = false from rfl) hRoom)
  exact ⟨after, by rw [ask, hPrint], hSink ▸ h.sink, h.thread_eq ▸ hTold⟩

/-- The newline at the end of the input cannot be printed either. -/
theorem close_refused (h : prompt.Refused switches thread held) (hSome : 0 < held)
    (hOpen : prompt.atLineEnd = false) :
    ∃ after left, prompt.close = (after, .aborted) ∧ after.session.sink.Refusing left ∧
      after.diagnostics = prompt.diagnostics ++ printFailure thread := by
  obtain ⟨console, hWrite, hConsole, _⟩ := h.sink.write_newline hSome hOpen
  obtain ⟨after, hPrint, rfl, hTold⟩ := print_of_error hWrite
  exact ⟨after, _, by rw [close, hPrint], hConsole, h.thread_eq ▸ hTold⟩

theorem evaluate_of_compile_error (prompt : Prompt) {source : String} {e : CompileError}
    (h : compile source = .error e) : prompt.evaluate source = prompt.tell e.message := by
  simp [evaluate, Session.interpret_of_compile_error _ h, SessionError.message]

/-- A result that cannot be written is told, and what there is room for is held back. -/
theorem evaluate_of_value (h : prompt.Refused switches thread held) (hSome : 0 < held)
    (hOpen : prompt.atLineEnd = false) {source : String} {chunk : Chunk} {value : Number}
    (hCompile : compile source = .ok chunk) (hOutcome : (Machine.run chunk).outcome = .ok value) :
    (prompt.evaluate source).Refused switches thread (Console.filled held value.lineParts) ∧
      ((prompt.evaluate source).atLineEnd = true ↔
        held + value.line.length ≤ Console.capacity) ∧
      (prompt.evaluate source).diagnostics = prompt.diagnostics ++
        ((Session.fresh ({} : MemorySink) switches).interpret source).1.diagnostics ++
        "I/O error: No space left on device (os error 28)\n" := by
  obtain ⟨console, hWrite, hConsole, hEnds⟩ :=
    h.sink.writeAll_line hSome hOpen (endsLine_parts value)
  obtain ⟨hResult, hSession⟩ := Session.run_of_refused hOutcome hWrite
  obtain ⟨hSameResult, hSameSession⟩ := prompt.session.interpret_of_compile hCompile
  have hTold := Session.diagnostics_interpret_eq
    (show prompt.session.switches = (Session.fresh ({} : MemorySink) switches).switches from
      h.switches_eq) source
  have hEvaluate : prompt.evaluate source =
      tell ⟨{ prompt.session with sink := console, registers := (Machine.halt chunk).registers },
        prompt.thread, prompt.diagnostics ++ (prompt.session.interpret source).1.diagnostics⟩
        (SessionError.io .noSpace).message := by
    simp only [evaluate, hSameResult, hResult, hSameSession, hSession]
  rw [hEvaluate, hTold]
  refine ⟨⟨hConsole, h.switches_eq, h.thread_eq⟩, ?_, ?_⟩
  · rw [Number.line, ← value.flatMap_lineParts]
    exact hEnds
  · simp [tell, SessionError.message, IoError.message, String.append_assoc]

/-- A line that does not end the prompt is taken. Its result is held back behind what was held back
before, as far as there is room. -/
theorem take_refused (h : prompt.Refused switches thread held) (hSome : 0 < held)
    (hOpen : prompt.atLineEnd = false) {line : Line} (hStays : line.ends = false) :
    ∃ after, prompt.take line = .goOn after ∧
      after.Refused switches thread (Console.filled held line.resultParts) ∧
      (after.atLineEnd = true ↔
        ∃ value, line.value? = some value ∧ held + value.line.length ≤ Console.capacity) ∧
      after.diagnostics = prompt.diagnostics ++ line.toldOnRefusal switches := by
  refine ⟨_, take_not_ends prompt hStays, ?_⟩
  cases hSource : line.source? with
  | none =>
      have hValue : line.value? = none := by simp [Line.value?, hSource]
      refine ⟨?_, ?_, ?_⟩
      · simpa [Line.resultParts, hValue] using h
      · simp [hOpen, hValue]
      · simp [Line.toldOnRefusal, Line.report?, hSource]
  | some source =>
      rw [Option.elim_some]
      cases hCompile : compile source with
      | error e =>
          have hValue := Line.value?_of_compile_error hSource hCompile
          rw [evaluate_of_compile_error prompt hCompile]
          refine ⟨?_, ?_, ?_⟩
          · simpa [Line.resultParts, hValue] using ⟨h.sink, h.switches_eq, h.thread_eq⟩
          · have hSame : (prompt.tell e.message).atLineEnd = prompt.atLineEnd := rfl
            simp [hSame, hOpen, hValue]
          · simp [tell, Line.toldOnRefusal, Line.report?, hSource,
              Session.interpret_of_compile_error _ hCompile, refusalLine, SessionError.message,
              String.append_assoc]
      | ok chunk =>
          obtain ⟨value, hOutcome⟩ := Machine.exists_outcome_of_compile hCompile
          have hValue := Line.value?_of_compile hSource hCompile hOutcome
          obtain ⟨hAfter, hEnds, hTold⟩ := evaluate_of_value h hSome hOpen hCompile hOutcome
          refine ⟨?_, ?_, ?_⟩
          · simpa [Line.resultParts, hValue] using hAfter
          · simpa [hValue] using hEnds
          · rw [hTold, Line.toldOnRefusal_of_compile switches hSource hCompile,
              String.append_assoc]

/-- One line is asked for and taken, and the prompt goes on. -/
theorem run_line (h : prompt.Refused switches thread held) (hOpen : prompt.atLineEnd = false)
    (hRoom : held + 2 ≤ Console.capacity) {line : Line} (hStays : line.ends = false) :
    ∃ after : Prompt, (∀ rest, prompt.run (line :: rest) = after.run rest) ∧
      after.Refused switches thread (Console.filled (held + 2) line.resultParts) ∧
      (after.atLineEnd = true ↔
        ∃ value, line.value? = some value ∧ held + 2 + value.line.length ≤ Console.capacity) ∧
      after.diagnostics =
        prompt.diagnostics ++ (flushFailure ++ line.toldOnRefusal switches) := by
  obtain ⟨asked, hAsk, hAsked, hAskedOpen, hTold⟩ := ask_of_room h hOpen hRoom
  obtain ⟨after, hTake, hAfter, hEnds, hAnswer⟩ :=
    take_refused hAsked (Nat.zero_lt_succ _) hAskedOpen hStays
  refine ⟨after, run_of_goOn hAsk hTake, hAfter, hEnds, ?_⟩
  rw [hAnswer, hTold, String.append_assoc]

theorem run_of_no_room (h : prompt.Refused switches thread held)
    (hRoom : prompt.atLineEnd = true ∨ Console.capacity < held + 2) (lines : List Line) :
    ∃ after left, prompt.run lines = (after, .aborted) ∧ after.session.sink.Refusing left ∧
      after.diagnostics = prompt.diagnostics ++ printFailure thread := by
  obtain ⟨after, hAsk, hAfter, hTold⟩ := ask_of_no_room h hRoom
  exact ⟨after, held, by rw [run, hAsk], hAfter, hTold⟩

/-- A prompt goes on behind the lines that it survives. -/
theorem run_survives (h : prompt.Refused switches thread held) (hOpen : prompt.atLineEnd = false)
    {before : List Line} (hStays : ∀ line ∈ before, line.ends = false)
    (hSurvives : Survives held before) :
    ∃ reached : Prompt, (∀ later, prompt.run (before ++ later) = reached.run later) ∧
      reached.Refused switches thread (leftBehind held before) ∧ reached.atLineEnd = false ∧
      reached.diagnostics = prompt.diagnostics ++ refusals switches before := by
  induction before generalizing prompt held with
  | nil => exact ⟨prompt, fun _ => rfl, h, hOpen, by simp [refusals]⟩
  | cons line before ih =>
      obtain ⟨hLine, hBefore⟩ := List.forall_mem_cons.mp hStays
      obtain ⟨hRoom, hCut, hSurvives⟩ := hSurvives
      obtain ⟨taken, hRun, hTaken, hWhole, hTold⟩ := run_line h hOpen hRoom hLine
      have hTakenOpen : taken.atLineEnd = false := by
        rw [← Bool.not_eq_true, hWhole]
        rintro ⟨value, hValue, hFits⟩
        exact Nat.not_le_of_gt (hCut value hValue) hFits
      obtain ⟨reached, hRest, hReached, hReachedOpen, hAll⟩ :=
        ih hTaken hTakenOpen hBefore hSurvives
      refine ⟨reached, fun later => (hRun _).trans (hRest later), hReached, hReachedOpen, ?_⟩
      rw [hAll, hTold]
      simp [refusals, String.append_assoc]

/-- Behind the lines that it survives, a prompt asks for another. -/
theorem run_asks (h : prompt.Refused switches thread held) (hOpen : prompt.atLineEnd = false)
    {before : List Line} (hStays : ∀ line ∈ before, line.ends = false)
    (hSurvives : Survives held before) :
    ∃ reached asked : Prompt, (∀ later, prompt.run (before ++ later) = reached.run later) ∧
      reached.ask = .goOn asked ∧ asked.Refused switches thread (leftBehind held before + 2) ∧
      asked.atLineEnd = false ∧
      asked.diagnostics = prompt.diagnostics ++ (refusals switches before ++ flushFailure) := by
  obtain ⟨reached, hRun, hReached, hReachedOpen, hTold⟩ := run_survives h hOpen hStays hSurvives
  obtain ⟨asked, hAsk, hAsked, hAskedOpen, hFlush⟩ :=
    ask_of_room hReached hReachedOpen hSurvives.room_behind
  refine ⟨reached, asked, hRun, hAsk, hAsked, hAskedOpen, ?_⟩
  rw [hFlush, hTold, String.append_assoc]

/-- A prompt that survives its lines and then comes to one that ends it. -/
theorem run_ends (h : prompt.Refused switches thread held) (hOpen : prompt.atLineEnd = false)
    {before : List Line} (hStays : ∀ line ∈ before, line.ends = false)
    (hSurvives : Survives held before) {last : Line} (hEnds : last.ends = true)
    (rest : List Line) :
    ∃ after left, prompt.run (before ++ last :: rest) = (after, .success) ∧
      after.session.sink.Refusing left ∧
      after.diagnostics = prompt.diagnostics ++
        (refusals switches before ++ flushFailure ++ last.farewell) := by
  obtain ⟨reached, asked, hRun, hAsk, hAsked, _, hTold⟩ := run_asks h hOpen hStays hSurvives
  refine ⟨_, _, (hRun _).trans (run_of_ends hAsk hEnds rest), hAsked.sink, ?_⟩
  rw [hTold, String.append_assoc]

/-- A prompt that survives its lines and then comes to the end of the input. -/
theorem run_closes (h : prompt.Refused switches thread held) (hOpen : prompt.atLineEnd = false)
    {before : List Line} (hStays : ∀ line ∈ before, line.ends = false)
    (hSurvives : Survives held before) :
    ∃ after left, prompt.run before = (after, .aborted) ∧ after.session.sink.Refusing left ∧
      after.diagnostics = prompt.diagnostics ++
        (refusals switches before ++ flushFailure ++ printFailure thread) := by
  obtain ⟨reached, asked, hRun, hAsk, hAsked, hAskedOpen, hTold⟩ :=
    run_asks h hOpen hStays hSurvives
  obtain ⟨after, left, hClose, hAfter, hReport⟩ :=
    close_refused hAsked (Nat.zero_lt_succ _) hAskedOpen
  refine ⟨after, left, ?_, hAfter, ?_⟩
  · rw [← before.append_nil, hRun, run_nil hAsk, hClose]
  · rw [hReport, hTold, String.append_assoc]

/-- A prompt that survives its lines but not the next one, behind which nothing can be printed: the
next prompt has no room, or follows a result that is held back whole. -/
theorem run_aborts (h : prompt.Refused switches thread held) (hOpen : prompt.atLineEnd = false)
    {first : List Line} {last : Line} (hStays : ∀ line ∈ first ++ [last], line.ends = false)
    (hSurvives : Survives held first) (hFails : ¬ Survives held (first ++ [last]))
    (rest : List Line) :
    ∃ after left, prompt.run (first ++ last :: rest) = (after, .aborted) ∧
      after.session.sink.Refusing left ∧
      after.diagnostics = prompt.diagnostics ++
        (refusals switches (first ++ [last]) ++ printFailure thread) := by
  obtain ⟨hFirst, hLast⟩ := List.forall_mem_append.mp hStays
  obtain ⟨reached, hRun, hReached, hReachedOpen, hTold⟩ := run_survives h hOpen hFirst hSurvives
  have hRoom := hSurvives.room_behind
  obtain ⟨taken, hLine, hTaken, hWhole, hAnswer⟩ :=
    run_line hReached hReachedOpen hRoom (hLast last List.mem_cons_self)
  have hNone : taken.atLineEnd = true ∨
      Console.capacity <
        Console.filled (leftBehind held first + 2) last.resultParts + 2 := by
    by_contra hNot
    obtain ⟨hNotWhole, hFits⟩ := not_or.mp hNot
    refine hFails (survives_append.mpr ⟨hSurvives, hRoom, fun value hValue => ?_,
      Nat.not_lt.mp hFits⟩)
    exact Nat.lt_of_not_le fun hWithin => hNotWhole (hWhole.mpr ⟨value, hValue, hWithin⟩)
  obtain ⟨after, left, hAborts, hAfter, hReport⟩ := run_of_no_room hTaken hNone rest
  refine ⟨after, left, by rw [hRun, hLine, hAborts], hAfter, ?_⟩
  rw [hReport, hAnswer, hTold, refusals_append]
  simp [refusals, String.append_assoc]

end Prompt

/-- Lines without a value leave only their prompts, so it is their number that counts. -/
theorem survives_iff_of_no_value {held : Nat} {lines : List Line}
    (h : ∀ line ∈ lines, line.value? = none) :
    Survives held lines ↔ held + 2 * (lines.length + 1) ≤ Console.capacity := by
  induction lines generalizing held with
  | nil => simp [Survives]
  | cons line rest ih =>
      obtain ⟨hLine, hOthers⟩ := List.forall_mem_cons.mp h
      have hRest : Survives (held + 2) rest ↔ held + 2 + 2 * (rest.length + 1) ≤ Console.capacity :=
        ih hOthers
      simp only [Survives, Line.resultParts, hLine, Option.map_none, Option.getD_none,
        Console.filled_nil, hRest, List.length_cons, reduceCtorEq, false_implies, implies_true,
        true_and]
      omega

/-- The command at its prompt, whether its output is taken or refused. If it is taken, the command
succeeds and tells what it has to tell about each line. If it is refused, the command still tells
every flush and every result that fails, and it succeeds if and only if there is a line that cannot
be read or asks to leave, and all lines before it are survived. Otherwise it aborts with a report:
the end of the input, which is marked on the output, or the prompt behind the first line that is not
survived cannot be printed. -/
theorem prompt_succeeds_iff_survives {arguments : List String} {surroundings : Surroundings}
    {options : Options} (hInvocation : Invocation.parse? arguments = some (.evaluate options))
    (hPath : options.path = none) :
    ∃ before later, Cut (Line.all surroundings.input) before later ∧
      (surroundings.device = .accepting →
        (run arguments surroundings).status.code = 0 ∧
        (run arguments surroundings).diagnostics =
          complaints (startSession surroundings options).switches before later) ∧
      (surroundings.device = .full →
        (run arguments surroundings).output = "" ∧
        ((run arguments surroundings).status.code = 0 ↔ later ≠ [] ∧ Survives 0 before) ∧
        ((run arguments surroundings).status.code = 101 ↔ later = [] ∨ ¬ Survives 0 before) ∧
        (∀ last rest, later = last :: rest → Survives 0 before →
          (run arguments surroundings).diagnostics =
            refusals (startSession surroundings options).switches before ++ flushFailure ++
              last.farewell) ∧
        (later = [] → Survives 0 before →
          (run arguments surroundings).diagnostics =
            refusals (startSession surroundings options).switches before ++ flushFailure ++
              printFailure (startPrompt surroundings options).thread) ∧
        (¬ Survives 0 before →
          ∃ first last rest, before = first ++ last :: rest ∧ Survives 0 first ∧
            ¬ Survives 0 (first ++ [last]) ∧
            (run arguments surroundings).diagnostics =
              refusals (startSession surroundings options).switches (first ++ [last]) ++
                printFailure (startPrompt surroundings options).thread)) := by
  obtain ⟨before, later, hCut⟩ := exists_cut (Line.all surroundings.input)
  let prompt := startPrompt surroundings options
  refine ⟨before, later, hCut, fun hDevice => ?_, fun hDevice => ?_⟩
  · have hServed : prompt.Served prompt.session.switches := ⟨hDevice, rfl⟩
    obtain ⟨after, hRun, _, _, hTold⟩ := Prompt.run_served hServed hCut.stays hCut.ends
    rw [← hCut.append_eq] at hRun
    rw [run_of_prompt hInvocation hPath hRun, hTold]
    exact ⟨rfl, String.empty_append⟩
  have hRefused : prompt.Refused prompt.session.switches prompt.thread 0 :=
    ⟨⟨hDevice, rfl, rfl⟩, rfl, rfl⟩
  have hOpen : prompt.atLineEnd = false := rfl
  by_cases hSurvives : Survives 0 before
  · cases later with
    | cons last rest =>
        obtain ⟨after, _, hRun, hAfter, hTold⟩ := Prompt.run_ends hRefused hOpen hCut.stays
          hSurvives (hCut.ends last rfl) rest
        rw [← hCut.append_eq] at hRun
        rw [run_of_prompt hInvocation hPath hRun]
        refine ⟨hAfter.output_eq, ?_, ?_, ?_, nofun, absurd hSurvives⟩
        · exact iff_of_true rfl ⟨List.cons_ne_nil last rest, hSurvives⟩
        · exact iff_of_false (show Status.success.code ≠ 101 by decide) (by simp [hSurvives])
        · rintro _ _ ⟨rfl, rfl⟩ -
          exact hTold.trans String.empty_append
    | nil =>
        obtain ⟨after, _, hRun, hAfter, hTold⟩ := Prompt.run_closes hRefused hOpen hCut.stays
          hSurvives
        rw [← before.append_nil, ← hCut.append_eq] at hRun
        rw [run_of_prompt hInvocation hPath hRun]
        refine ⟨hAfter.output_eq, ?_, ?_, nofun, fun _ _ => ?_, absurd hSurvives⟩
        · exact iff_of_false (show Status.aborted.code ≠ 0 by decide) (by simp)
        · exact iff_of_true rfl (.inl rfl)
        · exact hTold.trans String.empty_append
  · obtain ⟨first, last, rest, rfl, hFirst, hFails⟩ :=
      exists_first_not_survived (by decide) hSurvives
    obtain ⟨after, _, hRun, hAfter, hTold⟩ := Prompt.run_aborts hRefused hOpen
      (fun line hLine => hCut.stays line (by simp at hLine ⊢; tauto)) hFirst hFails (rest ++ later)
    rw [← List.cons_append, ← List.append_assoc, ← hCut.append_eq] at hRun
    rw [run_of_prompt hInvocation hPath hRun]
    refine ⟨hAfter.output_eq, ?_, ?_, ?_, ?_, fun _ => ?_⟩
    · exact iff_of_false (show Status.aborted.code ≠ 0 by decide) (by simp [hSurvives])
    · exact iff_of_true rfl (.inr hSurvives)
    · exact fun _ _ _ hAll => absurd hAll hSurvives
    · exact fun _ hAll => absurd hAll hSurvives
    · exact ⟨first, last, rest, rfl, hFirst, hFails, hTold.trans String.empty_append⟩

section EmptyLines

theorem cut_empty_lines (n : Nat) :
    Cut (Line.all (List.replicate n 10 ++ [101, 120, 105, 116])) (List.replicate n (.text "\n"))
      [.text "exit"] where
  append_eq := by
    induction n with
    | zero => decide +kernel
    | succ n ih => exact congrArg (Line.text "\n" :: ·) ih
  stays line hLine := by
    rw [List.eq_of_mem_replicate hLine]
    rfl
  ends line hLine := by
    rw [← Option.some.inj hLine]
    rfl

theorem survives_empty_lines_iff (n : Nat) :
    Survives 0 (List.replicate n (.text "\n")) ↔ n < 512 := by
  rw [survives_iff_of_no_value, List.length_replicate, Console.capacity]
  · omega
  · intro line hLine
    rw [List.eq_of_mem_replicate hLine]
    rfl

theorem refusals_empty_lines (n : Nat) :
    refusals {} (List.replicate n (.text "\n")) = String.join (List.replicate n flushFailure) := by
  rw [refusals, List.map_replicate]
  rfl

/-- With empty lines before a line that asks to leave, their number decides. The command leaves
behind 511 of them. Behind 512, the prompt for the line that asks to leave does not fit. -/
theorem prompt_succeeds_iff_survives_empty_lines :
    ∃ surroundings : Nat → Surroundings,
      (∀ n, (surroundings n).input = List.replicate n 10 ++ [101, 120, 105, 116] ∧
        (surroundings n).device = .full) ∧
      (run [] (surroundings 511)).status.code = 0 ∧
      (run [] (surroundings 511)).diagnostics =
        String.join (List.replicate 511 flushFailure) ++ flushFailure ∧
      (run [] (surroundings 512)).status.code = 101 ∧
      (run [] (surroundings 512)).diagnostics =
        String.join (List.replicate 512 flushFailure) ++ printFailure ⟨3, none⟩ := by
  let surroundings (n : Nat) : Surroundings :=
    { environment := fun _ => none
      input := List.replicate n 10 ++ [101, 120, 105, 116]
      contentsOf := fun _ => .error .notFound
      device := .full }
  have hInvocation : Invocation.parse? [] = some (.evaluate {}) := rfl
  refine ⟨surroundings, fun n => ⟨rfl, rfl⟩, ?_⟩
  obtain ⟨few, _, hFewCut, _, hFew⟩ :=
    @prompt_succeeds_iff_survives [] (surroundings 511) {} hInvocation rfl
  obtain ⟨rfl, rfl⟩ := hFewCut.unique (cut_empty_lines 511)
  obtain ⟨many, _, hManyCut, _, hMany⟩ :=
    @prompt_succeeds_iff_survives [] (surroundings 512) {} hInvocation rfl
  obtain ⟨rfl, rfl⟩ := hManyCut.unique (cut_empty_lines 512)
  have hSurvives := (survives_empty_lines_iff 511).mpr (by decide)
  have hFails := mt (survives_empty_lines_iff 512).mp (by decide)
  obtain ⟨_, hLeaves, _, hLeft, _⟩ := hFew rfl
  obtain ⟨_, _, hAborts, _, _, hAborted⟩ := hMany rfl
  have hSwitches (n : Nat) : (startSession (surroundings n) {}).switches = {} := rfl
  refine ⟨hLeaves.mpr ⟨by decide, hSurvives⟩, ?_, hAborts.mpr (.inr hFails), ?_⟩
  · rw [hLeft _ _ rfl hSurvives, hSwitches, refusals_empty_lines]
    exact String.append_empty
  · obtain ⟨first, last, rest, hAll, _, hTooMany, hTold⟩ := hAborted hFails
    obtain ⟨hLength, hTaken, _⟩ :=
      List.replicate_eq_append_iff.mp (hAll.trans (List.append_cons first last rest))
    have hNoRest : 512 ≤ (first ++ [last]).length := by
      rw [hTaken, survives_empty_lines_iff] at hTooMany
      exact Nat.le_of_not_lt hTooMany
    have hMany : first ++ [last] = List.replicate 512 (.text "\n") := by
      rw [hTaken, Nat.le_antisymm (hLength ▸ Nat.le_add_right _ _) hNoRest]
    rw [hTold, hSwitches, hMany, refusals_empty_lines]
    rfl

end EmptyLines

/-- A result that is held back whole is too much: the prompt that follows it cannot be printed, so
the line that asks to leave is never read. -/
theorem prompt_aborts_behind_result :
    ∃ surroundings : Surroundings,
      surroundings.input = [49, 10, 101, 120, 105, 116, 10] ∧ surroundings.device = .full ∧
      (run [] surroundings).status.code = 101 ∧
      (run [] surroundings).diagnostics =
        "Failed to flush stdout: No space left on device (os error 28)\n" ++
        "I/O error: No space left on device (os error 28)\n" ++
        "\nthread 'main' (3) panicked at " ++
        "/rustc/b940084d7eb6a299eb4bfeb8e34901bc051e7ac4/library/std/src/io/stdio.rs:1168:9:\n" ++
        "failed printing to stdout: No space left on device (os error 28)\n" ++
        "note: run with `RUST_BACKTRACE=1` environment variable to display a backtrace\n" := by
  refine ⟨{ environment := fun _ => none
            input := [49, 10, 101, 120, 105, 116, 10]
            contentsOf := fun _ => .error .notFound
            device := .full }, rfl, rfl, ?_, ?_⟩
  · decide +kernel
  · decide +kernel

end CommandLine

end StackCalculator
