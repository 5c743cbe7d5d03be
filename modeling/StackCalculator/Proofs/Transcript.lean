import StackCalculator.CommandLine.Command
import StackCalculator.Proofs.Diagnosis
import StackCalculator.Proofs.History
import StackCalculator.Proofs.Listing
import StackCalculator.Proofs.LongestMatch

/-!
What a prompt shows on standard output and tells on standard error when its output is taken. It is
put together line by line, and what comes of a line does not depend on the lines before it.
-/

namespace StackCalculator

theorem Text.bytes_injective {first second : String} (h : bytes first = bytes second) :
    first = second := by
  rw [bytes, bytes, Array.toList_inj] at h
  exact String.toByteArray_inj.mp (ByteArray.ext h)

/-- Trimming cuts off both ends, and what is left does not end with white space. -/
theorem Text.exists_trim (text : String) :
    ∃ leading trailing, text.toList = leading ++ ((trim text).toList ++ trailing) ∧
      ∀ c, (trim text).toList.getLast? = some c → isWhiteSpace c = false := by
  let inner := text.toList.dropWhile isWhiteSpace
  have hTrim : (trim text).toList = (inner.reverse.dropWhile isWhiteSpace).reverse := by
    rw [trim, String.toList_ofList]
  have hInner : inner = (inner.reverse.dropWhile isWhiteSpace).reverse ++
      (inner.reverse.takeWhile isWhiteSpace).reverse := by
    rw [← List.reverse_append, List.takeWhile_append_dropWhile, List.reverse_reverse]
  refine ⟨text.toList.takeWhile isWhiteSpace, (inner.reverse.takeWhile isWhiteSpace).reverse,
    ?_, ?_⟩
  · rw [hTrim, ← hInner, List.takeWhile_append_dropWhile]
  · intro c hLast
    rw [hTrim, List.getLast?_reverse] at hLast
    have hHead := List.head?_dropWhile_not isWhiteSpace inner.reverse
    rwa [hLast] at hHead

/-- Scanning where there is no newline stays on the line. -/
theorem Scanner.scan_same_line {s : Scanner} (hNone : '\n' ∉ s.rest) :
    Scanned.line s.scan.1 = s.line ∧ s.scan.2.line = s.line ∧ '\n' ∉ s.scan.2.rest := by
  obtain ⟨blanks, _, hRest, _, hLine, hScanLine⟩ := s.scan_begins
  rw [hRest, List.mem_append, List.mem_append, not_or, not_or] at hNone
  have hSame : Scanned.line s.scan.1 = s.line := by
    rw [hLine, List.count_eq_zero.mpr hNone.1, Nat.add_zero]
  exact ⟨hSame, hScanLine.trans hSame, hNone.2.2⟩

theorem Scanner.line_results {s : Scanner} (hNone : '\n' ∉ s.rest) (place : Nat) :
    Scanned.line (s.results place) = s.line := by
  induction place generalizing s with
  | zero => exact (scan_same_line hNone).1
  | succ place ih =>
      obtain ⟨_, hLine, hRest⟩ := scan_same_line hNone
      exact (ih hRest).trans hLine

/-- The line that an error is reported on. -/
def CompileError.line : CompileError → Nat
  | .unexpected e => e.line
  | .refused line _ _ => line

/-- Every message names the line first. -/
theorem CompileError.exists_message (e : CompileError) :
    ∃ rest, e.message = "[line " ++ toString e.line ++ "] Error" ++ rest := by
  cases e with
  | unexpected e =>
      refine ⟨": Unexpected character '" ++ String.singleton e.character ++ "'.", ?_⟩
      apply String.ext
      simp [message, UnexpectedCharacter.message, line]
  | refused line lexeme reason =>
      cases lexeme with
      | none =>
          refine ⟨" at end: " ++ reason.message, ?_⟩
          apply String.ext
          simp [message, CompileError.line]
      | some lexeme =>
          refine ⟨" at '" ++ lexeme ++ "': " ++ reason.message, ?_⟩
          apply String.ext
          simp [message, CompileError.line]

/-- An error is reported on the line of a result of scanning. -/
theorem Diagnosis.line_errorAt {results : Nat → Scanned} {place : Nat} {e : CompileError}
    (h : errorAt results place = some e) : ∃ found, e.line = Scanned.line (results found) := by
  unfold errorAt at h
  split at h
  · cases h
  · rename_i hResult
    cases h
    exact ⟨place, by rw [hResult]; rfl⟩
  · rename_i hResult
    split at h
    · split at h
      · rename_i hNext
        cases h
        exact ⟨place + 1, by rw [hNext]; rfl⟩
      · cases h
        exact ⟨place, by rw [hResult]; rfl⟩
    · cases h

/-- A text without a newline has its errors on the first line. -/
theorem line_of_compile_error {source : String} {e : CompileError}
    (hNone : '\n' ∉ source.toList) (h : compile source = .error e) : e.line = 1 := by
  have hRead : Tree.ofSource source = .error e := by
    rw [compile] at h
    split at h
    · cases h
      assumption
    · cases h
  obtain ⟨place, hError⟩ := Diagnosis.exists_errorAt_of_read hRead
  obtain ⟨found, hLine⟩ := Diagnosis.line_errorAt hError
  exact hLine.trans (Scanner.line_results hNone found)

/-- A text that compiles gives a value. -/
theorem Machine.exists_outcome_of_compile {source : String} {chunk : Chunk}
    (h : compile source = .ok chunk) : ∃ value, (run chunk).outcome = .ok value := by
  obtain ⟨tree, endLine, _, _, hLiterals, rfl⟩ := exists_parse_of_compile h
  exact ⟨_, (run_ofTree tree endLine hLiterals).1⟩

namespace Session

variable {σ : Type} [Sink σ]

theorem diagnostics_interpret {session : Session σ} (h : session.switches = {})
    (source : String) : (session.interpret source).1.diagnostics = "" := by
  cases hCompile : compile source with
  | error e => rw [session.interpret_of_compile_error hCompile]
  | ok chunk => simp [interpret, compileReporting, hCompile, h, diagnostics_run]

end Session

namespace CommandLine

/-- Bytes cut behind each newline. What stands behind the last newline is a piece if it is not
empty. -/
inductive Splits : List UInt8 → List (List UInt8) → Prop where
  | nil : Splits [] []
  | unterminated {rest : List UInt8} (hSome : rest ≠ []) (hNone : 10 ∉ rest) : Splits rest [rest]
  | line (content : List UInt8) {rest : List UInt8} {pieces : List (List UInt8)}
      (hNone : 10 ∉ content) (further : Splits rest pieces) :
      Splits (content ++ 10 :: rest) ((content ++ [10]) :: pieces)

theorem splits_split (input : List UInt8) : Splits input (Line.split input) := by
  induction input with
  | nil => exact .nil
  | cons byte rest ih =>
      rw [Line.split]
      split
      · rename_i hNewline
        subst hNewline
        exact .line [] List.not_mem_nil ih
      · rename_i hByte
        generalize Line.split rest = pieces at ih
        cases ih with
        | nil => exact .unterminated (List.cons_ne_nil _ _) (by simpa using Ne.symm hByte)
        | unterminated hSome hNone =>
            exact .unterminated (List.cons_ne_nil _ _) (by simpa using ⟨Ne.symm hByte, hNone⟩)
        | line content hNone further =>
            exact .line (byte :: content) (by simpa using ⟨Ne.symm hByte, hNone⟩) further

theorem split_append_newline {content : List UInt8} (hNone : 10 ∉ content) (rest : List UInt8) :
    Line.split (content ++ 10 :: rest) = (content ++ [10]) :: Line.split rest := by
  induction content with
  | nil => simp [Line.split]
  | cons byte content ih =>
      rw [List.mem_cons, not_or] at hNone
      simp [Line.split, Ne.symm hNone.1, ih hNone.2]

theorem split_unterminated {byte : UInt8} {rest : List UInt8} (hNone : 10 ∉ byte :: rest) :
    Line.split (byte :: rest) = [byte :: rest] := by
  induction rest generalizing byte with
  | nil =>
      rw [List.mem_singleton] at hNone
      simp [Line.split, Ne.symm hNone]
  | cons second rest ih =>
      rw [List.mem_cons, not_or] at hNone
      rw [Line.split, if_neg (Ne.symm hNone.1), ih hNone.2]

/-- There is only one way to cut bytes into lines. -/
theorem Splits.eq_split {input : List UInt8} {pieces : List (List UInt8)}
    (h : Splits input pieces) : pieces = Line.split input := by
  induction h with
  | nil => rfl
  | @unterminated rest hSome hNone =>
      obtain ⟨byte, rest, rfl⟩ := List.exists_cons_of_ne_nil hSome
      exact (split_unterminated hNone).symm
  | line content hNone further ih => rw [split_append_newline hNone, ih]

/-- No piece goes on behind a newline. -/
theorem Splits.newline_last {input : List UInt8} {pieces : List (List UInt8)}
    (h : Splits input pieces) {piece before behind : List UInt8} (hPiece : piece ∈ pieces)
    (hNewline : piece = before ++ 10 :: behind) : behind = [] := by
  induction h with
  | nil => cases hPiece
  | unterminated hSome hNone =>
      rw [List.mem_singleton] at hPiece
      subst hPiece
      simp [hNewline] at hNone
  | line content hNone further ih =>
      rcases List.mem_cons.mp hPiece with hFirst | hRest
      · rcases List.eq_nil_or_concat behind with hNil | ⟨front, last, rfl⟩
        · exact hNil
        · rw [hFirst, List.concat_eq_append, ← List.cons_append, ← List.append_assoc] at hNewline
          obtain ⟨hContent, _⟩ := List.append_inj' hNewline rfl
          simp [hContent] at hNone
      · exact ih hRest

theorem bytes_of_ofBytes {piece : List UInt8} {content : String}
    (h : Line.ofBytes piece = .text content) : Text.bytes content = piece := by
  unfold Line.ofBytes at h
  split at h
  · rename_i hText
    cases h
    unfold String.fromUTF8? at hText
    split at hText
    · cases hText
      rfl
    · cases hText
  · cases h

/-- A line has its newline behind everything else, where it is trimmed away. -/
theorem newline_not_mem_trim {input : List UInt8} {pieces : List (List UInt8)}
    (h : Splits input pieces) {piece : List UInt8} (hPiece : piece ∈ pieces) {content : String}
    (hText : Line.ofBytes piece = .text content) : '\n' ∉ (Text.trim content).toList := by
  intro hMem
  obtain ⟨leading, trailing, hContent, hLast⟩ := Text.exists_trim content
  obtain ⟨before, behind, hTrim⟩ := List.append_of_mem hMem
  have hBytes : piece = Text.bytes (String.ofList (leading ++ before)) ++
      10 :: Text.bytes (String.ofList (behind ++ trailing)) := by
    have hSplit : content = String.ofList (leading ++ before) ++
        ("\n" ++ String.ofList (behind ++ trailing)) := by
      apply String.ext
      simp [hContent, hTrim]
    rw [← bytes_of_ofBytes hText, hSplit, Text.bytes_append, Text.bytes_append]
    rfl
  have hNothing : String.ofList (behind ++ trailing) = "" :=
    Text.bytes_injective (h.newline_last hPiece hBytes)
  have hBehind : behind ++ trailing = [] := by
    simpa using congrArg String.toList hNothing
  rw [hTrim, (List.append_eq_nil_iff.mp hBehind).1] at hLast
  have hNewline := hLast '\n' (List.getLast?_concat ..)
  revert hNewline
  decide

namespace Console

/-- All that has been written to a console, delivered or not. -/
def written (console : Console) : String :=
  console.delivered ++ console.pending

variable {console : Console}

theorem flush_accepting (h : console.device = .accepting) :
    ∃ after, console.flush = (.ok (), after) ∧ after.device = .accepting ∧
      after.written = console.written ∧ after.pending = "" := by
  unfold flush
  split
  · rename_i hEmpty
    exact ⟨console, rfl, h, rfl, String.isEmpty_iff.mp hEmpty⟩
  · refine ⟨{ console with delivered := console.delivered ++ console.pending, pending := "" }, ?_,
      h, ?_, rfl⟩
    · simp [deliver, h]
    · simp [written]

theorem hold_accepting (h : console.device = .accepting) (text : String) :
    ∃ after, console.hold text = (.ok (), after) ∧ after.device = .accepting ∧
      after.written = console.written ++ text := by
  unfold hold
  split
  · exact ⟨_, rfl, h, String.append_assoc.symm⟩
  · obtain ⟨after, hFlush, hDevice, hWritten, _⟩ := flush_accepting h
    refine ⟨{ after with pending := after.pending ++ text }, by rw [hFlush], hDevice, ?_⟩
    rw [← hWritten]
    exact String.append_assoc.symm

/-- On a device that takes everything, nothing that is written is refused or lost. -/
theorem write_accepting (h : console.device = .accepting) (text : String) :
    ∃ after, console.write text = (.ok (), after) ∧ after.device = .accepting ∧
      after.written = console.written ++ text := by
  unfold write
  split
  · split
    · rename_i hEmpty
      refine ⟨{ console with delivered := console.delivered ++ text }, by simp [deliver, h], h, ?_⟩
      simp [written, String.isEmpty_iff.mp hEmpty]
    · obtain ⟨middle, hHold, hMiddle, hWritten⟩ := hold_accepting h text
      obtain ⟨after, hFlush, hAfter, hSame, _⟩ := flush_accepting hMiddle
      exact ⟨after, by rw [hHold]; exact hFlush, hAfter, hSame.trans hWritten⟩
  · split
    · obtain ⟨middle, hFlush, hMiddle, hSame, _⟩ := flush_accepting h
      obtain ⟨after, hHold, hAfter, hWritten⟩ := hold_accepting hMiddle text
      exact ⟨after, by rw [hFlush]; exact hHold, hAfter, by rw [hWritten, hSame]⟩
    · exact hold_accepting h text

theorem output_accepting (h : console.device = .accepting) : console.output = console.written := by
  obtain ⟨after, hFlush, _, hWritten, hEmpty⟩ := flush_accepting h
  rw [output, hFlush, ← hWritten, written, hEmpty, String.append_empty]

/-- A console whose device takes everything is a sink that takes everything. -/
def unlimited : Sink.Unlimited Console where
  accepts console := console.device = .accepting
  taken console := Text.bytes console.written
  write_accepts := by
    intro console text hDevice
    obtain ⟨after, hWrite, hAfter, hWritten⟩ := write_accepting hDevice text
    exact ⟨after, hWrite, hAfter, by rw [hWritten, Text.bytes_append]⟩

end Console

namespace Line

/-- Whether a line ends the prompt: it cannot be read, or it asks to leave. -/
def ends : Line → Bool
  | .unreadable => true
  | .text content => Prompt.isExit (Text.trim content)

/-- What of a line is evaluated. In a blank line that is nothing. -/
def source? : Line → Option String
  | .unreadable => none
  | .text content =>
      let source := Text.trim content
      if source.isEmpty then none else some source

/-- What a fresh session with the given switches reports on a line, if it is evaluated. -/
def report? (switches : Switches) (line : Line) : Option (Reported SessionError Number) :=
  line.source?.map fun source => ((Session.fresh ({} : MemorySink) switches).interpret source).1

end Line

/-- The result line of what is reported. There is none for an error. -/
def resultLine (report : Reported SessionError Number) : String :=
  match report.result with
  | .ok value => value.text ++ "\n"
  | .error _ => ""

/-- The line that says what went wrong, if anything did. -/
def errorLine (report : Reported SessionError Number) : String :=
  match report.result with
  | .ok _ => ""
  | .error e => e.message ++ "\n"

namespace Line

/-- What a line adds to standard output. -/
def shown (switches : Switches) (line : Line) : String :=
  ((line.report? switches).map resultLine).getD ""

/-- What a line adds to standard error. -/
def told (switches : Switches) (line : Line) : String :=
  ((line.report? switches).map fun report => report.diagnostics ++ errorLine report).getD ""

/-- What is told of the line that ends the prompt. -/
def farewell : Line → String
  | .unreadable => "Failed to read line: stream did not contain valid UTF-8\n"
  | .text _ => ""

end Line

namespace Prompt

/-- A prompt on a device that takes everything. -/
structure Served (prompt : Prompt) (switches : Switches) : Prop where
  device_eq : prompt.session.sink.device = .accepting
  switches_eq : prompt.session.switches = switches

variable {prompt : Prompt} {switches : Switches}

/-- The bytes of the result line are those that the session writes for a request. -/
theorem bytes_resultLine {report : Reported SessionError Number} {request : Request}
    (h : report.result.toOption = request.value?) :
    Text.bytes (resultLine report) = (Request.lines [request]).flatten := by
  unfold resultLine
  cases hResult : report.result with
  | ok value =>
      rw [hResult] at h
      rw [Request.lines_of_value h.symm, List.flatten_singleton]
      rfl
  | error e =>
      rw [hResult] at h
      simp only [Request.lines, List.filterMap_cons, ← h]
      rfl

/-- A text is evaluated as by a fresh session. -/
theorem evaluate_served (h : prompt.Served switches) (source : String) :
    ∃ report, report = ((Session.fresh ({} : MemorySink) switches).interpret source).1 ∧
      (prompt.evaluate source).Served switches ∧
      (prompt.evaluate source).session.sink.written =
        prompt.session.sink.written ++ resultLine report ∧
      (prompt.evaluate source).diagnostics =
        prompt.diagnostics ++ (report.diagnostics ++ errorLine report) := by
  let fresh : Session MemorySink := Session.fresh {} switches
  rcases hInterpret : prompt.session.interpret source with ⟨report, after⟩
  have hAnswer : prompt.session.answer (.interpret source) = (some report, after) := by
    simp [Session.answer, hInterpret]
  have hFresh : MemorySink.unlimited.accepts fresh.sink := rfl
  have hSame := Session.answer_eq_answer Console.unlimited MemorySink.unlimited
    h.device_eq hFresh h.switches_eq (.interpret source)
  obtain ⟨hDevice, hTaken, hReturned⟩ := Session.answer_accepts Console.unlimited
    h.device_eq (.interpret source)
  have hSwitches := prompt.session.switches_answer (.interpret source)
  rw [hAnswer] at hSame hDevice hTaken hReturned hSwitches
  have hWritten : after.sink.written = prompt.session.sink.written ++ resultLine report := by
    apply Text.bytes_injective
    rw [Text.bytes_append, bytes_resultLine hReturned]
    exact hTaken
  refine ⟨report, Option.some.inj hSame, ?_⟩
  cases hResult : report.result with
  | ok value =>
      have hEvaluate : prompt.evaluate source =
          ⟨after, prompt.thread, prompt.diagnostics ++ report.diagnostics⟩ := by
        simp only [evaluate, hInterpret, hResult]
      rw [hEvaluate]
      exact ⟨⟨hDevice, hSwitches.trans h.switches_eq⟩, hWritten, by simp [errorLine, hResult]⟩
  | error e =>
      have hEvaluate : prompt.evaluate source =
          tell ⟨after, prompt.thread, prompt.diagnostics ++ report.diagnostics⟩ e.message := by
        simp only [evaluate, hInterpret, hResult]
      rw [hEvaluate]
      exact ⟨⟨hDevice, hSwitches.trans h.switches_eq⟩, hWritten,
        by simp [tell, errorLine, hResult, String.append_assoc]⟩

/-- Asking for a line shows it. -/
theorem ask_served (h : prompt.Served switches) :
    ∃ after, prompt.ask = .goOn after ∧ after.Served switches ∧
      after.session.sink.written = prompt.session.sink.written ++ "> " ∧
      after.diagnostics = prompt.diagnostics := by
  obtain ⟨middle, hWrite, hMiddle, hWritten⟩ := Console.write_accepting h.device_eq "> "
  obtain ⟨after, hFlush, hAfter, hSame, _⟩ := Console.flush_accepting hMiddle
  refine ⟨{ prompt with session.sink := after }, ?_, ⟨hAfter, h.switches_eq⟩, hSame.trans hWritten,
    rfl⟩
  simp [ask, print, hWrite, hFlush]

/-- A line that ends the prompt may be told of, but nothing is shown. -/
theorem take_ends (prompt : Prompt) {line : Line} (h : line.ends = true) :
    prompt.take line =
      .ended { prompt with diagnostics := prompt.diagnostics ++ line.farewell } .success := by
  cases line with
  | unreadable => simp [take, tell, Line.farewell, IoError.message, String.append_assoc]
  | text content => simp [take, show isExit (Text.trim content) = true from h, Line.farewell]

theorem take_not_ends (prompt : Prompt) {line : Line} (h : line.ends = false) :
    prompt.take line = .goOn (line.source?.elim prompt prompt.evaluate) := by
  cases line with
  | unreadable => cases h
  | text content =>
      have hStays : isExit (Text.trim content) = false := h
      cases hBlank : (Text.trim content).isEmpty <;> simp [take, hStays, Line.source?, hBlank]

theorem take_served (h : prompt.Served switches) {line : Line} (hEnds : line.ends = false) :
    ∃ after, prompt.take line = .goOn after ∧ after.Served switches ∧
      after.session.sink.written = prompt.session.sink.written ++ line.shown switches ∧
      after.diagnostics = prompt.diagnostics ++ line.told switches := by
  refine ⟨_, take_not_ends prompt hEnds, ?_⟩
  cases hSource : line.source? with
  | none => simpa [Line.shown, Line.told, Line.report?, hSource] using h
  | some source =>
      obtain ⟨report, rfl, hAfter⟩ := evaluate_served h source
      simpa [Line.shown, Line.told, Line.report?, hSource] using hAfter

theorem run_nil {asked : Prompt} (hAsk : prompt.ask = .goOn asked) :
    prompt.run [] = asked.close := by
  rw [run, hAsk]

theorem run_of_ends {asked : Prompt} (hAsk : prompt.ask = .goOn asked) {line : Line}
    (hEnds : line.ends = true) (rest : List Line) :
    prompt.run (line :: rest) =
      ({ asked with diagnostics := asked.diagnostics ++ line.farewell }, .success) := by
  rw [run, hAsk]
  simp only [take_ends asked hEnds]

theorem run_of_goOn {asked taken : Prompt} (hAsk : prompt.ask = .goOn asked) {line : Line}
    (hTake : asked.take line = .goOn taken) (rest : List Line) :
    prompt.run (line :: rest) = taken.run rest := by
  rw [run, hAsk]
  simp only [hTake]

theorem close_served (h : prompt.Served switches) :
    ∃ after, prompt.close = (after, .success) ∧ after.session.sink.device = .accepting ∧
      after.session.sink.written = prompt.session.sink.written ++ "\n" ∧
      after.diagnostics = prompt.diagnostics := by
  obtain ⟨after, hWrite, hAfter, hWritten⟩ := Console.write_accepting h.device_eq "\n"
  refine ⟨{ prompt with session.sink := after }, ?_, hAfter, hWritten, rfl⟩
  simp [close, print, hWrite]

end Prompt

/-- Lines cut before the first that ends the prompt, if there is one. -/
structure Cut (lines before later : List Line) : Prop where
  append_eq : lines = before ++ later
  stays : ∀ line ∈ before, line.ends = false
  ends : ∀ line, later.head? = some line → line.ends = true

theorem exists_cut (lines : List Line) : ∃ before later, Cut lines before later := by
  refine ⟨lines.takeWhile (!·.ends), lines.dropWhile (!·.ends),
    List.takeWhile_append_dropWhile.symm, ?_, ?_⟩
  · intro line hLine
    simpa using List.mem_takeWhile_imp hLine
  · intro line hLine
    have hHead := List.head?_dropWhile_not (!·.ends) lines
    rw [hLine] at hHead
    simpa using hHead

theorem Cut.eq_takeWhile {lines before later : List Line} (h : Cut lines before later) :
    before = lines.takeWhile (!·.ends) ∧ later = lines.dropWhile (!·.ends) := by
  have hStays : ∀ line ∈ before, (!line.ends) = true := by simpa using h.stays
  rw [h.append_eq, List.takeWhile_append_of_pos hStays, List.dropWhile_append_of_pos hStays]
  cases later with
  | nil => simp
  | cons line rest => simp [h.ends line rfl]

theorem Cut.unique {lines before later others rest : List Line} (h : Cut lines before later)
    (hOther : Cut lines others rest) : before = others ∧ later = rest :=
  ⟨h.eq_takeWhile.1.trans hOther.eq_takeWhile.1.symm,
    h.eq_takeWhile.2.trans hOther.eq_takeWhile.2.symm⟩

/-- What a prompt shows on standard output for lines that do not end it and what follows them. Every
line is asked for, also the one that ends the prompt, and the end of the input is marked by a
newline. -/
def transcript (switches : Switches) (before later : List Line) : String :=
  String.join (before.map fun line => "> " ++ line.shown switches) ++ "> " ++
    if later = [] then "\n" else ""

/-- What a prompt tells on standard error for the same lines. -/
def complaints (switches : Switches) (before later : List Line) : String :=
  String.join (before.map (·.told switches)) ++ (later.head?.map Line.farewell).getD ""

/-- A prompt whose output is taken. -/
theorem Prompt.run_served {prompt : Prompt} {switches : Switches} (h : prompt.Served switches)
    {before later : List Line} (hStays : ∀ line ∈ before, line.ends = false)
    (hEnds : ∀ line, later.head? = some line → line.ends = true) :
    ∃ after, prompt.run (before ++ later) = (after, .success) ∧
      after.session.sink.device = .accepting ∧
      after.session.sink.written =
        prompt.session.sink.written ++ transcript switches before later ∧
      after.diagnostics = prompt.diagnostics ++ complaints switches before later := by
  induction before generalizing prompt with
  | nil =>
      obtain ⟨asked, hAsk, hAsked, hPrompted, hQuiet⟩ := ask_served h
      cases later with
      | nil =>
          obtain ⟨after, hClose, hAfter, hWritten, hTold⟩ := close_served hAsked
          refine ⟨after, (run_nil hAsk).trans hClose, hAfter, ?_, ?_⟩
          · rw [hWritten, hPrompted]
            simp [transcript, String.append_assoc]
          · rw [hTold, hQuiet]
            simp [complaints]
      | cons line rest =>
          refine ⟨_, run_of_ends hAsk (hEnds line rfl) rest, hAsked.device_eq, ?_, ?_⟩
          · rw [hPrompted]
            simp [transcript]
          · rw [hQuiet]
            simp [complaints]
  | cons line before ih =>
      obtain ⟨hLine, hBefore⟩ := List.forall_mem_cons.mp hStays
      obtain ⟨asked, hAsk, hAsked, hPrompted, hQuiet⟩ := ask_served h
      obtain ⟨taken, hTake, hTaken, hShown, hTold⟩ := take_served hAsked hLine
      obtain ⟨after, hRun, hAfter, hWritten, hAll⟩ := ih hTaken hBefore
      refine ⟨after, (run_of_goOn hAsk hTake (before ++ later)).trans hRun, hAfter, ?_, ?_⟩
      · rw [hWritten, hShown, hPrompted]
        simp [transcript, String.append_assoc]
      · rw [hAll, hTold, hQuiet]
        simp [complaints, String.append_assoc]

/-- Without switches, the only thing told about a line is what went wrong. -/
theorem Line.told_of_no_switches (line : Line) :
    line.told {} = ((line.report? {}).map errorLine).getD "" := by
  unfold told report?
  cases line.source? with
  | none => rfl
  | some source => simp [Session.diagnostics_interpret, Session.fresh]

/-- A line that is evaluated and fails is one that does not compile. -/
theorem Line.compile_error_of_report {line : Line} {switches : Switches}
    {report : Reported SessionError Number} {e : SessionError}
    (hReport : line.report? switches = some report) (hError : report.result = .error e) :
    ∃ source error, line.source? = some source ∧ compile source = .error error ∧
      e = .compile error := by
  obtain ⟨source, hSource, rfl⟩ := Option.map_eq_some_iff.mp hReport
  refine ⟨source, ?_⟩
  cases hCompile : compile source with
  | error error =>
      rw [Session.interpret_of_compile_error _ hCompile] at hError
      cases hError
      exact ⟨error, hSource, rfl, rfl⟩
  | ok chunk =>
      obtain ⟨value, hOutcome⟩ := Machine.exists_outcome_of_compile hCompile
      obtain ⟨_, hRun, _⟩ := Session.run_of_accepts MemorySink.unlimited
        (show MemorySink.unlimited.accepts (Session.fresh {} switches).sink from rfl) chunk
      rw [(Session.interpret_of_compile _ hCompile).1, hRun, Session.reportOf, hOutcome] at hError
      cases hError

theorem Line.exists_text_of_source {line : Line} {source : String}
    (h : line.source? = some source) :
    ∃ content, line = .text content ∧ Text.trim content = source := by
  cases line with
  | unreadable => cases h
  | text content =>
      dsimp only [source?] at h
      split at h
      · cases h
      · exact ⟨content, rfl, Option.some.inj h⟩

/-- What goes wrong with a line of the input is reported on line 1. -/
theorem exists_message_of_report {input : List UInt8} {pieces : List (List UInt8)}
    (hPieces : Splits input pieces) {line : Line} (hLine : line ∈ pieces.map Line.ofBytes)
    {switches : Switches} {report : Reported SessionError Number} {e : SessionError}
    (hReport : line.report? switches = some report) (hError : report.result = .error e) :
    ∃ rest, e.message = "[line 1] Error" ++ rest := by
  obtain ⟨source, error, hSource, hCompile, rfl⟩ := Line.compile_error_of_report hReport hError
  obtain ⟨content, rfl, rfl⟩ := Line.exists_text_of_source hSource
  obtain ⟨piece, hPiece, hText⟩ := List.mem_map.mp hLine
  obtain ⟨rest, hMessage⟩ := error.exists_message
  rw [line_of_compile_error (newline_not_mem_trim hPieces hPiece hText) hCompile] at hMessage
  exact ⟨rest, hMessage⟩

theorem farewell_head? (later : List Line) :
    (later.head?.map Line.farewell).getD "" =
      if later.head? = some .unreadable then
        "Failed to read line: stream did not contain valid UTF-8\n" else "" := by
  cases later with
  | nil => rfl
  | cons line rest => cases line <;> simp [Line.farewell]

/-- Without a file, the command is its prompt on the lines of the input. -/
theorem run_of_prompt {arguments : List String} {surroundings : Surroundings} {options : Options}
    (hInvocation : Invocation.parse? arguments = some (.evaluate options))
    (hPath : options.path = none) {after : Prompt} {status : Status}
    (hRun : (startPrompt surroundings options).run (Line.all surroundings.input) =
      (after, status)) :
    run arguments surroundings = ⟨status, after.session.sink.output, after.diagnostics⟩ := by
  simp only [run, hInvocation, hPath, runPrompt, hRun]

/-- The command at its prompt, with its output taken, no switch on and no file to evaluate. Its
input is cut into lines in the only way there is, and the lines are taken in their order up to the
first that cannot be read or asks to leave. Each line is asked for and gives what a fresh session
makes of it without the white space around it: a result line on standard output, or a message on
standard error, which names line 1; a blank line gives nothing. The command succeeds. -/
theorem prompt_transcript {arguments : List String} {surroundings : Surroundings}
    {options : Options} (hInvocation : Invocation.parse? arguments = some (.evaluate options))
    (hPath : options.path = none) (hSwitches : (startSession surroundings options).switches = {})
    (hDevice : surroundings.device = .accepting) :
    ∃ pieces, Splits surroundings.input pieces ∧
      (∀ others, Splits surroundings.input others → others = pieces) ∧
      ∃ before later, Cut (pieces.map Line.ofBytes) before later ∧
        (run arguments surroundings).output =
          String.join (before.map fun line => "> " ++ line.shown {}) ++ "> " ++
            (if later = [] then "\n" else "") ∧
        (run arguments surroundings).diagnostics =
          String.join (before.map fun line => ((line.report? {}).map errorLine).getD "") ++
            (if later.head? = some .unreadable then
              "Failed to read line: stream did not contain valid UTF-8\n" else "") ∧
        (run arguments surroundings).status.code = 0 ∧
        ∀ line ∈ before, ∀ report e, line.report? {} = some report → report.result = .error e →
          ∃ rest, e.message = "[line 1] Error" ++ rest := by
  have hPieces := splits_split surroundings.input
  obtain ⟨before, later, hCut⟩ := exists_cut ((Line.split surroundings.input).map Line.ofBytes)
  refine ⟨_, hPieces, fun others hOthers => hOthers.eq_split, before, later, hCut, ?_⟩
  let prompt := startPrompt surroundings options
  have hServed : prompt.Served {} := ⟨hDevice, hSwitches⟩
  obtain ⟨after, hRun, hAfter, hWritten, hTold⟩ := Prompt.run_served hServed hCut.stays hCut.ends
  rw [← hCut.append_eq] at hRun
  rw [run_of_prompt hInvocation hPath hRun]
  refine ⟨?_, ?_, rfl, ?_⟩
  · rw [Console.output_accepting hAfter, hWritten]
    simp [prompt, startPrompt, startSession, Console.written, transcript]
  · rw [hTold, complaints, farewell_head?, funext Line.told_of_no_switches]
    exact String.empty_append
  · intro line hLine report e hReport hError
    have hMem : line ∈ (Line.split surroundings.input).map Line.ofBytes := by
      rw [hCut.append_eq]
      exact List.mem_append_left _ hLine
    exact exists_message_of_report hPieces hMem hReport hError

/-- A sum, a blank line, an open group and bytes that are no text. -/
theorem prompt_transcript_unreadable :
    ∃ surroundings : Surroundings,
      surroundings.input = [49, 43, 50, 10, 32, 10, 40, 10, 255] ∧
      (run [] surroundings).output = "> 3\n> > > " ∧
      (run [] surroundings).diagnostics = "[line 1] Error at end: Expect expression.\n" ++
        "Failed to read line: stream did not contain valid UTF-8\n" ∧
      (run [] surroundings).status.code = 0 := by
  let surroundings : Surroundings :=
    { environment := fun _ => none
      input := [49, 43, 50, 10, 32, 10, 40, 10, 255]
      contentsOf := fun _ => .error .notFound }
  have hInvocation : Invocation.parse? [] = some (.evaluate {}) := rfl
  obtain ⟨pieces, hPieces, _, before, later, hCut, hOutput, hTold, hCode, _⟩ :=
    prompt_transcript hInvocation rfl (show (startSession surroundings {}).switches = {} by rfl) rfl
  obtain rfl := hPieces.eq_split
  obtain ⟨rfl, rfl⟩ := hCut.eq_takeWhile
  refine ⟨surroundings, rfl, hOutput.trans ?_, hTold.trans ?_, hCode⟩
  · decide +kernel
  · decide +kernel

end CommandLine

end StackCalculator
