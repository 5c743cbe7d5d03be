import StackCalculator.Proofs.FullDevice

/-!
The command on a file. Bytes that are no text, a text that is no expression within the limits, and
an expression are told apart by the exit code, and a result that cannot be written is a fourth
case. Nothing but a result is ever written to standard output, and no file makes the machine fail.
-/

namespace StackCalculator.CommandLine

/-- Bytes are read as the one text that they are the bytes of. -/
theorem fromUTF8?_eq_some_iff {contents : List UInt8} {source : String} :
    String.fromUTF8? ⟨contents.toArray⟩ = some source ↔ Text.bytes source = contents := by
  constructor
  · intro hRead
    exact bytes_of_ofBytes (by rw [Line.ofBytes, hRead])
  · rintro rfl
    rw [show (⟨(Text.bytes source).toArray⟩ : ByteArray) = source.toByteArray from rfl,
      String.fromUTF8?, dif_pos source.isValidUTF8]
    rfl

namespace Console

variable {console : Console} {held : Nat}

/-- A step on a console whose device takes nothing: it can only fail for that reason, and the device
has still taken nothing after it. -/
structure Blocked (written : Except IoError Unit × Console) : Prop where
  error_eq : ∀ e, written.1 = .error e → e = .noSpace
  refusing : ∃ held, written.2.Refusing held

theorem Blocked.andThen {written : Except IoError Unit × Console}
    {next : Console → Except IoError Unit × Console} :
    (∀ middle held, middle.Refusing held → Blocked (next middle)) → Blocked written →
      Blocked (match written with
        | (.ok (), middle) => next middle
        | (.error e, middle) => (.error e, middle)) := by
  intro hNext h
  obtain ⟨result, middle⟩ := written
  cases result with
  | error e => exact h
  | ok =>
      obtain ⟨held, hMiddle⟩ := h.refusing
      exact hNext middle held hMiddle

theorem deliver_blocked (h : console.Refusing held) (text : String) :
    Blocked (console.deliver text) := by
  rw [deliver, h.device_eq]
  exact ⟨by rintro e ⟨⟩; rfl, held, h⟩

theorem flush_blocked (h : console.Refusing held) : Blocked console.flush := by
  by_cases hSome : 0 < held
  · rw [h.flush_fails hSome]
    exact ⟨by rintro e ⟨⟩; rfl, held, h⟩
  · have hNone : console.pending.isEmpty = true := by
      rw [String.isEmpty, h.size_eq, beq_iff_eq]
      omega
    rw [flush, if_pos hNone]
    exact ⟨by rintro e ⟨⟩, held, h⟩

theorem hold_blocked (h : console.Refusing held) (text : String) : Blocked (console.hold text) := by
  unfold hold
  split
  · exact ⟨by rintro e ⟨⟩, _, h.device_eq, h.delivered_eq, rfl⟩
  · apply Blocked.andThen _ (flush_blocked h)
    intro middle held hMiddle
    exact ⟨by rintro e ⟨⟩, _, hMiddle.device_eq, hMiddle.delivered_eq, rfl⟩

theorem write_blocked (h : console.Refusing held) (text : String) :
    Blocked (console.write text) := by
  unfold write
  split
  · split
    · exact deliver_blocked h text
    · apply Blocked.andThen _ (hold_blocked h text)
      intro middle held hMiddle
      exact flush_blocked hMiddle
  · split
    · apply Blocked.andThen _ (flush_blocked h)
      intro middle held hMiddle
      exact hold_blocked hMiddle text
    · exact hold_blocked h text

theorem exists_pending_of_hold {text : String} {after : Console}
    (h : console.hold text = (.ok (), after)) : ∃ front, after.pending = front ++ text := by
  unfold hold at h
  split at h
  · cases h
    exact ⟨_, rfl⟩
  · split at h
    · cases h
      exact ⟨_, rfl⟩
    · cases h

/-- No line can be ended on a device that takes nothing, whatever is held back. -/
theorem write_newline_fails (h : console.Refusing held) :
    (console.write "\n").1 = .error .noSpace := by
  rw [write, if_pos (by decide)]
  split
  · rw [deliver, h.device_eq]
  · have hHold := hold_blocked h "\n"
    split
    · rename_i middle hResult
      rw [hResult] at hHold
      -- The newline itself is held back now, so the flush has something to deliver.
      obtain ⟨front, hPending⟩ := exists_pending_of_hold hResult
      obtain ⟨size, hMiddle⟩ := hHold.refusing
      have hSome : 0 < size := by
        rw [← hMiddle.size_eq, hPending, String.utf8ByteSize_append]
        exact Nat.lt_add_left _ (by decide)
      rw [hMiddle.flush_fails hSome]
    · rename_i e middle hResult
      rw [hResult] at hHold
      rw [hHold.error_eq e rfl]

/-- A result line cannot be written to a device that takes nothing, however it is cut into parts. -/
theorem writeAll_line_fails (h : console.Refusing held) (parts : List String) :
    ∃ after left, Sink.writeAll console (parts ++ ["\n"]) = (.error .noSpace, after) ∧
      after.Refusing left := by
  induction parts generalizing console held with
  | nil =>
      obtain ⟨left, hAfter⟩ := (write_blocked h "\n").refusing
      have hSink : Sink.write console "\n" = (.error .noSpace, (console.write "\n").2) :=
        Prod.ext (write_newline_fails h) rfl
      exact ⟨_, left, by rw [List.nil_append, Sink.writeAll, hSink], hAfter⟩
  | cons part rest ih =>
      have hWrite := write_blocked h part
      rw [List.cons_append, Sink.writeAll]
      cases hResult : Sink.write console part with
      | mk result middle =>
          rw [show console.write part = (result, middle) from hResult] at hWrite
          obtain ⟨left, hMiddle⟩ := hWrite.refusing
          cases result with
          | error e =>
              cases hWrite.error_eq e rfl
              exact ⟨middle, left, rfl, hMiddle⟩
          | ok => exact ih hMiddle

end Console

/-- The command on a file that could be read, by what a session makes of the bytes. -/
theorem run_of_file {arguments : List String} {surroundings : Surroundings} {options : Options}
    {path : String} {contents : List UInt8}
    (hInvocation : Invocation.parse? arguments = some (.evaluate options))
    (hPath : options.path = some path) (hContents : surroundings.contentsOf path = .ok contents) :
    run arguments surroundings = runFile (startSession surroundings options) (.ok contents) := by
  simp only [run, hInvocation, hPath, hContents]

section Cases

variable {session : Session Console} {contents : List UInt8} {source : String}

theorem runFile_of_invalid (hSession : session.sink.output = "")
    (hContents : ∀ source, Text.bytes source ≠ contents) :
    runFile session (.ok contents) =
      ⟨.ioError, "", "I/O error: stream did not contain valid UTF-8\n"⟩ := by
  have hRead : String.fromUTF8? ⟨contents.toArray⟩ = none :=
    Option.eq_none_iff_forall_ne_some.mpr fun source hSource =>
      hContents source (fromUTF8?_eq_some_iff.mp hSource)
  simp only [runFile, evaluateFile, hRead, hSession]
  rfl

theorem runFile_of_compile_error (hSession : session.sink.output = "") {e : CompileError}
    (hError : compile source = .error e) :
    runFile session (.ok (Text.bytes source)) = ⟨.compileError, "", e.message ++ "\n"⟩ := by
  simp only [runFile, evaluateFile, fromUTF8?_eq_some_iff.mpr rfl,
    session.interpret_of_compile_error hError, hSession]
  rfl

theorem runFile_of_accepting {tree : Tree} (hDevice : session.sink.device = .accepting)
    (hTree : Expresses source tree) :
    runFile session (.ok (Text.bytes source)) =
      ⟨.success, session.sink.written ++ (tree.toExpr.eval.text ++ "\n"),
        (session.interpret source).1.diagnostics⟩ := by
  obtain ⟨hResult, after, _, hAfter, _, hAccepts, hTaken⟩ :=
    Session.interpret_of_expresses Console.unlimited hDevice hTree
  have hOutput : after.output = session.sink.written ++ (tree.toExpr.eval.text ++ "\n") := by
    apply Text.bytes_injective
    rw [Console.output_accepting hAccepts, Text.bytes_append]
    exact hTaken
  simp only [runFile, evaluateFile, fromUTF8?_eq_some_iff.mpr rfl, hResult, hAfter, hOutput]

theorem runFile_of_refusing {tree : Tree} {held : Nat} (hRefusing : session.sink.Refusing held)
    (hTree : Expresses source tree) :
    runFile session (.ok (Text.bytes source)) =
      ⟨.ioError, "", (session.interpret source).1.diagnostics ++
        "I/O error: No space left on device (os error 28)\n"⟩ := by
  obtain ⟨endLine, hCompile⟩ := hTree.exists_compile
  obtain ⟨after, left, hWrite, hAfter⟩ :=
    Console.writeAll_line_fails hRefusing (tree.toExpr.eval.parts.map String.ofList)
  obtain ⟨hResult, hSession⟩ := Session.run_of_refused (hTree.run_ofTree endLine).1 hWrite
  obtain ⟨hInterpret, hLeft⟩ := session.interpret_of_compile hCompile
  simp only [runFile, evaluateFile, fromUTF8?_eq_some_iff.mpr rfl, hInterpret, hLeft, hResult,
    hSession, hAfter.output_eq, String.append_assoc]
  rfl

end Cases

/-- A session that starts has written nothing yet. -/
theorem output_startSession (surroundings : Surroundings) (options : Options) :
    (startSession surroundings options).sink.output = "" :=
  rfl

/-- The command on a file. Its exit code is 74 if the bytes are no text, and 65, with the message of
the compile error and nothing else told, if they are a text that is no expression within the limits.
Otherwise the value is written as the only line and the exit code is 0, unless standard output takes
nothing: then it is 74 again. No file makes the exit code 70. The switches have no part in this,
except that they may add to what is told about an expression. -/
theorem run_of_path {arguments : List String} {surroundings : Surroundings} {options : Options}
    {path : String} {contents : List UInt8}
    (hInvocation : Invocation.parse? arguments = some (.evaluate options))
    (hPath : options.path = some path) (hContents : surroundings.contentsOf path = .ok contents) :
    ((∀ source, Text.bytes source ≠ contents) →
      (run arguments surroundings).status.code = 74 ∧
        (run arguments surroundings).output = "") ∧
    (∀ source, Text.bytes source = contents →
      ((¬ ∃ tree, Expresses source tree) →
        (run arguments surroundings).status.code = 65 ∧
          (run arguments surroundings).output = "" ∧
          ∃ e, compile source = .error e ∧
            (run arguments surroundings).diagnostics = e.message ++ "\n") ∧
      ∀ tree, Expresses source tree →
        (surroundings.device = .accepting →
          (run arguments surroundings).status.code = 0 ∧
            (run arguments surroundings).output = tree.toExpr.eval.text ++ "\n" ∧
            ((startSession surroundings options).switches = {} →
              (run arguments surroundings).diagnostics = "")) ∧
        (surroundings.device = .full →
          (run arguments surroundings).status.code = 74 ∧
            (run arguments surroundings).output = "")) ∧
    (run arguments surroundings).status.code ≠ 70 := by
  rw [run_of_file hInvocation hPath hContents]
  have hStart := output_startSession surroundings options
  by_cases hText : ∃ source, Text.bytes source = contents
  · obtain ⟨source, rfl⟩ := hText
    by_cases hTree : ∃ tree, Expresses source tree
    · obtain ⟨tree, hTree⟩ := hTree
      refine ⟨fun hNone => absurd rfl (hNone source), ?_, ?_⟩
      · intro other hOther
        cases Text.bytes_injective hOther
        refine ⟨fun hNone => absurd ⟨tree, hTree⟩ hNone, fun parsed hParsed => ⟨?_, ?_⟩⟩
        · intro hDevice
          rw [runFile_of_accepting hDevice hParsed]
          refine ⟨rfl, ?_, fun hSwitches => Session.diagnostics_interpret hSwitches source⟩
          simp [startSession, Console.written]
        · intro hDevice
          rw [runFile_of_refusing ⟨hDevice, rfl, rfl⟩ hParsed]
          exact ⟨rfl, rfl⟩
      · cases hDevice : surroundings.device with
        | accepting =>
            rw [runFile_of_accepting hDevice hTree]
            exact show Status.success.code ≠ 70 by decide
        | full =>
            rw [runFile_of_refusing ⟨hDevice, rfl, rfl⟩ hTree]
            exact show Status.ioError.code ≠ 70 by decide
    · obtain ⟨e, hError⟩ := exists_compile_error hTree
      rw [runFile_of_compile_error hStart hError]
      refine ⟨fun hNone => absurd rfl (hNone source), ?_,
        show Status.compileError.code ≠ 70 by decide⟩
      intro other hOther
      cases Text.bytes_injective hOther
      exact ⟨fun _ => ⟨rfl, rfl, e, hError, rfl⟩, fun tree h => absurd ⟨tree, h⟩ hTree⟩
  · rw [runFile_of_invalid hStart fun source hSource => hText ⟨source, hSource⟩]
    exact ⟨fun _ => ⟨rfl, rfl⟩, fun source hSource => absurd ⟨source, hSource⟩ hText,
      show Status.ioError.code ≠ 70 by decide⟩

/-- A byte that is no text, a group that stays open, and a difference, which is evaluated once with
its line taken and once with it refused. -/
theorem run_of_path_difference :
    let surroundings (contents : List UInt8) (device : Device) : Surroundings :=
      { environment := fun _ => none
        input := []
        contentsOf := fun _ => .ok contents
        device := device }
    (run ["file"] (surroundings [255] .accepting)).status.code = 74 ∧
      ((run ["file"] (surroundings [40, 49] .accepting)).status.code = 65 ∧
        (run ["file"] (surroundings [40, 49] .accepting)).diagnostics =
          "[line 1] Error at end: Expect ')' after expression.\n") ∧
      ((run ["file"] (surroundings [55, 45, 51] .accepting)).status.code = 0 ∧
        (run ["file"] (surroundings [55, 45, 51] .accepting)).output = "4\n") ∧
      (run ["file"] (surroundings [55, 45, 51] .full)).status.code = 74 := by
  intro surroundings
  have hInvocation : Invocation.parse? ["file"] = some (.evaluate { path := some "file" }) := by
    decide +kernel
  have hRun (contents : List UInt8) (device : Device) :=
    @run_of_path ["file"] (surroundings contents device) _ "file" contents hInvocation rfl rfl
  have hRefused : compile "(1" = .error (.refused 1 none .expectRightParen) := by decide +kernel
  have hOpen : ¬ ∃ tree, Expresses "(1" tree := by
    rintro ⟨tree, hTree⟩
    obtain ⟨endLine, hCompile⟩ := hTree.exists_compile
    cases hCompile.symm.trans hRefused
  have hRead : (Tree.ofSource "7-3").toOption.map (·.1.toExpr.eval.text) = some "4" := by
    decide +kernel
  obtain ⟨⟨tree, endLine⟩, hTree, hText⟩ := Option.map_eq_some_iff.mp hRead
  replace hTree : Expresses "7-3" tree := by
    refine expresses_iff.mpr ⟨endLine, ?_⟩
    cases hResult : Tree.ofSource "7-3" <;> simp_all [Except.toOption]
  refine ⟨?_, ?_, ?_, ?_⟩
  · refine ((hRun [255] .accepting).1 fun source hSource => ?_).1
    have hNone : String.fromUTF8? ⟨#[255]⟩ = none := by decide +kernel
    rw [fromUTF8?_eq_some_iff.mpr hSource] at hNone
    cases hNone
  · obtain ⟨hCode, _, e, hError, hTold⟩ := ((hRun [40, 49] .accepting).2.1 "(1" rfl).1 hOpen
    cases hError.symm.trans hRefused
    exact ⟨hCode, hTold⟩
  · obtain ⟨hCode, hOutput, _⟩ := (((hRun [55, 45, 51] .accepting).2.1 "7-3" rfl).2 tree hTree).1 rfl
    refine ⟨hCode, hOutput.trans ?_⟩
    rw [hText]
    rfl
  · exact ((((hRun [55, 45, 51] .full).2.1 "7-3" rfl).2 tree hTree).2 rfl).1

end StackCalculator.CommandLine
