import StackCalculator.Proofs.Execution

/-!
Sessions that are asked for one thing after another. What was asked before leaves no trace in an
answer, and what has been written is what the answers say. A sink with a limit changes neither: it
only cuts the same output short, and turns the answers whose line does not fit into failures.
-/

namespace StackCalculator

/-- What a session can be asked for. -/
inductive Request where
  | interpret (source : String)
  | run (chunk : Chunk)
  | reset
  | configure (switches : Switches)

namespace Request

/-- The chunk that a request runs, if it comes to run one. -/
def chunk? : Request → Option Chunk
  | .interpret source => (compile source).toOption
  | .run chunk => some chunk
  | .reset => none
  | .configure _ => none

/-- The number that a request takes off the stack to return it, if its run comes to that. -/
def value? (request : Request) : Option Number :=
  request.chunk?.bind fun chunk => (Machine.run chunk).outcome.toOption

/-- The result lines of requests, in their order. -/
def lines (requests : List Request) : List (List UInt8) :=
  (requests.filterMap value?).map Number.line

/-- The switches that a request leaves. -/
def switches (current : Switches) : Request → Switches
  | .configure switches => switches
  | _ => current

theorem lines_append (first second : List Request) :
    lines (first ++ second) = lines first ++ lines second := by
  simp [lines]

theorem lines_cons (request : Request) (rest : List Request) :
    lines (request :: rest) = lines [request] ++ lines rest :=
  lines_append [request] rest

theorem lines_of_value {request : Request} {value : Number} (h : request.value? = some value) :
    lines [request] = [value.line] := by
  simp [lines, h]

theorem flatten_lines_of_chunk {request : Request} {chunk : Chunk}
    (h : request.chunk? = some chunk) :
    (lines [request]).flatten = Session.lineOf (Machine.run chunk).outcome := by
  cases hOutcome : (Machine.run chunk).outcome <;>
    simp [lines, value?, h, hOutcome, Except.toOption, Session.lineOf]

theorem lines_of_chunk_none {request : Request} (h : request.chunk? = none) :
    lines [request] = [] := by
  simp [lines, value?, h]

end Request

namespace Session

variable {σ τ : Type} [Sink σ] [Sink τ]

/-- A session that has not been asked for anything. -/
def fresh (sink : σ) (switches : Switches) : Session σ :=
  { sink := sink, switches := switches }

/-- Does what is asked for. Only programs give something to report. -/
def answer (session : Session σ) : Request → Option (Reported SessionError Number) × Session σ
  | .interpret source => (session.interpret source).map some id
  | .run chunk => (session.run chunk).map some id
  | .reset => (none, session.reset)
  | .configure switches => (none, { session with switches := switches })

/-- The session after requests. -/
def after (session : Session σ) (requests : List Request) : Session σ :=
  requests.foldl (fun session request => (session.answer request).2) session

/-- The reports on requests, in their order. -/
def replies (session : Session σ) : List Request → List (Option (Reported SessionError Number))
  | [] => []
  | request :: rest => (session.answer request).1 :: (session.answer request).2.replies rest

/-- The number that a report says was returned. -/
def returned (reply : Option (Reported SessionError Number)) : Option Number :=
  reply.bind (·.result.toOption)

@[simp] theorem after_nil (session : Session σ) : session.after [] = session :=
  rfl

theorem after_cons (session : Session σ) (request : Request) (rest : List Request) :
    session.after (request :: rest) = (session.answer request).2.after rest :=
  rfl

/-- A request that runs a chunk does with the session what the run does. -/
theorem answer_of_chunk (session : Session σ) {request : Request} {chunk : Chunk}
    (h : request.chunk? = some chunk) :
    (∃ report, (session.answer request).1 = some report ∧
      report.result = (session.run chunk).1.result) ∧
      (session.answer request).2 = (session.run chunk).2 := by
  cases request with
  | interpret source =>
      cases hCompile : compile source with
      | error e => simp [Request.chunk?, hCompile, Except.toOption] at h
      | ok compiled =>
          obtain rfl : compiled = chunk := by
            simpa [Request.chunk?, hCompile, Except.toOption] using h
          simp [answer, interpret, compileReporting, hCompile]
  | run chunk =>
      cases h
      simp [answer]
  | reset => cases h
  | configure switches => cases h

theorem stack_answer (session : Session σ) {request : Request} {chunk : Chunk}
    (h : request.chunk? = some chunk) :
    (session.answer request).2.stack = (Machine.run chunk).stack := by
  rw [(session.answer_of_chunk h).2, stack_run]

/-- A request that runs nothing returns nothing and writes nothing. -/
theorem answer_of_chunk_none (session : Session σ) {request : Request}
    (h : request.chunk? = none) :
    returned (session.answer request).1 = none ∧
      (session.answer request).2.sink = session.sink := by
  cases request with
  | interpret source =>
      cases hCompile : compile source with
      | error e => simp [answer, interpret, compileReporting, hCompile, returned, Except.toOption]
      | ok compiled => simp [Request.chunk?, hCompile, Except.toOption] at h
  | run chunk => cases h
  | reset => exact ⟨rfl, rfl⟩
  | configure switches => exact ⟨rfl, rfl⟩

/-- A text that does not compile leaves the session alone. -/
theorem answer_of_compile_error (session : Session σ) {source : String} {e : CompileError}
    (h : compile source = .error e) : (session.answer (.interpret source)).2 = session := by
  simp [answer, interpret, compileReporting, h]

theorem switches_run (session : Session σ) (chunk : Chunk) :
    (session.run chunk).2.switches = session.switches := by
  rw [run_eq]
  dsimp only
  split
  · rfl
  · split <;> rfl

/-- Only a request that is about the switches changes them. -/
theorem switches_answer (session : Session σ) (request : Request) :
    (session.answer request).2.switches = request.switches session.switches := by
  cases hChunk : request.chunk? with
  | some chunk =>
      rw [(session.answer_of_chunk hChunk).2, switches_run]
      cases request with
      | configure switches => cases hChunk
      | interpret | run | reset => rfl
  | none =>
      cases request with
      | interpret source =>
          cases hCompile : compile source with
          | error e => rw [answer_of_compile_error session hCompile]; rfl
          | ok compiled => simp [Request.chunk?, hCompile, Except.toOption] at hChunk
      | run chunk => cases hChunk
      | reset => rfl
      | configure switches => rfl

theorem switches_after (session : Session σ) (requests : List Request) :
    (session.after requests).switches = requests.foldl Request.switches session.switches := by
  induction requests generalizing session with
  | nil => rfl
  | cons request rest ih => rw [after_cons, ih, switches_answer, List.foldl_cons]

section Unlimited

variable (sinks : Sink.Unlimited σ) (others : Sink.Unlimited τ)

/-- One request to a session whose sink takes everything. The line of the number it returns is
written, and nothing else. -/
theorem answer_accepts {session : Session σ} (hSink : sinks.accepts session.sink)
    (request : Request) :
    sinks.accepts (session.answer request).2.sink ∧
      sinks.taken (session.answer request).2.sink =
        sinks.taken session.sink ++ (Request.lines [request]).flatten ∧
      returned (session.answer request).1 = request.value? := by
  cases hChunk : request.chunk? with
  | some chunk =>
      obtain ⟨sink, hRun, hAccepts, hTaken⟩ := run_of_accepts sinks hSink chunk
      obtain ⟨⟨report, hReport, hResult⟩, hAfter⟩ := session.answer_of_chunk hChunk
      rw [hRun] at hResult hAfter
      rw [hAfter, hReport, Request.flatten_lines_of_chunk hChunk]
      refine ⟨hAccepts, hTaken, ?_⟩
      simp only [returned, Request.value?, hChunk, hResult, reportOf, Option.bind_some]
      cases (Machine.run chunk).outcome <;> rfl
  | none =>
      obtain ⟨hReturned, hSame⟩ := session.answer_of_chunk_none hChunk
      rw [hSame, hReturned, Request.lines_of_chunk_none hChunk]
      exact ⟨hSink, (List.append_nil _).symm, by simp [Request.value?, hChunk]⟩

/-- Any requests to a session whose sink takes everything. -/
theorem after_accepts {session : Session σ} (hSink : sinks.accepts session.sink)
    (requests : List Request) :
    sinks.accepts (session.after requests).sink ∧
      sinks.taken (session.after requests).sink =
        sinks.taken session.sink ++ (Request.lines requests).flatten ∧
      (session.replies requests).filterMap returned = requests.filterMap Request.value? := by
  induction requests generalizing session with
  | nil => exact ⟨hSink, (List.append_nil _).symm, rfl⟩
  | cons request rest ih =>
      obtain ⟨hFirst, hLine, hReturned⟩ := answer_accepts sinks hSink request
      obtain ⟨hAccepts, hTaken, hRest⟩ := ih hFirst
      refine ⟨hAccepts, ?_, ?_⟩
      · rw [after_cons, hTaken, hLine, Request.lines_cons request rest, List.flatten_append,
          List.append_assoc]
      · simp only [replies, List.filterMap_cons, hReturned, hRest]

/-- Two sessions with the same switches give the same answer, whatever is left in their machines. -/
theorem answer_eq_answer {session : Session σ} {other : Session τ}
    (hSink : sinks.accepts session.sink) (hOther : others.accepts other.sink)
    (hSwitches : session.switches = other.switches) (request : Request) :
    (session.answer request).1 = (other.answer request).1 := by
  have hRuns (chunk : Chunk) : (session.run chunk).1 = (other.run chunk).1 := by
    obtain ⟨_, hRun, _⟩ := run_of_accepts sinks hSink chunk
    obtain ⟨_, hOtherRun, _⟩ := run_of_accepts others hOther chunk
    rw [hRun, hOtherRun, hSwitches]
  cases request with
  | interpret source =>
      cases hCompile : compile source with
      | error e => simp [answer, interpret, compileReporting, hCompile]
      | ok chunk => simp [answer, interpret, compileReporting, hCompile, hSwitches, hRuns]
  | run chunk => simp [answer, hRuns]
  | reset => rfl
  | configure switches => rfl

/-- Whatever a session was asked for before, it answers a request as a fresh session with the same
switches does, and if that runs a program, it is left with the same stack. A text that does not
compile leaves the session as it is. What is written in all are the lines of the numbers that were
returned, in their order. -/
theorem answers_as_if_fresh (session : Session σ) (requests : List Request)
    (hSink : sinks.accepts session.sink) :
    (∀ before request later, requests = before ++ request :: later →
      (∀ new, others.accepts new →
        ((session.after before).answer request).1 =
            ((fresh new (before.foldl Request.switches session.switches)).answer request).1 ∧
          ∀ chunk, request.chunk? = some chunk →
            ((session.after before).answer request).2.stack =
              ((fresh new (before.foldl Request.switches session.switches)).answer
                request).2.stack) ∧
      ∀ source e, request = .interpret source → compile source = .error e →
        ((session.after before).answer request).2 = session.after before) ∧
    sinks.taken (session.after requests).sink = sinks.taken session.sink ++
      ((session.replies requests).filterMap returned).flatMap
        fun value => Text.bytes (value.text ++ "\n") := by
  constructor
  · rintro before request later -
    obtain ⟨hAccepts, _, _⟩ := after_accepts sinks hSink before
    refine ⟨fun new hNew => ?_, ?_⟩
    · have hFresh : others.accepts
          (fresh new (before.foldl Request.switches session.switches)).sink := hNew
      refine ⟨answer_eq_answer sinks others hAccepts hFresh (session.switches_after before) request,
        fun chunk hChunk => ?_⟩
      rw [stack_answer _ hChunk, stack_answer _ hChunk]
    · rintro source e rfl hCompile
      exact answer_of_compile_error _ hCompile
  · obtain ⟨_, hTaken, hReturned⟩ := after_accepts sinks hSink requests
    rw [hTaken, hReturned, Request.lines, List.flatMap_def]
    rfl

end Unlimited

/-- A fault leaves a number on the stack and the counter inside the code. A text that does not
compile leaves both as they are. A program that is run then returns what it returns in a fresh
session, and leaves the same number behind; its line is all that has been written. -/
theorem answers_as_if_fresh_after_fault :
    ∃ (session : Session MemorySink) (faulty program : Chunk) (one : Number),
      session.stack = [⟨9⟩, ⟨9⟩] ∧
      (let left := session.after [.run faulty]
      left.stack = [⟨5⟩] ∧ left.registers.counter = 3 ∧
        (left.answer (.interpret "(")).2 = left) ∧
      (let later := (session.after [.run faulty, .interpret "("]).answer (.run program)
      let alone := (fresh ({} : MemorySink) {}).answer (.run program)
      later.1 = alone.1 ∧ later.2.stack = alone.2.stack ∧
        returned later.1 = some one ∧ later.2.stack = [⟨5⟩]) ∧
      (session.after [.run faulty, .interpret "(", .run program]).sink.kept =
        Text.bytes (one.text ++ "\n") := by
  let session : Session MemorySink :=
    { sink := {}
      registers := { slots := .replicate 256 ⟨9⟩, top := 2, counter := 4, top_le := by decide } }
  let one : Number := ⟨0x3FF0000000000000⟩
  let faulty : Chunk := .assemble [1, 0, 9] #[⟨5⟩, one]
  let program : Chunk := .assemble [1, 0, 1, 1, 7] #[⟨5⟩, one]
  have hCompile : compile "(" = .error (.refused 1 none .expectExpression) := by decide +kernel
  have hValues : [.run faulty, .interpret "(", .run program].filterMap Request.value? = [one] := by
    decide +kernel
  have hLeft : (Machine.run program).stack = [⟨5⟩] := by decide +kernel
  obtain ⟨hAnswers, hWritten⟩ := answers_as_if_fresh MemorySink.unlimited MemorySink.unlimited
    session [.run faulty, .interpret "(", .run program] rfl
  obtain ⟨_, hSame⟩ := hAnswers [.run faulty] (.interpret "(") [.run program] rfl
  obtain ⟨hFresh, _⟩ := hAnswers [.run faulty, .interpret "("] (.run program) [] rfl
  obtain ⟨hReply, hStack⟩ := hFresh {} rfl
  have hNew : MemorySink.unlimited.accepts (fresh ({} : MemorySink) {}).sink := rfl
  obtain ⟨_, _, hReturned⟩ := answer_accepts MemorySink.unlimited hNew (.run program)
  obtain ⟨_, _, hAll⟩ := after_accepts MemorySink.unlimited
    (show MemorySink.unlimited.accepts session.sink from rfl)
    [.run faulty, .interpret "(", .run program]
  refine ⟨session, faulty, program, one, by decide +kernel, ⟨by decide +kernel, by decide +kernel,
    hSame "(" _ rfl hCompile⟩, ⟨hReply, hStack program rfl, ?_, ?_⟩, ?_⟩
  · rw [congrArg returned hReply]
    exact hReturned.trans (by decide +kernel)
  · exact (stack_answer _ rfl).trans hLeft
  · rw [hAll, hValues, List.flatMap_singleton] at hWritten
    exact hWritten.trans (List.nil_append _)

section Limited

variable {limit : Nat} (sinks : Sink.Limited σ limit)

/-- One request to a session whose sink has a limit. A number is returned only if its whole line
fits, but it is off the stack in any case. -/
theorem answer_keeps {session : Session σ} (hSink : sinks.keeps session.sink)
    (hTaken : (sinks.taken session.sink).length ≤ limit) (request : Request) :
    sinks.keeps (session.answer request).2.sink ∧
      sinks.taken (session.answer request).2.sink =
        (sinks.taken session.sink ++ (Request.lines [request]).flatten).take limit ∧
      ∀ value, request.value? = some value →
        ∃ report, (session.answer request).1 = some report ∧
          report.result =
            if (sinks.taken session.sink ++ value.line).length ≤ limit then .ok value
            else .error (.io sinks.refusal) := by
  cases hChunk : request.chunk? with
  | some chunk =>
      obtain ⟨sink, hResult, hRun, hKeeps, hKept⟩ := run_of_keeps sinks hSink hTaken chunk
      obtain ⟨⟨report, hReport, hSame⟩, hAfter⟩ := session.answer_of_chunk hChunk
      rw [hAfter, hRun, Request.flatten_lines_of_chunk hChunk]
      refine ⟨hKeeps, hKept, fun value hValue => ⟨report, hReport, ?_⟩⟩
      have hOutcome : (Machine.run chunk).outcome = .ok value := by
        cases hOutcome : (Machine.run chunk).outcome <;>
          simp_all [Request.value?, Except.toOption]
      rw [hSame, hResult, hOutcome]
  | none =>
      obtain ⟨_, hSame⟩ := session.answer_of_chunk_none hChunk
      rw [hSame, Request.lines_of_chunk_none hChunk, List.flatten_nil, List.append_nil,
        List.take_of_length_le hTaken]
      refine ⟨hSink, rfl, fun value hValue => ?_⟩
      simp [Request.value?, hChunk] at hValue

/-- Any requests to a session whose sink has a limit and holds the beginning of what was written
before. It goes on to hold the beginning of everything. -/
theorem after_keeps {session : Session σ} (hSink : sinks.keeps session.sink)
    {prior : List UInt8} (hPrior : sinks.taken session.sink = prior.take limit)
    (requests : List Request) :
    sinks.keeps (session.after requests).sink ∧
      sinks.taken (session.after requests).sink =
        (prior ++ (Request.lines requests).flatten).take limit := by
  induction requests generalizing session prior with
  | nil =>
      refine ⟨hSink, ?_⟩
      rw [after_nil, hPrior]
      simp [Request.lines]
  | cons request rest ih =>
      have hTaken : (sinks.taken session.sink).length ≤ limit := by
        rw [hPrior]
        exact List.length_take_le _ _
      obtain ⟨hKeeps, hKept, _⟩ := answer_keeps sinks hSink hTaken request
      have hLonger : sinks.taken (session.answer request).2.sink =
          (prior ++ (Request.lines [request]).flatten).take limit := by
        rw [hKept, hPrior, List.take_append, List.take_append, List.take_take, Nat.min_self,
          List.length_take]
        congr 2
        omega
      rw [after_cons, Request.lines_cons request rest, List.flatten_append, ← List.append_assoc]
      exact ih hKeeps hLonger

/-- With a sink that keeps a number of bytes and no more, the output is the beginning of the result
lines of all requests that come to return a number. Such a request succeeds if and only if its line
and all lines before it fit; otherwise it fails on the sink. Either way the number has been taken
off the stack, and what is left there is what a sink without a limit would see left. -/
theorem answers_within_limit (session : Session σ) (requests : List Request)
    (hSink : sinks.keeps session.sink) (hEmpty : sinks.taken session.sink = []) :
    sinks.taken (session.after requests).sink =
        (Request.lines requests).flatten.take
          (min limit (Request.lines requests).flatten.length) ∧
      ∀ before request later value, requests = before ++ request :: later →
        request.value? = some value →
        (∃ report, ((session.after before).answer request).1 = some report ∧
          report.result =
            if (Request.lines (before ++ [request])).flatten.length ≤ limit then .ok value
            else .error (.io sinks.refusal)) ∧
        (∃ chunk offset, request.chunk? = some chunk ∧
          Machine.StopsAt chunk offset .ret
            (value :: ((session.after before).answer request).2.stack)) ∧
        ∀ {τ : Type} [Sink τ] (others : Sink.Unlimited τ) (other : Session τ),
          others.accepts other.sink →
          ((session.after before).answer request).2.stack =
            ((other.after before).answer request).2.stack := by
  have hPrior : sinks.taken session.sink = ([] : List UInt8).take limit := by
    rw [hEmpty, List.take_nil]
  constructor
  · rw [(after_keeps sinks hSink hPrior requests).2, List.nil_append, ← List.take_eq_take_min]
  · rintro before request later value - hValue
    obtain ⟨hKeeps, hKept⟩ := after_keeps sinks hSink hPrior before
    rw [List.nil_append] at hKept
    have hTaken : (sinks.taken (session.after before).sink).length ≤ limit := by
      rw [hKept]
      exact List.length_take_le _ _
    obtain ⟨_, _, hResult⟩ := answer_keeps sinks hKeeps hTaken request
    obtain ⟨chunk, hChunk, hOk⟩ := Option.bind_eq_some_iff.mp hValue
    have hOutcome : (Machine.run chunk).outcome = .ok value := by
      cases hOutcome : (Machine.run chunk).outcome <;> simp_all [Except.toOption]
    obtain ⟨report, hReport, hIf⟩ := hResult value hValue
    refine ⟨⟨report, hReport, ?_⟩, ?_, ?_⟩
    · -- No line is empty, so a full sink refuses it, and then the sum is past the limit too.
      have hPositive := value.line_length_pos
      have hFits : (sinks.taken (session.after before).sink ++ value.line).length ≤ limit ↔
          (Request.lines (before ++ [request])).flatten.length ≤ limit := by
        rw [hKept, Request.lines_append, Request.lines_of_value hValue, List.flatten_append,
          List.flatten_singleton, List.length_append, List.length_append, List.length_take]
        omega
      simp only [hIf, hFits]
    · obtain ⟨offset, hStop⟩ := Machine.stopsAt_ret_of_run hOutcome
      exact ⟨chunk, offset, hChunk, by rwa [stack_answer _ hChunk]⟩
    · intro τ _ others other hOther
      rw [stack_answer _ hChunk, stack_answer _ hChunk]

/-- Two lines of two bytes and a sink for three: the second line is cut, its request fails, and the
number that was below the returned one is still there. -/
theorem answers_within_limit_cut :
    ∃ (session : Session MemorySink) (chunk : Chunk),
      session.sink = ⟨some 3, []⟩ ∧
      (session.after [.run chunk, .run chunk]).sink.kept = [49, 10, 49] ∧
      (∃ report, ((session.after [.run chunk]).answer (.run chunk)).1 = some report ∧
        report.result = .error (.io .sinkFull)) ∧
      ((session.after [.run chunk]).answer (.run chunk)).2.stack = [⟨5⟩] := by
  let session : Session MemorySink := fresh ⟨some 3, []⟩ {}
  let one : Number := ⟨0x3FF0000000000000⟩
  let chunk : Chunk := ⟨⟨#[⟨1, 1⟩, ⟨0, 1⟩, ⟨1, 1⟩, ⟨1, 1⟩, ⟨7, 1⟩], 8⟩, ⟨#[⟨5⟩, one], 8⟩⟩
  have hLines : Request.lines [.run chunk, .run chunk] = [[49, 10], [49, 10]] := by decide +kernel
  obtain ⟨hKept, hAnswers⟩ := answers_within_limit (MemorySink.limited 3) session
    [.run chunk, .run chunk] ⟨rfl, Nat.zero_le 3⟩ rfl
  obtain ⟨⟨report, hReport, hResult⟩, _, hStack⟩ :=
    hAnswers [.run chunk] (.run chunk) [] one rfl (by decide +kernel)
  rw [List.singleton_append, hLines] at hResult
  refine ⟨session, chunk, rfl, ?_, ⟨report, hReport, hResult⟩, ?_⟩
  · dsimp only [MemorySink.limited] at hKept
    rw [hKept, hLines]
    rfl
  · rw [hStack MemorySink.unlimited (fresh ⟨none, []⟩ {}) rfl, stack_answer _ rfl]
    decide +kernel

end Limited

end Session

end StackCalculator
