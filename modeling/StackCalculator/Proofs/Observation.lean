import Mathlib.Data.List.Forall2
import StackCalculator.Proofs.History
import StackCalculator.Proofs.Listing

/-!
The switches only observe. Sessions that differ in their switches, from the start or because they
are told to, give the same results, write the same and are left with the same stack. What the
switches add is text, and no chunk makes that text look outside of it.
-/

namespace StackCalculator

namespace Machine

/-- A state of the machine as a trace shows it, with every byte and line looked up in the chunk. -/
def Snapshot.text? (chunk : Chunk) (snapshot : Snapshot) : Option String :=
  (chunk.instruction? snapshot.offset).map (stackText snapshot.stack ++ ·)

/-- The trace of a run, with every byte and line looked up in the chunk. -/
def Run.traceText? (chunk : Chunk) (run : Run) : Option String :=
  (run.trace.mapM (Snapshot.text? chunk)).map String.join

theorem Snapshot.text?_eq (chunk : Chunk) (snapshot : Snapshot) :
    snapshot.text? chunk = some (snapshot.text chunk) := by
  rw [text?, Chunk.instruction?_eq]
  rfl

theorem Run.traceText?_eq (chunk : Chunk) (run : Run) :
    run.traceText? chunk = some (run.traceText chunk) := by
  have hTexts : run.trace.mapM (Snapshot.text? chunk) =
      some (run.trace.map (Snapshot.text chunk)) := by
    rw [funext (Snapshot.text?_eq chunk)]
    exact List.mapM_pure
  rw [traceText?, hTexts]
  rfl

/-- A run never leaves the code. It can come to its end, but not past it. -/
theorem offset_le_of_mem_trace {chunk : Chunk} {snapshot : Snapshot}
    (h : snapshot ∈ (run chunk).trace) : snapshot.offset ≤ chunk.size := by
  have hOffset : snapshot.offset ∈ (run chunk).trace.map (·.offset) := List.mem_map_of_mem h
  have hWithin : ∀ offset ∈ chunk.program.map (·.1), offset ≤ chunk.size := by
    intro offset hMem
    obtain ⟨⟨_, instruction⟩, hFound, rfl⟩ := List.mem_map.mp hMem
    exact Nat.le_of_lt (Chunk.lt_size_of_mem_program hFound)
  rcases offsets_of_run chunk with ⟨_, hOffsets⟩ | ⟨_, hOffsets⟩
  · rw [hOffsets, List.mem_append, List.mem_singleton] at hOffset
    rcases hOffset with hMem | hEnd
    · exact hWithin _ hMem
    · exact Nat.le_of_eq hEnd
  · exact hWithin _ (hOffsets.subset hOffset)

end Machine

/-- Requests that ask for the same, except that both may be about the switches in different ways. -/
inductive Request.Alike : Request → Request → Prop where
  | same (request : Request) : Alike request request
  | configure (first second : Switches) : Alike (.configure first) (.configure second)

namespace Session

variable {σ : Type}

/-- The same session with other switches. -/
def withSwitches (session : Session σ) (switches : Switches) : Session σ :=
  { session with switches := switches }

@[simp] theorem sink_withSwitches (session : Session σ) (switches : Switches) :
    (session.withSwitches switches).sink = session.sink :=
  rfl

@[simp] theorem stack_withSwitches (session : Session σ) (switches : Switches) :
    (session.withSwitches switches).stack = session.stack :=
  rfl

variable [Sink σ]

/-- All that can be seen of a session behind a request, apart from diagnostic text. -/
structure Sight (σ : Type) where
  result : Option (Except SessionError Number)
  events : Option (List Event)
  sink : σ
  stack : List Number

def sight (session : Session σ) (request : Request) : Sight σ where
  result := (session.answer request).1.map (·.result)
  events := (session.answer request).1.map (·.events)
  sink := (session.answer request).2.sink
  stack := (session.answer request).2.stack

/-- What can be seen of a session behind each of the given requests. -/
def sights (session : Session σ) : List Request → List (Sight σ)
  | [] => []
  | request :: rest => session.sight request :: (session.answer request).2.sights rest

/-- A run gives the same and leaves the same, whatever the switches are. -/
theorem run_withSwitches (session : Session σ) (switches : Switches) (chunk : Chunk) :
    ((session.withSwitches switches).run chunk).1.result = (session.run chunk).1.result ∧
      ((session.withSwitches switches).run chunk).1.events = (session.run chunk).1.events ∧
      ((session.withSwitches switches).run chunk).2 =
        (session.run chunk).2.withSwitches switches := by
  cases hOutcome : (Machine.run chunk).outcome with
  | error fault => simp [run_eq, withSwitches, hOutcome]
  | ok value =>
      rcases hWrite : Sink.writeAll session.sink value.lineParts with ⟨_ | _, after⟩
      · simp [run_eq, withSwitches, hOutcome, hWrite]
      · simp [run_eq, withSwitches, hOutcome, hWrite]

/-- A text compiles to the same chunk, or fails with the same error, whatever the switches are. -/
theorem compileReporting_switches (first second : Switches) (source : String) :
    (compileReporting first source).result = (compileReporting second source).result ∧
      (compileReporting first source).events = (compileReporting second source).events := by
  cases hCompile : compile source <;> simp [compileReporting, hCompile]

/-- One request: the switches cannot be seen behind it, and all they have changed in the session is
themselves. -/
theorem sight_withSwitches (session : Session σ) (switches : Switches) {request other : Request}
    (h : request.Alike other) :
    (session.withSwitches switches).sight other = session.sight request ∧
      ∃ later, ((session.withSwitches switches).answer other).2 =
        (session.answer request).2.withSwitches later := by
  cases h with
  | configure first second => exact ⟨rfl, second, rfl⟩
  | same =>
      cases request with
      | interpret source =>
          cases hCompile : compile source with
          | error e =>
              refine ⟨?_, switches, ?_⟩
              · simp [sight, answer, interpret, compileReporting, hCompile]
              · simp [answer, interpret, compileReporting, hCompile]
          | ok chunk =>
              obtain ⟨hResult, hEvents, hAfter⟩ := session.run_withSwitches switches chunk
              refine ⟨?_, switches, ?_⟩
              · simp [sight, answer, interpret, compileReporting, hCompile, hResult, hEvents,
                  hAfter]
              · simp [answer, interpret, compileReporting, hCompile, hAfter]
      | run chunk =>
          obtain ⟨hResult, hEvents, hAfter⟩ := session.run_withSwitches switches chunk
          refine ⟨?_, switches, ?_⟩
          · simp [sight, answer, hResult, hEvents, hAfter]
          · simp [answer, hAfter]
      | reset => exact ⟨rfl, switches, rfl⟩
      | configure first => exact ⟨rfl, first, rfl⟩

/-- Any requests: the switches cannot be seen behind any of them. -/
theorem sights_withSwitches (session : Session σ) (switches : Switches)
    {requests others : List Request} (h : List.Forall₂ Request.Alike requests others) :
    (session.withSwitches switches).sights others = session.sights requests := by
  induction h generalizing session switches with
  | nil => rfl
  | cons hFirst hRest ih =>
      obtain ⟨hSight, later, hAfter⟩ := session.sight_withSwitches switches hFirst
      rw [sights, sights, hSight, hAfter, ih]

/-- Two sessions that have everything but the switches in common, and are asked for the same except
that they may be told different switches on the way, cannot be told apart by what they return, log,
write or leave on the stack. Nor can the switches be told from what a text compiles to. They only
add the listing and the trace, and these never look up a byte or a line that the chunk does not
have, also at the end of the code, which is as far as a run goes. -/
theorem switches_only_observe (session : Session σ) (first second : Switches)
    (requests others : List Request) (hAlike : List.Forall₂ Request.Alike requests others) :
    (session.withSwitches first).sights requests = (session.withSwitches second).sights others ∧
      (∀ source, (compileReporting first source).result = (compileReporting second source).result ∧
        (compileReporting first source).events = (compileReporting second source).events) ∧
      (∀ source chunk, compile source = .ok chunk →
        (compileReporting first source).diagnostics =
          if first.printCode then chunk.listing "code" else "") ∧
      (∀ chunk, ((session.withSwitches first).run chunk).1.diagnostics =
        if first.traceExecution then (Machine.run chunk).traceText chunk else "") ∧
      ∀ chunk, (∀ name, chunk.listing? name = some (chunk.listing name)) ∧
        (Machine.run chunk).traceText? chunk = some ((Machine.run chunk).traceText chunk) ∧
        ∀ snapshot ∈ (Machine.run chunk).trace, snapshot.offset ≤ chunk.size ∧
          chunk.instruction? snapshot.offset = some (chunk.instruction snapshot.offset) := by
  refine ⟨?_, compileReporting_switches first second, ?_, ?_, ?_⟩
  · exact ((session.withSwitches first).sights_withSwitches second hAlike).symm
  · intro source chunk hCompile
    simp [compileReporting, hCompile]
  · exact fun chunk => diagnostics_run _ chunk
  · intro chunk
    exact ⟨chunk.listing?_eq, (Machine.run chunk).traceText?_eq chunk, fun snapshot hMem =>
      ⟨Machine.offset_le_of_mem_trace hMem, chunk.instruction?_eq snapshot.offset⟩⟩

/-- A truncated instruction is run, the switches are changed, and a text is interpreted. One session
lists and traces all of it, and writes what the other writes. -/
theorem switches_only_observe_truncated :
    ∃ (session : Session MemorySink) (chunk : Chunk), chunk.code = [1] ∧
      ((session.withSwitches ⟨true, true⟩).sights
        [.run chunk, .configure ⟨false, true⟩, .interpret "1+2"]).map (·.sink.kept) =
          [[], [], [51, 10]] := by
  let session : Session MemorySink := fresh ⟨none, []⟩ {}
  let chunk : Chunk := ⟨⟨#[⟨1, 1⟩], 8⟩, {}⟩
  have hAlike : List.Forall₂ Request.Alike
      [.run chunk, .configure ⟨false, true⟩, .interpret "1+2"]
      [.run chunk, .configure {}, .interpret "1+2"] :=
    .cons (.same _) (.cons (.configure _ _) (.cons (.same _) .nil))
  obtain ⟨hSights, _⟩ := switches_only_observe session ⟨true, true⟩ {} _ _ hAlike
  refine ⟨session, chunk, rfl, ?_⟩
  rw [hSights]
  decide +kernel

end Session

end StackCalculator
