import StackCalculator.Machine.Trace
import StackCalculator.Proofs.Evaluation
import StackCalculator.Proofs.Execution

/-!
Listings and traces, seen by the offsets at which they find instructions. A listing shows the
instructions that decoding the code gives, and a run comes to the same ones in the same order, up
to the one it stops at. Neither looks at a byte or a line that the chunk does not have.
-/

namespace StackCalculator

namespace Chunk

@[simp] theorem length_code (chunk : Chunk) : chunk.code.length = chunk.size := by
  simp [code, size]

theorem takesOperand_iff {byte : UInt8} :
    takesOperand byte = true ↔ Opcode.ofByte? byte = some .constant := by
  unfold takesOperand
  split
  · rename_i opcode hByte
    cases opcode <;> simp [hByte, Opcode.operandCount]
  · rename_i hByte
    simp [hByte]

/-- The source line of the byte before an offset. -/
def lineBefore (chunk : Chunk) (offset : Nat) : Option Nat :=
  if offset = 0 then none else chunk.lines[offset - 1]?

theorem drop_succ {chunk : Chunk} {offset : Nat} {cell : Cell} {behind : List Cell}
    (h : chunk.cells.toList.drop offset = cell :: behind) :
    chunk.cells.toList.drop (offset + 1) = behind := by
  rw [← List.tail_drop, h]
  rfl

theorem cells_getElem? {chunk : Chunk} {offset : Nat} {cell : Cell} {behind : List Cell}
    (h : chunk.cells.toList.drop offset = cell :: behind) :
    chunk.cells.toList[offset]? = some cell := by
  rw [← List.head?_drop, h]
  rfl

theorem lineBefore_succ {chunk : Chunk} {offset : Nat} {cell : Cell} {behind : List Cell}
    (h : chunk.cells.toList.drop offset = cell :: behind) :
    chunk.lineBefore (offset + 1) = some cell.line := by
  simp [lineBefore, lines, cells_getElem? h]

theorem decode_of_takesOperand {byte : UInt8} (h : takesOperand byte = true) (index : UInt8)
    (rest : List UInt8) : decode (byte :: index :: rest) = .push index :: decode rest := by
  rw [← Opcode.byte_of_ofByte? (takesOperand_iff.mp h), decode_constant]

/-- A byte without an operand is decoded by itself, whatever follows it. -/
theorem decode_of_not_takesOperand {byte : UInt8} (h : takesOperand byte = false) :
    ∃ instruction : Instruction, instruction.bytes = [byte] ∧
      ∀ rest, decode (byte :: rest) = instruction :: decode rest := by
  cases hByte : Opcode.ofByte? byte with
  | none => exact ⟨.unknown byte, rfl, fun rest => by rw [decode.eq_def]; simp [hByte]⟩
  | some opcode =>
      obtain rfl := Opcode.byte_of_ofByte? hByte
      cases opcode with
      | constant => simp [takesOperand, Opcode.operandCount] at h
      | operate operator => exact ⟨.operate operator, rfl, decode_operate operator⟩
      | negate => exact ⟨.negate, rfl, fun rest => by rw [decode.eq_def]; simp⟩
      | ret => exact ⟨.ret, rfl, decode_ret⟩

/-- The last byte of the code is an instruction by itself, even if its operand is missing. -/
theorem decode_singleton (byte : UInt8) :
    ∃ instruction : Instruction, instruction.bytes = [byte] ∧ decode [byte] = [instruction] := by
  cases hTakes : takesOperand byte with
  | true =>
      obtain rfl := Opcode.byte_of_ofByte? (takesOperand_iff.mp hTakes)
      exact ⟨.truncated, rfl, by rw [decode.eq_def]; simp⟩
  | false =>
      obtain ⟨instruction, hBytes, hDecode⟩ := decode_of_not_takesOperand hTakes
      exact ⟨instruction, hBytes, hDecode []⟩

theorem instructionText_eq {chunk : Chunk} {offset : Nat} {previous : Option Nat}
    {cells : List Cell} (hPrevious : previous = chunk.lineBefore offset)
    (hCells : chunk.cells.toList.drop offset = cells) :
    instructionText chunk.pool offset previous cells = chunk.instruction offset := by
  rw [hPrevious, ← hCells]
  rfl

/-- A listing shows the instructions that decoding gives, each at its offset. -/
theorem instructionsFrom_eq_map {chunk : Chunk} {offset : Nat} {previous : Option Nat}
    {cells : List Cell} (hPrevious : previous = chunk.lineBefore offset)
    (hCells : chunk.cells.toList.drop offset = cells) :
    instructionsFrom chunk.pool offset previous cells =
      (placed offset (decode (cells.map (·.byte)))).map fun found => chunk.instruction found.1 := by
  fun_induction instructionsFrom chunk.pool offset previous cells with
  | case1 => rfl
  | case2 offset previous cell =>
      obtain ⟨instruction, _, hDecode⟩ := decode_singleton cell.byte
      simp [instructionText_eq hPrevious hCells, hDecode, placed]
  | case3 offset previous cell operand behind ihTakes ihPlain =>
      have hBehind := drop_succ hCells
      rw [instructionText_eq hPrevious hCells]
      cases hTakes : takesOperand cell.byte with
      | true =>
          have hRest := ihTakes (lineBefore_succ hBehind).symm (drop_succ hBehind)
          simp [decode_of_takesOperand hTakes, placed, Instruction.bytes, hRest]
      | false =>
          obtain ⟨instruction, hBytes, hDecode⟩ := decode_of_not_takesOperand hTakes
          have hRest := ihPlain (lineBefore_succ hCells).symm hBehind
          rw [List.map_cons, hDecode, placed, List.map_cons, hBytes]
          simp [hRest]

theorem instructions_eq_map (chunk : Chunk) :
    chunk.instructions = chunk.program.map fun found => chunk.instruction found.1 :=
  instructionsFrom_eq_map rfl rfl

/-- The column of the source line at an offset, with every line looked up in the line table. There
is none if a look-up is past its end. -/
def lineTextAt? (chunk : Chunk) (offset : Nat) : Option String := do
  let line ← chunk.lines[offset]?
  if offset = 0 then
    return lineText none line
  let previous ← chunk.lines[offset - 1]?
  return lineText (some previous) line

/-- The line of a listing for the instruction at an offset and the offset of the next one, with
every byte and line looked up in the chunk. There is none if a look-up is past the end of the
chunk. Only an operand may be missing. -/
def instructionAt? (chunk : Chunk) (offset : Nat) : Option (String × Nat) := do
  let line ← chunk.lineTextAt? offset
  let byte ← chunk.code[offset]?
  let operand := chunk.code[offset + 1]?
  let text := offsetText offset ++ " " ++ line ++ " " ++ describe chunk.pool byte operand ++ "\n"
  return (text, if takesOperand byte && operand.isSome then offset + 2 else offset + 1)

theorem lt_of_instructionAt? {chunk : Chunk} {offset next : Nat} {text : String}
    (h : chunk.instructionAt? offset = some (text, next)) : offset < next := by
  simp only [instructionAt?, Option.bind_eq_bind, Option.bind_eq_some_iff] at h
  obtain ⟨line, _, byte, _, hResult⟩ := h
  simp only [Option.pure_def, Option.some.injEq, Prod.mk.injEq] at hResult
  rw [← hResult.2]
  split <;> omega

/-- The lines of a listing from an offset on, with every byte and line looked up in the chunk. -/
def instructionsFrom? (chunk : Chunk) (offset : Nat) : Option (List String) :=
  if offset < chunk.size then
    match _ : chunk.instructionAt? offset with
    | none => none
    | some (text, next) => (chunk.instructionsFrom? next).map (text :: ·)
  else
    some []
termination_by chunk.size - offset
decreasing_by
  have hNext := lt_of_instructionAt? ‹_›
  omega

/-- A listing with every byte and line looked up in the chunk. -/
def listing? (chunk : Chunk) (name : String) : Option String :=
  (chunk.instructionsFrom? 0).map fun lines => "== " ++ name ++ " ==\n" ++ String.join lines

/-- One instruction of a trace, with every byte and line looked up in the chunk. Past the code
nothing is looked up. -/
def instruction? (chunk : Chunk) (offset : Nat) : Option String :=
  if offset < chunk.size then
    (chunk.instructionAt? offset).map (·.1)
  else
    some (offsetText offset ++ " <end of code>\n")

theorem lineTextAt?_eq {chunk : Chunk} {offset : Nat} {cell : Cell} {behind : List Cell}
    (h : chunk.cells.toList.drop offset = cell :: behind) :
    chunk.lineTextAt? offset = some (lineText (chunk.lineBefore offset) cell.line) := by
  have hLine : chunk.lines[offset]? = some cell.line := lineBefore_succ h
  cases offset with
  | zero => simp [lineTextAt?, lineBefore, hLine]
  | succ offset =>
      -- The byte before stands in front of a byte that is there.
      obtain ⟨hOffset, _⟩ := List.getElem?_eq_some_iff.mp hLine
      have hPrevious := List.getElem?_eq_getElem (Nat.lt_of_succ_lt hOffset)
      simp [lineTextAt?, lineBefore, hLine, hPrevious]

/-- Where there is code, every look-up finds something. The next instruction follows right behind
the byte, or behind its operand if it takes one and has one. -/
theorem instructionAt?_eq {chunk : Chunk} {offset : Nat} {cell : Cell} {behind : List Cell}
    (h : chunk.cells.toList.drop offset = cell :: behind) :
    chunk.instructionAt? offset = some (chunk.instruction offset,
      if takesOperand cell.byte && !behind.isEmpty then offset + 2 else offset + 1) := by
  have hByte : chunk.code[offset]? = some cell.byte := by
    simp [code, cells_getElem? h]
  have hOperand : chunk.code[offset + 1]? = behind.head?.map (·.byte) := by
    rw [code, List.getElem?_map, ← List.head?_drop, drop_succ h]
  rw [← instructionText_eq rfl h]
  simp [instructionAt?, lineTextAt?_eq h, hByte, hOperand, instructionText]

theorem exists_drop_eq_cons {chunk : Chunk} {offset : Nat} (h : offset < chunk.size) :
    ∃ cell behind, chunk.cells.toList.drop offset = cell :: behind := by
  rw [← length_code, code, List.length_map] at h
  exact ⟨_, _, List.drop_eq_getElem_cons h⟩

theorem drop_eq_nil {chunk : Chunk} {offset : Nat} (h : chunk.size ≤ offset) :
    chunk.cells.toList.drop offset = [] := by
  rw [← length_code, code, List.length_map] at h
  exact List.drop_eq_nil_of_le h

theorem instruction_of_size_le {chunk : Chunk} {offset : Nat} (h : chunk.size ≤ offset) :
    chunk.instruction offset = offsetText offset ++ " <end of code>\n" := by
  rw [← instructionText_eq rfl (drop_eq_nil h)]
  rfl

/-- Showing a single instruction never looks past the end of the chunk, at any offset. -/
theorem instruction?_eq (chunk : Chunk) (offset : Nat) :
    chunk.instruction? offset = some (chunk.instruction offset) := by
  unfold instruction?
  split
  · rename_i hOffset
    obtain ⟨cell, behind, hCells⟩ := exists_drop_eq_cons hOffset
    rw [instructionAt?_eq hCells]
    rfl
  · rename_i hOffset
    rw [instruction_of_size_le (Nat.le_of_not_lt hOffset)]

/-- Listing a chunk never looks past its end either. -/
theorem instructionsFrom?_eq (chunk : Chunk) (offset : Nat) :
    chunk.instructionsFrom? offset = some (instructionsFrom chunk.pool offset
      (chunk.lineBefore offset) (chunk.cells.toList.drop offset)) := by
  fun_induction instructionsFrom? chunk offset with
  | case1 offset hOffset hNone =>
      obtain ⟨cell, behind, hCells⟩ := exists_drop_eq_cons hOffset
      rw [instructionAt?_eq hCells] at hNone
      cases hNone
  | case2 offset hOffset text next hSome ih =>
      obtain ⟨cell, behind, hCells⟩ := exists_drop_eq_cons hOffset
      rw [instructionAt?_eq hCells, Option.some.injEq, Prod.mk.injEq] at hSome
      obtain ⟨rfl, hNext⟩ := hSome
      rw [ih, hCells, Option.map_some, ← hNext]
      have hBehind := drop_succ hCells
      cases behind with
      | nil =>
          simp [hBehind, instructionsFrom, instructionText_eq rfl hCells]
      | cons operand behind =>
          cases hTakes : takesOperand cell.byte with
          | true =>
              simp [instructionsFrom, hTakes, instructionText_eq rfl hCells, drop_succ hBehind,
                lineBefore_succ hBehind]
          | false =>
              simp [instructionsFrom, hTakes, instructionText_eq rfl hCells, hBehind,
                lineBefore_succ hCells]
  | case3 offset hOffset =>
      rw [drop_eq_nil (Nat.le_of_not_lt hOffset), instructionsFrom]

theorem listing?_eq (chunk : Chunk) (name : String) :
    chunk.listing? name = some (chunk.listing name) := by
  rw [listing?, instructionsFrom?_eq]
  rfl

/-- What is shown in place of an instruction at an offset past the code. -/
def endText (offset : Nat) : String :=
  offsetText offset ++ " <end of code>\n"

theorem isDigit_of_mem_offsetText (offset : Nat) :
    ∀ c ∈ (offsetText offset).toList, c.isDigit = true := by
  intro c hMem
  simp only [offsetText, Text.padLeft, Text.run, String.toList_append, String.toList_ofList,
    List.mem_append, List.mem_replicate] at hMem
  rcases hMem with ⟨_, rfl⟩ | hDigit
  · rfl
  · have hDigits : c ∈ Nat.toDigits 10 offset := by simpa using hDigit
    exact Nat.isDigit_of_mem_toDigits (by decide) (by decide) hDigits

/-- The column of the source line starts with a blank or a digit. -/
theorem exists_first_lineText (previous : Option Nat) (line : Nat) :
    ∃ first rest, (lineText previous line).toList = first :: rest ∧ first ≠ '<' := by
  unfold lineText
  split
  · exact ⟨' ', [' ', ' ', '|'], rfl, by decide⟩
  · have hDigits : (toString line).toList = Nat.toDigits 10 line := by simp
    rw [Text.padLeft, Text.run, String.toList_append, String.toList_ofList, hDigits]
    cases 4 - (toString line).length with
    | succ count => exact ⟨' ', _, rfl, by decide⟩
    | zero =>
        have hSome : Nat.toDigits 10 line ≠ [] := Nat.toDigits_ne_nil
        obtain ⟨first, rest, hFirst⟩ := List.exists_cons_of_ne_nil hSome
        have hMem : first ∈ Nat.toDigits 10 line := hFirst ▸ List.mem_cons_self
        have hDigit := Nat.isDigit_of_mem_toDigits (by decide) (by decide) hMem
        exact ⟨first, rest, hFirst, by rintro rfl; cases hDigit⟩

/-- No instruction is shown in the way the end of the code is. -/
theorem instruction_ne_endText {chunk : Chunk} {offset : Nat} (h : offset < chunk.size)
    (other : Nat) : chunk.instruction offset ≠ endText other := by
  obtain ⟨cell, behind, hCells⟩ := exists_drop_eq_cons h
  obtain ⟨first, rest, hFirst, hMark⟩ := exists_first_lineText (chunk.lineBefore offset) cell.line
  intro hSame
  rw [← instructionText_eq rfl hCells] at hSame
  -- Behind the digits of the offset, only the end of the code goes on with a mark.
  have hBehind := congrArg (List.dropWhile Char.isDigit) (congrArg String.toList hSame)
  simp only [instructionText, endText, String.toList_append, List.append_assoc,
    List.dropWhile_append_of_pos (isDigit_of_mem_offsetText _), hFirst] at hBehind
  simp at hBehind
  exact hMark hBehind.1

end Chunk

theorem map_snd_placed (offset : Nat) (instructions : List Instruction) :
    (placed offset instructions).map (·.2) = instructions := by
  induction instructions generalizing offset with
  | nil => rfl
  | cons instruction rest ih => rw [placed, List.map_cons, ih]

theorem Instruction.length_bytes_pos (instruction : Instruction) :
    0 < instruction.bytes.length := by
  cases instruction <;> exact Nat.succ_pos _

/-- An instruction with all its bytes stands inside the code. -/
theorem add_length_le_of_mem_placed {start offset : Nat} {instruction : Instruction}
    {instructions : List Instruction} (h : (offset, instruction) ∈ placed start instructions) :
    offset + instruction.bytes.length ≤
      start + (instructions.flatMap Instruction.bytes).length := by
  induction instructions generalizing start with
  | nil => simp [placed] at h
  | cons first rest ih =>
      rw [placed, List.mem_cons] at h
      rw [List.flatMap_cons, List.length_append]
      rcases h with hFirst | hRest
      · cases hFirst
        omega
      · have hWithin := ih hRest
        omega

theorem Chunk.lt_size_of_mem_program {chunk : Chunk} {offset : Nat} {instruction : Instruction}
    (h : (offset, instruction) ∈ chunk.program) : offset < chunk.size := by
  have hWithin := add_length_le_of_mem_placed h
  have hPositive := instruction.length_bytes_pos
  rw [flatMap_bytes_decode, Chunk.length_code] at hWithin
  omega

namespace Machine

/-- A run that looks for an instruction where the code has ended. Code that ends inside an
instruction gives the same fault, but that is another way to end. -/
def RunsOut (chunk : Chunk) : Prop :=
  (run chunk).outcome = .error (.unexpectedEnd chunk.size) ∧
    ¬∃ offset stack, StopsAt chunk offset .truncated stack

/-- The instructions that a trace of a chunk shows, in their order. -/
def tracedInstructions (chunk : Chunk) : List String :=
  (run chunk).trace.map fun snapshot => chunk.instruction snapshot.offset

/-- A run comes to the instructions that decoding gives, in their order and none of them twice. Only
if it runs out does it come to all of them, and then to the end of the code. -/
theorem offsets_of_run (chunk : Chunk) :
    (RunsOut chunk ∧
      (run chunk).trace.map (·.offset) = chunk.program.map (·.1) ++ [chunk.size]) ∨
    ¬RunsOut chunk ∧ (run chunk).trace.map (·.offset) <+: chunk.program.map (·.1) := by
  have hLast := (run_performs chunk).last
  rw [Chunk.length_code] at hLast
  rcases hLast with ⟨hEnd, hOffsets⟩ | ⟨hOffsets, ⟨offset, stack⟩, instruction, hLast, hMem, hEnd⟩
  · refine .inl ⟨⟨hEnd, ?_⟩, hOffsets⟩
    rintro ⟨offset, stack, hReach, hLast⟩
    have hWithin := Chunk.lt_size_of_mem_program (List.of_mem_zip hReach).2
    have hSize : ((run chunk).trace.map (·.offset)).getLast? = some offset := by
      rw [List.getLast?_map, hLast]
      rfl
    rw [hOffsets, List.getLast?_concat, Option.some.injEq] at hSize
    omega
  · refine .inr ⟨?_, hOffsets⟩
    rintro ⟨hOutcome, hNever⟩
    have hRoom := (stack_of_run_le chunk).1 _ (List.mem_of_getLast? hLast)
    have hEnds := Execution.ends_of_perform hEnd hRoom
    rw [hOutcome] at hEnds
    generalize (run chunk).stack = left at hEnds
    cases hEnds with
    | truncated => exact hNever ⟨offset, stack, hMem, hLast⟩

/-- The trace of a run shows the beginning of the listing, and one thing more if the run looks for
an instruction where the code has ended. -/
theorem tracedInstructions_listed (chunk : Chunk) :
    (RunsOut chunk ∧
      tracedInstructions chunk = chunk.instructions ++ [Chunk.endText chunk.size]) ∨
    ¬RunsOut chunk ∧ tracedInstructions chunk <+: chunk.instructions := by
  have hTraced : tracedInstructions chunk =
      ((run chunk).trace.map (·.offset)).map chunk.instruction := by
    rw [List.map_map]
    rfl
  have hListed : chunk.instructions = (chunk.program.map (·.1)).map chunk.instruction := by
    rw [Chunk.instructions_eq_map, List.map_map]
    rfl
  rw [hTraced, hListed]
  rcases offsets_of_run chunk with ⟨hEnd, hOffsets⟩ | ⟨hEnd, hOffsets⟩
  · refine .inl ⟨hEnd, ?_⟩
    rw [hOffsets, List.map_append, List.map_singleton,
      Chunk.instruction_of_size_le (Nat.le_refl _), Chunk.endText]
  · exact .inr ⟨hEnd, hOffsets.map _⟩

/-- Compiled code has its only return at its end, so a run of it comes to every instruction. -/
theorem length_program_le_of_compile {source : String} {chunk : Chunk}
    (h : compile source = .ok chunk) : chunk.program.length ≤ (run chunk).trace.length := by
  obtain ⟨tree, endLine, _, _, hLiterals, rfl⟩ := exists_parse_of_compile h
  obtain ⟨hOutcome, _⟩ := run_ofTree tree endLine hLiterals
  obtain ⟨offset, hReach, _⟩ := stopsAt_ret_of_run hOutcome
  have hProgram : (Chunk.ofTree tree endLine).program.map (·.2) =
      (tree.toExpr.indexed 0).instructions ++ [.ret] := by
    rw [Chunk.program, map_snd_placed, Chunk.decode_ofTree]
  have hLength := congrArg List.length hProgram
  rw [List.length_map, List.length_append, List.length_singleton] at hLength
  obtain ⟨place, hPlace, hFound⟩ := List.mem_iff_getElem.mp hReach
  rw [List.getElem_zip, Prod.mk.injEq] at hFound
  rw [List.length_zip, Nat.lt_min] at hPlace
  have hRet : ((Chunk.ofTree tree endLine).program.map (·.2))[place]? = some .ret := by
    rw [List.getElem?_map, List.getElem?_eq_getElem hPlace.2, hFound.2]
    rfl
  by_contra hShort
  rw [hProgram, List.getElem?_append_left (by omega)] at hRet
  rcases Indexed.mem_instructions (List.mem_of_getElem? hRet) with ⟨_, hPush⟩ | ⟨_, hOperate⟩
  · cases hPush
  · cases hOperate

theorem tracedInstructions_of_compile {source : String} {chunk : Chunk}
    (h : compile source = .ok chunk) : tracedInstructions chunk = chunk.instructions := by
  have hLength : chunk.instructions.length ≤ (tracedInstructions chunk).length := by
    rw [Chunk.instructions_eq_map, tracedInstructions, List.length_map, List.length_map]
    exact length_program_le_of_compile h
  rcases tracedInstructions_listed chunk with ⟨⟨hEnd, _⟩, _⟩ | ⟨_, hListed⟩
  · obtain ⟨tree, endLine, _, _, hLiterals, rfl⟩ := exists_parse_of_compile h
    cases hEnd.symm.trans (run_ofTree tree endLine hLiterals).1
  · exact hListed.eq_of_length_le hLength

end Machine

namespace Session

variable {σ : Type} [Sink σ]

theorem diagnostics_run (session : Session σ) (chunk : Chunk) :
    (session.run chunk).1.diagnostics =
      if session.switches.traceExecution then (Machine.run chunk).traceText chunk else "" := by
  rw [run_eq]
  dsimp only
  split
  · rfl
  · split <;> rfl

/-- A trace shows, under the stack each time, the instructions of the listing from the first one on,
for as long as the run goes. It shows the end of the code behind them if and only if the run looks
for an instruction there, and a listing never shows that. The trace of compiled code shows the whole
listing. -/
theorem trace_follows_listing (session : Session σ) (chunk : Chunk)
    (hTrace : session.switches.traceExecution = true) :
    (session.run chunk).1.diagnostics =
        String.join ((Machine.run chunk).trace.map fun snapshot =>
          Machine.stackText snapshot.stack ++ chunk.instruction snapshot.offset) ∧
      (∀ name, chunk.listing name = "== " ++ name ++ " ==\n" ++ String.join chunk.instructions) ∧
      (∃ listed, listed <+: chunk.instructions ∧
        (Machine.RunsOut chunk ∧
            Machine.tracedInstructions chunk = listed ++ [Chunk.endText chunk.size] ∨
          ¬Machine.RunsOut chunk ∧ Machine.tracedInstructions chunk = listed)) ∧
      (∀ offset, Chunk.endText offset ∉ chunk.instructions) ∧
      ∀ source, compile source = .ok chunk →
        Machine.tracedInstructions chunk = chunk.instructions := by
  refine ⟨?_, fun _ => rfl, ?_, ?_, fun source hCompile =>
    Machine.tracedInstructions_of_compile hCompile⟩
  · rw [diagnostics_run, hTrace]
    rfl
  · rcases Machine.tracedInstructions_listed chunk with ⟨hEnd, hTraced⟩ | ⟨hEnd, hTraced⟩
    · exact ⟨_, List.prefix_rfl, .inl ⟨hEnd, hTraced⟩⟩
    · exact ⟨_, hTraced, .inr ⟨hEnd, rfl⟩⟩
  · intro offset hMem
    rw [Chunk.instructions_eq_map] at hMem
    obtain ⟨⟨found, instruction⟩, hFound, hText⟩ := List.mem_map.mp hMem
    exact Chunk.instruction_ne_endText (Chunk.lt_size_of_mem_program hFound) offset hText

/-- Code that pushes a number and then has ended: the trace has the end of the code behind the whole
listing. -/
theorem trace_follows_listing_runs_out :
    ∃ (session : Session MemorySink) (chunk : Chunk), session.switches.traceExecution = true ∧
      chunk.code = [1, 0] ∧ Machine.RunsOut chunk ∧
      Machine.tracedInstructions chunk = chunk.instructions ++ [Chunk.endText 2] := by
  let session : Session MemorySink := { sink := {}, switches := ⟨false, true⟩ }
  let chunk : Chunk := ⟨⟨#[⟨1, 1⟩, ⟨0, 1⟩], 8⟩, ⟨#[⟨0x3FF0000000000000⟩], 8⟩⟩
  have hTraced : Machine.tracedInstructions chunk =
      ["0000    1 OP_CONSTANT         0 '1'\n", Chunk.endText 2] := by decide +kernel
  have hListed : chunk.instructions = ["0000    1 OP_CONSTANT         0 '1'\n"] := by
    decide +kernel
  obtain ⟨_, _, ⟨listed, hPrefix, hEnd⟩, hNever, _⟩ := trace_follows_listing session chunk rfl
  rcases hEnd with ⟨hRunsOut, _⟩ | ⟨_, rfl⟩
  · exact ⟨session, chunk, rfl, rfl, hRunsOut, by rw [hTraced, hListed]; rfl⟩
  · exact absurd (hPrefix.subset (by rw [hTraced]; simp)) (hNever 2)

end Session

end StackCalculator
