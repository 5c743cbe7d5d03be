import StackCalculator.Proofs.Postorder
import StackCalculator.Proofs.Writing

/-!
Running postorder code evaluates the expression, as long as the stack has room for it. So a text
that compiles also runs: its value is that of its parse tree, and it is written as one line.
-/

namespace StackCalculator

/-- The expression that indices into a pool stand for. There is none if an index is not valid. -/
def Indexed.lookup (pool : Array Number) : Indexed → Option Expr
  | .constant index => pool[index.toNat]?.map .literal
  | .binary operator left right =>
      match left.lookup pool, right.lookup pool with
      | some left, some right => some (.binary operator left right)
      | _, _ => none

namespace Expr

/-- How many numbers are on the stack at once while the value of an expression is computed. The
value of the left operand waits below while the right one is computed. -/
def stackNeed : Expr → Nat
  | .literal _ => 1
  | .binary _ left right => max left.stackNeed (right.stackNeed + 1)

theorem stackNeed_le_literals (e : Expr) : e.stackNeed ≤ e.literals.length := by
  induction e with
  | literal value => exact Nat.le_refl 1
  | binary operator left right ihLeft ihRight =>
      have hLeft := left.literals_length_pos
      have hRight := right.literals_length_pos
      simp only [stackNeed, literals, List.length_append]
      omega

/-- Numbered literals are found again where they stand in the pool. -/
theorem lookup_indexed {pool : Array Number} (e : Expr) (before after : List Number)
    (hPool : pool.toList = before ++ (e.literals ++ after))
    (hBytes : before.length + e.literals.length ≤ 256) :
    (e.indexed before.length).lookup pool = some e := by
  induction e generalizing before after with
  | literal value =>
      have hByte : (UInt8.ofNat before.length).toNat = before.length :=
        UInt8.toNat_ofNat_of_lt' hBytes
      rw [indexed, Indexed.lookup, hByte, ← Array.getElem?_toList, hPool]
      simp [literals]
  | binary operator left right ihLeft ihRight =>
      simp only [literals, List.length_append, List.append_assoc] at hBytes hPool
      have hLeft := ihLeft before (right.literals ++ after) hPool (by omega)
      have hRight := ihRight (before ++ left.literals) after (by simp [hPool])
        (by simp only [List.length_append]; omega)
      rw [List.length_append] at hRight
      simp [indexed, Indexed.lookup, hLeft, hRight]

end Expr

/-- The indices in the code of a tree stand for its literals, if one byte can number them. -/
theorem Chunk.lookup_ofTree (tree : Tree) (endLine : Nat)
    (hLiterals : tree.toExpr.literals.length ≤ 256) :
    (tree.toExpr.indexed 0).lookup (ofTree tree endLine).pool = some tree.toExpr := by
  have hPool : (ofTree tree endLine).pool.toList = [] ++ (tree.toExpr.literals ++ []) := by
    rw [List.append_nil]
    exact constants_ofTree tree endLine
  exact Expr.lookup_indexed tree.toExpr [] [] hPool (by simpa using hLiterals)

namespace Machine

/-- The same run, behind the given states of the machine. -/
def Run.behind (snapshots : List Snapshot) (run : Run) : Run :=
  { run with trace := snapshots ++ run.trace }

theorem runFrom_constant {pool : Array Number} {index : UInt8} {value : Number}
    {rest : List UInt8} {offset : Nat} {stack : List Number}
    (hValue : pool[index.toNat]? = some value) (hRoom : stack.length < stackLimit) :
    runFrom pool (Opcode.constant.byte :: index :: rest) offset stack =
      (runFrom pool rest (offset + 2) (value :: stack)).behind [⟨offset, stack⟩] := by
  rw [runFrom.eq_def]
  simp [hValue, hRoom, Run.after, Run.behind]

theorem runFrom_operate {pool : Array Number} {operator : Operator} {rest : List UInt8}
    {offset : Nat} {left right : Number} {below : List Number} :
    runFrom pool ((Opcode.operate operator).byte :: rest) offset (right :: left :: below) =
      (runFrom pool rest (offset + 1) (operator.apply left right :: below)).behind
        [⟨offset, right :: left :: below⟩] := by
  rw [runFrom.eq_def]
  simp [Run.after, Run.behind]

theorem runFrom_ret {pool : Array Number} {rest : List UInt8} {offset : Nat} {value : Number}
    {below : List Number} :
    runFrom pool (Opcode.ret.byte :: rest) offset (value :: below) =
      ⟨.ok value, below, [⟨offset, value :: below⟩]⟩ := by
  rw [runFrom.eq_def]
  simp [Run.after]

@[simp] theorem Run.behind_behind (first second : List Snapshot) (run : Run) :
    (run.behind second).behind first = run.behind (first ++ second) := by
  simp [Run.behind]

/-- Postorder code pushes the value of its expression and leaves the stack below it alone,
whatever code follows. -/
theorem runFrom_code {pool : Array Number} {t : Indexed} {e : Expr} (h : t.lookup pool = some e)
    (rest : List UInt8) (offset : Nat) (stack : List Number)
    (hRoom : stack.length + e.stackNeed ≤ stackLimit) :
    ∃ snapshots, runFrom pool (t.code ++ rest) offset stack =
      (runFrom pool rest (offset + t.code.length) (e.eval :: stack)).behind snapshots := by
  induction t generalizing e rest offset stack with
  | constant index =>
      obtain ⟨value, hValue, rfl⟩ := Option.map_eq_some_iff.mp h
      exact ⟨_, runFrom_constant hValue hRoom⟩
  | binary operator left right ihLeft ihRight =>
      rw [Indexed.lookup] at h
      split at h
      · rename_i leftExpr rightExpr hLeft hRight
        cases h
        simp only [Expr.stackNeed] at hRoom
        obtain ⟨first, hFirst⟩ := ihLeft hLeft
          (right.code ++ (Opcode.operate operator).byte :: rest) offset stack (by omega)
        obtain ⟨second, hSecond⟩ := ihRight hRight ((Opcode.operate operator).byte :: rest)
          (offset + left.code.length) (leftExpr.eval :: stack)
          (by simp only [List.length_cons]; omega)
        let last : Snapshot := ⟨offset + left.code.length + right.code.length,
          rightExpr.eval :: leftExpr.eval :: stack⟩
        refine ⟨first ++ second ++ [last], ?_⟩
        simp only [Indexed.code, List.append_assoc, List.cons_append, List.nil_append]
        rw [hFirst, hSecond, runFrom_operate, Run.behind_behind, Run.behind_behind]
        simp only [List.length_append, List.length_singleton, List.append_assoc, Expr.eval,
          Nat.add_assoc, last]
      · cases h

/-- The code of a tree returns the tree's value. It has at most as many numbers on the stack as the
tree has literals, so the limit on literals keeps it from overflowing. -/
theorem run_ofTree (tree : Tree) (endLine : Nat)
    (hLiterals : tree.toExpr.literals.length ≤ 256) :
    (run (Chunk.ofTree tree endLine)).outcome = .ok tree.toExpr.eval ∧
      (run (Chunk.ofTree tree endLine)).stack = [] := by
  have hLookup := Chunk.lookup_ofTree tree endLine hLiterals
  have hRoom : ([] : List Number).length + tree.toExpr.stackNeed ≤ stackLimit := by
    have hNeed := tree.toExpr.stackNeed_le_literals
    simp only [List.length_nil, stackLimit]
    omega
  obtain ⟨snapshots, hRun⟩ := runFrom_code hLookup [Opcode.ret.byte] 0 [] hRoom
  rw [runFrom_ret] at hRun
  rw [run_eq_runFrom, Chunk.code_ofTree, hRun]
  exact ⟨rfl, rfl⟩

end Machine

theorem Expresses.run_ofTree {source : String} {tree : Tree} (h : Expresses source tree)
    (endLine : Nat) :
    (Machine.run (Chunk.ofTree tree endLine)).outcome = .ok tree.toExpr.eval ∧
      (Machine.run (Chunk.ofTree tree endLine)).stack = [] := by
  obtain ⟨_, hParse⟩ := h.parse
  have hLiterals := h.literals_le
  rw [hParse.layered.countP_number] at hLiterals
  exact Machine.run_ofTree tree endLine hLiterals

namespace Session

variable {σ : Type} [Sink σ]

/-- A program that returns a value, on a sink that takes the value's line. -/
theorem run_of_outcome {session : Session σ} {chunk : Chunk} {value : Number} {after : σ}
    (hOutcome : (Machine.run chunk).outcome = .ok value)
    (hWrite : Sink.writeAll session.sink value.lineParts = (.ok (), after)) :
    (session.run chunk).1.result = .ok value ∧
      (session.run chunk).2 =
        { session with sink := after, registers := (Machine.halt chunk).registers } := by
  simp [run_eq, hOutcome, hWrite]

/-- The switches change what is told about a program, not how it runs. -/
theorem interpret_of_compile {source : String} {chunk : Chunk} (session : Session σ)
    (hCompile : compile source = .ok chunk) :
    (session.interpret source).1.result = (session.run chunk).1.result ∧
      (session.interpret source).2 = (session.run chunk).2 := by
  simp [interpret, compileReporting, hCompile]

theorem interpret_of_compile_error (session : Session σ) {source : String} {e : CompileError}
    (h : compile source = .error e) :
    session.interpret source = (⟨.error (.compile e), "", []⟩, session) := by
  simp [interpret, compileReporting, h]

/-- An expression within the limits is evaluated and its value written as a line, if the sink takes
everything. Nothing stays on the stack. -/
theorem interpret_of_expresses (sinks : Sink.Unlimited σ) {session : Session σ}
    (hSink : sinks.accepts session.sink) {source : String} {tree : Tree}
    (h : Expresses source tree) :
    (session.interpret source).1.result = .ok tree.toExpr.eval ∧
      ∃ after registers,
        (session.interpret source).2 = { session with sink := after, registers := registers } ∧
        registers.stack = [] ∧ sinks.accepts after ∧
        sinks.taken after = sinks.taken session.sink ++ tree.toExpr.eval.line := by
  obtain ⟨endLine, hCompile⟩ := h.exists_compile
  obtain ⟨hOutcome, hStack⟩ := h.run_ofTree endLine
  obtain ⟨hResult, hSession⟩ := session.interpret_of_compile hCompile
  obtain ⟨after, hRun, hAfter, hTaken⟩ := run_of_accepts sinks hSink (Chunk.ofTree tree endLine)
  refine ⟨?_, after, _, by rw [hSession, hRun], hStack, hAfter, ?_⟩
  · rw [hResult, hRun, reportOf, hOutcome]
    rfl
  · rw [hTaken, hOutcome]
    rfl

/-- A text that compiles is evaluated in any session whose sink takes everything. The value is that
of the only parse of the text, its line goes to the sink, and nothing stays on the stack. What was
on the stack before does not matter, and neither do the switches. -/
theorem interpret_evaluates (sinks : Sink.Unlimited σ) (session : Session σ) (source : String)
    (hSink : sinks.accepts session.sink) (hCompile : ∃ chunk, compile source = .ok chunk) :
    ∃ tree endLine, IsParse source tree endLine ∧
      (∀ other line, IsParse source other line → other = tree) ∧
      (session.interpret source).1.result = .ok tree.toExpr.eval ∧
      sinks.taken (session.interpret source).2.sink =
        sinks.taken session.sink ++ Text.bytes (tree.toExpr.eval.text ++ "\n") ∧
      (session.interpret source).2.stack = [] := by
  obtain ⟨chunk, hChunk⟩ := hCompile
  obtain ⟨tree, endLine, hParse, hUnique, hLiterals, rfl⟩ := exists_parse_of_compile hChunk
  obtain ⟨hOutcome, hStack⟩ := Machine.run_ofTree tree endLine hLiterals
  obtain ⟨after, hWrite, _, hTaken⟩ :=
    sinks.writeAll_accepts hSink tree.toExpr.eval.lineParts
  obtain ⟨hResult, hAfter⟩ := run_of_outcome hOutcome hWrite
  obtain ⟨hInterpretResult, hInterpretAfter⟩ := session.interpret_of_compile hChunk
  refine ⟨tree, endLine, hParse, hUnique, ?_, ?_, ?_⟩
  · rw [hInterpretResult, hResult]
  · rw [hInterpretAfter, hAfter, hTaken, Number.flatMap_lineParts]
  · rw [hInterpretAfter, hAfter]
    exact hStack

/-- The grouped product is the divisor, and the sum is taken last. A number left on the stack, slots
filled with others and both switches make no difference. -/
theorem interpret_evaluates_all_operators :
    ∃ session : Session MemorySink, session.registers.slots = .replicate 256 ⟨1⟩ ∧
      session.stack = [⟨1⟩] ∧ session.switches = ⟨true, true⟩ ∧
      (let value : Number := ⟨0x4020000000000000⟩ - ⟨0x4010000000000000⟩ /
        (⟨0x4000000000000000⟩ * ⟨0x3FF0000000000000⟩) + ⟨0x4008000000000000⟩
      (session.interpret "8-4/(2*1)+3").1.result = .ok value ∧
        (session.interpret "8-4/(2*1)+3").2.sink.kept =
          session.sink.kept ++ Text.bytes (value.text ++ "\n") ∧
        (session.interpret "8-4/(2*1)+3").2.stack = []) := by
  have hRead : (Tree.ofSource "8-4/(2*1)+3").toOption.map (·.1.toExpr) =
      some (.binary .add
        (.binary .subtract (.literal ⟨0x4020000000000000⟩)
          (.binary .divide (.literal ⟨0x4010000000000000⟩)
            (.binary .multiply (.literal ⟨0x4000000000000000⟩)
              (.literal ⟨0x3FF0000000000000⟩))))
        (.literal ⟨0x4008000000000000⟩)) := by decide +kernel
  obtain ⟨⟨tree, endLine⟩, hTree, hExpr⟩ := Option.map_eq_some_iff.mp hRead
  replace hTree : Tree.ofSource "8-4/(2*1)+3" = .ok (tree, endLine) := by
    cases hResult : Tree.ofSource "8-4/(2*1)+3" <;> simp_all [Except.toOption]
  have hCompile := compile_eq_ok_iff.mpr ⟨tree, endLine, hTree, rfl⟩
  let session : Session MemorySink :=
    { sink := {}
      switches := ⟨true, true⟩
      registers := { slots := .replicate 256 ⟨1⟩, top := 1, counter := 7, top_le := by decide } }
  obtain ⟨parsed, line, _, hUnique, hResult, hTaken, hStack⟩ :=
    interpret_evaluates MemorySink.unlimited session "8-4/(2*1)+3" rfl ⟨_, hCompile⟩
  obtain rfl := hUnique tree endLine (Tree.ofSource_eq_ok_iff.mp hTree).1
  rw [hExpr] at hResult hTaken
  exact ⟨session, rfl, by decide +kernel, rfl, hResult, hTaken, hStack⟩

end Session

end StackCalculator
