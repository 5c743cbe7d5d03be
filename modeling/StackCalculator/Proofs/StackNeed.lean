import StackCalculator.Proofs.Evaluation

/-!
How much room postorder code needs. It is the code of an expression, not the number of its literals
or their order in the pool, that decides whether the stack overflows: a chain of left operands runs
in two places however long it is, and each right operand that is itself an operation takes one more.
-/

namespace StackCalculator

namespace Expr

theorem stackNeed_pos (e : Expr) : 0 < e.stackNeed := by
  induction e with
  | literal value => exact Nat.one_pos
  | binary operator left right ihLeft ihRight => exact Nat.lt_of_lt_of_le ihLeft (Nat.le_max_left _ _)

end Expr

namespace Indexed

/-- Postorder code stands for an expression as soon as every index in it is valid. -/
theorem exists_lookup {pool : Array Number} (t : Indexed)
    (hValid : ∀ index, Instruction.push index ∈ t.instructions → index.toNat < pool.size) :
    ∃ e, t.lookup pool = some e := by
  induction t with
  | constant index =>
      have hIndex : index.toNat < pool.size := hValid index (by simp [instructions])
      exact ⟨.literal pool[index.toNat], by simp [lookup, hIndex]⟩
  | binary operator left right ihLeft ihRight =>
      obtain ⟨leftExpr, hLeft⟩ := ihLeft fun index hIndex =>
        hValid index (by simp [instructions, hIndex])
      obtain ⟨rightExpr, hRight⟩ := ihRight fun index hIndex =>
        hValid index (by simp [instructions, hIndex])
      exact ⟨.binary operator leftExpr rightExpr, by simp [lookup, hLeft, hRight]⟩

end Indexed

namespace Machine

@[simp] theorem Run.outcome_behind (snapshots : List Snapshot) (run : Run) :
    (run.behind snapshots).outcome = run.outcome :=
  rfl

/-- A valid constant does not fit on a stack that is full. -/
theorem runFrom_constant_of_full {pool : Array Number} {index : UInt8} {value : Number}
    {rest : List UInt8} {offset : Nat} {stack : List Number}
    (hValue : pool[index.toNat]? = some value) (hFull : stackLimit ≤ stack.length) :
    (runFrom pool (Opcode.constant.byte :: index :: rest) offset stack).outcome =
      .error .stackOverflow := by
  rw [runFrom.eq_def]
  simp [hValue, Nat.not_lt.mpr hFull, Run.after]

/-- Postorder code that needs more room than is left above the stack overflows, whatever code
follows. It has no other way to fail. -/
theorem runFrom_code_of_stackLimit_lt {pool : Array Number} {t : Indexed} {e : Expr}
    (h : t.lookup pool = some e) (rest : List UInt8) (offset : Nat) (stack : List Number)
    (hStack : stack.length ≤ stackLimit) (hNeed : stackLimit < stack.length + e.stackNeed) :
    (runFrom pool (t.code ++ rest) offset stack).outcome = .error .stackOverflow := by
  induction t generalizing e rest offset stack with
  | constant index =>
      obtain ⟨value, hValue, rfl⟩ := Option.map_eq_some_iff.mp h
      apply runFrom_constant_of_full hValue
      exact Nat.le_of_lt_succ hNeed
  | binary operator left right ihLeft ihRight =>
      rw [Indexed.lookup] at h
      split at h
      · rename_i leftExpr rightExpr hLeft hRight
        cases h
        simp only [Expr.stackNeed] at hNeed
        rw [Indexed.code, List.append_assoc, List.append_assoc]
        -- Either the left operand overflows itself, or it leaves one number below the right one.
        by_cases hRoom : stack.length + leftExpr.stackNeed ≤ stackLimit
        · obtain ⟨snapshots, hRun⟩ := runFrom_code hLeft
            (right.code ++ ([(Opcode.operate operator).byte] ++ rest)) offset stack hRoom
          have hPos := leftExpr.stackNeed_pos
          rw [hRun, Run.outcome_behind]
          apply ihRight hRight
          · rw [List.length_cons]
            omega
          · rw [List.length_cons]
            omega
        · exact ihLeft hLeft _ offset stack hStack (Nat.lt_of_not_le hRoom)
      · cases h

/-- What running the postorder of an expression comes to: with enough room its value, and a stack
overflow otherwise. -/
theorem run_code {chunk : Chunk} {t : Indexed} {e : Expr}
    (hCode : chunk.code = t.code ++ [Opcode.ret.byte]) (h : t.lookup chunk.pool = some e) :
    (e.stackNeed ≤ stackLimit →
      (run chunk).outcome = .ok e.eval ∧ (run chunk).stack = []) ∧
    (stackLimit < e.stackNeed → (run chunk).outcome = .error .stackOverflow) := by
  rw [run_eq_runFrom, hCode]
  constructor
  · intro hRoom
    obtain ⟨snapshots, hRun⟩ := runFrom_code h [Opcode.ret.byte] 0 []
      (by rw [List.length_nil, Nat.zero_add]; exact hRoom)
    rw [hRun, runFrom_ret]
    exact ⟨rfl, rfl⟩
  · intro hNeed
    apply runFrom_code_of_stackLimit_lt h
    · exact Nat.zero_le _
    · rw [List.length_nil, Nat.zero_add]
      exact hNeed

end Machine

namespace Session

variable {σ : Type} [Sink σ]

/-- A chunk made of the postorder of any expression over its constant pool and a return. It returns
the value and leaves the stack empty exactly if the expression needs no more than 256 places, and
otherwise it ends in a stack overflow. -/
theorem run_postorder (sinks : Sink.Unlimited σ) (session : Session σ) (chunk : Chunk) (t : Indexed)
    (hSink : sinks.accepts session.sink) (hCode : chunk.code = t.code ++ [Opcode.ret.byte])
    (hValid : ∀ index, Instruction.push index ∈ t.instructions →
      index.toNat < chunk.pool.size) :
    ∃ e, t.lookup chunk.pool = some e ∧
      ((session.run chunk).1.result = .ok e.eval ∧ (session.run chunk).2.stack = [] ↔
        e.stackNeed ≤ 256) ∧
      (256 < e.stackNeed → (session.run chunk).1.result = .error (.fault .stackOverflow)) := by
  obtain ⟨e, hLookup⟩ := t.exists_lookup hValid
  obtain ⟨hFits, hOverflows⟩ := Machine.run_code hCode hLookup
  obtain ⟨after, hRun, _, _⟩ := run_of_accepts sinks hSink chunk
  have hOverflow : 256 < e.stackNeed →
      (session.run chunk).1.result = .error (.fault .stackOverflow) := by
    intro hNeed
    rw [hRun, reportOf, hOverflows hNeed]
    rfl
  refine ⟨e, hLookup, ⟨?_, ?_⟩, hOverflow⟩
  · rintro ⟨hResult, _⟩
    by_contra hNeed
    rw [hOverflow (Nat.lt_of_not_le hNeed)] at hResult
    cases hResult
  · intro hNeed
    obtain ⟨hOutcome, hStack⟩ := hFits hNeed
    rw [hRun, reportOf, hOutcome]
    exact ⟨rfl, hStack⟩

/-- The same 257 numbers: subtracted one after the other they need two places, nested to the right one
place each, and then the last of them does not fit. -/
theorem run_postorder_nested :
    let one := Indexed.constant 0
    let chain := (List.replicate 256 one).foldl (.binary .subtract) one
    let comb := (List.replicate 256 one).foldr (.binary .subtract) one
    let program (t : Indexed) : Chunk :=
      .assemble (t.code ++ [Opcode.ret.byte]) (Array.replicate 256 ⟨0x3FF0000000000000⟩)
    let session : Session MemorySink := { sink := {} }
    (∃ e : Expr, e.literals.length = 257 ∧ e.stackNeed = 2 ∧
      (session.run (program chain)).1.result = .ok e.eval) ∧
    (session.run (program comb)).1.result = .error (.fault .stackOverflow) := by
  intro one chain comb program session
  have hRun (t : Indexed) := run_postorder MemorySink.unlimited session (program t) t rfl
    (Chunk.code_assemble _ _) fun index _ => Array.size_replicate.symm ▸ index.toNat_lt
  constructor
  · obtain ⟨e, hLookup, hFits, _⟩ := hRun chain
    have hMeasure : (chain.lookup (program chain).pool).map
        (fun e => (e.literals.length, e.stackNeed)) = some (257, 2) := by decide +kernel
    rw [hLookup] at hMeasure
    obtain ⟨hLength, hNeed⟩ := Prod.ext_iff.mp (Option.some.inj hMeasure)
    exact ⟨e, hLength, hNeed, (hFits.mpr (hNeed.trans_le (by decide))).1⟩
  · obtain ⟨e, hLookup, _, hOverflows⟩ := hRun comb
    have hMeasure : (comb.lookup (program comb).pool).map Expr.stackNeed = some 257 := by
      decide +kernel
    rw [hLookup] at hMeasure
    have hNeed : e.stackNeed = 257 := Option.some.inj hMeasure
    exact hOverflows (by rw [hNeed]; decide)

end Session

end StackCalculator
