import StackCalculator.Proofs.Execution

/-!
Programs with more code and more constants behind their own. A run does not look further than the
instruction that ends it, so what is added can only make a difference to a run that ended because
something was missing.
-/

namespace StackCalculator

/-- Whether a fault is for want of something that more code or more constants could give. -/
def Fault.IsShortage : Fault → Prop
  | .invalidConstant _ _ | .unexpectedEnd _ => True
  | .stackOverflow | .stackUnderflow | .unknownOpcode _ _ | .unsupportedOpcode _ _ => False

/-- A chunk has all the code and all the constants of another in their places, and perhaps more
behind them. The line table does not count. -/
structure Chunk.Extends (larger chunk : Chunk) : Prop where
  code : chunk.code <+: larger.code
  constants : chunk.constants.toList <+: larger.constants.toList

/-- What stands in a list stands in the same place of every list that goes on behind it. -/
theorem getElem?_of_prefix {α : Type} {items larger : List α} (h : items <+: larger) {index : Nat}
    {item : α} (hItem : items[index]? = some item) : larger[index]? = some item := by
  obtain ⟨hIndex, rfl⟩ := List.getElem?_eq_some_iff.mp hItem
  exact List.prefix_iff_getElem?.mp h index hIndex

namespace Chunk

variable {chunk larger : Chunk}

theorem byte?_of_extends (h : larger.Extends chunk) {offset : Nat} {byte : UInt8}
    (hByte : chunk.byte? offset = some byte) : larger.byte? offset = some byte := by
  rw [byte?_eq] at hByte ⊢
  exact getElem?_of_prefix h.code hByte

theorem constant?_of_extends (h : larger.Extends chunk) {index : Nat} {value : Number}
    (hValue : chunk.constant? index = some value) : larger.constant? index = some value := by
  rw [constant?, ← Array.getElem?_toList] at hValue ⊢
  exact getElem?_of_prefix h.constants hValue

end Chunk

namespace Machine

/-- A step that nothing was missing to takes no notice of what stands behind the code and behind the
constants. -/
theorem on_step_of_extends {chunk larger : Chunk} (h : larger.Extends chunk)
    (registers : Registers) (hSettled : ∀ fault, ((step chunk).on registers).1 = .error fault →
      ¬fault.IsShortage) :
    (step larger).on registers = (step chunk).on registers := by
  rw [on_step, on_step]
  rw [on_step] at hSettled
  cases hByte : chunk.byte? registers.counter with
  | none =>
      rw [hByte] at hSettled
      exact absurd trivial (hSettled _ rfl)
  | some byte =>
      rw [Chunk.byte?_of_extends h hByte]
      rw [hByte] at hSettled
      dsimp only at hSettled ⊢
      cases hOpcode : Opcode.ofByte? byte with
      | none => rfl
      | some opcode =>
          rw [hOpcode] at hSettled
          dsimp only at hSettled ⊢
          cases opcode with
          | operate | negate | ret => rfl
          | constant =>
              rw [perform, Action.on_bind, on_readByte] at hSettled
              rw [perform, perform, Action.on_bind, Action.on_bind, on_readByte, on_readByte]
              cases hIndex : chunk.byte? (registers.counter + 1) with
              | none =>
                  rw [hIndex] at hSettled
                  exact absurd trivial (hSettled _ rfl)
              | some index =>
                  rw [Chunk.byte?_of_extends h hIndex]
                  rw [hIndex] at hSettled
                  dsimp only at hSettled ⊢
                  cases hValue : chunk.constant? index.toNat with
                  | none =>
                      rw [hValue] at hSettled
                      exact absurd trivial (hSettled _ rfl)
                  | some value => rw [Chunk.constant?_of_extends h hValue]

theorem halt_of_extends {chunk larger : Chunk} (h : larger.Extends chunk)
    (hSettled : ∀ fault, (run chunk).outcome = .error fault → ¬fault.IsShortage) :
    halt larger = halt chunk :=
  execute_eq_of_steps (on_step_of_extends h) {} hSettled

end Machine

namespace Chunk

theorem extends_write (chunk : Chunk) (byte : UInt8) (line : Nat) :
    (chunk.write byte line).Extends chunk where
  code := by simp
  constants := List.prefix_rfl

/-- The chunk with more constants behind its own. -/
def withConstants (chunk : Chunk) (more : Array Number) : Chunk :=
  { chunk with constants.items := chunk.pool ++ more }

theorem extends_withConstants (chunk : Chunk) (more : Array Number) :
    (chunk.withConstants more).Extends chunk where
  code := List.prefix_rfl
  constants := by simp [withConstants, Buffer.toList, pool]

/-- With 256 constants more, no index of one byte is outside the pool. -/
theorem getElem?_withConstants_ne_none (chunk : Chunk) {more : Array Number}
    (hMore : more.size = 256) (index : UInt8) :
    (chunk.withConstants more).pool[index.toNat]? ≠ none := by
  have hIndex := index.toNat_lt
  have hSize : (chunk.withConstants more).pool.size = chunk.pool.size + 256 := by
    rw [withConstants, pool, Array.size_append, hMore]
  rw [ne_eq, Array.getElem?_eq_none_iff]
  omega

end Chunk

/-- Whatever is missing to a run, another chunk has it. -/
theorem Machine.exists_extends_of_shortage {chunk : Chunk} {fault : Fault}
    (h : (run chunk).outcome = .error fault) (hShortage : fault.IsShortage) :
    ∃ larger : Chunk, larger.Extends chunk ∧ (run larger).outcome ≠ .error fault := by
  cases fault with
  | invalidConstant index offset =>
      refine ⟨chunk.withConstants (Array.replicate 256 default), chunk.extends_withConstants _,
        fun hSame => ?_⟩
      exact chunk.getElem?_withConstants_ne_none Array.size_replicate index (run_describes hSame).1
  | unexpectedEnd offset =>
      refine ⟨chunk.write 0 1, chunk.extends_write 0 1, fun hSame => ?_⟩
      have hEnd : offset = chunk.code.length := run_describes h
      have hLater : offset = (chunk.write 0 1).code.length := run_describes hSame
      rw [Chunk.code_write, List.length_append, List.length_singleton] at hLater
      omega
  | stackOverflow | stackUnderflow | unknownOpcode | unsupportedOpcode => exact hShortage.elim

namespace Session

variable {σ : Type} [Sink σ]

theorem result_eq_fault_iff {session : Session σ} {chunk : Chunk} {fault : Fault} :
    (session.run chunk).1.result = .error (.fault fault) ↔
      (Machine.run chunk).outcome = .error fault := by
  cases hOutcome : (Machine.run chunk).outcome with
  | error other => simp [run_eq, hOutcome]
  | ok value =>
      rcases hWrite : Sink.writeAll session.sink value.lineParts with ⟨_ | _, sink⟩ <;>
        simp [run_eq, hOutcome, hWrite]

/-- A session sees of two chunks only what the machine comes to. -/
theorem run_of_halt_eq (session : Session σ) {chunk other : Chunk}
    (h : Machine.halt other = Machine.halt chunk) :
    (session.run other).1.result = (session.run chunk).1.result ∧
      (session.run other).2 = (session.run chunk).2 := by
  have hRun : Machine.run other = Machine.run chunk := congrArg Machine.Halted.toRun h
  cases hOutcome : (Machine.run chunk).outcome with
  | error fault => simp [run_eq, hRun, h, hOutcome]
  | ok value =>
      rcases hWrite : Sink.writeAll session.sink value.lineParts with ⟨_ | _, sink⟩ <;>
        simp [run_eq, hRun, h, hOutcome, hWrite]

/-- A chunk gives the same result as every chunk that has more code or more constants behind its
own, and leaves the same registers and the same sink, unless it ends in a constant that is missing
or at the end of its code. In these two cases there is always a larger chunk with another result. -/
theorem run_settled_iff (session : Session σ) (chunk : Chunk) :
    (∀ larger : Chunk, larger.Extends chunk →
      (session.run larger).1.result = (session.run chunk).1.result ∧
        (session.run larger).2 = (session.run chunk).2) ↔
      ∀ fault, (session.run chunk).1.result = .error (.fault fault) → ¬fault.IsShortage := by
  constructor
  · intro hStable fault hFault hShortage
    obtain ⟨larger, hExtends, hChanged⟩ :=
      Machine.exists_extends_of_shortage (result_eq_fault_iff.mp hFault) hShortage
    obtain ⟨hResult, _⟩ := hStable larger hExtends
    exact hChanged (result_eq_fault_iff.mp (hResult.trans hFault))
  · intro hSettled larger hExtends
    apply run_of_halt_eq
    exact Machine.halt_of_extends hExtends fun fault hFault =>
      hSettled fault (result_eq_fault_iff.mpr hFault)

end Session

end StackCalculator
