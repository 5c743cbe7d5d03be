import Mathlib.Logic.Function.Iterate
import StackCalculator.Proofs.Listing

/-!
Where the instructions of a listing start. They follow each other from the first byte on without
gaps, whatever the bytes are, and the last one ends where the code does.
-/

namespace StackCalculator

namespace Chunk

/-- How many operands the byte at an offset asks for, read as an opcode. A byte that encodes none
asks for none, and so does an offset past the code. -/
def operandsAt (chunk : Chunk) (offset : Nat) : Nat :=
  match chunk.code[offset]?.bind Opcode.ofByte? with
  | some opcode => opcode.operandCount
  | none => 0

/-- The offset behind an instruction and its operands. An operand that is missing at the end of the
code is not counted. -/
def nextOffset (chunk : Chunk) (offset : Nat) : Nat :=
  min chunk.size (offset + 1 + chunk.operandsAt offset)

theorem lt_nextOffset {chunk : Chunk} {offset : Nat} (h : offset < chunk.size) :
    offset < chunk.nextOffset offset := by
  rw [nextOffset]
  omega

theorem operandsAt_eq {chunk : Chunk} {offset : Nat} {cell : Cell} {behind : List Cell}
    (h : chunk.cells.toList.drop offset = cell :: behind) :
    chunk.operandsAt offset = if takesOperand cell.byte then 1 else 0 := by
  have hByte : chunk.code[offset]? = some cell.byte := by
    simp [code, cells_getElem? h]
  rw [operandsAt, hByte, Option.bind_some]
  cases hOpcode : Opcode.ofByte? cell.byte with
  | none => simp [takesOperand, hOpcode]
  | some opcode => cases opcode <;> simp [takesOperand, hOpcode, Opcode.operandCount]

/-- The look-ups of one instruction all find something, and leave off at the offset behind it. -/
theorem instructionAt?_nextOffset {chunk : Chunk} {offset : Nat} (h : offset < chunk.size) :
    chunk.instructionAt? offset = some (chunk.instruction offset, chunk.nextOffset offset) := by
  obtain ⟨cell, behind, hCells⟩ := exists_drop_eq_cons h
  have hLength : chunk.size - offset = behind.length + 1 := by
    simpa [size] using congrArg List.length hCells
  rw [instructionAt?_eq hCells, nextOffset, operandsAt_eq hCells]
  congr 2
  cases takesOperand cell.byte with
  | false =>
      rw [Bool.false_and, if_neg Bool.false_ne_true, if_neg Bool.false_ne_true]
      omega
  | true =>
      cases behind with
      | nil =>
          rw [List.length_nil] at hLength
          simp only [List.isEmpty_nil, Bool.not_true, Bool.and_false, Bool.false_eq_true, if_false,
            if_true]
          omega
      | cons operand behind =>
          rw [List.length_cons] at hLength
          simp only [List.isEmpty_cons, Bool.not_false, Bool.and_true, if_true]
          omega

/-- The lines of a listing from an offset on are the instructions at the offsets that follow from
it, up to the end of the code. -/
theorem instructionsFrom?_eq_map {chunk : Chunk} {offset : Nat} (h : offset ≤ chunk.size) :
    ∃ count, (∀ i < count, chunk.nextOffset^[i] offset < chunk.size) ∧
      chunk.nextOffset^[count] offset = chunk.size ∧
      chunk.instructionsFrom? offset =
        some ((List.range count).map fun i => chunk.instruction (chunk.nextOffset^[i] offset)) := by
  fun_induction instructionsFrom? chunk offset with
  | case1 offset hOffset hNone =>
      rw [instructionAt?_nextOffset hOffset] at hNone
      cases hNone
  | case2 offset hOffset text next hSome ih =>
      rw [instructionAt?_nextOffset hOffset, Option.some.injEq, Prod.mk.injEq] at hSome
      obtain ⟨rfl, rfl⟩ := hSome
      obtain ⟨count, hInside, hEnd, hTexts⟩ := ih (Nat.min_le_left _ _)
      refine ⟨count + 1, ?_, hEnd, ?_⟩
      · rintro (_ | i) hi
        · exact hOffset
        · exact hInside i (Nat.lt_of_succ_lt_succ hi)
      · rw [hTexts, List.range_succ_eq_map, List.map_cons, List.map_map]
        rfl
  | case3 offset hOffset =>
      exact ⟨0, by simp, Nat.le_antisymm h (Nat.le_of_not_lt hOffset), rfl⟩

/-- Steps that lead upwards from zero pass each number below the last one exactly once. -/
theorem existsUnique_between (bound : Nat → Nat) {count : Nat} (hZero : bound 0 = 0)
    (hStep : ∀ i < count, bound i < bound (i + 1)) {offset : Nat} (hOffset : offset < bound count) :
    ∃! i, i < count ∧ bound i ≤ offset ∧ offset < bound (i + 1) := by
  have hMono : ∀ i j, i ≤ j → j ≤ count → bound i ≤ bound j := by
    intro i j hLe
    induction j, hLe using Nat.le_induction with
    | base => exact fun _ => Nat.le_refl _
    | succ j _ ih =>
        intro hCount
        exact (ih (by omega)).trans (hStep j hCount).le
  have hExists : ∃ i, i < count ∧ bound i ≤ offset ∧ offset < bound (i + 1) := by
    induction count with
    | zero => omega
    | succ count ih =>
        by_cases hLess : offset < bound count
        · obtain ⟨i, hi, hBetween⟩ := ih (fun i hi => hStep i (by omega)) hLess
            fun i j hLe hj => hMono i j hLe (by omega)
          exact ⟨i, by omega, hBetween⟩
        · exact ⟨count, Nat.lt_succ_self _, Nat.le_of_not_lt hLess, hOffset⟩
  obtain ⟨i, hi, hLower, hUpper⟩ := hExists
  refine ⟨i, ⟨hi, hLower, hUpper⟩, ?_⟩
  rintro j ⟨hj, hOtherLower, hOtherUpper⟩
  rcases Nat.lt_trichotomy i j with hLess | hEqual | hLess
  · have hBelow := hMono (i + 1) j hLess hj.le
    omega
  · exact hEqual.symm
  · have hBelow := hMono (j + 1) i hLess hi.le
    omega

/-- A listing can be made of any chunk, and no look-up in its code or its line table misses. Under
the heading stand the instructions that start at zero and from there on each behind the operands of
the one before, as far as the code goes. Every byte belongs to exactly one of them. -/
theorem listing_covers_code (chunk : Chunk) (name : String) :
    chunk.listing? name = some (chunk.listing name) ∧
      ∃ count, (∀ i < count, chunk.nextOffset^[i] 0 < chunk.size) ∧
        chunk.nextOffset^[count] 0 = chunk.size ∧
        chunk.listing name = "== " ++ name ++ " ==\n" ++
          String.join ((List.range count).map fun i =>
            chunk.instruction (chunk.nextOffset^[i] 0)) ∧
        ∀ offset < chunk.size, ∃! i, i < count ∧ chunk.nextOffset^[i] 0 ≤ offset ∧
          offset < chunk.nextOffset^[i + 1] 0 := by
  obtain ⟨count, hInside, hEnd, hTexts⟩ := instructionsFrom?_eq_map (Nat.zero_le chunk.size)
  have hListing := chunk.listing?_eq name
  refine ⟨hListing, count, hInside, hEnd, ?_, ?_⟩
  · rw [listing?, hTexts, Option.map_some, Option.some.injEq] at hListing
    exact hListing.symm
  · intro offset hOffset
    rw [← hEnd] at hOffset
    refine existsUnique_between (fun i => chunk.nextOffset^[i] 0) rfl ?_ hOffset
    intro i hi
    rw [Function.iterate_succ_apply']
    exact lt_nextOffset (hInside i hi)

/-- A constant that is missing from the pool, a byte that is no opcode and a constant cut short. -/
example :
    let chunk : Chunk := ⟨⟨#[⟨1, 1⟩, ⟨9, 1⟩, ⟨0, 1⟩, ⟨1, 2⟩], 8⟩, {}⟩
    (List.range 4).map (fun i => chunk.nextOffset^[i] 0) = [0, 2, 3, 4] ∧
      chunk.listing "code" = "== code ==\n" ++
        "0000    1 OP_CONSTANT         9 <missing>\n" ++
        "0002    | Unknown opcode 0\n" ++
        "0003    2 OP_CONSTANT      <truncated>\n" := by
  decide +kernel

end Chunk

end StackCalculator
