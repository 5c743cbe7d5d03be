import Mathlib.Algebra.Order.Ring.Nat
import Mathlib.Data.List.DropRight
import Mathlib.Order.Bounds.Basic
import StackCalculator.Proofs.Building

/-!
How much room a chunk reserves. A buffer that is written to has its room doubled again and again, and a
copy starts anew with no room to spare. So the room depends on two numbers only: how much there is now,
and how much there was when the last copy was made.
-/

namespace StackCalculator

/-- The least doubling of `first` that is enough for `size` items. -/
def IsLeastDoubling (first size room : Nat) : Prop :=
  IsLeast {room | size ≤ room ∧ ∃ doublings, room = first * 2 ^ doublings} room

namespace IsLeastDoubling

variable {first size room : Nat}

/-- Room to spare is enough for one more item. -/
theorem spare (h : IsLeastDoubling first size room) (hSpare : size < room) :
    IsLeastDoubling first (size + 1) room :=
  ⟨⟨hSpare, h.1.2⟩, fun _ hOther => h.2 ⟨Nat.le_of_succ_le hOther.1, hOther.2⟩⟩

/-- Room that is full is doubled once. -/
theorem double (h : IsLeastDoubling first room room) (hFirst : 0 < first) :
    IsLeastDoubling first (room + 1) (2 * room) := by
  obtain ⟨⟨_, doublings, rfl⟩, _⟩ := h
  have hPower : 0 < 2 ^ doublings := Nat.two_pow_pos doublings
  have hPositive : 0 < first * 2 ^ doublings := Nat.mul_pos hFirst hPower
  have hTwice : 2 * (first * 2 ^ doublings) = first * 2 ^ (doublings + 1) := by
    rw [Nat.pow_succ, Nat.mul_comm 2, Nat.mul_assoc]
  refine ⟨⟨by omega, doublings + 1, hTwice⟩, ?_⟩
  rintro other ⟨hEnough, further, rfl⟩
  have hMore : doublings < further := by
    by_contra hLess
    have hLe := Nat.mul_le_mul_left first
      (Nat.pow_le_pow_right Nat.two_pos (Nat.le_of_not_lt hLess))
    omega
  rw [hTwice]
  exact Nat.mul_le_mul_left first (Nat.pow_le_pow_right Nat.two_pos hMore)

theorem first_le (h : IsLeastDoubling first size room) : first ≤ room := by
  obtain ⟨⟨_, doublings, rfl⟩, _⟩ := h
  exact Nat.le_mul_of_pos_right first (Nat.two_pow_pos doublings)

/-- The first room is the least, if it is enough. -/
theorem undoubled (h : size ≤ first) : IsLeastDoubling first size first := by
  refine ⟨⟨h, 0, (Nat.mul_one first).symm⟩, ?_⟩
  rintro other ⟨_, doublings, rfl⟩
  exact Nat.le_mul_of_pos_right first (Nat.two_pow_pos doublings)

end IsLeastDoubling

/-- The room for `size` items, if there were `base` items without room to spare before: none to spare
as long as nothing is added, and then the least doubling of 8 that is enough, or of twice the base if
that is 8 or more. -/
structure IsRoom (base size room : Nat) : Prop where
  unchanged : size = base → room = base
  grown : size ≠ base → IsLeastDoubling (if base < 8 then 8 else 2 * base) size room

namespace Buffer

variable {α : Type}

/-- A buffer that has had items added to it since it had `base` of them and no room to spare. -/
structure GrownFrom (base : Nat) (b : Buffer α) : Prop where
  base_le : base ≤ b.size
  room : IsRoom base b.size b.capacity

theorem grownFrom_copy (b : Buffer α) : b.copy.GrownFrom b.copy.size where
  base_le := Nat.le_refl _
  room := ⟨fun _ => rfl, fun hOther => absurd rfl hOther⟩

/-- One more item. A full buffer still has only its base, and gets its first room, or doubles the room
it has. -/
theorem GrownFrom.push {base : Nat} {b : Buffer α} (h : b.GrownFrom base) (item : α) :
    (b.push item).GrownFrom base := by
  have hBase := h.base_le
  refine ⟨?_, fun hSame => ?_, fun _ => ?_⟩
  · rw [size_push]
    exact Nat.le_succ_of_le hBase
  · rw [size_push] at hSame
    omega
  · rw [size_push]
    change IsLeastDoubling (grown base) (b.size + 1)
      (if b.size < b.capacity then b.capacity else grown b.capacity)
    by_cases hSize : b.size = base
    · rw [h.room.unchanged hSize, hSize, if_neg (Nat.lt_irrefl base)]
      exact .undoubled (lt_grown base)
    · have hLeast : IsLeastDoubling (grown base) b.size b.capacity := h.room.grown hSize
      by_cases hSpare : b.size < b.capacity
      · rw [if_pos hSpare]
        exact hLeast.spare hSpare
      · have hFull : b.capacity = b.size := Nat.le_antisymm (Nat.le_of_not_lt hSpare) hLeast.1.1
        rw [hFull] at hLeast ⊢
        have hDouble : grown b.size = 2 * b.size :=
          if_neg (Nat.not_lt.mpr ((minCapacity_le_grown base).trans hLeast.first_le))
        rw [if_neg (Nat.lt_irrefl _), hDouble]
        exact hLeast.double (Nat.zero_lt_of_lt (lt_grown base))

end Buffer

namespace Chunk

/-- Whether an edit goes on with a copy. -/
def Edit.isCopy : Edit → Bool
  | .copy => true
  | .write _ _ | .writeOpcode _ _ | .addConstant _ => false

/-- The edits up to the last copy, or none if no copy is made. -/
def upToCopy (edits : List Edit) : List Edit :=
  edits.rdropWhile (!·.isCopy)

/-- Both buffers of a chunk have grown from another chunk. -/
structure GrownFrom (chunk base : Chunk) : Prop where
  cells : chunk.cells.GrownFrom base.cells.size
  constants : chunk.constants.GrownFrom base.constants.size

theorem grownFrom_copy (chunk : Chunk) : chunk.copy.GrownFrom chunk.copy where
  cells := chunk.cells.grownFrom_copy
  constants := chunk.constants.grownFrom_copy

theorem GrownFrom.edit {chunk base : Chunk} (h : chunk.GrownFrom base) {edit : Edit}
    (hCopy : edit.isCopy = false) : (chunk.edit edit).2.GrownFrom base := by
  have hWrite (byte : UInt8) (line : Nat) : (chunk.write byte line).GrownFrom base :=
    ⟨h.cells.push _, h.constants⟩
  cases edit with
  | write byte line => exact hWrite byte line
  | writeOpcode byte line =>
      rw [Chunk.edit]
      split
      · exact h
      · exact hWrite _ line
  | addConstant value => exact ⟨h.cells, h.constants.push value⟩
  | copy => cases hCopy

theorem grownFrom_build (edits : List Edit) :
    (build edits).2.GrownFrom (build (upToCopy edits)).2 := by
  induction edits using List.reverseRecOn with
  | nil => exact grownFrom_copy {}
  | append_singleton edits edit ih =>
      cases hCopy : edit.isCopy with
      | true =>
          have hAll : upToCopy (edits ++ [edit]) = edits ++ [edit] :=
            List.rdropWhile_concat_neg _ _ _ (by simp [hCopy])
          obtain rfl : edit = .copy := by cases edit <;> simp_all [Edit.isCopy]
          rw [hAll, build_concat]
          exact grownFrom_copy _
      | false =>
          have hSame : upToCopy (edits ++ [edit]) = upToCopy edits :=
            List.rdropWhile_concat_pos _ _ _ (by simp [hCopy])
          rw [hSame, build_concat]
          exact ih.edit hCopy

/-- However a chunk is built, the room in each of its buffers follows from how much it holds and how much
it held when the last copy was made. To reserve room never asks for less than nothing, in any of the
three buffers that the chunk can be kept in. -/
theorem build_room (edits : List Edit) :
    let copied := (build (upToCopy edits)).2
    ∃ replies chunk columns, build edits = (replies, chunk) ∧
      Columns.build? edits = some (replies, columns) ∧
      columns.bytes.toList = chunk.code ∧ columns.bytes.capacity = chunk.cells.capacity ∧
      columns.constants = chunk.constants ∧
      IsRoom copied.code.length chunk.code.length chunk.cells.capacity ∧
      IsRoom copied.constants.size chunk.constants.size chunk.constants.capacity := by
  intro copied
  have hGrown := grownFrom_build edits
  have hLength (chunk : Chunk) : chunk.code.length = chunk.cells.size := by simp [code]
  refine ⟨_, _, _, rfl, build?_eq edits, Buffer.toList_map _ _, rfl, rfl, ?_, hGrown.constants.room⟩
  rw [hLength, hLength]
  exact hGrown.cells.room

end Chunk

end StackCalculator
