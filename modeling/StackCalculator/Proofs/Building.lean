import Mathlib.Data.List.Induction
import StackCalculator.Chunk.Basic

/-!
Chunks that are being built. Bytes are written, constants are added and copies are made in any order.
The code, the line table and the constants can be kept in three buffers of their own, each of which
asks for the room that it is short of; they keep in step, and an index that has been given out stays
good.
-/

namespace StackCalculator

namespace Buffer

variable {α β : Type}

/-- A buffer has room for the items that it holds. -/
def Fits (b : Buffer α) : Prop :=
  b.size ≤ b.capacity

/-- Reserves room for some more items, and no more than that. If there is enough already, nothing
changes. -/
def reserve (b : Buffer α) (more : Nat) : Buffer α :=
  if more ≤ b.capacity - b.size then b else { b with capacity := b.size + more }

/-- Makes room for an item. A full buffer reserves what the next larger capacity has beyond its items,
and there is nothing to reserve if that capacity is less. -/
def makeRoom? (b : Buffer α) : Option (Buffer α) :=
  if b.size < b.capacity then
    some b
  else if b.size ≤ grown b.capacity then
    some (b.reserve (grown b.capacity - b.size))
  else
    none

/-- Appends an item where there is room for it. -/
def place? (b : Buffer α) (item : α) : Option (Buffer α) :=
  if b.size < b.capacity then some { b with items := b.items.push item } else none

/-- The buffer with each item replaced. -/
def map (f : α → β) (b : Buffer α) : Buffer β where
  items := b.items.map f
  capacity := b.capacity

@[simp] theorem toList_map (f : α → β) (b : Buffer α) : (b.map f).toList = b.toList.map f := by
  simp [map, toList]

@[simp] theorem size_map (f : α → β) (b : Buffer α) : (b.map f).size = b.size := by
  simp [map, size]

theorem map_push (f : α → β) (b : Buffer α) (item : α) :
    (b.push item).map f = (b.map f).push (f item) := by
  rw [push, push, size_map]
  exact congrArg (Buffer.mk · _) Array.map_push

theorem map_copy (f : α → β) (b : Buffer α) : b.copy.map f = (b.map f).copy := by
  simp [map, copy, size]

@[simp] theorem size_push (b : Buffer α) (item : α) : (b.push item).size = b.size + 1 := by
  simp [push, size]

theorem lt_grown (capacity : Nat) : capacity < grown capacity := by
  unfold grown minCapacity
  split <;> omega

theorem minCapacity_le_grown (capacity : Nat) : minCapacity ≤ grown capacity := by
  unfold grown
  split <;> omega

namespace Fits

variable {b : Buffer α}

theorem map (h : b.Fits) (f : α → β) : (b.map f).Fits := by
  rw [Fits, size_map]
  exact h

theorem copy (b : Buffer α) : b.copy.Fits :=
  Nat.le_refl _

theorem push (h : b.Fits) (item : α) : (b.push item).Fits := by
  have hGrown := lt_grown b.capacity
  have hSize : b.size ≤ b.capacity := h
  rw [Fits, size_push, Buffer.push]
  dsimp only
  split <;> omega

/-- In a buffer that fits, there is always room to be made for an item, and the item then goes where
it is appended. -/
theorem exists_makeRoom? (h : b.Fits) :
    ∃ roomy, b.makeRoom? = some roomy ∧ ∀ item, roomy.place? item = some (b.push item) := by
  have hSize : b.size ≤ b.capacity := h
  by_cases hRoom : b.size < b.capacity
  · refine ⟨b, if_pos hRoom, fun item => ?_⟩
    rw [place?, if_pos hRoom, Buffer.push, if_pos hRoom]
  · have hGrown := lt_grown b.capacity
    have hReserve : b.reserve (grown b.capacity - b.size) =
        { b with capacity := grown b.capacity } := by
      rw [reserve, if_neg (by omega), Nat.add_sub_cancel' (by omega)]
    refine ⟨b.reserve (grown b.capacity - b.size), ?_, fun item => ?_⟩
    · rw [makeRoom?, if_neg hRoom, if_pos (by omega)]
    · have hRoomy : b.size < grown b.capacity := Nat.lt_of_le_of_lt hSize hGrown
      rw [hReserve, Buffer.push, if_neg hRoom]
      exact if_pos hRoomy

end Fits

end Buffer

/-- A chunk with its code, its line table and its constants in three buffers. -/
structure Columns where
  bytes : Buffer UInt8 := {}
  lines : Buffer Nat := {}
  constants : Buffer Number := {}

namespace Columns

/-- Appends a byte and its line, once there is room for both. -/
def write? (c : Columns) (byte : UInt8) (line : Nat) : Option Columns := do
  let bytes ← c.bytes.makeRoom?
  let lines ← c.lines.makeRoom?
  let bytes ← bytes.place? byte
  let lines ← lines.place? line
  some { c with bytes := bytes, lines := lines }

/-- Appends a constant and gives the index of the last one. -/
def addConstant? (c : Columns) (value : Number) : Option (Nat × Columns) := do
  let roomy ← c.constants.makeRoom?
  let constants ← roomy.place? value
  some (constants.size - 1, { c with constants := constants })

def copy (c : Columns) : Columns where
  bytes := c.bytes.copy
  lines := c.lines.copy
  constants := c.constants.copy

end Columns

namespace Chunk

/-- What can be done to a chunk while it is built. -/
inductive Edit where
  | write (byte : UInt8) (line : Nat)
  /-- Writes a byte that has to be an opcode. -/
  | writeOpcode (byte : UInt8) (line : Nat)
  | addConstant (value : Number)
  /-- Goes on with a copy of the chunk. -/
  | copy

/-- What an edit gives back. -/
inductive Reply where
  | done
  | index (index : Nat)
  | unknownOpcode (byte : UInt8)
  deriving DecidableEq

/-- The cells that an edit writes. A byte that is refused is not written. -/
def Edit.cells : Edit → List Cell
  | .write byte line => [⟨byte, line⟩]
  | .writeOpcode byte line => if (Opcode.ofByte? byte).isSome then [⟨byte, line⟩] else []
  | .addConstant _ | .copy => []

/-- The constants that an edit adds. -/
def Edit.values : Edit → List Number
  | .addConstant value => [value]
  | .write _ _ | .writeOpcode _ _ | .copy => []

def edit (chunk : Chunk) : Edit → Reply × Chunk
  | .write byte line => (.done, chunk.write byte line)
  | .writeOpcode byte line =>
      match Opcode.ofByte? byte with
      | none => (.unknownOpcode byte, chunk)
      | some opcode => (.done, chunk.write opcode.byte line)
  | .addConstant value =>
      let (index, chunk) := chunk.addConstant value
      (.index index, chunk)
  | .copy => (.done, chunk.copy)

/-- Builds a chunk from nothing: the replies to all edits, and the chunk in the end. -/
def build (edits : List Edit) : List Reply × Chunk :=
  edits.foldl
    (fun (replies, chunk) edit =>
      let (reply, after) := chunk.edit edit
      (replies ++ [reply], after))
    ([], {})

/-- The three buffers that a chunk takes the place of. -/
def columns (chunk : Chunk) : Columns where
  bytes := chunk.cells.map (·.byte)
  lines := chunk.cells.map (·.line)
  constants := chunk.constants

/-- A chunk has room for what it holds. -/
structure Fits (chunk : Chunk) : Prop where
  cells : chunk.cells.Fits
  constants : chunk.constants.Fits

end Chunk

namespace Columns

open Chunk (Edit Reply)

def edit? (c : Columns) : Edit → Option (Reply × Columns)
  | .write byte line => (c.write? byte line).map (Reply.done, ·)
  | .writeOpcode byte line =>
      match Opcode.ofByte? byte with
      | none => some (.unknownOpcode byte, c)
      | some opcode => (c.write? opcode.byte line).map (Reply.done, ·)
  | .addConstant value => (c.addConstant? value).map fun (index, c) => (.index index, c)
  | .copy => some (.done, c.copy)

/-- Builds from nothing in three buffers. -/
def build? (edits : List Edit) : Option (List Reply × Columns) :=
  edits.foldlM
    (fun (replies, c) edit => do
      let (reply, after) ← c.edit? edit
      some (replies ++ [reply], after))
    ([], {})

end Columns

namespace Chunk

namespace Fits

variable {chunk : Chunk}

theorem empty : ({} : Chunk).Fits :=
  ⟨Nat.le_refl 0, Nat.le_refl 0⟩

/-- Writing to a chunk comes to the same as writing to its three buffers. -/
theorem write? (h : chunk.Fits) (byte : UInt8) (line : Nat) :
    chunk.columns.write? byte line = some (chunk.write byte line).columns := by
  obtain ⟨bytes, hBytes, hByte⟩ := (h.cells.map (·.byte)).exists_makeRoom?
  obtain ⟨lines, hLines, hLine⟩ := (h.cells.map (·.line)).exists_makeRoom?
  simp [Columns.write?, columns, hBytes, hByte, hLines, hLine, write, Buffer.map_push]

theorem addConstant? (h : chunk.Fits) (value : Number) :
    chunk.columns.addConstant? value =
      some ((chunk.addConstant value).1, (chunk.addConstant value).2.columns) := by
  obtain ⟨roomy, hRoomy, hPlace⟩ := h.constants.exists_makeRoom?
  simp [Columns.addConstant?, columns, hRoomy, hPlace, addConstant]

/-- Every edit comes to the same on the three buffers, and none of them runs out of room. -/
theorem edit? (h : chunk.Fits) (edit : Edit) :
    chunk.columns.edit? edit = some ((chunk.edit edit).1, (chunk.edit edit).2.columns) := by
  cases edit with
  | write byte line =>
      rw [Columns.edit?, h.write?]
      rfl
  | writeOpcode byte line =>
      rw [Columns.edit?, Chunk.edit]
      split
      · rfl
      · rw [h.write?]
        rfl
  | addConstant value =>
      rw [Columns.edit?, h.addConstant?]
      rfl
  | copy => simp [Columns.edit?, Chunk.edit, Columns.copy, columns, Chunk.copy, Buffer.map_copy]

theorem edit (h : chunk.Fits) (edit : Edit) : (chunk.edit edit).2.Fits := by
  have hWrite (byte : UInt8) (line : Nat) : (chunk.write byte line).Fits :=
    ⟨h.cells.push _, h.constants⟩
  cases edit with
  | write byte line => exact hWrite byte line
  | writeOpcode byte line =>
      rw [Chunk.edit]
      split
      · exact h
      · exact hWrite _ line
  | addConstant value => exact ⟨h.cells, h.constants.push value⟩
  | copy => exact ⟨.copy _, .copy _⟩

end Fits

/-- An edit writes its cells behind those that are there. -/
theorem cells_edit (chunk : Chunk) (edit : Edit) :
    (chunk.edit edit).2.cells.toList = chunk.cells.toList ++ edit.cells := by
  cases edit with
  | write byte line => simp [Chunk.edit, write, Edit.cells]
  | writeOpcode byte line =>
      rw [Chunk.edit, Edit.cells]
      split
      · rename_i hNone
        simp [hNone]
      · rename_i hSome
        simp [hSome, write, Opcode.byte_of_ofByte? hSome]
  | addConstant value => simp [Chunk.edit, addConstant, Edit.cells]
  | copy => simp [Chunk.edit, copy, Edit.cells]

/-- An edit adds its constants behind those that are there. -/
theorem constants_edit (chunk : Chunk) (edit : Edit) :
    (chunk.edit edit).2.constants.toList = chunk.constants.toList ++ edit.values := by
  cases edit with
  | write byte line => simp [Chunk.edit, write, Edit.values]
  | writeOpcode byte line =>
      rw [Chunk.edit, Edit.values]
      split <;> simp [write]
  | addConstant value => simp [Chunk.edit, addConstant, Edit.values]
  | copy => simp [Chunk.edit, copy, Edit.values]

/-- Only a constant that is added gets an index, and that is how many there were before. -/
theorem reply_eq_index_iff {chunk : Chunk} {edit : Edit} {index : Nat} :
    (chunk.edit edit).1 = .index index ↔
      edit.values ≠ [] ∧ index = chunk.constants.toList.length := by
  cases edit with
  | writeOpcode byte line =>
      rw [Chunk.edit]
      split <;> simp [Edit.values]
  | write byte line | copy => simp [Chunk.edit, Edit.values]
  | addConstant value => simp [Chunk.edit, Edit.values, addConstant, eq_comm]

@[simp] theorem build_nil : build [] = ([], {}) :=
  rfl

theorem build_concat (edits : List Edit) (edit : Edit) :
    build (edits ++ [edit]) =
      ((build edits).1 ++ [((build edits).2.edit edit).1], ((build edits).2.edit edit).2) := by
  simp [build]

theorem fits_build (edits : List Edit) : (build edits).2.Fits := by
  induction edits using List.reverseRecOn with
  | nil => exact .empty
  | append_singleton edits edit ih =>
      rw [build_concat]
      exact ih.edit edit

/-- Building a chunk comes to the same as building its three buffers. -/
theorem build?_eq (edits : List Edit) :
    Columns.build? edits = some ((build edits).1, (build edits).2.columns) := by
  induction edits using List.reverseRecOn with
  | nil => simp [Columns.build?, columns, Buffer.map]
  | append_singleton edits edit ih =>
      have hEdit := (fits_build edits).edit? edit
      rw [Columns.build?] at ih ⊢
      rw [List.foldlM_append, ih, build_concat]
      simp [hEdit]

theorem cells_build (edits : List Edit) :
    (build edits).2.cells.toList = edits.flatMap Edit.cells := by
  induction edits using List.reverseRecOn with
  | nil => rfl
  | append_singleton edits edit ih => simp [build_concat, cells_edit, ih]

theorem constants_build (edits : List Edit) :
    (build edits).2.constants.toList = edits.flatMap Edit.values := by
  induction edits using List.reverseRecOn with
  | nil => rfl
  | append_singleton edits edit ih => simp [build_concat, constants_edit, ih]

theorem length_replies (edits : List Edit) : (build edits).1.length = edits.length := by
  induction edits using List.reverseRecOn with
  | nil => rfl
  | append_singleton edits edit ih => simp [build_concat, ih]

/-- Further edits do not change the replies to those before. -/
theorem replies_prefix (earlier later : List Edit) :
    (build earlier).1 <+: (build (earlier ++ later)).1 := by
  induction later using List.reverseRecOn with
  | nil => simp
  | append_singleton later edit ih =>
      rw [← List.append_assoc, build_concat]
      exact ih.trans (List.prefix_append _ _)

/-- The reply to an edit depends on the chunk that has been built before it. -/
theorem reply_at (earlier later : List Edit) (edit : Edit) :
    (build (earlier ++ edit :: later)).1[earlier.length]? =
      some ((build earlier).2.edit edit).1 := by
  obtain ⟨further, hFurther⟩ := replies_prefix (earlier ++ [edit]) later
  rw [List.append_assoc, List.singleton_append] at hFurther
  rw [← hFurther, build_concat]
  simp [← length_replies earlier]

/-- The indices that have been given out are those below the number of constants. -/
theorem index_mem_replies_iff {edits : List Edit} {index : Nat} :
    .index index ∈ (build edits).1 ↔ index < (edits.flatMap Edit.values).length := by
  induction edits using List.reverseRecOn with
  | nil => simp
  | append_singleton edits edit ih =>
      rw [build_concat, List.mem_append, List.mem_singleton, ih, eq_comm, reply_eq_index_iff,
        constants_build, List.flatMap_append, List.length_append, List.flatMap_singleton]
      cases edit with
      | addConstant value =>
          rw [Edit.values, and_iff_right (List.cons_ne_nil value []), List.length_singleton]
          exact Nat.lt_succ_iff_lt_or_eq.symm
      | write | writeOpcode | copy => simp [Edit.values]

/-- A chunk is built up by any edits. Kept in three buffers, it never runs out of room. The code and
the line table have what was written, and nothing of what was refused; they are of one length. The
constants are those that were added, each of them again if it was there before. To each the reply is
the number of those before it, and whatever is done behind, it is found there again; at an index that
has not been given out there is nothing. All buffers have room for what they hold. -/
theorem build_keeps (edits : List Edit) :
    ∃ replies chunk columns, build edits = (replies, chunk) ∧
      Columns.build? edits = some (replies, columns) ∧
      (columns.bytes.toList = chunk.code ∧ columns.lines.toList = chunk.lines ∧
        columns.constants = chunk.constants) ∧
      columns.bytes.size = columns.lines.size ∧
      chunk.code = (edits.flatMap Edit.cells).map (·.byte) ∧
      chunk.lines = (edits.flatMap Edit.cells).map (·.line) ∧
      chunk.constants.toList = edits.flatMap Edit.values ∧
      (∀ earlier value later, edits = earlier ++ .addConstant value :: later →
        let index := (earlier.flatMap Edit.values).length
        replies[earlier.length]? = some (.index index) ∧ chunk.constant? index = some value) ∧
      (∀ index, .index index ∉ replies → chunk.constant? index = none) ∧
      columns.bytes.size ≤ columns.bytes.capacity ∧ columns.lines.size ≤ columns.lines.capacity ∧
      columns.constants.size ≤ columns.constants.capacity ∧
      columns.bytes.capacity = chunk.cells.capacity := by
  have hCells := cells_build edits
  have hConstants := constants_build edits
  have hFits := fits_build edits
  have hConstant (index : Nat) :
      (build edits).2.constant? index = (edits.flatMap Edit.values)[index]? := by
    rw [← hConstants, constant?, pool, ← Array.getElem?_toList]
    rfl
  refine ⟨(build edits).1, (build edits).2, (build edits).2.columns, rfl, build?_eq edits,
    ⟨Buffer.toList_map _ _, Buffer.toList_map _ _, rfl⟩, ?_, ?_, ?_, hConstants, ?_, ?_,
    hFits.cells.map _, hFits.cells.map _, hFits.constants, rfl⟩
  · simp [columns]
  · rw [code, hCells]
  · rw [lines, hCells]
  · rintro earlier value later rfl
    refine ⟨?_, ?_⟩
    · rw [reply_at, Chunk.edit, ← constants_build, Buffer.length_toList]
      rfl
    · rw [hConstant]
      simp [Edit.values]
  · intro index hFresh
    rw [index_mem_replies_iff, Nat.not_lt] at hFresh
    rw [hConstant, List.getElem?_eq_none hFresh]

end Chunk

end StackCalculator
