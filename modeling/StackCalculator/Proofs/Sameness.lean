import StackCalculator.Proofs.Notation
import StackCalculator.Proofs.Postorder
import StackCalculator.Proofs.Slots

/-!
Comparing chunks. Constants are compared by value, which is not equality: a NaN differs from itself,
and zeros of both signs agree although their reciprocals do not. Literals have neither, so compiled
chunks agree only if they are equal, byte for byte and bit for bit.
-/

namespace StackCalculator

/-- A number that a literal can have: neither a NaN nor behind a sign. Infinity is one. -/
structure Number.IsMagnitude (x : Number) : Prop where
  not_nan : x.isNaN = false
  not_negative : x.isNegative = false

namespace Number

theorem IsMagnitude.eq_ofRank {x : Number} (h : x.IsMagnitude) :
    ∃ rank ≤ infinityRank, x = ofRank rank :=
  ⟨x.rank, rank_le_of_not_nan h.not_nan, Number.eq_ofRank h.not_negative⟩

/-- Numbers of literals are the same by value only if they have the same bits. -/
theorem IsMagnitude.sameValue_iff {x y : Number} (hx : x.IsMagnitude) (hy : y.IsMagnitude) :
    x.sameValue y = true ↔ x = y := by
  obtain ⟨rank, hRank, rfl⟩ := hx.eq_ofRank
  obtain ⟨other, hOther, rfl⟩ := hy.eq_ofRank
  rw [sameValue, compare?_ofRank hRank hOther, beq_iff_eq, Option.some_inj, compare_eq_iff_eq,
    Int.ofNat_inj]
  constructor
  · rintro rfl
    rfl
  · intro hSame
    rw [← rank_ofRank (hRank.trans_lt infinityRank_lt_magnitudeCount), hSame,
      rank_ofRank (hOther.trans_lt infinityRank_lt_magnitudeCount)]

end Number

theorem Decimal.toNumber_isMagnitude (d : Decimal) : d.toNumber.IsMagnitude := by
  have hRank := d.rank_toNumber_le
  rw [d.toNumber_eq_ofRank]
  exact ⟨Number.isNaN_ofRank hRank,
    Number.isNegative_ofRank (hRank.trans_lt Number.infinityRank_lt_magnitudeCount)⟩

/-- The literals of a parse tree are numbers that decimals are rounded to. -/
theorem Tree.Layered.isMagnitude {tree : Tree} {binding : Nat} (h : tree.Layered binding)
    {value : Number} (hValue : value ∈ tree.toExpr.literals) : value.IsMagnitude := by
  have hSome : some value ∈ tree.toExpr.literals.map some := List.mem_map_of_mem hValue
  rw [← h.literals_eq] at hSome
  obtain ⟨token, _, hRead⟩ := List.mem_map.mp hSome
  obtain ⟨decimal, _, rfl⟩ := Option.map_eq_some_iff.mp hRead
  exact decimal.toNumber_isMagnitude

theorem isMagnitude_of_compile {source : String} {chunk : Chunk} (h : compile source = .ok chunk)
    {value : Number} (hValue : value ∈ chunk.constants.toList) : value.IsMagnitude := by
  obtain ⟨tree, endLine, hParse, _, _, rfl⟩ := exists_parse_of_compile h
  rw [Chunk.constants_ofTree] at hValue
  exact hParse.layered.isMagnitude hValue

namespace Chunk

/-- A byte has one line, so the code and the line table together are the cells. -/
theorem cells_eq_iff {a b : Chunk} :
    a.cells.toList = b.cells.toList ↔ a.code = b.code ∧ a.lines = b.lines := by
  have hCells (chunk : Chunk) :
      chunk.cells.toList = List.zipWith Cell.mk chunk.code chunk.lines := by
    simp [code, lines, List.zipWith_map_left, List.zipWith_map_right]
  constructor
  · intro hSame
    rw [code, lines, hSame]
    exact ⟨rfl, rfl⟩
  · rintro ⟨hCode, hLines⟩
    rw [hCells a, hCells b, hCode, hLines]

/-- Constants are compared one by one, and none may be left over. -/
theorem sameContents_iff {a b : Chunk} :
    a.sameContents b = true ↔ a.cells.toList = b.cells.toList ∧
      List.Forall₂ (fun x y => x.sameValue y = true) a.constants.toList b.constants.toList := by
  rw [sameContents, Bool.and_eq_true, beq_iff_eq, ← Buffer.length_toList, ← Buffer.length_toList]
  refine and_congr_right fun _ => ?_
  generalize a.constants.toList = xs, b.constants.toList = ys
  induction xs generalizing ys with
  | nil => cases ys <;> simp
  | cons x xs ih =>
      cases ys with
      | nil => simp
      | cons y ys =>
          rw [List.forall₂_cons, ← ih]
          simp [and_left_comm]

/-- Chunks without NaNs and signs among their constants are the same only if they are equal in
everything but the room that is reserved. -/
theorem sameContents_iff_of_isMagnitude {a b : Chunk}
    (ha : ∀ value ∈ a.constants.toList, value.IsMagnitude)
    (hb : ∀ value ∈ b.constants.toList, value.IsMagnitude) :
    a.sameContents b = true ↔
      a.cells.toList = b.cells.toList ∧ a.constants.toList = b.constants.toList := by
  rw [sameContents_iff]
  refine and_congr_right fun _ => ?_
  generalize a.constants.toList = xs, b.constants.toList = ys at ha hb
  induction xs generalizing ys with
  | nil => cases ys <;> simp
  | cons x xs ih =>
      cases ys with
      | nil => simp
      | cons y ys =>
          obtain ⟨hx, hxs⟩ := List.forall_mem_cons.mp ha
          obtain ⟨hy, hys⟩ := List.forall_mem_cons.mp hb
          rw [List.forall₂_cons, ih ys hxs hys, hx.sameValue_iff hy, List.cons.injEq]

/-- The chunk with other room reserved in its buffers. -/
def withRoom (chunk : Chunk) (cells constants : Nat) : Chunk where
  cells := { chunk.cells with capacity := cells }
  constants := { chunk.constants with capacity := constants }

theorem exists_withRoom {a b : Chunk} (hCells : a.cells.toList = b.cells.toList)
    (hConstants : a.constants.toList = b.constants.toList) :
    ∃ cells constants, a = b.withRoom cells constants := by
  obtain ⟨⟨cells, cellRoom⟩, ⟨constants, constantRoom⟩⟩ := a
  obtain rfl := Array.toList_inj.mp hCells
  obtain rfl := Array.toList_inj.mp hConstants
  exact ⟨cellRoom, constantRoom, rfl⟩

end Chunk

namespace Session

variable {σ : Type} [Sink σ]

theorem run_withRoom (session : Session σ) (chunk : Chunk) (cells constants : Nat) :
    session.run (chunk.withRoom cells constants) = session.run chunk := by
  have hHalted := @Machine.execute_eq_of_steps chunk (chunk.withRoom cells constants)
    (fun _ => False) (fun _ _ => rfl) session.reset.registers fun _ _ => not_false
  rw [run, run, hHalted]
  rfl

/-- Two chunks of compiled code are the same if and only if they have the same bytes on the same
lines and the same constants bit by bit, since no constant is a NaN or has a sign. So a chunk is the
same as itself, and nothing that a session does tells two that are the same apart. The room that is
reserved in their buffers never counts. -/
theorem sameContents_faithful {source other : String} {chunk otherChunk : Chunk}
    (hCompile : compile source = .ok chunk) (hOther : compile other = .ok otherChunk) :
    (chunk.sameContents otherChunk = true ↔ chunk.code = otherChunk.code ∧
      chunk.lines = otherChunk.lines ∧ chunk.constants.toList = otherChunk.constants.toList) ∧
    (∀ value ∈ chunk.constants.toList, value.isNaN = false ∧ value.isNegative = false) ∧
    chunk.sameContents chunk = true ∧
    (chunk.sameContents otherChunk = true →
      ∀ session : Session σ, session.run chunk = session.run otherChunk) ∧
    ∀ cells constants otherCells otherConstants,
      (chunk.withRoom cells constants).sameContents
        (otherChunk.withRoom otherCells otherConstants) = chunk.sameContents otherChunk := by
  have hMagnitude : ∀ value ∈ chunk.constants.toList, value.IsMagnitude :=
    fun _ hValue => isMagnitude_of_compile hCompile hValue
  have hOtherMagnitude : ∀ value ∈ otherChunk.constants.toList, value.IsMagnitude :=
    fun _ hValue => isMagnitude_of_compile hOther hValue
  have hSame := Chunk.sameContents_iff_of_isMagnitude hMagnitude hOtherMagnitude
  refine ⟨?_, fun value hValue => ?_, ?_, fun h session => ?_, fun _ _ _ _ => rfl⟩
  · rw [hSame, Chunk.cells_eq_iff, and_assoc]
  · exact ⟨(hMagnitude value hValue).not_nan, (hMagnitude value hValue).not_negative⟩
  · exact (Chunk.sameContents_iff_of_isMagnitude hMagnitude hMagnitude).mpr ⟨rfl, rfl⟩
  · obtain ⟨hCells, hConstants⟩ := hSame.mp h
    obtain ⟨cells, constants, rfl⟩ := Chunk.exists_withRoom hCells hConstants
    exact session.run_withRoom otherChunk cells constants

/-- Another layout and another spelling of zero make no difference, and neither does the room of a
copy. The runs of both divide by zero. -/
theorem sameContents_faithful_layout :
    ∃ chunk otherChunk, compile "1/0" = .ok chunk ∧ compile "(1) / 00.0" = .ok otherChunk ∧
      chunk.sameContents otherChunk.copy = true ∧
      ∀ session : Session MemorySink, session.run chunk = session.run otherChunk := by
  have hKnown : (compile "1/0").toOption.map
        (fun chunk => (chunk.cells.toList, chunk.constants.toList)) =
      some ([⟨1, 1⟩, ⟨0, 1⟩, ⟨1, 1⟩, ⟨1, 1⟩, ⟨5, 1⟩, ⟨7, 1⟩], [⟨0x3FF0000000000000⟩, ⟨0⟩]) := by
    decide +kernel
  have hOtherKnown : (compile "(1) / 00.0").toOption.map
        (fun chunk => (chunk.cells.toList, chunk.constants.toList)) =
      some ([⟨1, 1⟩, ⟨0, 1⟩, ⟨1, 1⟩, ⟨1, 1⟩, ⟨5, 1⟩, ⟨7, 1⟩], [⟨0x3FF0000000000000⟩, ⟨0⟩]) := by
    decide +kernel
  obtain ⟨chunk, hCompile, hChunk⟩ := exists_ok_of_toOption hKnown
  obtain ⟨otherChunk, hOther, hOtherChunk⟩ := exists_ok_of_toOption hOtherKnown
  obtain ⟨hCells, hConstants⟩ := Prod.mk.inj (hChunk.trans hOtherChunk.symm)
  obtain ⟨hSame, _, _, hRun, hRoom⟩ :=
    sameContents_faithful (σ := MemorySink) hCompile hOther
  obtain ⟨hCode, hLines⟩ := Chunk.cells_eq_iff.mp hCells
  have hContents := hSame.mpr ⟨hCode, hLines, hConstants⟩
  exact ⟨chunk, otherChunk, hCompile, hOther, (hRoom _ _ _ _).trans hContents, hRun hContents⟩

/-- With constants that are no literals, neither direction holds: a chunk with a NaN differs from
itself, and zeros of both signs are the same. -/
example :
    let constant (bits : UInt64) : Chunk := ⟨{}, ⟨#[⟨bits⟩], 8⟩⟩
    (constant 0x7FF8000000000000).sameContents (constant 0x7FF8000000000000) = false ∧
      (constant 0).sameContents (constant 0x8000000000000000) = true := by
  decide

end Session

end StackCalculator
