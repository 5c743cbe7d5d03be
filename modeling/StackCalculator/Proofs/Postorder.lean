import StackCalculator.Proofs.Reading

/-!
Compiled code is the postorder of the parse tree: operands before their operator, literals
numbered from left to right, and one return at the end.
-/

namespace StackCalculator

/-- An expression whose literals are given by their index in a pool. Indices may repeat and need
not be valid. -/
inductive Indexed where
  | constant (index : UInt8)
  | binary (operator : Operator) (left right : Indexed)
  deriving DecidableEq

/-- The bytes that push the value of an expression: its postorder. -/
def Indexed.code : Indexed → List UInt8
  | .constant index => [Opcode.constant.byte, index]
  | .binary operator left right => left.code ++ right.code ++ [(Opcode.operate operator).byte]

/-- Numbers the literals of an expression from left to right. -/
def Expr.indexed (first : Nat) : Expr → Indexed
  | .literal _ => .constant (UInt8.ofNat first)
  | .binary operator left right =>
      .binary operator (left.indexed first) (right.indexed (first + left.literals.length))

/-- One instruction of a program, or what stands in the place of one. -/
inductive Instruction where
  | push (index : UInt8)
  | operate (operator : Operator)
  | negate
  | ret
  | unknown (byte : UInt8)
  /-- A `constant` opcode without its operand, at the end of the code. -/
  | truncated
  deriving DecidableEq

/-- The instructions of a program, taken one behind the other from its first byte on. -/
def decode : List UInt8 → List Instruction
  | [] => []
  | byte :: behind =>
      match Opcode.ofByte? byte with
      | none => .unknown byte :: decode behind
      | some .constant =>
          match behind with
          | [] => [.truncated]
          | index :: behind => .push index :: decode behind
      | some (.operate operator) => .operate operator :: decode behind
      | some .negate => .negate :: decode behind
      | some .ret => .ret :: decode behind

@[simp] theorem decode_constant (index : UInt8) (rest : List UInt8) :
    decode (Opcode.constant.byte :: index :: rest) = .push index :: decode rest := by
  rw [decode.eq_def]
  simp

@[simp] theorem decode_operate (operator : Operator) (rest : List UInt8) :
    decode ((Opcode.operate operator).byte :: rest) = .operate operator :: decode rest := by
  rw [decode.eq_def]
  simp

@[simp] theorem decode_ret (rest : List UInt8) :
    decode (Opcode.ret.byte :: rest) = .ret :: decode rest := by
  rw [decode.eq_def]
  simp

/-- The pool index that an instruction refers to. -/
def Instruction.index? : Instruction → Option Nat
  | .push index => some index.toNat
  | _ => none

namespace Indexed

def instructions : Indexed → List Instruction
  | .constant index => [.push index]
  | .binary operator left right => left.instructions ++ right.instructions ++ [.operate operator]

/-- The operand bytes of postorder code are not taken for opcodes, whatever their values. -/
theorem decode_code (t : Indexed) (rest : List UInt8) :
    decode (t.code ++ rest) = t.instructions ++ decode rest := by
  induction t generalizing rest with
  | constant index => simp [code, instructions]
  | binary operator left right ihLeft ihRight =>
      simp [code, instructions, ihLeft, ihRight]

theorem mem_instructions {t : Indexed} {instruction : Instruction}
    (h : instruction ∈ t.instructions) :
    (∃ index, instruction = .push index) ∨ ∃ operator, instruction = .operate operator := by
  induction t with
  | constant index => exact .inl ⟨index, by simpa [instructions] using h⟩
  | binary operator left right ihLeft ihRight =>
      simp only [instructions, List.mem_append, List.mem_singleton] at h
      rcases h with (h | h) | h
      · exact ihLeft h
      · exact ihRight h
      · exact .inr ⟨operator, h⟩

end Indexed

namespace Expr

/-- Three bytes for each literal, less one: two that push it, and one for all operators but one. -/
theorem length_code_indexed (e : Expr) (first : Nat) :
    (e.indexed first).code.length + 1 = 3 * e.literals.length := by
  induction e generalizing first with
  | literal value => rfl
  | binary operator left right ihLeft ihRight =>
      have hLeft := ihLeft first
      have hRight := ihRight (first + left.literals.length)
      simp only [indexed, Indexed.code, literals, List.length_append, List.length_singleton]
      omega

/-- The operands of the code count the literals, as long as a byte can hold the count. -/
theorem indices_indexed (e : Expr) (first : Nat) (hBytes : first + e.literals.length ≤ 256) :
    (e.indexed first).instructions.filterMap Instruction.index? =
      List.range' first e.literals.length := by
  induction e generalizing first with
  | literal value =>
      have hByte : (UInt8.ofNat first).toNat = first := UInt8.toNat_ofNat_of_lt' hBytes
      simp [indexed, Indexed.instructions, Instruction.index?, literals, hByte]
  | binary operator left right ihLeft ihRight =>
      simp only [literals, List.length_append] at hBytes
      simp only [indexed, Indexed.instructions, literals, List.filterMap_append, List.length_append,
        ihLeft first (by omega), ihRight (first + left.literals.length) (by omega)]
      simp [Instruction.index?, List.range'_append_1]

end Expr

namespace Chunk

/-- A chunk that holds the given code, all of it on one line, and the given constants. -/
def assemble (code : List UInt8) (constants : Array Number) : Chunk where
  cells := ⟨(code.map (⟨·, 1⟩)).toArray, code.length⟩
  constants := ⟨constants, constants.size⟩

@[simp] theorem code_assemble (code : List UInt8) (constants : Array Number) :
    (assemble code constants).code = code := by
  simp [assemble, Chunk.code, Buffer.toList, Function.comp_def]

@[simp] theorem code_write (chunk : Chunk) (byte : UInt8) (line : Nat) :
    (chunk.write byte line).code = chunk.code ++ [byte] := by
  simp [write, code]

@[simp] theorem constants_write (chunk : Chunk) (byte : UInt8) (line : Nat) :
    (chunk.write byte line).constants = chunk.constants :=
  rfl

/-- Every literal of a tree gets a constant of its own, in the order of the source. -/
theorem constants_emit (chunk : Chunk) (tree : Tree) :
    (chunk.emit tree).constants.toList = chunk.constants.toList ++ tree.toExpr.literals := by
  induction tree generalizing chunk with
  | literal token value => simp [emit, addConstant, Tree.toExpr, Expr.literals]
  | group opening inner closing ih => exact ih chunk
  | binary left operator sign right ihLeft ihRight =>
      simp [emit, Tree.toExpr, Expr.literals, ihLeft, ihRight]

theorem size_constants_emit (chunk : Chunk) (tree : Tree) :
    (chunk.emit tree).constants.size = chunk.constants.size + tree.toExpr.literals.length := by
  rw [← Buffer.length_toList, constants_emit, List.length_append, Buffer.length_toList]

/-- Emitting a tree appends its postorder. Groups leave no trace in it. -/
theorem code_emit (chunk : Chunk) (tree : Tree) :
    (chunk.emit tree).code = chunk.code ++ (tree.toExpr.indexed chunk.constants.size).code := by
  induction tree generalizing chunk with
  | literal token value =>
      have hCode : ({ chunk with constants := chunk.constants.push value } : Chunk).code =
          chunk.code := rfl
      simp [emit, addConstant, Tree.toExpr, Expr.indexed, Indexed.code, hCode]
  | group opening inner closing ih => exact ih chunk
  | binary left operator sign right ihLeft ihRight =>
      simp [emit, Tree.toExpr, Expr.indexed, Indexed.code, ihLeft, ihRight, size_constants_emit]

theorem constants_ofTree (tree : Tree) (endLine : Nat) :
    (ofTree tree endLine).constants.toList = tree.toExpr.literals := by
  rw [ofTree, constants_write, constants_emit]
  rfl

theorem code_ofTree (tree : Tree) (endLine : Nat) :
    (ofTree tree endLine).code = (tree.toExpr.indexed 0).code ++ [Opcode.ret.byte] := by
  rw [ofTree, code_write, code_emit]
  rfl

theorem decode_ofTree (tree : Tree) (endLine : Nat) :
    decode (ofTree tree endLine).code = (tree.toExpr.indexed 0).instructions ++ [.ret] := by
  rw [code_ofTree, Indexed.decode_code, decode_ret]
  rfl

end Chunk

/-- The constants of compiled code are the literals of the parse tree in the order of the source,
none of them shared. The code is the postorder of the tree and a return, three bytes for each
literal. Read as instructions, it refers to the constants one after the other, returns only at its
end and never negates. -/
theorem compile_postorder {source : String} {chunk : Chunk} (hCompile : compile source = .ok chunk) :
    ∃ tree endLine, IsParse source tree endLine ∧
      (∀ other line, IsParse source other line → other = tree) ∧
      chunk.constants.toList = tree.toExpr.literals ∧
      chunk.constants.toList.map some = (tree.tokens.filter (·.kind = .number)).map
        (fun token => (Decimal.read? token.lexeme.toList).map Decimal.toNumber) ∧
      chunk.code = (tree.toExpr.indexed 0).code ++ [Opcode.ret.byte] ∧
      chunk.code.length = 3 * chunk.constants.size ∧
      (decode chunk.code).filterMap Instruction.index? = List.range chunk.constants.size ∧
      (∀ index, Instruction.push index ∈ decode chunk.code →
        index.toNat < chunk.constants.size) ∧
      (∃ body, decode chunk.code = body ++ [.ret] ∧ Instruction.ret ∉ body) ∧
      Instruction.negate ∉ decode chunk.code := by
  obtain ⟨tree, endLine, hParse, hUnique, hLiterals, rfl⟩ := exists_parse_of_compile hCompile
  have hConstants := Chunk.constants_ofTree tree endLine
  have hSize : (Chunk.ofTree tree endLine).constants.size = tree.toExpr.literals.length := by
    rw [← hConstants, Buffer.length_toList]
  have hDecode := Chunk.decode_ofTree tree endLine
  have hIndices : (decode (Chunk.ofTree tree endLine).code).filterMap Instruction.index? =
      List.range (Chunk.ofTree tree endLine).constants.size := by
    rw [hDecode, hSize, List.filterMap_append, Expr.indices_indexed _ 0 (by omega),
      List.range_eq_range']
    exact List.append_nil _
  refine ⟨tree, endLine, hParse, hUnique, hConstants, ?_, Chunk.code_ofTree tree endLine, ?_,
    hIndices, ?_, ⟨_, hDecode, ?_⟩, ?_⟩
  · rw [hConstants, hParse.layered.literals_eq]
  · rw [Chunk.code_ofTree, List.length_append, List.length_singleton, Expr.length_code_indexed,
      hSize]
  · intro index hIndex
    rw [← List.mem_range, ← hIndices]
    exact List.mem_filterMap.mpr ⟨_, hIndex, rfl⟩
  · intro hRet
    rcases Indexed.mem_instructions hRet with ⟨_, h⟩ | ⟨_, h⟩ <;> cases h
  · intro hNegate
    rw [hDecode, List.mem_append] at hNegate
    rcases hNegate with hNegate | hNegate
    · rcases Indexed.mem_instructions hNegate with ⟨_, h⟩ | ⟨_, h⟩ <;> cases h
    · simp at hNegate

/-- A group behind a product: its code follows the product's, and the quotient takes both. -/
theorem compile_postorder_of_group :
    ∃ chunk, compile "2*3/(4-1)" = .ok chunk ∧
      chunk.code = [1, 0, 1, 1, 4, 1, 2, 1, 3, 3, 5, 7] ∧
      ∃ tree endLine, IsParse "2*3/(4-1)" tree endLine ∧
        chunk.code = (tree.toExpr.indexed 0).code ++ [Opcode.ret.byte] := by
  have hOk : (compile "2*3/(4-1)").toOption.map Chunk.code =
      some [1, 0, 1, 1, 4, 1, 2, 1, 3, 3, 5, 7] := by decide +kernel
  obtain ⟨chunk, hChunk, hCode⟩ := Option.map_eq_some_iff.mp hOk
  have hCompile : compile "2*3/(4-1)" = .ok chunk := by
    cases hResult : compile "2*3/(4-1)" <;> simp_all [Except.toOption]
  obtain ⟨tree, endLine, hParse, _, _, _, hPostorder, _⟩ := compile_postorder hCompile
  exact ⟨chunk, hCompile, hCode, tree, endLine, hParse, hPostorder⟩

end StackCalculator
