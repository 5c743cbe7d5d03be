import StackCalculator.Proofs.Evaluation

/-!
Reading compiled code back. From the code and the constants alone, without the source, the
expression can be told again, so different expressions never share their code.
-/

namespace StackCalculator

/-- Reads the rest of a program back as an expression. The stack holds the expressions that have
been read and not yet used, the top first. There is none if the program is not the postorder of an
expression over the pool and a return. -/
def readBack (pool : Array Number) : List Expr → List Instruction → Option Expr
  | stack, .push index :: rest =>
      match pool[index.toNat]? with
      | none => none
      | some value => readBack pool (.literal value :: stack) rest
  | right :: left :: below, .operate operator :: rest =>
      readBack pool (.binary operator left right :: below) rest
  | [e], [.ret] => some e
  | _, _ => none

/-- The expression that a chunk computes, read off its code. -/
def Chunk.expression? (chunk : Chunk) : Option Expr :=
  readBack chunk.pool [] (decode chunk.code)

/-- Reading postorder back puts its expression on the stack, whatever is on it already and whatever
follows. -/
theorem Indexed.readBack_instructions {pool : Array Number} {t : Indexed} {e : Expr}
    (h : t.lookup pool = some e) (stack : List Expr) (rest : List Instruction) :
    readBack pool stack (t.instructions ++ rest) = readBack pool (e :: stack) rest := by
  induction t generalizing e stack rest with
  | constant index =>
      obtain ⟨value, hValue, rfl⟩ := Option.map_eq_some_iff.mp h
      simp [instructions, readBack, hValue]
  | binary operator left right ihLeft ihRight =>
      rw [lookup] at h
      split at h
      · rename_i leftExpr rightExpr hLeft hRight
        cases h
        rw [instructions, List.append_assoc, List.append_assoc, ihLeft hLeft, ihRight hRight,
          List.singleton_append, readBack]
      · cases h

/-- Compiled code is read back as the expression of its tree, if one byte can number the
literals. -/
theorem Chunk.expression?_ofTree (tree : Tree) (endLine : Nat)
    (hLiterals : tree.toExpr.literals.length ≤ 256) :
    (ofTree tree endLine).expression? = some tree.toExpr := by
  rw [expression?, decode_ofTree,
    Indexed.readBack_instructions (lookup_ofTree tree endLine hLiterals), readBack]

/-- What is read back depends on the bytes and the constants only. -/
theorem Chunk.expression?_congr {chunk other : Chunk} (hCode : chunk.code = other.code)
    (hConstants : chunk.constants.toList = other.constants.toList) :
    chunk.expression? = other.expression? := by
  have hPool : chunk.pool = other.pool := Array.toList_inj.mp hConstants
  rw [expression?, expression?, hCode, hPool]

/-- Two texts that compile have the same code and the same constants, bit for bit, if and only if
the parses of both stand for the same expression. Groups, layout and the spelling of literals make
no difference to the code, and anything else does. -/
theorem code_identifies_expression {source other : String} {chunk otherChunk : Chunk}
    (hCompile : compile source = .ok chunk) (hOther : compile other = .ok otherChunk) :
    ∃ tree endLine otherTree otherLine,
      IsParse source tree endLine ∧ IsParse other otherTree otherLine ∧
      (∀ another line, IsParse source another line → another = tree) ∧
      (∀ another line, IsParse other another line → another = otherTree) ∧
      (chunk.code = otherChunk.code ∧ chunk.constants.toList = otherChunk.constants.toList ↔
        tree.toExpr = otherTree.toExpr) := by
  obtain ⟨tree, endLine, hParse, hUnique, hLiterals, rfl⟩ := exists_parse_of_compile hCompile
  obtain ⟨otherTree, otherLine, hOtherParse, hOtherUnique, hOtherLiterals, rfl⟩ :=
    exists_parse_of_compile hOther
  refine ⟨tree, endLine, otherTree, otherLine, hParse, hOtherParse, hUnique, hOtherUnique, ?_, ?_⟩
  · rintro ⟨hCode, hConstants⟩
    have hSame := Chunk.expression?_congr hCode hConstants
    rw [Chunk.expression?_ofTree tree endLine hLiterals,
      Chunk.expression?_ofTree otherTree otherLine hOtherLiterals] at hSame
    exact Option.some.inj hSame
  · intro hSame
    rw [Chunk.code_ofTree, Chunk.code_ofTree, Chunk.constants_ofTree, Chunk.constants_ofTree, hSame]
    exact ⟨rfl, rfl⟩

/-- A second line, another group and other spellings of the same numbers leave the code as it is.
The line table is another one. -/
theorem code_identifies_expression_layout :
    ∃ chunk other, compile "(1+2)*3" = .ok chunk ∧ compile "((1.0) + 02)\n* 3" = .ok other ∧
      chunk.lines ≠ other.lines ∧ chunk.code = other.code ∧
      chunk.constants.toList = other.constants.toList := by
  have hTree : (Tree.ofSource "(1+2)*3").toOption.map (·.1.toExpr) =
      (Tree.ofSource "((1.0) + 02)\n* 3").toOption.map (·.1.toExpr) := by decide +kernel
  have hLines : (compile "(1+2)*3").toOption.map Chunk.lines = some (List.replicate 9 1) := by
    decide +kernel
  have hOtherLines : (compile "((1.0) + 02)\n* 3").toOption.map Chunk.lines =
      some [1, 1, 1, 1, 1, 2, 2, 2, 2] := by decide +kernel
  obtain ⟨chunk, hCompile, hChunk⟩ := exists_ok_of_toOption hLines
  obtain ⟨other, hOther, hOtherChunk⟩ := exists_ok_of_toOption hOtherLines
  obtain ⟨tree, endLine, otherTree, otherLine, _, _, hUnique, hOtherUnique, hIff⟩ :=
    code_identifies_expression hCompile hOther
  obtain ⟨_, _, hRead, _⟩ := compile_eq_ok_iff.mp hCompile
  obtain ⟨_, _, hOtherRead, _⟩ := compile_eq_ok_iff.mp hOther
  obtain rfl := hUnique _ _ (Tree.ofSource_eq_ok_iff.mp hRead).1
  obtain rfl := hOtherUnique _ _ (Tree.ofSource_eq_ok_iff.mp hOtherRead).1
  rw [hRead, hOtherRead] at hTree
  refine ⟨chunk, other, hCompile, hOther, ?_, hIff.mpr (Option.some.inj hTree)⟩
  rw [hChunk, hOtherChunk]
  decide

end StackCalculator
