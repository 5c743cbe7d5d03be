import Mathlib.Data.List.Forall2
import StackCalculator.Proofs.Execution
import StackCalculator.Proofs.LongestMatch

/-!
The line table of compiled code. Every instruction stands on the line of a token of its own part of
the source, and since the code follows the source, the lines never go back.
-/

namespace StackCalculator

namespace Tiling

/-- Nothing stands on a line before that of the text's beginning. -/
theorem le_line {before : List Char} {pieces : List Piece} (h : Tiling before pieces) {piece : Piece}
    (hPiece : piece ∈ pieces) : 1 + before.count '\n' ≤ Scanned.line piece.item := by
  obtain ⟨front, back, hSplit⟩ := List.append_of_mem hPiece
  rw [h.line_eq front piece back hSplit, List.append_assoc, List.count_append]
  omega

/-- The lines of what a text is cut into never go back. -/
theorem pairwise_line {before : List Char} {pieces : List Piece} (h : Tiling before pieces) :
    (pieces.map fun piece => Scanned.line piece.item).Pairwise (· ≤ ·) := by
  induction pieces generalizing before with
  | nil => exact List.Pairwise.nil
  | cons piece pieces ih =>
      rcases h.tail with ⟨_, rfl⟩ | ⟨_, hTail⟩
      · exact List.pairwise_singleton _ _
      · refine List.Pairwise.cons ?_ (ih hTail)
        intro line hLine
        obtain ⟨other, hOther, rfl⟩ := List.mem_map.mp hLine
        calc Scanned.line piece.item
          _ = 1 + (before ++ piece.blanks).count '\n' := h.head.2.2
          _ ≤ 1 + (before ++ piece.text).count '\n' := by
              simp only [Piece.text, List.count_append]
              omega
          _ ≤ Scanned.line other.item := hTail.le_line hOther

/-- The end of the input stands behind all newlines of the text. -/
theorem line_end {pieces : List Piece} {items : List Scanned} {line : Nat} (h : Tiling [] pieces)
    (hItems : pieces.map Piece.item = items ++ [.ok ⟨.endOfInput, "", line⟩]) :
    line = 1 + (pieces.flatMap Piece.text).count '\n' := by
  obtain ⟨front, last, rfl, _, _⟩ := h.ends
  rw [List.map_append, List.map_singleton] at hItems
  have hLast : last.item = .ok ⟨.endOfInput, "", line⟩ := by
    simpa using (List.append_inj' hItems rfl).2
  have hLine := h.line_eq front last [] rfl
  rw [hLast] at hLine
  simpa [Piece.text, Scanned.spelling, Scanned.line, hLast] using hLine

end Tiling

/-- The tokens of a text and its end are cut out of the text in their places. -/
theorem Spells.exists_tiling {source : String} {tokens : List Token} {line : Nat}
    (h : Spells source tokens line) :
    ∃ pieces, pieces.map Piece.item = tokens.map .ok ++ [.ok ⟨.endOfInput, "", line⟩] ∧
      pieces.flatMap Piece.text = source.toList ∧ Tiling [] pieces := by
  obtain ⟨pieces, hTiling, hText, hItems⟩ := exists_tiling_scanAll source
  exact ⟨pieces, hItems.symm.trans h, hText, hTiling⟩

namespace Tree

/-- The parts of a tree that need an instruction, operands before their operator. Groups need
none. -/
def nodes : Tree → List Tree
  | .literal token value => [.literal token value]
  | .group _ inner _ => inner.nodes
  | .binary left operator sign right =>
      left.nodes ++ right.nodes ++ [.binary left operator sign right]

/-- The source line of every byte of a tree's code. -/
def lines : Tree → List Nat
  | .literal token _ => [token.line, token.line]
  | .group _ inner _ => inner.lines
  | .binary left _ _ right => left.lines ++ right.lines ++ [right.lastLine]

theorem length_lines (tree : Tree) (first : Nat) :
    tree.lines.length = (tree.toExpr.indexed first).code.length := by
  induction tree generalizing first with
  | literal token value => rfl
  | group opening inner closing ih => exact ih first
  | binary left operator sign right ihLeft ihRight =>
      simp [lines, toExpr, Expr.indexed, Indexed.code, ← ihLeft, ← ihRight]

/-- A parse tree ends in a literal or in the closing of a group. -/
theorem Layered.exists_last {tree : Tree} {binding : Nat} (h : tree.Layered binding) :
    ∃ before last, tree.tokens = before ++ [last] ∧ last.line = tree.lastLine ∧
      (last.kind = .number ∨ last.kind = .rightParen) := by
  induction tree generalizing binding with
  | literal token value => exact ⟨[], token, rfl, rfl, .inl h.1⟩
  | group opening inner closing ih => exact ⟨opening :: inner.tokens, closing, rfl, rfl, .inr h.2.2⟩
  | binary left operator sign right ihLeft ihRight =>
      obtain ⟨before, last, hTokens, hLast⟩ := ihRight h.2.2.2
      exact ⟨left.tokens ++ sign :: before, last, by simp [tokens, hTokens], hLast⟩

/-- Every byte of a tree's code stands on the line of one of its tokens. -/
theorem Layered.exists_token {tree : Tree} {binding : Nat} (h : tree.Layered binding) {line : Nat}
    (hLine : line ∈ tree.lines) : ∃ token ∈ tree.tokens, token.line = line := by
  induction tree generalizing binding with
  | literal token value => exact ⟨token, List.mem_singleton_self _, by simp_all [lines]⟩
  | group opening inner closing ih =>
      obtain ⟨token, hToken, rfl⟩ := ih h.2.1 hLine
      exact ⟨token, by simp [tokens, hToken], rfl⟩
  | binary left operator sign right ihLeft ihRight =>
      simp only [lines, List.mem_append, List.mem_singleton] at hLine
      rcases hLine with (hLeft | hRight) | rfl
      · obtain ⟨token, hToken, rfl⟩ := ihLeft h.2.2.1 hLeft
        exact ⟨token, by simp [tokens, hToken], rfl⟩
      · obtain ⟨token, hToken, rfl⟩ := ihRight h.2.2.2 hRight
        exact ⟨token, by simp [tokens, hToken], rfl⟩
      · obtain ⟨before, last, hTokens, hLast, _⟩ := h.2.2.2.exists_last
        exact ⟨last, by simp [tokens, hTokens], hLast⟩

/-- If the lines of a tree's tokens never go back, the last one is the largest. -/
theorem Layered.le_lastLine {tree : Tree} {binding : Nat} (h : tree.Layered binding)
    (hTokens : tree.tokens.Pairwise (·.line ≤ ·.line)) {token : Token} (hToken : token ∈ tree.tokens) :
    token.line ≤ tree.lastLine := by
  obtain ⟨before, last, hSplit, hLast, _⟩ := h.exists_last
  rw [hSplit, List.pairwise_append] at hTokens
  rw [hSplit, List.mem_append, List.mem_singleton] at hToken
  rw [← hLast]
  rcases hToken with hBefore | rfl
  · exact hTokens.2.2 token hBefore last (List.mem_singleton_self _)
  · exact Nat.le_refl _

/-- If the lines of a tree's tokens never go back, those of its code do not either. -/
theorem Layered.pairwise_lines {tree : Tree} {binding : Nat} (h : tree.Layered binding)
    (hTokens : tree.tokens.Pairwise (·.line ≤ ·.line)) : tree.lines.Pairwise (· ≤ ·) := by
  induction tree generalizing binding with
  | literal token value => simp [lines]
  | group opening inner closing ih =>
      rw [tokens, List.pairwise_cons, List.pairwise_append] at hTokens
      exact ih h.2.1 hTokens.2.1
  | binary left operator sign right ihLeft ihRight =>
      obtain ⟨_, _, hLeft, hRight⟩ := h
      rw [tokens, List.pairwise_append, List.pairwise_cons] at hTokens
      obtain ⟨hLeftTokens, ⟨_, hRightTokens⟩, hAcross⟩ := hTokens
      have hLeftRight : ∀ line ∈ left.lines, ∀ token ∈ right.tokens, line ≤ token.line := by
        intro line hLine token hToken
        obtain ⟨other, hOther, rfl⟩ := hLeft.exists_token hLine
        exact hAcross other hOther token (List.mem_cons_of_mem _ hToken)
      rw [lines, List.pairwise_append, List.pairwise_append]
      refine ⟨⟨ihLeft hLeft hLeftTokens, ihRight hRight hRightTokens, ?_⟩,
        List.pairwise_singleton _ _, ?_⟩
      · intro line hLine other hOther
        obtain ⟨token, hToken, rfl⟩ := hRight.exists_token hOther
        exact hLeftRight line hLine token hToken
      · intro line hLine last hLast
        rw [List.mem_singleton] at hLast
        subst hLast
        rcases List.mem_append.mp hLine with hLine | hLine
        · obtain ⟨_, token, hSplit, hToken, _⟩ := hRight.exists_last
          rw [← hToken]
          exact hLeftRight line hLine token (by simp [hSplit])
        · obtain ⟨token, hToken, rfl⟩ := hRight.exists_token hLine
          exact hRight.le_lastLine hRightTokens hToken

end Tree

theorem Indexed.flatMap_bytes_instructions (t : Indexed) :
    t.instructions.flatMap Instruction.bytes = t.code := by
  have hDecode := t.decode_code []
  rw [List.append_nil, decode, List.append_nil] at hDecode
  rw [← hDecode, flatMap_bytes_decode]

theorem placed_append (offset : Nat) (first second : List Instruction) :
    placed offset (first ++ second) = placed offset first ++
      placed (offset + (first.flatMap Instruction.bytes).length) second := by
  induction first generalizing offset with
  | nil => rfl
  | cons instruction rest ih =>
      simp only [List.cons_append, placed, ih, List.flatMap_cons, List.length_append, Nat.add_assoc]

namespace Chunk

theorem lines_write (chunk : Chunk) (byte : UInt8) (line : Nat) :
    (chunk.write byte line).lines = chunk.lines ++ [line] := by
  simp [write, lines]

theorem lines_emit (chunk : Chunk) (tree : Tree) :
    (chunk.emit tree).lines = chunk.lines ++ tree.lines := by
  induction tree generalizing chunk with
  | literal token value =>
      have hLines : ({ chunk with constants := chunk.constants.push value } : Chunk).lines =
          chunk.lines := rfl
      simp [emit, addConstant, lines_write, Tree.lines, hLines]
  | group opening inner closing ih => exact ih chunk
  | binary left operator sign right ihLeft ihRight =>
      simp [emit, lines_write, Tree.lines, ihLeft, ihRight]

theorem lines_ofTree (tree : Tree) (endLine : Nat) :
    (ofTree tree endLine).lines = tree.lines ++ [endLine] := by
  rw [ofTree, lines_write, lines_emit]
  rfl

/-- An instruction at an offset stands for a part of a parse tree, on its lines: both bytes that push
a literal on the literal's, and an operator on that of the last token of its right operand. -/
inductive StandsFor (chunk : Chunk) : Nat × Instruction → Tree → Prop where
  | literal {offset : Nat} {index : UInt8} {token : Token} {value : Number}
      (hOpcode : chunk.lines[offset]? = some token.line)
      (hOperand : chunk.lines[offset + 1]? = some token.line) :
      StandsFor chunk (offset, .push index) (.literal token value)
  | operation {offset : Nat} {operator : Operator} {left right : Tree} {sign last : Token}
      (hLast : right.tokens.getLast? = some last)
      (hKind : last.kind = .number ∨ last.kind = .rightParen)
      (hLine : chunk.lines[offset]? = some last.line) :
      StandsFor chunk (offset, .operate operator) (.binary left operator sign right)

/-- Where the lines of a tree are in the line table, the instructions that stand there stand for the
parts of the tree, one for each. -/
theorem standsFor_nodes {chunk : Chunk} {tree : Tree} {binding : Nat} (h : tree.Layered binding)
    (first offset : Nat) {rest : List Nat} (hLines : chunk.lines.drop offset = tree.lines ++ rest) :
    List.Forall₂ chunk.StandsFor (placed offset (tree.toExpr.indexed first).instructions)
      tree.nodes := by
  induction tree generalizing binding first offset rest with
  | literal token value =>
      have hOpcode := congrArg (·[0]?) hLines
      have hOperand := congrArg (·[1]?) hLines
      rw [List.getElem?_drop] at hOpcode hOperand
      exact .cons (.literal hOpcode hOperand) .nil
  | group opening inner closing ih => exact ih h.2.1 first offset hLines
  | binary left operator sign right ihLeft ihRight =>
      obtain ⟨_, _, hLeft, hRight⟩ := h
      obtain ⟨before, last, hSplit, hLast, hKind⟩ := hRight.exists_last
      simp only [Tree.lines, List.append_assoc] at hLines
      have hBehindLeft : chunk.lines.drop (offset + left.lines.length) =
          right.lines ++ ([right.lastLine] ++ rest) := by
        rw [← List.drop_drop, hLines, List.drop_left]
      have hBehindRight : chunk.lines.drop (offset + left.lines.length + right.lines.length) =
          [right.lastLine] ++ rest := by
        rw [← List.drop_drop, hBehindLeft, List.drop_left]
      have hSign := congrArg (·[0]?) hBehindRight
      rw [List.getElem?_drop] at hSign
      simp only [Tree.toExpr, Expr.indexed, Indexed.instructions, placed_append,
        Indexed.flatMap_bytes_instructions, List.flatMap_append, List.length_append,
        ← Tree.length_lines, Tree.nodes, ← Nat.add_assoc]
      refine List.rel_append (List.rel_append (ihLeft hLeft first offset hLines)
        (ihRight hRight _ _ hBehindLeft)) (.cons (.operation ?_ hKind ?_) .nil)
      · rw [hSplit, List.getLast?_concat]
      · rw [hLast]
        exact hSign

end Chunk

/-- The line table of compiled code has a line for each byte, and they never go back. The text is cut
into tokens whose lines count the newlines before them. Up to the last, each instruction stands for
a literal or an operator of the parse, all of them in postorder, and has its line from there; the
last one returns, on the line where the whole text ends. -/
theorem compile_lines {source : String} {chunk : Chunk} (hCompile : compile source = .ok chunk) :
    ∃ tree endLine pieces, IsParse source tree endLine ∧
      (∀ other line, IsParse source other line → other = tree) ∧
      pieces.map Piece.item = tree.tokens.map .ok ++ [.ok ⟨.endOfInput, "", endLine⟩] ∧
      pieces.flatMap Piece.text = source.toList ∧ Tiling [] pieces ∧
      chunk.lines.length = chunk.code.length ∧ chunk.lines.Pairwise (· ≤ ·) ∧
      ∃ body last, chunk.program = body ++ [(last, .ret)] ∧
        List.Forall₂ chunk.StandsFor body tree.nodes ∧
        chunk.lines.drop last = [1 + source.toList.count '\n'] := by
  obtain ⟨tree, endLine, hParse, hUnique, _, rfl⟩ := exists_parse_of_compile hCompile
  obtain ⟨pieces, hItems, hText, hTiling⟩ := hParse.spells.exists_tiling
  have hEnd : endLine = 1 + source.toList.count '\n' := by
    rw [← hText]
    exact hTiling.line_end hItems
  have hLines := Chunk.lines_ofTree tree endLine
  -- The end of the input is one of the pieces, so the return byte is in order as well.
  have hOrder : (tree.tokens.map Token.line ++ [endLine]).Pairwise (· ≤ ·) := by
    have hPieces := hTiling.pairwise_line
    rw [← Function.comp_def Scanned.line, ← List.map_map, hItems] at hPieces
    simpa [Function.comp_def, Scanned.line] using hPieces
  rw [List.pairwise_append, List.pairwise_map] at hOrder
  obtain ⟨hTokens, _, hLast⟩ := hOrder
  refine ⟨tree, endLine, pieces, hParse, hUnique, hItems, hText, hTiling, ?_, ?_, ?_⟩
  · rw [Chunk.lines, Chunk.code, List.length_map, List.length_map]
  · rw [hLines, List.pairwise_append]
    refine ⟨hParse.layered.pairwise_lines hTokens, List.pairwise_singleton _ _, ?_⟩
    intro line hLine other hOther
    obtain ⟨token, hToken, rfl⟩ := hParse.layered.exists_token hLine
    exact hLast _ (List.mem_map_of_mem hToken) other hOther
  · have hProgram := placed_append 0 (tree.toExpr.indexed 0).instructions [.ret]
    rw [Indexed.flatMap_bytes_instructions, ← Tree.length_lines, Nat.zero_add] at hProgram
    refine ⟨placed 0 (tree.toExpr.indexed 0).instructions, tree.lines.length, ?_,
      Chunk.standsFor_nodes hParse.layered 0 0 hLines, ?_⟩
    · rw [Chunk.program, Chunk.decode_ofTree]
      exact hProgram
    · rw [hLines, List.drop_left, hEnd]

/-- The sum stands on the line of its second number, the product on that of the closing parenthesis
and the return on the line behind the last newline. -/
theorem compile_lines_of_group :
    ∃ chunk tree endLine body, compile "2*(1\n+3\n)\n" = .ok chunk ∧
      IsParse "2*(1\n+3\n)\n" tree endLine ∧ chunk.lines = [1, 1, 1, 1, 2, 2, 2, 3, 4] ∧
      chunk.program = body ++ [(8, .ret)] ∧ List.Forall₂ chunk.StandsFor body tree.nodes := by
  have hKnown : (compile "2*(1\n+3\n)\n").toOption.map (fun chunk => (chunk.lines, chunk.code)) =
      some ([1, 1, 1, 1, 2, 2, 2, 3, 4], [1, 0, 1, 1, 1, 2, 2, 4, 7]) := by decide +kernel
  obtain ⟨chunk, hCompile, hChunk⟩ := exists_ok_of_toOption hKnown
  obtain ⟨hLines, hCode⟩ := Prod.mk.inj hChunk
  obtain ⟨tree, endLine, pieces, hParse, _, _, _, _, _, _, body, last, hProgram, hNodes, _⟩ :=
    compile_lines hCompile
  have hLast : chunk.program.getLast? = some (8, .ret) := by
    rw [Chunk.program, hCode]
    decide
  rw [hProgram, List.getLast?_concat] at hLast
  cases hLast
  exact ⟨chunk, tree, endLine, body, hCompile, hParse, hLines, hProgram, hNodes⟩

end StackCalculator
