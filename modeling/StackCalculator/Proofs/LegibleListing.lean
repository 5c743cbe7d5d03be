import StackCalculator.Proofs.Listing
import StackCalculator.Proofs.Sameness

/-!
Reading a listing back. A listing leaves out the line of an operand, the line of an instruction if
it is that of the one before, and every constant that no instruction refers to. Compiled code has
each operand on the line of its opcode and refers to each constant once, in the order of the pool,
so nothing of it is lost: from the text of its listing the chunk can be built again.
-/

namespace StackCalculator

namespace Text

/-- The words of a text, with any number of spaces between them. -/
def words (text : List Char) : List (List Char) :=
  (text.splitOn ' ').filter (!·.isEmpty)

theorem words_space (rest : List Char) : words (' ' :: rest) = words rest := by
  rw [words, ← List.nil_append (' ' :: rest), List.splitOn_append_cons_self_of_not_mem (by simp)]
  rfl

theorem words_spaces (count : Nat) (rest : List Char) :
    words (List.replicate count ' ' ++ rest) = words rest := by
  induction count with
  | zero => rfl
  | succ count ih => rw [List.replicate_succ, List.cons_append, words_space, ih]

theorem words_append {word : List Char} (hSome : word ≠ []) (hNone : ' ' ∉ word)
    (rest : List Char) : words (word ++ ' ' :: rest) = word :: words rest := by
  rw [words, List.splitOn_append_cons_self_of_not_mem hNone, List.filter_cons_of_pos (by simpa)]
  rfl

theorem words_singleton {word : List Char} (hSome : word ≠ []) (hNone : ' ' ∉ word) :
    words word = [word] := by
  rw [words, List.splitOn_eq_singleton hNone, List.filter_cons_of_pos (by simpa)]
  rfl

theorem words_padLeft (width : Nat) (text : String) (rest : List Char) :
    words ((padLeft width ' ' text).toList ++ rest) = words (text.toList ++ rest) := by
  rw [padLeft, run, String.toList_append, String.toList_ofList, List.append_assoc, words_spaces]

theorem toList_toString (n : Nat) : (toString n).toList = Nat.toDigits 10 n := by
  simp

/-- A numeral is one word. -/
theorem words_numeral (n : Nat) (rest : List Char) :
    words (Nat.toDigits 10 n ++ ' ' :: rest) = Nat.toDigits 10 n :: words rest := by
  refine words_append Nat.toDigits_ne_nil (fun hMem => ?_) rest
  exact absurd (Decimal.isDigit_of_mem_toDigits hMem) (by decide)

theorem newline_not_mem_padLeft (width n : Nat) :
    '\n' ∉ (padLeft width ' ' (toString n)).toList := by
  have hDigits : '\n' ∉ Nat.toDigits 10 n :=
    fun hMem => absurd (Decimal.isDigit_of_mem_toDigits hMem) (by decide)
  simp [padLeft, run, hDigits]

/-- The lines of a text, each of which ends with a newline. -/
def lines (text : List Char) : List (List Char) :=
  (text.splitOn '\n').dropLast

theorem lines_join {texts : List String} (hNone : ∀ text ∈ texts, '\n' ∉ text.toList) :
    lines (String.join (texts.map (· ++ "\n"))).toList = texts.map String.toList := by
  induction texts with
  | nil => rfl
  | cons text rest ih =>
      obtain ⟨hText, hRest⟩ := List.forall_mem_cons.mp hNone
      have hJoin : (String.join ((text :: rest).map (· ++ "\n"))).toList =
          text.toList ++ '\n' :: (String.join (rest.map (· ++ "\n"))).toList := by
        simp [String.toList_join]
      rw [lines, hJoin, List.splitOn_append_cons_self_of_not_mem hText,
        List.dropLast_cons_of_ne_nil (List.splitOn_ne_nil _ _), List.map_cons, ← ih hRest, lines]

end Text

/-- What a listing shows of an instruction of compiled code. A constant is shown by its index and by
the number that stands there in the pool. -/
inductive Entry where
  | constant (index : UInt8) (value : Number)
  | operate (operator : Operator)
  | ret
  deriving DecidableEq

/-- An instruction in a listing and the source line of its bytes. -/
structure Row where
  line : Nat
  entry : Entry
  deriving DecidableEq

namespace Entry

/-- The bytes of an instruction. -/
def bytes : Entry → List UInt8
  | .constant index _ => [Opcode.constant.byte, index]
  | .operate operator => [(Opcode.operate operator).byte]
  | .ret => [Opcode.ret.byte]

/-- Whether an instruction is shown with a number that stands in the pool and that can be read. -/
def IsFrom (pool : Array Number) : Entry → Prop
  | .constant index value => pool[index.toNat]? = some value ∧ value.isNaN = false
  | .operate _ | .ret => True

/-- The words that show an instruction. -/
def words : Entry → List (List Char)
  | .constant index value =>
      [Opcode.constant.name.toList, Nat.toDigits 10 index.toNat, '\'' :: (value.chars ++ ['\''])]
  | .operate operator => [(Opcode.operate operator).name.toList]
  | .ret => [Opcode.ret.name.toList]

/-- What stands in a listing behind the source line. -/
def text : Entry → String
  | .constant index value =>
      Text.padRight 16 ' ' Opcode.constant.name ++ " " ++
        (Text.padLeft 4 ' ' (toString index.toNat) ++ " " ++ ("'" ++ value.text ++ "'"))
  | .operate operator => (Opcode.operate operator).name
  | .ret => Opcode.ret.name

/-- Reads the words that show an instruction. -/
def read? : List (List Char) → Option Entry
  | [name] =>
      if name = Opcode.ret.name.toList then some .ret
      else ([.add, .subtract, .multiply, .divide].find? fun operator =>
        (Opcode.operate operator).name.toList = name).map .operate
  | [name, index, '\'' :: quoted] =>
      if name = Opcode.constant.name.toList then do
        let index ← Decimal.readDigits? index
        let value ← Number.read? quoted.dropLast
        return .constant (UInt8.ofNat index) value
      else none
  | _ => none

theorem toList_text_constant (index : UInt8) (value : Number) :
    (text (.constant index value)).toList = Opcode.constant.name.toList ++ ' ' ::
      (List.replicate 4 ' ' ++ ' ' :: ((Text.padLeft 4 ' ' (toString index.toNat)).toList ++ ' ' ::
        ('\'' :: (value.chars ++ ['\''])))) := by
  have hName : (Text.padRight 16 ' ' Opcode.constant.name).toList =
      Opcode.constant.name.toList ++ ' ' :: List.replicate 4 ' ' := by decide
  simp [text, hName]

theorem words_text (entry : Entry) : Text.words entry.text.toList = entry.words := by
  cases entry with
  | constant index value =>
      have hValue : ' ' ∉ '\'' :: (value.chars ++ ['\'']) := by
        have hChars : ' ' ∉ value.chars :=
          fun hMem => absurd (Number.digit_or_mark_of_mem_chars hMem) (by decide)
        simpa using hChars
      rw [toList_text_constant, Text.words_append (by decide) (by decide), Text.words_spaces,
        Text.words_space, Text.words_padLeft, Text.toList_toString, Text.words_numeral,
        Text.words_singleton (List.cons_ne_nil _ _) hValue]
      rfl
  | operate operator =>
      apply Text.words_singleton <;> cases operator <;> decide
  | ret => exact Text.words_singleton (by decide) (by decide)

theorem newline_not_mem_text (entry : Entry) : '\n' ∉ entry.text.toList := by
  cases entry with
  | constant index value =>
      have hName : '\n' ∉ Opcode.constant.name.toList := by decide
      have hIndex := Text.newline_not_mem_padLeft 4 index.toNat
      have hValue : '\n' ∉ value.chars :=
        fun hMem => absurd (Number.digit_or_mark_of_mem_chars hMem) (by decide)
      rw [toList_text_constant]
      simp only [List.mem_append, List.mem_cons, List.mem_replicate, not_or]
      exact ⟨hName, by decide, by decide, by decide, hIndex, by decide, by decide, hValue,
        by decide, List.not_mem_nil⟩
  | operate operator => cases operator <;> decide
  | ret => decide

/-- An instruction is told by the words that show it. -/
theorem read?_words {pool : Array Number} {entry : Entry} (h : entry.IsFrom pool) :
    read? entry.words = some entry := by
  cases entry with
  | constant index value =>
      simp [words, read?, Decimal.readDigits?_toDigits, Number.read?_chars h.2]
  | operate operator => cases operator <;> decide
  | ret => decide

end Entry

namespace Row

/-- The cells of an instruction. An operand stands on the line of its opcode. -/
def cells (row : Row) : List Cell :=
  row.entry.bytes.map (⟨·, row.line⟩)

/-- The line of a listing for an instruction, without the newline. -/
def text (offset : Nat) (previous : Option Nat) (row : Row) : String :=
  Chunk.offsetText offset ++ " " ++ Chunk.lineText previous row.line ++ " " ++ row.entry.text

/-- The lines of a listing for instructions that follow each other. -/
def texts (offset : Nat) (previous : Option Nat) : List Row → List String
  | [] => []
  | row :: rest =>
      row.text offset previous :: texts (offset + row.entry.bytes.length) (some row.line) rest

/-- Reads the column of the source line. A bar stands for the line of the byte before. -/
def readLine? (previous : Option Nat) (column : List Char) : Option Nat :=
  if column = ['|'] then previous else Decimal.readDigits? column

/-- Reads a line of a listing. The offset is passed over, since the bytes before tell it too. -/
def read? (previous : Option Nat) (text : List Char) : Option Row :=
  match Text.words text with
  | _ :: column :: entry => do
      let line ← readLine? previous column
      let entry ← Entry.read? entry
      return ⟨line, entry⟩
  | _ => none

/-- The column of the source line is read as the line. -/
theorem exists_column (previous : Option Nat) (line : Nat) :
    ∃ column, (∀ rest, Text.words ((Chunk.lineText previous line).toList ++ ' ' :: rest) =
      column :: Text.words rest) ∧ readLine? previous column = some line := by
  by_cases hSame : previous = some line
  · refine ⟨['|'], fun rest => ?_, by rw [readLine?, if_pos rfl, hSame]⟩
    rw [Chunk.lineText, if_pos hSame]
    exact Text.words_append (List.cons_ne_nil '|' []) (by decide) rest
  · refine ⟨Nat.toDigits 10 line, fun rest => ?_, ?_⟩
    · rw [Chunk.lineText, if_neg hSame, Text.words_padLeft, Text.toList_toString,
        Text.words_numeral]
    · have hBar : Nat.toDigits 10 line ≠ ['|'] := by
        intro hDigits
        have hMem : '|' ∈ Nat.toDigits 10 line := hDigits ▸ List.mem_cons_self
        exact absurd (Decimal.isDigit_of_mem_toDigits hMem) (by decide)
      rw [readLine?, if_neg hBar, Decimal.readDigits?_toDigits]

/-- A line of a listing is read as what it shows, if the line of the byte before is known. -/
theorem read?_text {pool : Array Number} {row : Row} (h : row.entry.IsFrom pool) (offset : Nat)
    (previous : Option Nat) : read? previous (row.text offset previous).toList = some row := by
  obtain ⟨column, hWords, hLine⟩ := exists_column previous row.line
  have hOffset : ' ' ∉ (Chunk.offsetText offset).toList :=
    fun hMem => absurd (Chunk.isDigit_of_mem_offsetText offset ' ' hMem) (by decide)
  have hSome : (Chunk.offsetText offset).toList ≠ [] := by
    simp [Chunk.offsetText, Text.padLeft]
  have hText : (row.text offset previous).toList = (Chunk.offsetText offset).toList ++ ' ' ::
      ((Chunk.lineText previous row.line).toList ++ ' ' :: row.entry.text.toList) := by
    simp [text]
  rw [read?, hText, Text.words_append hSome hOffset, hWords, Entry.words_text]
  simp [hLine, Entry.read?_words h]

theorem newline_not_mem_text (offset : Nat) (previous : Option Nat) (row : Row) :
    '\n' ∉ (row.text offset previous).toList := by
  have hOffset : '\n' ∉ (Chunk.offsetText offset).toList :=
    fun hMem => absurd (Chunk.isDigit_of_mem_offsetText offset '\n' hMem) (by decide)
  have hLine : '\n' ∉ (Chunk.lineText previous row.line).toList := by
    rw [Chunk.lineText]
    split
    · decide
    · exact Text.newline_not_mem_padLeft 4 row.line
  simp [text, hOffset, hLine, row.entry.newline_not_mem_text]

theorem newline_not_mem_texts (offset : Nat) (previous : Option Nat) (rows : List Row) :
    ∀ text ∈ texts offset previous rows, '\n' ∉ text.toList := by
  induction rows generalizing offset previous with
  | nil => exact fun _ hText => nomatch hText
  | cons row rest ih =>
      exact List.forall_mem_cons.mpr ⟨row.newline_not_mem_text offset previous, ih _ _⟩

/-- The text of an instruction, whatever stands behind it. -/
theorem instructionText_cells {pool : Array Number} {row : Row} (h : row.entry.IsFrom pool)
    (offset : Nat) (previous : Option Nat) (behind : List Cell) :
    Chunk.instructionText pool offset previous (row.cells ++ behind) =
      row.text offset previous ++ "\n" := by
  obtain ⟨line, entry⟩ := row
  cases entry with
  | constant index value =>
      simp [cells, Entry.bytes, Chunk.instructionText, Chunk.describe, text, Entry.text, h.1]
  | operate operator =>
      simp [cells, Entry.bytes, Chunk.instructionText, Chunk.describe, text, Entry.text]
  | ret => simp [cells, Entry.bytes, Chunk.instructionText, Chunk.describe, text, Entry.text]

/-- A listing goes on behind the bytes of an instruction. -/
theorem instructionsFrom_cells (pool : Array Number) (row : Row) (offset : Nat)
    (previous : Option Nat) (behind : List Cell) :
    Chunk.instructionsFrom pool offset previous (row.cells ++ behind) =
      Chunk.instructionText pool offset previous (row.cells ++ behind) ::
        Chunk.instructionsFrom pool (offset + row.entry.bytes.length) (some row.line) behind := by
  have hPlain {byte : UInt8} (hByte : Chunk.takesOperand byte = false) :
      Chunk.instructionsFrom pool offset previous (⟨byte, row.line⟩ :: behind) =
        Chunk.instructionText pool offset previous (⟨byte, row.line⟩ :: behind) ::
          Chunk.instructionsFrom pool (offset + 1) (some row.line) behind := by
    cases behind with
    | nil => rfl
    | cons operand behind => simp [Chunk.instructionsFrom, hByte]
  obtain ⟨line, entry⟩ := row
  cases entry with
  | constant index value =>
      have hByte : Chunk.takesOperand Opcode.constant.byte = true := by decide
      simp [cells, Entry.bytes, Chunk.instructionsFrom, hByte]
  | operate operator => exact hPlain (by cases operator <;> decide)
  | ret => exact hPlain (by decide)

/-- A listing of instructions shows them one after the other. -/
theorem instructionsFrom_flatMap_cells {pool : Array Number} {rows : List Row}
    (h : ∀ row ∈ rows, row.entry.IsFrom pool) (offset : Nat) (previous : Option Nat) :
    Chunk.instructionsFrom pool offset previous (rows.flatMap cells) =
      (texts offset previous rows).map (· ++ "\n") := by
  induction rows generalizing offset previous with
  | nil => rfl
  | cons row rest ih =>
      obtain ⟨hRow, hRest⟩ := List.forall_mem_cons.mp h
      rw [List.flatMap_cons, instructionsFrom_cells, instructionText_cells hRow, ih hRest]
      rfl

end Row

namespace Chunk

/-- Appends an instruction, and the constant that is shown with it. -/
def append (chunk : Chunk) (row : Row) : Chunk :=
  match row.entry with
  | .constant index value =>
      ((chunk.addConstant value).2.write Opcode.constant.byte row.line).write index row.line
  | .operate operator => chunk.write (Opcode.operate operator).byte row.line
  | .ret => chunk.write Opcode.ret.byte row.line

/-- Appends the instructions that are shown in the lines of a listing. -/
def appendLines? (chunk : Chunk) : List (List Char) → Option Chunk
  | [] => some chunk
  | text :: rest => do
      let row ← Row.read? chunk.lines.getLast? text
      (chunk.append row).appendLines? rest

/-- Builds a chunk from its listing under a name. -/
def ofListing? (name listing : String) : Option Chunk :=
  let heading := "== " ++ name ++ " ==\n"
  appendLines? {} (Text.lines (listing.toList.drop heading.toList.length))

theorem cells_append (chunk : Chunk) (row : Row) :
    (chunk.append row).cells.toList = chunk.cells.toList ++ row.cells := by
  obtain ⟨line, entry⟩ := row
  cases entry <;> simp [append, Row.cells, Entry.bytes, write, addConstant]

theorem cells_foldl_append (chunk : Chunk) (rows : List Row) :
    (rows.foldl append chunk).cells.toList = chunk.cells.toList ++ rows.flatMap Row.cells := by
  induction rows generalizing chunk with
  | nil => simp
  | cons row rest ih => simp [ih, cells_append]

/-- The last line is known of a chunk that an instruction has been appended to. -/
theorem getLast?_lines_append (chunk : Chunk) (row : Row) :
    (chunk.append row).lines.getLast? = some row.line := by
  rw [lines, cells_append]
  obtain ⟨line, entry⟩ := row
  cases entry <;> simp [Row.cells, Entry.bytes]

/-- The lines of a listing are read as the instructions that they show. -/
theorem appendLines?_texts {pool : Array Number} {rows : List Row}
    (h : ∀ row ∈ rows, row.entry.IsFrom pool) (chunk : Chunk) (offset : Nat) :
    chunk.appendLines? ((Row.texts offset chunk.lines.getLast? rows).map String.toList) =
      some (rows.foldl append chunk) := by
  induction rows generalizing chunk offset with
  | nil => rfl
  | cons row rest ih =>
      obtain ⟨hRow, hRest⟩ := List.forall_mem_cons.mp h
      have hFurther := ih hRest (chunk.append row) (offset + row.entry.bytes.length)
      rw [getLast?_lines_append] at hFurther
      rw [Row.texts, List.map_cons, appendLines?, Row.read?_text hRow]
      exact hFurther

/-- A chunk that is built of instructions with all their constants in its pool is told by its
listing. -/
theorem ofListing?_of_rows {rows : List Row} {chunk : Chunk}
    (hChunk : rows.foldl append {} = chunk)
    (h : ∀ row ∈ rows, row.entry.IsFrom chunk.pool) (name : String) :
    ofListing? name (chunk.listing name) = some chunk := by
  have hCells : chunk.cells.toList = rows.flatMap Row.cells := by
    rw [← hChunk, cells_foldl_append]
    rfl
  have hLines : chunk.instructions = (Row.texts 0 none rows).map (· ++ "\n") := by
    rw [instructions, hCells, Row.instructionsFrom_flatMap_cells h]
  rw [ofListing?, listing, hLines]
  simp only [String.toList_append, List.drop_left]
  rw [Text.lines_join (Row.newline_not_mem_texts 0 none rows), ← hChunk]
  exact appendLines?_texts h {} 0

end Chunk

/-- The rows that show the code of a tree, if its literals are numbered from a number on. -/
def Tree.rows (first : Nat) : Tree → List Row
  | .literal token value => [⟨token.line, .constant (UInt8.ofNat first) value⟩]
  | .group _ inner _ => inner.rows first
  | .binary left operator _ right =>
      left.rows first ++ right.rows (first + left.toExpr.literals.length) ++
        [⟨right.lastLine, .operate operator⟩]

/-- Emitting a tree appends its rows. -/
theorem Chunk.emit_eq_foldl (chunk : Chunk) (tree : Tree) :
    chunk.emit tree = (tree.rows chunk.constants.size).foldl append chunk := by
  induction tree generalizing chunk with
  | literal token value => rfl
  | group opening inner closing ih => exact ih chunk
  | binary left operator sign right ihLeft ihRight =>
      rw [emit, ihRight, size_constants_emit, ihLeft, Tree.rows, List.foldl_append,
        List.foldl_append]
      rfl

/-- The numbers that the rows of a tree show stand in the pool where its literals do. -/
theorem Tree.isFrom_rows {pool : Array Number} (tree : Tree) (before after : List Number)
    (hPool : pool.toList = before ++ (tree.toExpr.literals ++ after))
    (hBytes : before.length + tree.toExpr.literals.length ≤ 256)
    (hNumbers : ∀ value ∈ tree.toExpr.literals, value.isNaN = false) :
    ∀ row ∈ tree.rows before.length, row.entry.IsFrom pool := by
  induction tree generalizing before after with
  | literal token value =>
      have hByte : (UInt8.ofNat before.length).toNat = before.length :=
        UInt8.toNat_ofNat_of_lt' hBytes
      rintro row hRow
      obtain rfl := List.mem_singleton.mp hRow
      refine ⟨?_, hNumbers value (List.mem_singleton_self _)⟩
      rw [hByte, ← Array.getElem?_toList, hPool]
      simp [toExpr, Expr.literals]
  | group opening inner closing ih => exact ih before after hPool hBytes hNumbers
  | binary left operator sign right ihLeft ihRight =>
      simp only [toExpr, Expr.literals, List.length_append, List.append_assoc,
        List.forall_mem_append] at hBytes hPool hNumbers
      have hLeft := ihLeft before (right.toExpr.literals ++ after) hPool (by omega) hNumbers.1
      have hRight := ihRight (before ++ left.toExpr.literals) after (by simp [hPool])
        (by simp only [List.length_append]; omega) hNumbers.2
      rw [List.length_append] at hRight
      simp only [rows, List.forall_mem_append, List.forall_mem_singleton]
      exact ⟨⟨hLeft, hRight⟩, trivial⟩

/-- The chunk that a text compiles to can be built from its listing, under any name. -/
theorem ofListing?_of_compile {source : String} {chunk : Chunk} (h : compile source = .ok chunk)
    (name : String) : Chunk.ofListing? name (chunk.listing name) = some chunk := by
  obtain ⟨tree, endLine, hParse, _, hLiterals, rfl⟩ := exists_parse_of_compile h
  have hRows : (tree.rows 0 ++ [Row.mk endLine .ret]).foldl Chunk.append {} =
      Chunk.ofTree tree endLine := by
    rw [List.foldl_append, Chunk.ofTree, Chunk.emit_eq_foldl]
    rfl
  have hPool : (Chunk.ofTree tree endLine).pool.toList = [] ++ (tree.toExpr.literals ++ []) := by
    rw [List.append_nil]
    exact Chunk.constants_ofTree tree endLine
  have hTree := tree.isFrom_rows [] [] hPool (by simpa using hLiterals)
    fun _ hValue => (hParse.layered.isMagnitude hValue).not_nan
  apply Chunk.ofListing?_of_rows hRows
  exact List.forall_mem_append.mpr ⟨hTree, List.forall_mem_singleton.mpr trivial⟩

/-- A listing of compiled code loses nothing. The whole chunk can be built from its text again, so
chunks with the same listing under one name have the same bytes, the same line table, the lines that
are shown as bars included, and the same constants bit by bit. -/
theorem listing_lossless {source other : String} {chunk otherChunk : Chunk}
    (hCompile : compile source = .ok chunk) (hOther : compile other = .ok otherChunk)
    (name : String) :
    Chunk.ofListing? name (chunk.listing name) = some chunk ∧
      (chunk.listing name = otherChunk.listing name → chunk.code = otherChunk.code ∧
        chunk.lines = otherChunk.lines ∧
        chunk.constants.toList = otherChunk.constants.toList) := by
  have hRead := ofListing?_of_compile hCompile name
  refine ⟨hRead, fun hListing => ?_⟩
  rw [hListing, ofListing?_of_compile hOther name] at hRead
  obtain rfl := Option.some.inj hRead
  exact ⟨rfl, rfl, rfl⟩

/-- Two texts over three lines with the same listing. The bars stand for the lines 1 and 2. -/
theorem listing_lossless_bars :
    ∃ chunk otherChunk, compile "2*(1\n+ 3.5\n)" = .ok chunk ∧
      compile "02 * ((1)\n+3.50\n)" = .ok otherChunk ∧
      chunk.listing "code" = otherChunk.listing "code" ∧
      Chunk.ofListing? "code" ("== code ==\n" ++
        "0000    1 OP_CONSTANT         0 '2'\n" ++
        "0002    | OP_CONSTANT         1 '1'\n" ++
        "0004    2 OP_CONSTANT         2 '3.5'\n" ++
        "0006    | OP_ADD\n" ++
        "0007    3 OP_MULTIPLY\n" ++
        "0008    | OP_RETURN\n") = some chunk ∧
      chunk.lines = otherChunk.lines ∧ chunk.constants.toList = otherChunk.constants.toList := by
  have hKnown : (compile "2*(1\n+ 3.5\n)").toOption.map (·.listing "code") =
      some ("== code ==\n" ++
        "0000    1 OP_CONSTANT         0 '2'\n" ++
        "0002    | OP_CONSTANT         1 '1'\n" ++
        "0004    2 OP_CONSTANT         2 '3.5'\n" ++
        "0006    | OP_ADD\n" ++
        "0007    3 OP_MULTIPLY\n" ++
        "0008    | OP_RETURN\n") := by decide +kernel
  have hOtherKnown : (compile "02 * ((1)\n+3.50\n)").toOption.map (·.listing "code") =
      (compile "2*(1\n+ 3.5\n)").toOption.map (·.listing "code") := by decide +kernel
  obtain ⟨chunk, hCompile, hChunk⟩ := exists_ok_of_toOption hKnown
  obtain ⟨otherChunk, hOther, hOtherChunk⟩ := exists_ok_of_toOption (hOtherKnown.trans hKnown)
  have hSame := hChunk.trans hOtherChunk.symm
  obtain ⟨hRead, hLossless⟩ := listing_lossless hCompile hOther "code"
  obtain ⟨_, hLines, hConstants⟩ := hLossless hSame
  exact ⟨chunk, otherChunk, hCompile, hOther, hSame, hChunk ▸ hRead, hLines, hConstants⟩

/-- Of other chunks the listing tells less: neither a constant that no instruction refers to nor the
line of an operand is shown. -/
example :
    let chunk (line : Nat) (constants : Array Number) : Chunk :=
      ⟨⟨#[⟨1, 1⟩, ⟨0, line⟩], 8⟩, ⟨constants, 8⟩⟩
    (chunk 1 #[⟨0⟩]).listing "code" = (chunk 2 #[⟨0⟩, ⟨1⟩]).listing "code" := by
  decide +kernel

end StackCalculator
