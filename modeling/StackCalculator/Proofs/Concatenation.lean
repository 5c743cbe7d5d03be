import StackCalculator.Proofs.LongestMatch

/-!
Scanning texts that stand one behind the other. No lexeme contains a blank, so a blank between two
texts keeps the lexemes of one apart from those of the other: the whole is cut into pieces where each
of the two is. The second text then has the same results as alone, only further down.
-/

namespace StackCalculator

/-- A lexeme at the beginning of a text does not reach over a blank. -/
theorem Token.Lexeme.prefix_of_blank {kind : Kind} {lexeme text more : List Char} {blank : Char}
    (h : Lexeme kind lexeme) (hBlank : isBlank blank = true)
    (hPrefix : lexeme <+: text ++ blank :: more) : lexeme <+: text := by
  have hNotMem : blank ∉ lexeme := by
    intro hMem
    rw [h.ne_blank blank hMem] at hBlank
    cases hBlank
  have hUpTo : text ++ [blank] <+: text ++ blank :: more := ⟨more, by simp⟩
  rcases List.prefix_or_prefix_of_prefix hPrefix hUpTo with hShort | hLong
  · rcases List.prefix_concat_iff.mp hShort with rfl | hWithin
    · exact absurd (by simp) hNotMem
    · exact hWithin
  · exact absurd (hLong.subset (by simp)) hNotMem

namespace Scanned

/-- The same result, some lines further down. -/
def later (lines : Nat) : Scanned → Scanned
  | .ok token => .ok { token with line := token.line + lines }
  | .error e => .error { e with line := e.line + lines }

@[simp] theorem spelling_later (lines : Nat) (item : Scanned) :
    spelling (later lines item) = spelling item := by
  cases item <;> rfl

@[simp] theorem line_later (lines : Nat) (item : Scanned) :
    line (later lines item) = line item + lines := by
  cases item <;> rfl

@[simp] theorem isEnd_later {lines : Nat} {item : Scanned} :
    IsEnd (later lines item) ↔ IsEnd item := by
  constructor
  · rintro ⟨endLine, hEnd⟩
    rcases item with e | ⟨kind, lexeme, tokenLine⟩
    · cases hEnd
    · cases hEnd
      exact ⟨tokenLine, rfl⟩
  · rintro ⟨endLine, rfl⟩
    exact ⟨endLine + lines, rfl⟩

namespace Begins

/-- What a text begins with does not depend on the line that the text stands on. -/
theorem later {text : List Char} {item : Scanned} (h : Begins text item) (lines : Nat) :
    Begins text (item.later lines) := by
  cases h with
  | endOfInput line => exact .endOfInput (line + lines)
  | token hLexeme hPrefix hLongest => exact .token hLexeme hPrefix hLongest
  | unexpected text line hBlank hNone => exact .unexpected text (line + lines) hBlank hNone

/-- What a text begins with does not depend on what stands behind the text and a blank. -/
theorem append_blank {text : List Char} {item : Scanned} (h : Begins text item)
    (hEnd : ¬IsEnd item) {blank : Char} (hBlank : Token.isBlank blank = true) (more : List Char) :
    Begins (text ++ blank :: more) item := by
  cases h with
  | endOfInput line => exact absurd ⟨line, rfl⟩ hEnd
  | token hLexeme hPrefix hLongest =>
      refine .token hLexeme (hPrefix.trans (List.prefix_append _ _)) ?_
      intro kind lexeme hOther hOtherPrefix
      exact hLongest kind lexeme hOther (hOther.prefix_of_blank hBlank hOtherPrefix)
  | unexpected text line hFirst hNone => exact .unexpected _ line hFirst hNone

end Begins

end Scanned

namespace Piece

/-- The same piece, some lines further down. -/
def later (lines : Nat) (piece : Piece) : Piece :=
  { piece with item := piece.item.later lines }

/-- The same piece with more blanks before it. -/
def behind (blanks : List Char) (piece : Piece) : Piece :=
  { piece with blanks := blanks ++ piece.blanks }

@[simp] theorem item_later (lines : Nat) (piece : Piece) :
    (piece.later lines).item = piece.item.later lines :=
  rfl

@[simp] theorem item_behind (blanks : List Char) (piece : Piece) :
    (piece.behind blanks).item = piece.item :=
  rfl

@[simp] theorem text_later (lines : Nat) (piece : Piece) :
    (piece.later lines).text = piece.text := by
  simp [later, text]

@[simp] theorem text_behind (blanks : List Char) (piece : Piece) :
    (piece.behind blanks).text = blanks ++ piece.text := by
  simp [behind, text]

end Piece

namespace Tiling

/-- With more text before it, a text is cut into the same pieces, further down by the newlines in what
is before it. -/
theorem later {before : List Char} {pieces : List Piece} (h : Tiling before pieces)
    (front : List Char) :
    Tiling (front ++ before) (pieces.map (Piece.later (front.count '\n'))) := by
  induction pieces generalizing before with
  | nil =>
      obtain ⟨_, _, hPieces, _⟩ := h.ends
      simp at hPieces
  | cons piece pieces ih =>
      obtain ⟨hBlank, hBegins, hLine⟩ := h.head
      have hLater : Scanned.line (piece.later (front.count '\n')).item =
          1 + (front ++ before ++ piece.blanks).count '\n' := by
        simp only [Piece.later, Scanned.line_later, hLine, List.count_append]
        omega
      have hItem := hBegins.later (front.count '\n')
      rcases h.tail with ⟨hEnd, rfl⟩ | ⟨hEnd, hTail⟩
      · exact .singleton hBlank (by simpa using hItem) hLater
          (Scanned.isEnd_later.mpr hEnd)
      · refine .cons hBlank (by simpa [List.flatMap_map] using hItem) hLater
          (mt Scanned.isEnd_later.mp hEnd) ?_
        rw [Piece.text_later, List.append_assoc]
        exact ih hTail

/-- The last piece stands for blanks only. -/
theorem spelling_last {before : List Char} {front : List Piece} {last : Piece}
    (h : Tiling before (front ++ [last])) : Scanned.spelling last.item = [] := by
  obtain ⟨_, _, hPieces, hEnd, _⟩ := h.ends
  cases (List.append_inj' hPieces rfl).2
  have hNothing := (h.begins front last [] rfl).eq_nil hEnd
  exact (List.append_eq_nil_iff.mp hNothing).1

/-- Two texts with a blank between them are cut into the pieces of the first one, without its end, and
those of the second. All blanks in the middle go to the first piece of the second text. -/
theorem join {before : List Char} {front pieces : List Piece} {last first : Piece} {blank : Char}
    (h : Tiling before (front ++ [last])) (hBlank : Token.isBlank blank = true)
    (hBehind : Tiling (before ++ front.flatMap Piece.text ++ last.blanks ++ [blank])
      (first :: pieces)) :
    Tiling before
      (front ++ first.behind (last.blanks ++ [blank]) :: pieces) := by
  induction front generalizing before with
  | nil =>
      obtain ⟨hFirstBlank, hFirstBegins, hFirstLine⟩ := hBehind.head
      have hBlanks : ∀ c ∈ last.blanks ++ [blank] ++ first.blanks, Token.isBlank c = true := by
        intro c hc
        simp only [List.mem_append, List.mem_singleton] at hc
        rcases hc with (hc | rfl) | hc
        · exact h.head.1 c hc
        · exact hBlank
        · exact hFirstBlank c hc
      have hLine : Scanned.line first.item =
          1 + (before ++ (last.blanks ++ [blank] ++ first.blanks)).count '\n' := by
        simpa using hFirstLine
      rcases hBehind.tail with ⟨hEnd, rfl⟩ | ⟨hEnd, hTail⟩
      · exact .singleton hBlanks (by simpa using hFirstBegins) hLine hEnd
      · refine .cons hBlanks hFirstBegins hLine hEnd ?_
        simpa [Piece.text, Piece.behind] using hTail
  | cons piece front ih =>
      obtain ⟨hPieceBlank, hPieceBegins, hPieceLine⟩ := h.head
      rcases h.tail with ⟨_, hNothing⟩ | ⟨hEnd, hTail⟩
      · simp at hNothing
      · refine .cons hPieceBlank ?_ hPieceLine hEnd (ih hTail (by simpa using hBehind))
        have hItem := hPieceBegins.append_blank hEnd hBlank
          (first.text ++ pieces.flatMap Piece.text)
        simpa [Piece.text, Piece.behind, hTail.spelling_last] using hItem

end Tiling

/-- Any pieces that a text can be cut into have the items that scanning gives. -/
theorem Tiling.scanAll_eq {source : String} {pieces : List Piece} (h : Tiling [] pieces)
    (hText : pieces.flatMap Piece.text = source.toList) :
    scanAll source = pieces.map Piece.item := by
  obtain ⟨others, hOthers, hOthersText, hItems⟩ := exists_tiling_scanAll source
  rw [hItems, h.unique hOthers (hText.trans hOthersText.symm)]

/-- Scanning two texts with a blank between them gives the results of the first one without the end
of the input, which is its last, and those of the second, further down by all the newlines before
it. -/
theorem scanAll_append_blank (first second : String) (blank : Char)
    (hBlank : blank ∈ [' ', '\t', '\r', '\n']) :
    (∃ line, (scanAll first).getLast? = some (.ok ⟨.endOfInput, "", line⟩)) ∧
      scanAll (first ++ String.singleton blank ++ second) = (scanAll first).dropLast ++
        (scanAll second).map
          (Scanned.later ((first ++ String.singleton blank).toList.count '\n')) := by
  have hIsBlank : Token.isBlank blank = true := by
    rcases (by simpa using hBlank : blank = ' ' ∨ blank = '\t' ∨ blank = '\r' ∨ blank = '\n') with
      rfl | rfl | rfl | rfl <;> rfl
  obtain ⟨pieces, hTiling, hText, hItems⟩ := exists_tiling_scanAll first
  obtain ⟨others, hOthers, hOthersText, hOtherItems⟩ := exists_tiling_scanAll second
  obtain ⟨front, last, rfl, ⟨line, hEnd⟩, _⟩ := hTiling.ends
  obtain ⟨next, rest, rfl⟩ : ∃ next rest, others = next :: rest := by
    obtain ⟨_, _, hSplit, _⟩ := hOthers.ends
    exact List.exists_cons_of_ne_nil (by simp [hSplit])
  have hFront : front.flatMap Piece.text ++ last.blanks = first.toList := by
    simp [← hText, Piece.text, hTiling.spelling_last]
  have hFurther := hOthers.later (first.toList ++ [blank])
  have hJoined := hTiling.join hIsBlank (by simpa [hFront] using hFurther)
  refine ⟨⟨line, by simp [hItems, hEnd]⟩, (hJoined.scanAll_eq ?_).trans ?_⟩
  · have hPieces : front.flatMap Piece.text ++ (last.blanks ++ ([blank] ++
        (next :: rest).flatMap Piece.text)) = first.toList ++ ([blank] ++ second.toList) := by
      rw [← List.append_assoc, hFront, hOthersText]
    simpa [List.flatMap_map] using hPieces
  · simp [hItems, hOtherItems]

/-- A point at the end of the first text and one at the beginning of the second are two tokens, and
neither belongs to a number. The unexpected character is reported on the third line. -/
theorem scanAll_append_blank_points :
    '\n' ∈ [' ', '\t', '\r', '\n'] ∧
      scanAll ("1.\n" ++ String.singleton '\n' ++ ".5é") =
        [.ok ⟨.number, "1", 1⟩, .ok ⟨.dot, ".", 1⟩, .ok ⟨.dot, ".", 3⟩, .ok ⟨.number, "5", 3⟩,
          .error ⟨'é', 3⟩, .ok ⟨.endOfInput, "", 3⟩] := by
  have hBlank : '\n' ∈ [' ', '\t', '\r', '\n'] := by decide
  have hFirst : scanAll "1.\n" =
      [.ok ⟨.number, "1", 1⟩, .ok ⟨.dot, ".", 1⟩, .ok ⟨.endOfInput, "", 2⟩] := by decide +kernel
  have hSecond : scanAll ".5é" = [.ok ⟨.dot, ".", 1⟩, .ok ⟨.number, "5", 1⟩, .error ⟨'é', 1⟩,
      .ok ⟨.endOfInput, "", 1⟩] := by decide +kernel
  obtain ⟨_, hWhole⟩ := scanAll_append_blank "1.\n" ".5é" '\n' hBlank
  rw [hFirst, hSecond] at hWhole
  exact ⟨hBlank, hWhole.trans (by decide +kernel)⟩

end StackCalculator
