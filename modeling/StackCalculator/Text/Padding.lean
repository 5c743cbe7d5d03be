/-!
Fixed-width columns. A text that is wider than its column stands whole.
-/

namespace StackCalculator.Text

/-- A run of one character. -/
def run (count : Nat) (fill : Char) : String :=
  String.ofList (List.replicate count fill)

/-- Fills a column from the right, so that the text stands at the left. -/
def padRight (width : Nat) (fill : Char) (text : String) : String :=
  text ++ run (width - text.length) fill

/-- Fills a column from the left, so that the text stands at the right. -/
def padLeft (width : Nat) (fill : Char) (text : String) : String :=
  run (width - text.length) fill ++ text

/-- Fills a column from both sides. If the filling is odd, the right side has one more. -/
def center (width : Nat) (fill : Char) (text : String) : String :=
  let filling := width - text.length
  run (filling / 2) fill ++ text ++ run (filling - filling / 2) fill

/-- The first characters of a text, at most `width` of them. -/
def cut (width : Nat) (text : String) : String :=
  String.ofList (text.toList.take width)

/-- Where a text stands in a column that it does not fill. -/
inductive Side where
  | left
  | middle
  | right
  deriving DecidableEq

/-- How texts are laid out in a column. -/
structure Layout where
  width : Nat := 0
  fill : Char := ' '
  side : Side := .left
  /-- How many characters of a text are shown, if not all of them. -/
  limit : Option Nat := none
  deriving DecidableEq

/-- Lays a text out. It is cut before it is filled up. -/
def Layout.fit (layout : Layout) (text : String) : String :=
  let shown := layout.limit.elim text (cut · text)
  match layout.side with
  | .left => padRight layout.width layout.fill shown
  | .middle => center layout.width layout.fill shown
  | .right => padLeft layout.width layout.fill shown

end StackCalculator.Text
