/-!
Tokens: the words of a source text, each with the line it stands on.
-/

namespace StackCalculator

/-- What a token is. Braces, commas, dots, semicolons and identifiers are words of the language,
although no expression contains one. -/
inductive Token.Kind where
  | leftParen
  | rightParen
  | leftBrace
  | rightBrace
  | comma
  | dot
  | minus
  | plus
  | semicolon
  | slash
  | star
  | identifier
  | number
  | endOfInput
  deriving DecidableEq

/-- A word of a source text. The end of the input counts as a word with an empty lexeme. -/
structure Token where
  kind : Token.Kind
  lexeme : String
  line : Nat
  deriving DecidableEq

/-- A character that starts no token, and the line it stands on. -/
structure UnexpectedCharacter where
  character : Char
  line : Nat
  deriving DecidableEq

def UnexpectedCharacter.message (e : UnexpectedCharacter) : String :=
  "[line " ++ toString e.line ++ "] Error: Unexpected character '" ++
    String.singleton e.character ++ "'."

/-- One result of scanning. A failure stands for a single character, and scanning can go on
behind it. -/
abbrev Scanned :=
  Except UnexpectedCharacter Token

namespace Token

/-- The kind of a token that is a single punctuation character. -/
def punctuation? : Char → Option Kind
  | '(' => some .leftParen
  | ')' => some .rightParen
  | '\x7b' => some .leftBrace
  | '\x7d' => some .rightBrace
  | ',' => some .comma
  | '.' => some .dot
  | '-' => some .minus
  | '+' => some .plus
  | ';' => some .semicolon
  | '/' => some .slash
  | '*' => some .star
  | _ => none

/-- Whether a character separates tokens. Only these four do; other white space is unexpected. -/
def isBlank (c : Char) : Bool :=
  c == ' ' || c == '\t' || c == '\r' || c == '\n'

/-- Whether an identifier can start with a character. -/
def isLetter (c : Char) : Bool :=
  c.isAlpha || c == '_'

/-- How many characters of a text go on with a number whose first digit stands before it. A point
belongs to the number only if a digit follows it. -/
def numberTail (text : List Char) : Nat :=
  let whole := (text.takeWhile Char.isDigit).length
  match text.drop whole with
  | '.' :: places =>
      let fraction := (places.takeWhile Char.isDigit).length
      if fraction = 0 then whole else whole + 1 + fraction
  | _ => whole

/-- The kind of the token that starts with a character, and how many characters of the text
behind it belong to the token too. There are always as many as possible. -/
def leading? (first : Char) (text : List Char) : Option (Kind × Nat) :=
  if first.isDigit then
    some (.number, numberTail text)
  else if isLetter first then
    some (.identifier, (text.takeWhile fun c => isLetter c || c.isDigit).length)
  else
    (punctuation? first).map (·, 0)

end Token

end StackCalculator
