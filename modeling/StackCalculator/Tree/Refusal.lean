import StackCalculator.Token.Scanner

/-!
Why a text does not compile, and how that is said.
-/

namespace StackCalculator

/-- What is wrong with a token, or with the end of the input, at its place in an expression. -/
inductive Refusal where
  | expectExpression
  | expectRightParen
  | expectEnd
  | tooManyConstants
  | invalidNumber
  | tooMuchNesting
  deriving DecidableEq

def Refusal.message : Refusal → String
  | .expectExpression => "Expect expression."
  | .expectRightParen => "Expect ')' after expression."
  | .expectEnd => "Expect end of expression."
  | .tooManyConstants => "Too many constants in one chunk."
  | .invalidNumber => "Invalid number literal."
  | .tooMuchNesting => "Too much nesting."

/-- Why a text does not compile. A refusal names the lexeme of the token it is about, or none at
the end of the input. -/
inductive CompileError where
  | unexpected (e : UnexpectedCharacter)
  | refused (line : Nat) (lexeme : Option String) (reason : Refusal)
  deriving DecidableEq

def CompileError.message : CompileError → String
  | .unexpected e => e.message
  | .refused line (some lexeme) reason =>
      "[line " ++ toString line ++ "] Error at '" ++ lexeme ++ "': " ++ reason.message
  | .refused line none reason =>
      "[line " ++ toString line ++ "] Error at end: " ++ reason.message

/-- Refuses a token. -/
def Token.refuse (token : Token) (reason : Refusal) : CompileError :=
  .refused token.line (some token.lexeme) reason

/-- Refuses what stands behind the last token. If that is an unexpected character, it is reported
itself, whatever was wanted in its place. -/
def Ending.refuse (ending : Ending) (reason : Refusal) : CompileError :=
  match ending with
  | .endOfInput line => .refused line none reason
  | .unexpected e => .unexpected e

/-- Refuses the first of the tokens that are left. -/
def Ending.refuseFirst (ending : Ending) (tokens : List Token) (reason : Refusal) : CompileError :=
  match tokens with
  | [] => ending.refuse reason
  | token :: _ => token.refuse reason

/-- Refuses a token that stands where an operand should. The reader has one more token in view by
then, so an unexpected character right behind the token is reported in its place. -/
def Ending.refuseOperand (ending : Ending) (token : Token) (behind : List Token)
    (reason : Refusal) : CompileError :=
  match behind, ending with
  | [], .unexpected e => .unexpected e
  | _, _ => token.refuse reason

end StackCalculator
