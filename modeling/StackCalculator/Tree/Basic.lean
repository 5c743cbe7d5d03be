import StackCalculator.Expr
import StackCalculator.Token.Basic

/-!
Parse trees: expressions together with the tokens they were read from.
-/

namespace StackCalculator

/-- The operator that a token of a kind stands for. -/
def Token.Kind.operator? : Token.Kind → Option Operator
  | .plus => some .add
  | .minus => some .subtract
  | .star => some .multiply
  | .slash => some .divide
  | _ => none

/-- An expression as it was written: groups are kept, and every token is in its place. -/
inductive Tree where
  | literal (token : Token) (value : Number)
  | group (opening : Token) (inner : Tree) (closing : Token)
  | binary (left : Tree) (operator : Operator) (sign : Token) (right : Tree)
  deriving DecidableEq

namespace Tree

/-- The tokens of a tree, in the order of the source. -/
def tokens : Tree → List Token
  | .literal token _ => [token]
  | .group opening inner closing => opening :: (inner.tokens ++ [closing])
  | .binary left _ sign right => left.tokens ++ sign :: right.tokens

/-- The line of the last token of a tree. -/
def lastLine : Tree → Nat
  | .literal token _ => token.line
  | .group _ _ closing => closing.line
  | .binary _ _ _ right => right.lastLine

/-- The expression that a tree stands for, without groups and tokens. -/
def toExpr : Tree → Expr
  | .literal _ value => .literal value
  | .group _ inner _ => inner.toExpr
  | .binary left operator _ right => .binary operator left.toExpr right.toExpr

end Tree

end StackCalculator
