import StackCalculator.Number.Basic

/-!
Arithmetic expressions without their layout: what a source text means once parentheses, blanks and
the spelling of its literals are forgotten.
-/

namespace StackCalculator

/-- The four binary operators. -/
inductive Operator where
  | add
  | subtract
  | multiply
  | divide
  deriving DecidableEq

/-- One rounded operation, the left operand first. -/
def Operator.apply : Operator → Number → Number → Number
  | .add, x, y => x + y
  | .subtract, x, y => x - y
  | .multiply, x, y => x * y
  | .divide, x, y => x / y

/-- How tightly an operator holds its operands. Products and quotients bind tighter than sums and
differences, and no operator has binding zero. -/
def Operator.binding : Operator → Nat
  | .add | .subtract => 1
  | .multiply | .divide => 2

/-- An expression over binary64 numbers. There is no unary operator. -/
inductive Expr where
  | literal (value : Number)
  | binary (operator : Operator) (left right : Expr)
  deriving DecidableEq

/-- The value of an expression: every inner node is one rounded operation. -/
def Expr.eval : Expr → Number
  | .literal value => value
  | .binary operator left right => operator.apply left.eval right.eval

end StackCalculator
