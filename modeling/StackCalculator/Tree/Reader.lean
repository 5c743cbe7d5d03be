import StackCalculator.Number.Decimal
import StackCalculator.Tree.Basic
import StackCalculator.Tree.Refusal

/-!
Reading tokens as an expression by precedence: an operand is followed by every operator that
binds at least as tightly as asked for, each with a right operand that binds tighter still. So
operators of one level associate to the left.
-/

namespace StackCalculator.Tree

/-- How many literals an expression can have: as many as one byte can index. -/
def maxLiterals : Nat := 256

/-- How many groups can be open at once. -/
def maxNesting : Nat := 256

/-- What reading from a list of tokens gives. Fewer tokens than `bound` are left. -/
structure Reading (bound : Nat) where
  tree : Tree
  /-- How many literals have been read, those before this tree included. -/
  literals : Nat
  rest : List Token
  rest_lt : rest.length < bound

/-- The same reading under a weaker bound. -/
def Reading.weaken {bound larger : Nat} (reading : Reading bound) (h : bound ≤ larger) :
    Reading larger :=
  { reading with rest_lt := Nat.lt_of_lt_of_le reading.rest_lt h }

mutual

/-- Reads a literal or a group, inside `depth` open groups and after `literals` literals. -/
def readOperand (ending : Ending) (depth literals : Nat) (tokens : List Token) :
    Except CompileError (Reading tokens.length) :=
  match tokens with
  | [] => .error (ending.refuse .expectExpression)
  | token :: behind =>
      match token.kind with
      | .number =>
          match Decimal.read? token.lexeme.toList with
          | none => .error (ending.refuseOperand token behind .invalidNumber)
          | some decimal =>
              if literals = maxLiterals then
                .error (ending.refuseOperand token behind .tooManyConstants)
              else
                .ok ⟨.literal token decimal.toNumber, literals + 1, behind, Nat.lt_succ_self _⟩
      | .leftParen =>
          if depth = maxNesting then
            .error (ending.refuseOperand token behind .tooMuchNesting)
          else
            match readExpr ending 1 (depth + 1) literals behind with
            | .error e => .error e
            | .ok ⟨_, _, [], _⟩ => .error (ending.refuse .expectRightParen)
            | .ok ⟨inner, read, closing :: rest, h⟩ =>
                if closing.kind = .rightParen then
                  .ok ⟨.group token inner closing, read, rest,
                    Nat.lt_succ_of_lt (Nat.lt_of_succ_lt h)⟩
                else
                  .error (closing.refuse .expectRightParen)
      | _ => .error (ending.refuseOperand token behind .expectExpression)
termination_by 3 * tokens.length

/-- Reads an expression whose operators outside of groups all have at least the given binding. It
takes in as many tokens as it can. -/
def readExpr (ending : Ending) (binding depth literals : Nat) (tokens : List Token) :
    Except CompileError (Reading tokens.length) :=
  match readOperand ending depth literals tokens with
  | .error e => .error e
  | .ok ⟨operand, read, rest, h⟩ =>
      match readOperators ending binding depth read operand rest with
      | .error e => .error e
      | .ok whole => .ok (whole.weaken h)
termination_by 3 * tokens.length + 2

/-- Goes on behind a left operand, as long as an operator of at least the given binding
follows. -/
def readOperators (ending : Ending) (binding depth literals : Nat) (left : Tree)
    (tokens : List Token) : Except CompileError (Reading (tokens.length + 1)) :=
  match tokens with
  | [] => .ok ⟨left, literals, [], Nat.lt_succ_self _⟩
  | sign :: behind =>
      match sign.kind.operator? with
      | none => .ok ⟨left, literals, sign :: behind, Nat.lt_succ_self _⟩
      | some operator =>
          if binding ≤ operator.binding then
            match readExpr ending (operator.binding + 1) depth literals behind with
            | .error e => .error e
            | .ok ⟨right, read, rest, h⟩ =>
                match readOperators ending binding depth read (.binary left operator sign right)
                  rest with
                | .error e => .error e
                | .ok whole => .ok (whole.weaken (by simp; omega))
          else
            .ok ⟨left, literals, sign :: behind, Nat.lt_succ_self _⟩
termination_by 3 * tokens.length + 1

end

/-- Reads the tokens of a text as one expression, with nothing behind it. The line is that of the
end of the input. -/
def read (text : Tokenized) : Except CompileError (Tree × Nat) :=
  match readExpr text.ending 1 0 0 text.tokens with
  | .error e => .error e
  | .ok reading =>
      match reading.rest, text.ending with
      | [], .endOfInput line => .ok (reading.tree, line)
      | rest, ending => .error (ending.refuseFirst rest .expectEnd)

/-- Reads a source text as one expression. -/
def ofSource (source : String) : Except CompileError (Tree × Nat) :=
  read (Scanner.ofText source).tokenized

end StackCalculator.Tree
