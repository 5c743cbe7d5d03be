import StackCalculator.Number.Text

/-!
What the library tells on the side while it works: diagnostic text and a record of events. Neither
has an influence on a result.
-/

namespace StackCalculator

/-- A thing that happened. -/
inductive Event where
  | compiled (bytes constants : Nat)
  | running (bytes : Nat)
  | returned (value : Number)
  deriving DecidableEq

def Event.message : Event → String
  | .compiled bytes constants =>
      "compiled " ++ toString bytes ++ " bytes and " ++ toString constants ++ " constants"
  | .running bytes => "running " ++ toString bytes ++ " bytes"
  | .returned value => "returned " ++ value.text

/-- A result with what was told on the way to it. -/
structure Reported (ε α : Type) where
  result : Except ε α
  diagnostics : String := ""
  events : List Event := []

end StackCalculator
