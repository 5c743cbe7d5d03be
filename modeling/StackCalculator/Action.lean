/-!
Things done to a state that can end early. The state is then left as it is at that moment, and what
was done before the end is not undone.
-/

namespace StackCalculator

/-- Something done to a state, which can end early with an outcome of its own. -/
abbrev Action (ε σ α : Type) :=
  ExceptT ε (StateM σ) α

namespace Action

variable {ε σ α β : Type}

/-- What an action gives on a state, and the state it leaves. -/
def on (action : Action ε σ α) (state : σ) : Except ε α × σ :=
  (ExceptT.run action).run state

/-- An action behind another is done only if the first does not end early. -/
theorem on_bind (first : Action ε σ α) (next : α → Action ε σ β) (state : σ) :
    (first >>= next).on state =
      match first.on state with
      | (.ok value, after) => (next value).on after
      | (.error outcome, after) => (.error outcome, after) := by
  rcases hFirst : first.on state with ⟨_ | _, after⟩
  · simp only [on, ExceptT.run_bind, StateT.run_bind] at hFirst ⊢
    rw [hFirst]
    rfl
  · simp only [on, ExceptT.run_bind, StateT.run_bind] at hFirst ⊢
    rw [hFirst]
    rfl

theorem on_pure (value : α) (state : σ) :
    (pure value : Action ε σ α).on state = (.ok value, state) :=
  rfl

theorem on_get (state : σ) : (get : Action ε σ σ).on state = (.ok state, state) :=
  rfl

end Action

end StackCalculator
