import AdaptiveTree.Proofs.Simulation.Unless

/-!
Evaluation that is broken off is the beginning of evaluation. It goes as evaluation does until it
is left, and it is left only right after a binding that leads to a machine to stop in.
-/

set_option autoImplicit false
set_option relaxedAutoImplicit false

namespace AdaptiveTree.Eval

/-- The first goes as the second does, unless it is left in a machine to stop in. -/
def Cuts {α : Type} (stop : Machine → Bool) (x y : Eval α) : Prop :=
  ∀ m, x m = y m ∨ ∃ m', x m = .error (.tooDeep .origin) m' ∧ stop m' = true

/-- Assumes nothing of the machine: evaluation that may be broken off is evaluation up to a
binding. -/
theorem cuts_executeUntil (stop : Machine → Bool) (limit : Nat) (node : NodeId) :
    Cuts stop (executeUntil stop limit node) (execute limit node) := by
  have hunless : Unless (fun exit m' ↦ exit = .tooDeep .origin ∧ stop m' = true)
      (executeUntil stop limit node) (executeUntil (fun _ ↦ false) limit node) := by
    induction limit generalizing node with
    | zero => exact .refl _
    | succ limit ih =>
      refine .stepUntil ih (fun m ↦ ?_) node
      cases stop m with
      | true => exact Or.inr ⟨rfl, rfl, rfl⟩
      | false => exact Or.inl rfl
  rw [executeUntil_never] at hunless
  intro m
  rcases hunless m with heq | ⟨_, m', hleft, rfl, hstop⟩
  · exact Or.inl heq
  · exact Or.inr ⟨m', hleft, hstop⟩

end AdaptiveTree.Eval
