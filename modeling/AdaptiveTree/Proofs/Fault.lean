import AdaptiveTree.Builtin
import AdaptiveTree.Host

/-!
Faults that tell of an inconsistency of the tree and not of the program that is run. No builtin
raises one, and a polite host function raises none either.
-/

set_option autoImplicit false
set_option relaxedAutoImplicit false

namespace AdaptiveTree

/-- A splice or a node was not what the nodes around it rely on. -/
def Fault.isInternal : Fault → Bool
  | brokenTree _ | unexpectedNode _ => true
  | _ => false

/-- Internal faults share a code that no other fault has. -/
theorem Fault.code_eq_iff (cause : Fault) : cause.code = "R999" ↔ cause.isInternal = true := by
  cases cause <;> simp [Fault.code, Fault.isInternal]

/-- Builtins fail on their arguments only. -/
theorem Builtin.exists_invalidArgument {b : Builtin} {args : List Value} {cause : Fault}
    (h : b.answer args = .error cause) :
    ∃ function message, cause = .invalidArgument function message := by
  cases b with
  | combine => cases h
  | ret =>
    rw [answer] at h
    unfold returnValue at h
    split at h
    · cases h
    · cases h
    · exact ⟨_, _, (Except.error.inj h).symm⟩
  | length =>
    rw [answer] at h
    unfold lengthOf at h
    split at h
    · split at h
      · cases h
      · exact ⟨_, _, (Except.error.inj h).symm⟩
    · exact ⟨_, _, (Except.error.inj h).symm⟩
  | isNA =>
    rw [answer] at h
    unfold missingness at h
    split at h
    · cases h
    · cases h
    · exact ⟨_, _, (Except.error.inj h).symm⟩

/-- A host function that raises no internal fault, whatever it was asked before. -/
def HostFunction.Polite (f : HostFunction) : Prop :=
  ∀ past args cause, f.answer past args = .error cause → cause.isInternal = false

end AdaptiveTree
