import AdaptiveTree.Proofs.Lowering.Programs
import AdaptiveTree.Proofs.Simulation.Run

/-!
Whole programs on the machine and in the reference. They agree unless the limit is exceeded,
except that a return tail at the very end of a program gives nothing if the program goes on
behind its call of `return`.
-/

set_option autoImplicit false
set_option relaxedAutoImplicit false

namespace AdaptiveTree

/-- The program ends with a return tail that lowering recognises. -/
def CompilationOptions.endsWithTail (options : CompilationOptions) : Expr → Bool
  | .block items _ => options.returnTails && Expr.endsWithTail items
  | _ => false

namespace Reference

/-- The outcome of a program on the machine. A program that is not left early, but ends with a
return tail, gives nothing. -/
def runLowered (options : CompilationOptions) (program : Expr) (w : World) :
    Except Failure Value × World :=
  match expr program w with
  | .ok v w' => (.ok (if options.endsWithTail program then .null else v), w')
  | .error halt w' => (halt.outcome, w')

theorem runLowered_eq_run {options : CompilationOptions} {program : Expr} {w : World}
    (h : options.endsWithTail program = false) : runLowered options program w = run program w := by
  rw [runLowered, run, h]
  rfl

/-- What a program does to the world does not depend on the recognition of return tails. -/
theorem runLowered_snd (options : CompilationOptions) (program : Expr) (w : World) :
    (runLowered options program w).2 = (run program w).2 := by
  rw [runLowered, run]
  cases expr program w <;> rfl

end Reference

namespace Machine

variable {calls : NodeId → Span} {busy : NodeId → Prop} {m m' : Machine} {root : NodeId}
  {limit : Nat} {source : Expr} {options : CompilationOptions}

/-- The run was broken off because evaluations were nested too deep. -/
def Overflows (result : Except Failure Value) : Prop :=
  ∃ limit span, result = .error (.tooDeep limit span)

theorem later_executeUntil (stop : Machine → Bool) (limit : Nat) (h : m.Sound calls)
    (hshows : Shows calls (fun _ ↦ False) m.tree root (.ofProgram options source)) :
    Later calls (fun _ ↦ False) m (machineOf (Eval.executeUntil stop limit root m)) := by
  have hsimulates := Eval.simulates_executeUntil calls stop limit
  have hready : Ready calls (fun _ ↦ False) m := ⟨h, fun _ hx ↦ hx.elim⟩
  cases source with
  | block items span =>
    rw [Part.ofProgram] at hshows
    split_ifs at hshows
    · exact (hsimulates.statements hready hshows).later
    · exact (hsimulates.value hready hshows).later
  | _ => exact (hsimulates.value hready hshows).later

theorem run_eq (m : Machine) (limit : Nat) (root : NodeId) :
    (m.run limit root).2 = machineOf (Eval.execute limit root m) := by
  unfold run
  cases Eval.execute limit root m <;> rfl

theorem later_run (limit : Nat) (h : m.Sound calls)
    (hshows : Shows calls (fun _ ↦ False) m.tree root (.ofProgram options source)) :
    Later calls (fun _ ↦ False) m (m.run limit root).2 := by
  rw [run_eq, ← Eval.executeUntil_never]
  exact later_executeUntil _ limit h hshows

theorem run_of_follows {agrees : EStateM.Result Halt World Value → Value → World → Prop}
    (hfollows : Follows calls busy agrees m (Reference.expr source m.world)
      (Eval.execute limit root m))
    (hagrees : ∀ v w, agrees (Reference.expr source m.world) v w →
      Reference.runLowered options source m.world = (.ok v, w)) :
    Overflows (m.run limit root).1 ∨
      ((m.run limit root).1, (m.run limit root).2.world) =
        Reference.runLowered options source m.world := by
  unfold run
  revert hfollows
  generalize Eval.execute limit root m = result
  intro hfollows
  cases hfollows with
  | ok _ hsame => exact Or.inr (hagrees _ _ hsame).symm
  | @error halt _ _ href =>
    rw [Reference.runLowered, href]
    cases halt <;> exact Or.inr rfl
  | tooDeep => exact Or.inl ⟨_, _, rfl⟩

/-- A run that does not overflow gives what the reference gives. -/
theorem run_eq_runLowered (limit : Nat) (h : m.Sound calls)
    (hshows : Shows calls (fun _ ↦ False) m.tree root (.ofProgram options source)) :
    Overflows (m.run limit root).1 ∨
      ((m.run limit root).1, (m.run limit root).2.world) =
        Reference.runLowered options source m.world := by
  have hsimulates := Eval.simulates_executeUntil calls (fun _ ↦ false) limit
  rw [Eval.executeUntil_never] at hsimulates
  have hready : Ready calls (fun _ ↦ False) m := ⟨h, fun _ hx ↦ hx.elim⟩
  have hvalue {e : Expr} (hshows : Shows calls (fun _ ↦ False) m.tree root (.value e))
      (hends : options.endsWithTail e = false) :
      Overflows (m.run limit root).1 ∨
        ((m.run limit root).1, (m.run limit root).2.world) =
          Reference.runLowered options e m.world := by
    refine run_of_follows (hsimulates.value hready hshows) fun v w hsame ↦ ?_
    have href : Reference.expr e m.world = .ok v w := hsame
    rw [Reference.runLowered, href, hends]
    rfl
  cases source with
  | block items span =>
    rw [Part.ofProgram] at hshows
    split_ifs at hshows with hon
    · have hends : options.endsWithTail (.block items span) = Expr.endsWithTail items := by
        rw [CompilationOptions.endsWithTail, hon, Bool.true_and]
      have hitems : Reference.expr (.block items span) = Reference.inOrder .null items := by
        rw [Reference.expr]
      have hfollows := hsimulates.statements hready hshows
      rw [← hitems] at hfollows
      refine run_of_follows hfollows fun v w hconcluded ↦ ?_
      rw [Reference.runLowered, hends]
      rcases hconcluded with ⟨v', href, rfl⟩ | href
      · rw [href]
      · rw [href]
        rfl
    · have hends : options.endsWithTail (.block items span) = false := by
        rw [CompilationOptions.endsWithTail, Bool.eq_false_iff.mpr hon, Bool.false_and]
      exact hvalue hshows hends
  | _ => exact hvalue hshows rfl

end Machine

end AdaptiveTree
