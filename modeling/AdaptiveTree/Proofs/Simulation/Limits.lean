import AdaptiveTree.Proofs.Simulation.Programs
import AdaptiveTree.Proofs.Simulation.Unless

/-!
Raising the limit. An evaluation that was not nested too deep goes the same way under every higher
limit, in any machine whatsoever: it ends in the same way and leaves the same machine.
-/

set_option autoImplicit false
set_option relaxedAutoImplicit false

namespace AdaptiveTree

namespace Eval

/-- The evaluation was broken off because of the limit. -/
def Overflows {α : Type} (result : EStateM.Result Exit Machine α) : Prop :=
  ∃ span m, result = .error (.tooDeep span) m

/-- The ways of leaving that more levels could have avoided. -/
def LeftTooDeep (exit : Exit) (_ : Machine) : Prop := ∃ span, exit = .tooDeep span

variable {limit limit' : Nat} {m : Machine}

theorem unless_execute (hle : limit ≤ limit') (node : NodeId) :
    Unless LeftTooDeep (execute limit node) (execute limit' node) := by
  induction limit generalizing limit' node with
  | zero => exact fun m ↦ Or.inr ⟨.tooDeep (m.spanOf node), m, rfl, _, rfl⟩
  | succ limit ih =>
    obtain ⟨higher, rfl⟩ : ∃ higher, limit' = higher + 1 := ⟨limit' - 1, by omega⟩
    exact .step (ih (Nat.le_of_succ_le_succ hle)) node

theorem Unless.eq_of_fits {α : Type} {x y : Eval α} (h : Unless LeftTooDeep x y)
    (hfits : ¬ Overflows (x m)) : y m = x m := by
  rcases h m with heq | ⟨_, m', hexit, span, rfl⟩
  · exact heq.symm
  · exact absurd ⟨span, m', hexit⟩ hfits

end Eval

namespace Machine

variable {limit : Nat} {m : Machine} {node : NodeId}

theorem not_overflows_execute (hfits : ¬ Overflows (m.run limit node).1) :
    ¬ Eval.Overflows (Eval.execute limit node m) := by
  rintro ⟨span, m', hdeep⟩
  refine hfits ⟨limit, span, ?_⟩
  rw [run, hdeep]
  rfl

/-- What the limit is does not show in a run that it did not break off. -/
theorem run_congr {limit' : Nat} (hfits : ¬ Eval.Overflows (Eval.execute limit node m))
    (hsame : Eval.execute limit' node m = Eval.execute limit node m) :
    m.run limit' node = m.run limit node := by
  rw [run, run, hsame]
  cases hresult : Eval.execute limit node m with
  | ok v m' => rfl
  | error exit m' =>
    cases exit with
    | tooDeep span => exact absurd ⟨span, m', hresult⟩ hfits
    | raised | returned => rfl

/-- Whole runs, nested evaluations and both ways of reading a condition. Nothing is assumed of the
tree, the watch or the bindings. -/
theorem fitted_of_le {limit limit' : Nat} (hle : limit ≤ limit') (m : Machine) (node : NodeId) :
    (¬ Overflows (m.run limit node).1 → m.run limit' node = m.run limit node) ∧
      (¬ Eval.Overflows (Eval.execute limit node m) →
        Eval.execute limit' node m = Eval.execute limit node m) ∧
      (¬ Eval.Overflows (Eval.scalarLogical (Eval.execute limit) node m) →
        Eval.scalarLogical (Eval.execute limit') node m =
          Eval.scalarLogical (Eval.execute limit) node m) ∧
      (¬ Eval.Overflows (Eval.presentLogical (Eval.execute limit) node m) →
        Eval.presentLogical (Eval.execute limit') node m =
          Eval.presentLogical (Eval.execute limit) node m) := by
  have hexec := Eval.unless_execute hle
  refine ⟨fun hfits ↦ ?_, (hexec node).eq_of_fits,
    (Eval.Unless.scalarLogical hexec node).eq_of_fits,
    (Eval.Unless.presentLogical hexec node).eq_of_fits⟩
  have hfits' := not_overflows_execute hfits
  exact run_congr hfits' ((hexec node).eq_of_fits hfits')

/-- A conditional that was put together by hand; its condition is one and not a truth value. -/
def conditionOne : Machine :=
  { empty with tree :=
      ((Tree.empty.alloc (.constant (.scalar (.int 1))) ⟨4, 6⟩).alloc
        (.constant (.scalar (.int 2))) ⟨8, 10⟩).alloc (.cond (.noElse 0 1)) ⟨0, 10⟩ }

/-- Two levels are enough to adapt the conditional and to evaluate its branch. -/
theorem fitted_of_le_conditionOne :
    (conditionOne.run 2 2).1 = .ok (.scalar (.int 2)) ∧
      (conditionOne.run 2 2).2.tree.generation = 2 ∧
      conditionOne.run 9 2 = conditionOne.run 2 2 ∧
      Eval.execute 9 2 conditionOne = Eval.execute 2 2 conditionOne ∧
      Eval.scalarLogical (Eval.execute 9) 0 conditionOne =
        Eval.scalarLogical (Eval.execute 2) 0 conditionOne ∧
      Eval.presentLogical (Eval.execute 9) 0 conditionOne =
        Eval.presentLogical (Eval.execute 2) 0 conditionOne := by
  have hvalue : (conditionOne.run 2 2).1 = .ok (.scalar (.int 2)) := by decide +kernel
  have hfits : ¬ Overflows (conditionOne.run 2 2).1 := by
    rintro ⟨_, _, hdeep⟩
    cases hvalue.symm.trans hdeep
  obtain ⟨hrun, hexecute, -, -⟩ := fitted_of_le (by decide : 2 ≤ 9) conditionOne 2
  obtain ⟨-, -, hscalar, hpresent⟩ := fitted_of_le (by decide : 2 ≤ 9) conditionOne 0
  exact ⟨hvalue, by decide +kernel, hrun hfits, hexecute (not_overflows_execute hfits),
    hscalar (fun ⟨_, _, hdeep⟩ ↦ nomatch hdeep), hpresent fun ⟨_, _, hdeep⟩ ↦ nomatch hdeep⟩

end Machine

end AdaptiveTree
