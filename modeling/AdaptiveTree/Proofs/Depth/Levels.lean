import AdaptiveTree.Proofs.Reading.Part
import AdaptiveTree.Proofs.Reference.Statements

/-!
How many evaluations a program nests in each other. The number depends on the source and on the
world that the program is begun in, and on what the forms of its conditionals leave out: a test of
equality with a constant may evaluate one operand instead of the comparison, and a return tail the
argument instead of the call.
-/

set_option autoImplicit false
set_option relaxedAutoImplicit false

namespace AdaptiveTree

/-- What the forms of conditionals may leave out. -/
structure Forms where
  /-- The comparison with a constant, of which only the operand is evaluated. -/
  operandOnly : Bool
  /-- The call of `return`, of which only the argument is evaluated. -/
  argumentOnly : Bool
  deriving DecidableEq, Repr

namespace Forms

/-- Generic forms, which leave out nothing. -/
def most : Forms := ⟨false, false⟩

/-- The forms that leave out the most, with tests of equality with a constant or without them. -/
def least (operands : Bool) : Forms := ⟨operands, true⟩

end Forms

namespace Reference

/-- What is counted behind a computation, which is nothing if it fails. -/
def after {α : Type} (next : α → World → Nat) : EStateM.Result Halt World α → Nat
  | .ok a w => next a w
  | .error _ _ => 0

section After

variable {α β : Type}

@[simp] theorem after_ok (next : α → World → Nat) (a : α) (w : World) :
    after next (.ok a w) = next a w := rfl

@[simp] theorem after_error (next : α → World → Nat) (halt : Halt) (w : World) :
    after next (.error halt w) = 0 := rfl

@[simp] theorem after_zero (result : EStateM.Result Halt World α) :
    after (fun _ _ ↦ 0) result = 0 := by
  cases result <;> rfl

theorem after_bind (next : β → World → Nat) (x : Run α) (f : α → Run β) (w : World) :
    after next ((x >>= f) w) = after (fun a w' ↦ after next (f a w')) (x w) := by
  show after next (EStateM.bind x f w) = _
  unfold EStateM.bind
  cases x w <;> rfl

theorem after_max (p q : α → World → Nat) (result : EStateM.Result Halt World α) :
    after (fun a w ↦ max (p a w) (q a w)) result = max (after p result) (after q result) := by
  cases result
  · rfl
  · exact (Nat.max_self 0).symm

theorem after_le_add {p q : α → World → Nat} {n : Nat} (h : ∀ a w, p a w ≤ q a w + n)
    (result : EStateM.Result Halt World α) : after p result ≤ after q result + n := by
  cases result with
  | ok a w => exact h a w
  | error => exact Nat.zero_le _

theorem after_le {p : α → World → Nat} {n : Nat} (h : ∀ a w, p a w ≤ n)
    (result : EStateM.Result Halt World α) : after p result ≤ n := by
  cases result with
  | ok a w => exact h a w
  | error => exact Nat.zero_le _

end After

/-- The number for the branch that a truth value selects. -/
def branchLevels (thenLevels elseLevels : Nat) (l : Logical) : Nat :=
  match l.toBool? with
  | none => 0
  | some holds => if holds then thenLevels else elseLevels

mutual

/-- The evaluations nested in that of an expression, itself included. Nothing but a condition is
`tested`. -/
def levels (f : Forms) (tested : Bool) : Expr → World → Nat
  | .literal _ _, _ | .ident _ _, _ => 1
  | .unary _ e _, w | .assign _ e _, w => levels f false e w + 1
  | .compare op left right span, w =>
    if tested && f.operandOnly && (Expr.compare op left right span).constantTested?.isSome then
      levels f false left w
    else
      max (levels f false left w)
        (after (fun _ w' ↦ levels f false right w') (expr left w)) + 1
  | .call name args span, w =>
    after (fun _ w' ↦ levelsEach f args w') (lookupCallee span name w) + 1
  | .ifThen c t _, w =>
    max (levels f true c w)
      (after (fun l w' ↦ branchLevels (levels f false t w') 1 l) (test c w)) + 1
  | .ifElse c t e _, w =>
    max (levels f true c w)
      (after (fun l w' ↦ branchLevels (levels f false t w') (levels f false e w') l)
        (test c w)) + 1
  | .block items _, w => levelsEach f items w + 1

/-- The same of expressions that are evaluated from left to right. -/
def levelsEach (f : Forms) : List Expr → World → Nat
  | [], _ => 0
  | e :: rest, w =>
    max (levels f false e w) (after (fun _ w' ↦ levelsEach f rest w') (expr e w))

end

variable (f : Forms) (w : World)

theorem levels_compare (op : CompareOp) (left right : Expr) (span : Span) :
    levels f false (.compare op left right span) w = max (levels f false left w)
      (after (fun _ w' ↦ levels f false right w') (expr left w)) + 1 := by
  rw [levels, Bool.false_and, Bool.false_and]
  rfl

/-- Only a comparison with a constant is counted in another way where it is tested. -/
theorem levels_tested {e : Expr} (hplain : f.operandOnly = false ∨ e.constantTested? = none) :
    levels f true e w = levels f false e w := by
  cases e with
  | compare op left right span =>
    have hboth : (f.operandOnly && (Expr.compare op left right span).constantTested?.isSome) =
        false := by
      rcases hplain with hoff | hnone
      · rw [hoff, Bool.false_and]
      · rw [hnone, Option.isSome_none, Bool.and_false]
    rw [levels_compare, levels, Bool.true_and, hboth]
    rfl
  | _ => simp only [levels]

theorem levels_pos (tested : Bool) : (e : Expr) → 0 < levels f tested e w
  | .compare op left right span => by
    rw [levels]
    split
    · exact levels_pos false left
    · exact Nat.succ_pos _
  | .literal .. | .ident .. | .unary .. | .assign .. | .call .. | .ifThen .. | .ifElse ..
  | .block .. => by
    rw [levels]
    omega

/-- A conditional evaluates its condition and a branch. -/
theorem levels_of_branches {source cond thenBranch elseBranch : Expr}
    (hsource : source.Branches cond thenBranch elseBranch) :
    levels f false source w = max (levels f true cond w)
      (after (fun l w' ↦
        branchLevels (levels f false thenBranch w') (levels f false elseBranch w') l)
        (test cond w)) + 1 := by
  cases hsource with
  | missing => simp only [levels]
  | present => rw [levels]

/-! ### Return tails -/

/-- The call of `return` that ends a return tail, and what stands behind it. -/
def callLevels (f : Forms) (t : Expr.ReturnTail) (rest : World → Nat) (w : World) : Nat :=
  max (levels f false (.call "return" [t.arg] t.callSpan) w)
    (after (fun _ w' ↦ rest w') (expr (.call "return" [t.arg] t.callSpan) w))

/-- With its own meaning `return` evaluates its argument and nothing else. -/
theorem levels_return {w : World} (hunbound : w.frame.contains "return" = false) (arg : Expr)
    (span : Span) :
    levels f false (.call "return" [arg] span) w = levels f false arg w + 1 := by
  rw [levels, lookupCallee_return hunbound]
  simp only [after, levelsEach]
  cases expr arg w <;> simp

/-- With its own meaning `return` ends the program. -/
theorem callLevels_unbound {w : World} (hunbound : w.frame.contains "return" = false)
    (t : Expr.ReturnTail) (rest : World → Nat) :
    callLevels f t rest w = levels f false t.arg w + 1 := by
  have hthrow : after (fun _ w' ↦ rest w') (expr (.call "return" [t.arg] t.callSpan) w) = 0 := by
    rw [expr_return hunbound, after_bind]
    exact after_zero _
  rw [callLevels, levels_return f hunbound, hthrow, Nat.max_zero]

/-- The end of a return tail. With its own meaning `return` needs no call. -/
def endLevels (f : Forms) (t : Expr.ReturnTail) (rest : World → Nat) (w : World) : Nat :=
  if f.argumentOnly && ! w.frame.contains "return" then levels f false t.arg w
  else callLevels f t rest w

theorem endLevels_most (t : Expr.ReturnTail) (rest : World → Nat) (w : World) :
    endLevels .most t rest w = callLevels .most t rest w := rfl

theorem endLevels_le (t : Expr.ReturnTail) (rest : World → Nat) :
    endLevels f t rest w ≤ callLevels f t rest w := by
  unfold endLevels
  split_ifs with hargument
  · simp only [Bool.and_eq_true, Bool.not_eq_true'] at hargument
    rw [callLevels_unbound f hargument.2]
    exact Nat.le_succ _
  · exact Nat.le_refl _

/-- The statements in front of a `return`, which get a node of their own if there are any. -/
def bodyLevels (f : Forms) : List Expr → World → Nat
  | [], _ => 0
  | e :: rest, w => levelsEach f (e :: rest) w + 1

/-- What a return tail does after its condition, with what stands behind it. -/
def tailLevels (f : Forms) (t : Expr.ReturnTail) (rest : World → Nat) (l : Logical) (w : World) :
    Nat :=
  branchLevels
    (max (bodyLevels f t.body w) (after (fun _ w' ↦ endLevels f t rest w') (body t.body w)))
    (rest w) l

/-- The statements of a program in which return tails are recognised. The statements behind a tail
are evaluated inside of it. -/
def statementLevels (f : Forms) : List Expr → World → Nat
  | [], _ => 0
  | e :: rest, w =>
    match e.returnTail? with
    | some t =>
      max (levels f false t.cond w)
        (after (tailLevels f t fun w' ↦ statementLevels f rest w' + 1) (test t.cond w)) + 1
    | none =>
      max (levels f false e w) (after (fun _ w' ↦ statementLevels f rest w') (expr e w))

/-- The evaluations nested in a run of a program. -/
def programLevels (f : Forms) (options : CompilationOptions) : Expr → World → Nat
  | .block items span, w =>
    if options.returnTails then statementLevels f items w + 1
    else levels f false (.block items span) w
  | e, w => levels f false e w

end Reference

end AdaptiveTree
