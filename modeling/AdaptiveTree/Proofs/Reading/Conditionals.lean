import AdaptiveTree.Proofs.Reading.Part
import Mathlib.Algebra.GroupWithZero.Nat

/-!
Counting the conditionals of a source. A node that fits a part accounts for at most one of them,
and its children for the others.
-/

set_option autoImplicit false
set_option relaxedAutoImplicit false

namespace AdaptiveTree

namespace Expr

mutual

/-- The number of `if` expressions in an expression. -/
def conditionals : Expr → Nat
  | literal .. | ident .. => 0
  | unary _ e _ | assign _ e _ => e.conditionals
  | compare _ left right _ => left.conditionals + right.conditionals
  | call _ items _ | block items _ => conditionalsIn items
  | ifThen c t _ => 1 + c.conditionals + t.conditionals
  | ifElse c t e _ => 1 + c.conditionals + t.conditionals + e.conditionals

def conditionalsIn : List Expr → Nat
  | [] => 0
  | e :: rest => e.conditionals + conditionalsIn rest

end

theorem conditionalsIn_append (first second : List Expr) :
    conditionalsIn (first ++ second) = conditionalsIn first + conditionalsIn second := by
  induction first with
  | nil => simp [conditionalsIn]
  | cons e rest ih => simp [conditionalsIn, ih, Nat.add_assoc]

theorem conditionalsIn_statements (e : Expr) : conditionalsIn e.statements = e.conditionals := by
  cases e <;> simp [statements, conditionalsIn, conditionals]

theorem conditionals_of_branches {source c t e : Expr} (h : source.Branches c t e) :
    source.conditionals = 1 + c.conditionals + t.conditionals + e.conditionals := by
  cases h <;> simp [conditionals]

/-- A recognised return tail is one conditional over its parts. -/
theorem conditionals_of_returnTail? {e : Expr} {t : ReturnTail} (h : e.returnTail? = some t) :
    e.conditionals =
      1 + t.cond.conditionals + conditionalsIn t.body + t.arg.conditionals := by
  cases e with
  | ifThen c branch span =>
    rw [returnTail?] at h
    split at h
    · next arg callSpan hlast =>
      obtain rfl := Option.some.inj h
      have hstatements := List.dropLast_append_getLast? _ hlast
      have hbranch : conditionalsIn branch.statements =
          conditionalsIn branch.statements.dropLast + arg.conditionals := by
        conv_lhs => rw [← hstatements]
        simp [conditionalsIn_append, conditionalsIn, conditionals]
      rw [conditionals, ← conditionalsIn_statements branch, hbranch]
      exact (Nat.add_assoc _ _ _).symm
    · cases h
  | _ => cases h

end Expr

namespace Part

def conditionals : Part → Nat
  | value e | test e => e.conditionals
  | statements items _ => Expr.conditionalsIn items
  | tail t rest _ _ => 1 + t.cond.conditionals + Expr.conditionalsIn t.body +
      t.arg.conditionals + Expr.conditionalsIn rest

/-- The number of `if` expressions in all of some parts. -/
def conditionalsIn (parts : List Part) : Nat := (parts.map conditionals).sum

@[simp] theorem conditionalsIn_nil : conditionalsIn [] = 0 := rfl

@[simp] theorem conditionalsIn_cons (part : Part) (parts : List Part) :
    conditionalsIn (part :: parts) = part.conditionals + conditionalsIn parts := rfl

@[simp] theorem conditionalsIn_append (parts parts' : List Part) :
    conditionalsIn (parts ++ parts') = conditionalsIn parts + conditionalsIn parts' := by
  simp [conditionalsIn]

theorem conditionalsIn_map_value (items : List Expr) :
    conditionalsIn (items.map .value) = Expr.conditionalsIn items := by
  induction items with
  | nil => rfl
  | cons e rest ih => simp [Expr.conditionalsIn, conditionals, ih]

theorem conditionalsIn_ofStatements (items : List Expr) :
    conditionalsIn (ofStatements items) = Expr.conditionalsIn items := by
  induction items with
  | nil => rfl
  | cons e rest ih =>
    rw [ofStatements]
    split
    · next t htail =>
      simp [conditionals, Expr.conditionalsIn, Expr.conditionals_of_returnTail? htail]
    · simp [Expr.conditionalsIn, conditionals, ih]

theorem conditionalsIn_ofBody (items : List Expr) :
    conditionalsIn (ofBody items) = Expr.conditionalsIn items := by
  cases items <;> simp [ofBody, conditionals, Expr.conditionals, Expr.conditionalsIn]

theorem conditionals_ofProgram (options : CompilationOptions) (program : Expr) :
    (ofProgram options program).conditionals = program.conditionals := by
  cases program with
  | block items span =>
    rw [ofProgram]
    split_ifs <;> simp [conditionals, Expr.conditionals]
  | _ => rfl

end Part

/-- A node accounts for the `if` expressions of its part as far as its children do not. -/
theorem Fits.conditionals_eq {calls : NodeId → Span} {id : NodeId} {kind : NodeKind} {span : Span}
    {part : Part} {parts : List Part} (h : Fits calls id kind span part parts) :
    part.conditionals = kind.isConditional.toNat + Part.conditionalsIn parts := by
  induction h with
  | generic _ _ _ hsource | const _ _ _ hsource | specialized _ _ _ hsource =>
    simp +arith [Part.conditionals, NodeKind.isConditional, Expr.conditionals_of_branches hsource]
  | noElse | twoBranch =>
    simp +arith [Part.conditionals, Expr.conditionals, NodeKind.isConditional]
  | builtin | overridden =>
    simp +arith [Part.conditionals, Part.ofCall, Expr.conditionals, Expr.conditionalsIn,
      NodeKind.isConditional, Part.conditionalsIn_ofBody]
  | call | block =>
    simp [Part.conditionals, Expr.conditionals, NodeKind.isConditional,
      Part.conditionalsIn_map_value]
  | statements =>
    simp [Part.conditionals, NodeKind.isConditional, Part.conditionalsIn_ofStatements]
  | plain _ ih => exact ih
  | literal | ident | unary | compare | assign | convert =>
    simp [Part.conditionals, Expr.conditionals, NodeKind.isConditional]

end AdaptiveTree
