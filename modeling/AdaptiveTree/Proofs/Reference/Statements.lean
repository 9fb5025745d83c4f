import AdaptiveTree.Proofs.Comparator
import AdaptiveTree.Proofs.Reading.Part
import AdaptiveTree.Proofs.Reference.Basic

/-!
Equations of the reference: conditionals by their branches, statements one after the other, and
return tails, which are conditionals whose branch ends with a call of `return`.
-/

set_option autoImplicit false
set_option relaxedAutoImplicit false

namespace AdaptiveTree

namespace Reference

variable {source cond thenBranch elseBranch : Expr}

theorem bind_eq {α β : Type} {x : Run α} {f : α → Run β} {a : α} {w w' : World}
    (h : x w = .ok a w') : (x >>= f) w = f a w' := by
  show EStateM.bind x f w = f a w'
  rw [EStateM.bind, h]

theorem bind_error_eq {α β : Type} {x : Run α} {f : α → Run β} {halt : Halt} {w w' : World}
    (h : x w = .error halt w') : (x >>= f) w = .error halt w' := by
  show EStateM.bind x f w = _
  rw [EStateM.bind, h]

/-- What can be told of the value of an expression by its form: a comparison is logical. -/
def Admits (e : Expr) (v : Value) : Prop :=
  e.isCompare = true → ConvertMode.ofValue v = .logical

theorem ofValue_compareWith (op : CompareOp) (a b : Value) :
    ConvertMode.ofValue (a.compareWith op b) = .logical := by
  rw [ConvertMode.ofValue, Value.rank_compareWith]

theorem admits_of_expr {e : Expr} {v : Value} {w w' : World} (h : expr e w = .ok v w') :
    Admits e v := by
  intro hcompare
  cases e with
  | compare op left right span =>
    rw [expr] at h
    cases hleft : expr left w with
    | error halt w₁ =>
      rw [bind_error_eq hleft] at h
      cases h
    | ok a w₁ =>
      rw [bind_eq hleft] at h
      cases hright : expr right w₁ with
      | error halt w₂ =>
        rw [bind_error_eq hright] at h
        cases h
      | ok b w₂ =>
        rw [bind_eq hright] at h
        obtain ⟨rfl, rfl⟩ := EStateM.Result.ok.inj h
        exact ofValue_compareWith op a b
  | _ => cases hcompare

/-- A conditional evaluates its condition once and then the branch selected. -/
theorem expr_of_branches (hsource : source.Branches cond thenBranch elseBranch) :
    expr source = test cond >>= choose source.span (expr thenBranch) (expr elseBranch) := by
  cases hsource with
  | missing =>
    rw [expr, test, bind_assoc, expr]
    rfl
  | present =>
    rw [expr, test, bind_assoc]
    rfl

theorem expr_of_literal {l : Literal} {k : Scalar} (h : l.scalar? = some k) (span : Span) :
    expr (.literal l span) = pure (.scalar k) := by
  rw [expr, Literal.value, h]

/-- A test of equality with a constant evaluates only the other operand. -/
theorem test_of_constant {k : Scalar} (h : cond.constantTested? = some k) :
    ∃ left right span, cond = .compare .eq left right span ∧ expr right = pure (.scalar k) ∧
      test cond = expr left >>= fun v ↦ truth cond.span (v.compareWith .eq (.scalar k)) := by
  have htest {left right : Expr} {span : Span} (hright : expr right = pure (.scalar k)) :
      test (.compare .eq left right span) =
        expr left >>= fun v ↦ truth span (v.compareWith .eq (.scalar k)) := by
    rw [test, expr, bind_assoc, hright]
    simp only [pure_bind]
    rfl
  unfold Expr.constantTested? at h
  split at h
  · next left l s span =>
    have hright := expr_of_literal h s
    exact ⟨left, .literal l s, span, rfl, hright, htest hright⟩
  · next left l s s' span =>
    obtain ⟨k', hk', rfl⟩ := Option.map_eq_some_iff.mp h
    have hright : expr (.unary .neg (.literal l s) s') = pure (.scalar k'.negate) := by
      rw [expr, expr_of_literal hk', pure_bind]
      rfl
    exact ⟨left, .unary .neg (.literal l s) s', span, rfl, hright, htest hright⟩
  · simp at h

theorem inOrder_append (items others : List Expr) (last : Value) :
    inOrder last (items ++ others) = inOrder last items >>= fun v ↦ inOrder v others := by
  induction items generalizing last with
  | nil => rw [List.nil_append, inOrder, pure_bind]
  | cons e rest ih =>
    rw [List.cons_append, inOrder, inOrder, bind_assoc]
    exact congrArg _ (funext ih)

theorem inOrder_concat (items : List Expr) (e : Expr) (last : Value) :
    inOrder last (items ++ [e]) = inOrder last items >>= fun _ ↦ expr e := by
  rw [inOrder_append]
  simp only [inOrder, bind_pure]

theorem inOrder_statements (e : Expr) : inOrder .null e.statements = expr e := by
  have hsingle : inOrder .null [e] = expr e := by
    rw [inOrder]
    simp only [inOrder, bind_pure]
  cases e with
  | block items span => rw [Expr.statements, expr]
  | _ => exact hsingle

/-- The statements in front of a `return`, whose values do not matter. -/
def body (items : List Expr) : Run Unit := do
  let _ ← inOrder .null items

/-- What a return tail does once its condition is known. -/
theorem expr_of_tail {e : Expr} {t : Expr.ReturnTail} (h : e.returnTail? = some t) :
    expr e = test t.cond >>= choose e.span
      (body t.body >>= fun _ ↦ expr (.call "return" [t.arg] t.callSpan)) (pure .null) := by
  obtain ⟨branch, span, rfl, hstatements⟩ := Expr.returnTail?_eq_some_iff.mp h
  have hbranch :
      expr branch = body t.body >>= fun _ ↦ expr (.call "return" [t.arg] t.callSpan) := by
    rw [← inOrder_statements, hstatements, inOrder_concat, body, bind_assoc]
    rfl
  have hnull : expr (.literal .null span) = pure .null := by rw [expr]; rfl
  rw [expr_of_branches (.missing t.cond branch span), hbranch, hnull]

theorem lookupCallee_return {w : World} (hunbound : w.frame.contains "return" = false)
    (span : Span) : lookupCallee span "return" w = .ok (.builtin .ret) w := by
  have hnone : w.frame.get? "return" = none := by
    simpa [Frame.contains] using hunbound
  have hget : (get : Run World) w = .ok w w := rfl
  unfold lookupCallee
  rw [bind_eq hget, hnone]
  rfl

/-- With its own meaning `return` ends the program. -/
theorem expr_return {w : World} (hunbound : w.frame.contains "return" = false) (arg : Expr)
    (span : Span) : expr (.call "return" [arg] span) w =
      (expr arg >>= fun v ↦ (throw (.returned v) : Run Value)) w := by
  have heach : each [arg] = expr arg >>= fun v ↦ pure [v] := by
    simp only [each, pure_bind]
  rw [expr, bind_eq (lookupCallee_return hunbound span), heach, bind_assoc]
  simp only [pure_bind]
  rfl

/-- What stands behind a call that ends the program is not evaluated. -/
theorem expr_return_bind {α : Type} {w : World} (hunbound : w.frame.contains "return" = false)
    (arg : Expr) (span : Span) (f : Value → Run α) :
    (expr (.call "return" [arg] span) >>= f) w =
      (expr arg >>= fun v ↦ (throw (.returned v) : Run α)) w := by
  have hcongr (x y : Run Value) (h : x w = y w) : (x >>= f) w = (y >>= f) w := by
    show EStateM.bind x f w = EStateM.bind y f w
    rw [EStateM.bind, EStateM.bind, h]
  rw [hcongr _ _ (expr_return hunbound arg span), bind_assoc]
  rfl

end Reference

end AdaptiveTree
