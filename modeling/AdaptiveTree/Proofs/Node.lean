import AdaptiveTree.Node
import Mathlib.Data.List.Nodup

/-!
A node over other children. `withChildren` puts as many children into a kind as it had and
changes nothing else, so what a splice does to a parent is told by the list of children
alone. The shape of a kind is what is left of it when its children are forgotten.
-/

set_option autoImplicit false
set_option relaxedAutoImplicit false

namespace AdaptiveTree

namespace Conditional

theorem children_withChildren (form : Conditional) (ids : List NodeId)
    (hlength : ids.length = form.children.length) : (form.withChildren ids).children = ids := by
  cases form with
  | generic | twoBranch | const | specialized =>
    obtain ⟨c, t, e, rfl⟩ := List.length_eq_three.mp hlength
    rfl
  | noElse =>
    obtain ⟨c, t, rfl⟩ := List.length_eq_two.mp hlength
    rfl
  | returnBuiltin _ body | returnOverridden _ body =>
    cases body with
    | none =>
      obtain ⟨c, t, r, rfl⟩ := List.length_eq_three.mp hlength
      rfl
    | some body =>
      obtain ⟨c, b, t, r, rfl⟩ := List.length_eq_four.mp hlength
      rfl

/-- Forms that read the operand of their condition instead of the condition. -/
def readsOperand : Conditional → Bool
  | const .. | specialized .. => true
  | _ => false

/-- Forms that stand for a recognised return tail. -/
def isTail : Conditional → Bool
  | returnBuiltin .. | returnOverridden .. => true
  | _ => false

/-- Forms that expect a condition that is not missing and are given up otherwise. -/
def isRestricted : Conditional → Bool
  | noElse .. | twoBranch .. => true
  | _ => false

/-- The nodes of the two branches, of which the second may be missing. -/
def branches? : Conditional → Option (NodeId × Option NodeId)
  | generic _ t e | twoBranch _ t e | const _ t e _ | specialized _ t e _ => some (t, some e)
  | noElse _ t => some (t, none)
  | returnBuiltin .. | returnOverridden .. => none

/-- Forms that end the program by themselves. -/
def isBuiltinTail : Conditional → Bool
  | returnBuiltin .. => true
  | _ => false

section WithChildren

variable (form : Conditional) (ids : List NodeId)

theorem readsOperand_withChildren : (form.withChildren ids).readsOperand = form.readsOperand := by
  unfold withChildren
  split <;> rfl

theorem isTail_withChildren : (form.withChildren ids).isTail = form.isTail := by
  unfold withChildren
  split <;> rfl

theorem isRestricted_withChildren : (form.withChildren ids).isRestricted = form.isRestricted := by
  unfold withChildren
  split <;> rfl

theorem isBuiltinTail_withChildren :
    (form.withChildren ids).isBuiltinTail = form.isBuiltinTail := by
  unfold withChildren
  split <;> rfl

end WithChildren

end Conditional

namespace NodeKind

theorem children_withChildren (kind : NodeKind) (ids : List NodeId)
    (hlength : ids.length = kind.children.length) : (kind.withChildren ids).children = ids := by
  cases kind with
  | constant | read =>
    obtain rfl := List.length_eq_zero_iff.mp hlength
    rfl
  | sequence | call => rfl
  | assign | unary | convert =>
    obtain ⟨x, rfl⟩ := List.length_eq_one_iff.mp hlength
    rfl
  | compare =>
    obtain ⟨a, b, rfl⟩ := List.length_eq_two.mp hlength
    rfl
  | cond form => exact form.children_withChildren ids hlength

theorem children_replaceChild (kind : NodeKind) (old new : NodeId) :
    (kind.replaceChild old new).children = kind.children.replace old new :=
  kind.children_withChildren _ List.length_replace

/-- A kind with all its children forgotten. -/
def shape (kind : NodeKind) : NodeKind := kind.withChildren (kind.children.map fun _ ↦ 0)

end NodeKind

theorem Conditional.withChildren_withChildren (form : Conditional) (first second : List NodeId)
    (hfirst : first.length = form.children.length)
    (hsecond : second.length = form.children.length) :
    (form.withChildren first).withChildren second = form.withChildren second := by
  cases form with
  | generic | twoBranch | const | specialized =>
    obtain ⟨c, t, e, rfl⟩ := List.length_eq_three.mp hfirst
    obtain ⟨c', t', e', rfl⟩ := List.length_eq_three.mp hsecond
    rfl
  | noElse =>
    obtain ⟨c, t, rfl⟩ := List.length_eq_two.mp hfirst
    obtain ⟨c', t', rfl⟩ := List.length_eq_two.mp hsecond
    rfl
  | returnBuiltin _ body | returnOverridden _ body =>
    cases body with
    | none =>
      obtain ⟨c, t, r, rfl⟩ := List.length_eq_three.mp hfirst
      obtain ⟨c', t', r', rfl⟩ := List.length_eq_three.mp hsecond
      rfl
    | some body =>
      obtain ⟨c, b, t, r, rfl⟩ := List.length_eq_four.mp hfirst
      obtain ⟨c', b', t', r', rfl⟩ := List.length_eq_four.mp hsecond
      rfl

namespace NodeKind

theorem withChildren_withChildren (kind : NodeKind) (first second : List NodeId)
    (hfirst : first.length = kind.children.length)
    (hsecond : second.length = kind.children.length) :
    (kind.withChildren first).withChildren second = kind.withChildren second := by
  cases kind with
  | constant | read => rfl
  | sequence | call => rfl
  | assign | unary | convert =>
    obtain ⟨x, rfl⟩ := List.length_eq_one_iff.mp hfirst
    obtain ⟨y, rfl⟩ := List.length_eq_one_iff.mp hsecond
    rfl
  | compare =>
    obtain ⟨a, b, rfl⟩ := List.length_eq_two.mp hfirst
    obtain ⟨a', b', rfl⟩ := List.length_eq_two.mp hsecond
    rfl
  | cond form =>
    exact congrArg cond (form.withChildren_withChildren first second hfirst hsecond)

@[simp] theorem shape_replaceChild (kind : NodeKind) (old new : NodeId) :
    (kind.replaceChild old new).shape = kind.shape := by
  have hzeros : ((kind.children.replace old new).map fun _ ↦ 0) =
      kind.children.map fun _ ↦ 0 := by
    rw [List.map_const', List.map_const', List.length_replace]
  rw [shape, shape, children_replaceChild, hzeros, replaceChild,
    withChildren_withChildren _ _ _ List.length_replace (by simp)]

/-- Overwriting the child slot of a condition. -/
theorem exists_replaceChild_cond (form : Conditional) (new : NodeId) :
    ∃ form', (cond form).replaceChild form.cond new = cond form' ∧ form'.cond = new := by
  cases form with
  | returnBuiltin _ body | returnOverridden _ body =>
    cases body <;> simp [replaceChild, children, Conditional.children, Conditional.cond,
      withChildren, Conditional.withChildren]
  | _ => simp [replaceChild, children, Conditional.children, Conditional.cond, withChildren,
      Conditional.withChildren]

theorem eq_convert_of_shape {kind : NodeKind} {input : NodeId} {mode : ConvertMode}
    (h : kind.shape = (convert input mode).shape) : ∃ other, kind = convert other mode := by
  cases kind with
  | convert other otherMode =>
    obtain rfl : otherMode = mode := by
      simpa [shape, withChildren, children] using h
    exact ⟨other, rfl⟩
  | cond form => simp [shape, withChildren, children] at h
  | _ => simp [shape, withChildren, children] at h

/-- A conditional has the shape of conditionals only, and with it whatever does not depend on
the children. -/
theorem eq_cond_of_shape {kind : NodeKind} {form : Conditional}
    (h : kind.shape = (cond form).shape) :
    ∃ other, kind = cond other ∧ ∀ {α : Type} (f : Conditional → α),
      (∀ (form : Conditional) (ids : List NodeId), f (form.withChildren ids) = f form) →
      f other = f form := by
  cases kind with
  | cond other =>
    refine ⟨other, rfl, fun f hf ↦ ?_⟩
    have hforms := NodeKind.cond.inj h
    rw [← hf other ((cond other).children.map fun _ ↦ 0), hforms, hf]
  | _ => simp [shape, withChildren, children] at h

def isCompare : NodeKind → Bool
  | compare .. => true
  | _ => false

def isConditional : NodeKind → Bool
  | cond _ => true
  | _ => false

def isBuiltinTail : NodeKind → Bool
  | cond form => form.isBuiltinTail
  | _ => false

theorem isBuiltinTail_eq_true_iff {kind : NodeKind} : kind.isBuiltinTail = true ↔
    ∃ c body arg rest, kind = cond (.returnBuiltin c body arg rest) := by
  constructor
  · intro h
    cases kind with
    | cond form =>
      cases form with
      | returnBuiltin c body arg rest => exact ⟨c, body, arg, rest, rfl⟩
      | _ => cases h
    | _ => cases h
  · rintro ⟨c, body, arg, rest, rfl⟩
    rfl

theorem isBuiltinTail_replaceChild (kind : NodeKind) (old new : NodeId) :
    (kind.replaceChild old new).isBuiltinTail = kind.isBuiltinTail := by
  have h := shape_replaceChild kind old new
  cases kind with
  | cond form =>
    obtain ⟨other, hother, hsame⟩ := eq_cond_of_shape h
    rw [hother]
    exact hsame _ Conditional.isBuiltinTail_withChildren
  | constant | read | sequence | call => rfl
  | assign | unary | convert | compare =>
    cases hnew : NodeKind.replaceChild _ old new with
    | cond form =>
      rw [hnew] at h
      simp [shape, withChildren, children] at h
    | _ => rfl

end NodeKind

end AdaptiveTree
