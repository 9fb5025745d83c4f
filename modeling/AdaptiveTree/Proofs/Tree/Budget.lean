import AdaptiveTree.Proofs.Tree.Evolution
import AdaptiveTree.Proofs.Tree.Sites

/-!
How often a conditional can still be rewritten. A form can be given up for a less hopeful one,
and its condition can get a conversion step and then a wider one; no rewrite leads back. Each
adaptation is paid for by one conditional and costs no other anything.
-/

set_option autoImplicit false
set_option relaxedAutoImplicit false

namespace AdaptiveTree

namespace Conditional

/-- How often a form can still be replaced by another one. -/
def replacements : Conditional → Nat
  | const .. => 2
  | specialized .. | noElse .. | twoBranch .. | returnBuiltin .. => 1
  | generic .. | returnOverridden .. => 0

theorem replacements_withChildren (form : Conditional) (ids : List NodeId) :
    (form.withChildren ids).replacements = form.replacements := by
  unfold withChildren
  split <;> rfl

theorem exists_children_eq (form : Conditional) : ∃ rest, form.children = form.cond :: rest := by
  cases form <;> exact ⟨_, rfl⟩

end Conditional

namespace NodeKind

variable {old new : NodeId}

theorem replaceChild_of_not_mem {kind : NodeKind} (h : old ∉ kind.children) :
    kind.replaceChild old new = kind := by
  rw [replaceChild, List.replace_of_not_mem h]
  cases kind with
  | cond form =>
    cases form with
    | returnBuiltin _ body | returnOverridden _ body => cases body <;> rfl
    | _ => rfl
  | _ => rfl

/-- Another child in the place of an old one leaves a conditional as hopeful as it was. -/
theorem exists_replaceChild_form (form : Conditional) (old new : NodeId) :
    ∃ form', (cond form).replaceChild old new = cond form' ∧
      form'.cond = (if old = form.cond then new else form.cond) ∧
      form'.replacements = form.replacements := by
  refine ⟨form.withChildren (form.children.replace old new), rfl, ?_,
    form.replacements_withChildren _⟩
  have hchildren := form.children_withChildren (form.children.replace old new) List.length_replace
  generalize form.withChildren (form.children.replace old new) = form' at hchildren
  obtain ⟨rest, hrest⟩ := form.exists_children_eq
  obtain ⟨rest', hrest'⟩ := form'.exists_children_eq
  rw [hrest, hrest', List.replace_cons] at hchildren
  split_ifs with hold
  · rw [hold, beq_self_eq_true] at hchildren
    exact (List.cons.inj hchildren).1
  · have hbeq : (old == form.cond) = false := by simpa using hold
    rw [hbeq] at hchildren
    exact (List.cons.inj hchildren).1

theorem class_replaceChild (kind : NodeKind) (old new : NodeId) :
    (kind.replaceChild old new).isCompare = kind.isCompare ∧
      (kind.replaceChild old new).isConversion = kind.isConversion := by
  have hlength : (kind.children.replace old new).length = kind.children.length :=
    List.length_replace
  unfold replaceChild
  revert hlength
  generalize kind.children.replace old new = ids
  intro hlength
  cases kind with
  | compare op left right =>
    obtain ⟨a, b, rfl⟩ := List.length_eq_two.mp hlength
    exact ⟨rfl, rfl⟩
  | constant | read | sequence | call | cond => exact ⟨rfl, rfl⟩
  | assign | unary | convert =>
    obtain ⟨a, rfl⟩ := List.length_eq_one_iff.mp hlength
    exact ⟨rfl, rfl⟩

theorem exists_eq_convert {kind : NodeKind} (h : kind.isConversion = true) :
    ∃ input mode, kind = .convert input mode := by
  cases kind with
  | convert input mode => exact ⟨input, mode, rfl⟩
  | _ => cases h

theorem replaceChild_convert (input : NodeId) (mode : ConvertMode) (old new : NodeId) :
    (convert input mode).replaceChild old new =
      convert (if old = input then new else input) mode := by
  unfold replaceChild
  rw [children, List.replace_cons]
  split_ifs with hold
  · rw [hold, beq_self_eq_true]
    rfl
  · have hbeq : (old == input) = false := by simpa using hold
    rw [hbeq]
    rfl

end NodeKind

namespace Tree

variable {t t' : Tree} {x c old new : NodeId} {k : NodeKind} {form : Conditional}

/-! ### The budget of a conditional -/

def compares (t : Tree) (x : NodeId) : Bool := (t.kind? x).any NodeKind.isCompare

theorem compares_iff : t.compares x = true ↔ t.IsCompare x := by
  unfold compares kind? IsCompare
  rcases t.node? x with _ | n <;> simp

/-- How often the condition `c` of a conditional can still get a conversion step or a wider one. -/
def conversions (t : Tree) (c : NodeId) : Nat :=
  match t.kind? c with
  | some (.convert input mode) => if mode = .generic ∨ t.compares input then 0 else 1
  | some (.compare ..) => 1
  | _ => 2

/-- How often the conditional `x` can still be rewritten, and never again if it is gone. -/
def budgetAt (t : Tree) (x : NodeId) : Nat :=
  match t.kind? x with
  | some (.cond form) => form.replacements + t.conversions form.cond
  | _ => 0

theorem budgetAt_of_cond (h : t.kind? x = some (.cond form)) :
    t.budgetAt x = form.replacements + t.conversions form.cond := by
  rw [budgetAt, h]

theorem conversions_le (t : Tree) (c : NodeId) : t.conversions c ≤ 2 := by
  unfold conversions
  split
  · split_ifs <;> decide
  · decide
  · exact Nat.le_refl _

theorem conversions_of_convert {input : NodeId} {mode : ConvertMode}
    (h : t.kind? c = some (.convert input mode)) :
    t.conversions c = if mode = .generic ∨ t.compares input then 0 else 1 := by
  rw [conversions, h]

theorem conversions_of_plain (h : t.kind? c = some k) (hplain : k.isConversion = false) :
    t.conversions c = if k.isCompare then 1 else 2 := by
  rw [conversions, h]
  cases k with
  | convert => cases hplain
  | _ => rfl

theorem conversions_of_isCompare (h : t.kind? c = some k) (hcompare : k.isCompare = true) :
    t.conversions c = 1 := by
  cases k with
  | compare => rw [conversions, h]
  | _ => cases hcompare

/-- A node that was there and is not live any more. -/
def Gone (t : Tree) (x : NodeId) : Prop := x < t.slots.size ∧ t.node? x = none

/-! ### Nodes that get another child -/

/-- Every node that is not `old` names `new` where it named `old`. -/
def Renames (t : Tree) (old new : NodeId) (t' : Tree) : Prop :=
  ∀ x k, t.kind? x = some k → x ≠ old → t'.kind? x = some (k.replaceChild old new)

theorem Forest.kind?_child (h : t.Forest) (hx : t.kind? x = some k) (hc : c ∈ k.children) :
    t.Names x c ∧ ∃ k', t.kind? c = some k' := by
  obtain ⟨n, hn, rfl⟩ := kind?_eq_some_iff.mp hx
  obtain ⟨m, hm, _⟩ := h.exists_child hn hc
  exact ⟨(names_iff hn).mpr hc, m.kind, kind?_eq_some_iff.mpr ⟨m, hm, rfl⟩⟩

namespace Renames

theorem compares_eq (h : t.Renames old new t') (hx : t.kind? x = some k) (hne : x ≠ old) :
    t'.compares x = t.compares x := by
  rw [compares, compares, hx, h x k hx hne, Option.any_some, Option.any_some,
    (k.class_replaceChild old new).1]

/-- Assumes: what takes the place of the input of a step is a comparison if the input was. -/
theorem conversions_eq (h : t.Renames old new t') (hforest : t.Forest)
    (hinput : ∀ x mode, t.kind? x = some (.convert old mode) → t'.compares new = t.compares old)
    (hc : t.kind? c = some k) (hne : c ≠ old) : t'.conversions c = t.conversions c := by
  have hc' := h c k hc hne
  obtain ⟨hcompare, hconversion⟩ := k.class_replaceChild old new
  cases hplain : k.isConversion with
  | false =>
    rw [conversions_of_plain hc hplain, conversions_of_plain hc' (hconversion.trans hplain),
      hcompare]
  | true =>
    obtain ⟨input, mode, rfl⟩ := NodeKind.exists_eq_convert hplain
    have hsame : t'.compares (if old = input then new else input) = t.compares input := by
      split_ifs with hold
      · subst hold
        exact hinput c mode hc
      · obtain ⟨_, k', hk'⟩ := hforest.kind?_child hc (List.mem_singleton.mpr rfl)
        exact h.compares_eq hk' (Ne.symm hold)
    rw [NodeKind.replaceChild_convert] at hc'
    rw [conversions_of_convert hc, conversions_of_convert hc', hsame]

end Renames

end Tree

end AdaptiveTree
