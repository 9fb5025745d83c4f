import AdaptiveTree.Comparator
import AdaptiveTree.Proofs.Double.Integers

/-!
Comparators give the answers of the general comparison. For the operands that a comparator takes,
its answer is that of comparing with the constant that it was made from, and it takes the
operand for which it was chosen.
-/

set_option autoImplicit false
set_option relaxedAutoImplicit false

namespace AdaptiveTree

namespace Scalar

theorem compareWith_double (a b : Double) : (double a).compareWith .eq (double b) =
    if b.isNaN || a.isNaN then .na else .ofBool (a.sameValue b) := by
  unfold compareWith
  show (if a.isNaN || b.isNaN then _ else _) = _
  cases ha : a.isNaN with
  | true => simp
  | false =>
    cases hb : b.isNaN with
    | true => simp
    | false =>
      have horder : order? (double a) (double b) = a.compare? b := rfl
      have hcompare : a.compare? b = some (compare a.orderKey b.orderKey) := by
        unfold Double.compare?
        simp [ha, hb]
      rw [horder, Double.sameValue, hcompare]
      simp [CompareOp.holds]

theorem compareWith_int (a b : Int32) : (int a).compareWith .eq (int b) =
    if b = missingInt ∨ a = missingInt then .na else .ofBool (a = b) := by
  unfold compareWith
  show (if a = missingInt || b = missingInt then _ else _) = _
  by_cases ha : a = missingInt
  · simp [ha]
  · by_cases hb : b = missingInt
    · simp [hb]
    · have horder : order? (int a) (int b) = some (compare a.toInt b.toInt) := rfl
      have heq : (compare a.toInt b.toInt = .eq) ↔ a = b := by
        rw [compare_eq_iff_eq, Int32.toInt_inj]
      rw [horder]
      simp [ha, hb, CompareOp.holds, heq]

end Scalar

/-- Scalars are compared at the higher of their ranks. -/
theorem Value.compareWith_scalar (op : CompareOp) (a b : Scalar) :
    (Value.scalar a).compareWith op (.scalar b) =
      .scalar (.logical ((a.unify b).1.compareWith op (a.unify b).2)) :=
  rfl

/-- A comparison gives logical values, however many. -/
theorem Value.rank_compareWith (op : CompareOp) (a b : Value) :
    (a.compareWith op b).rank = some .logical := by
  unfold compareWith
  split
  · rfl
  · split
    · rfl
    · split_ifs <;> rfl

namespace Comparator

theorem eq_of_forShapes? {seen : Value} {k : Scalar} {comparator : Comparator}
    (h : forShapes? seen k = some comparator) :
    comparator = doubleDouble k.toDouble ∨
      (∃ c, k = .double c ∧ comparator = intDouble c) ∨
      (∃ c, k = .int c ∧ (comparator = intInt c ∨ comparator = logicalInt c)) ∨
      ∃ c, k = .logical c ∧ (comparator = intInt c.toInt ∨ comparator = logicalLogical c) := by
  unfold forShapes? at h
  split at h <;> cases h <;> simp

theorem compareWith_double_operand (d : Double) (k : Scalar) :
    (Value.scalar (.double d)).compareWith .eq (.scalar k) = .scalar (.logical
      (if k.toDouble.isNaN || d.isNaN then .na else .ofBool (d.sameValue k.toDouble))) := by
  have hrank : max (Scalar.double d).rank k.rank = .double := by cases k <;> rfl
  rw [Value.compareWith_scalar, Scalar.unify, hrank, ← Scalar.compareWith_double]
  rfl

theorem compareWith_double_constant (i : Int32) (c : Double) :
    (Value.scalar (.int i)).compareWith .eq (.scalar (.double c)) = .scalar (.logical
      (if c.isNaN || i = missingInt then .na
        else .ofBool ((Double.ofInt i.toInt).sameValue c))) := by
  have hcoerce : (Value.scalar (.int i)).compareWith .eq (.scalar (.double c)) = .scalar (.logical
      ((Scalar.double (Scalar.int i).toDouble).compareWith .eq (.double c))) := rfl
  rw [hcoerce, Scalar.compareWith_double]
  unfold Scalar.toDouble
  by_cases hi : i = missingInt
  · subst hi
    have hna : Double.na.isNaN = true := by decide
    simp [hna]
  · simp [hi, Double.isNaN_ofInt32]

theorem compareWith_ints (i : Int32) {k : Scalar} {c : Int32}
    (hk : k = .int c ∨ ∃ l : Logical, k = .logical l ∧ l.toInt = c) :
    (Value.scalar (.int i)).compareWith .eq (.scalar k) = .scalar (.logical
      (if c = missingInt ∨ i = missingInt then .na else .ofBool (i = c))) := by
  rw [← Scalar.compareWith_int]
  rcases hk with rfl | ⟨l, rfl, rfl⟩ <;> rfl

theorem compareWith_logical_operand (l : Logical) (c : Int32) :
    (Value.scalar (.logical l)).compareWith .eq (.scalar (.int c)) = .scalar (.logical
      (if c = missingInt ∨ l = .na then .na else .ofBool (l.toInt = c))) := by
  have hmissing : l.toInt = missingInt ↔ l = .na := by cases l <;> decide
  have hcoerce : (Value.scalar (.logical l)).compareWith .eq (.scalar (.int c)) =
      .scalar (.logical ((Scalar.int l.toInt).compareWith .eq (.int c))) := rfl
  rw [hcoerce, Scalar.compareWith_int]
  simp only [hmissing]

theorem compareWith_logicals (l c : Logical) :
    (Value.scalar (.logical l)).compareWith .eq (.scalar (.logical c)) = .scalar (.logical
      (if c = .na ∨ l = .na then .na else .ofBool (l = c))) := by
  cases l <;> cases c <;> rfl

/-- Assumes: a comparator chosen for the constant, whatever the operand was. -/
theorem compareWith_of_answer? {seen v : Value} {k : Scalar} {comparator : Comparator}
    {l : Logical} (hshapes : forShapes? seen k = some comparator)
    (hanswer : comparator.answer? v = some l) :
    v.compareWith .eq (.scalar k) = .scalar (.logical l) := by
  have hnone : ∀ k', (∀ s, v ≠ .scalar s) → answer? k' v ≠ some l := by
    intro k' hv
    cases v with
    | scalar s => exact absurd rfl (hv s)
    | _ => cases k' <;> simp [answer?]
  cases v with
  | scalar s =>
    rcases eq_of_forShapes? hshapes with rfl | ⟨c, rfl, rfl⟩ | ⟨c, rfl, rfl | rfl⟩ |
      ⟨c, rfl, rfl | rfl⟩
    · cases s with
      | double d => cases hanswer; exact compareWith_double_operand d k
      | int | logical => cases hanswer
    · cases s with
      | int i => cases hanswer; exact compareWith_double_constant i c
      | double | logical => cases hanswer
    · cases s with
      | int i => cases hanswer; exact compareWith_ints i (Or.inl rfl)
      | double | logical => cases hanswer
    · cases s with
      | logical l' => cases hanswer; exact compareWith_logical_operand l' c
      | double | int => cases hanswer
    · cases s with
      | int i => cases hanswer; exact compareWith_ints i (Or.inr ⟨c, rfl, rfl⟩)
      | double | logical => cases hanswer
    · cases s with
      | logical l' => cases hanswer; exact compareWith_logicals l' c
      | double | int => cases hanswer
  | _ => exact absurd hanswer (hnone _ (by simp))

theorem exists_answer? {v : Value} {k : Scalar} {comparator : Comparator}
    (hshapes : forShapes? v k = some comparator) : ∃ l, comparator.answer? v = some l := by
  unfold forShapes? at hshapes
  split at hshapes <;> cases hshapes <;> exact ⟨_, rfl⟩

end Comparator

end AdaptiveTree
