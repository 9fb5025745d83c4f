import AdaptiveTree.Operator
import AdaptiveTree.Proofs.Double.Integers
import Mathlib.Data.List.Basic

/-!
Comparisons at any rank. Coercion to a higher rank changes neither the order of two elements
nor whether one of them is missing, since every element compares as the double it becomes. So
the rank at which operands are compared does not matter, and each element of the answer is the
comparison of the two elements at its place as they are.
-/

set_option autoImplicit false
set_option relaxedAutoImplicit false

namespace AdaptiveTree

namespace Scalar

variable {r k : Rank} {a b s : Scalar}

theorem isMissing_toDouble (s : Scalar) : (double s.toDouble).isMissing = s.isMissing := by
  have hna : Double.na.isNaN = true := by decide
  cases s with
  | logical l => cases l <;> decide
  | int i =>
    show (if i = missingInt then Double.na else Double.ofInt i.toInt).isNaN =
      decide (i = missingInt)
    split_ifs with hi
    · simp [hi, hna]
    · simp [hi, Double.isNaN_ofInt32]
  | double d => rfl

/-- Elements that are not missing have the order of the doubles that they become. -/
theorem order?_toDouble (ha : a.isMissing = false) (hb : b.isMissing = false) :
    order? (double a.toDouble) (double b.toDouble) = order? a b := by
  cases a with
  | double d => rfl
  | logical l =>
    cases b with
    | logical l' =>
      cases l with
      | na => cases ha
      | no | yes =>
        cases l' with
        | na => cases hb
        | no | yes => decide
    | int | double => rfl
  | int i =>
    cases b with
    | int j =>
      have hi : i ≠ missingInt := of_decide_eq_false ha
      have hj : j ≠ missingInt := of_decide_eq_false hb
      simp only [order?, toDouble, if_neg hi, if_neg hj, Double.compare?_ofInt32]
    | logical | double => rfl

theorem compareWith_toDouble (op : CompareOp) (a b : Scalar) :
    (double a.toDouble).compareWith op (double b.toDouble) = a.compareWith op b := by
  unfold compareWith
  rw [isMissing_toDouble, isMissing_toDouble]
  cases ha : a.isMissing with
  | true => rfl
  | false =>
    cases hb : b.isMissing with
    | true => rfl
    | false => rw [order?_toDouble ha hb]

theorem toDouble_coerce (h : s.rank ≤ r) : (s.coerce r).toDouble = s.toDouble := by
  cases s with
  | logical l =>
    cases r with
    | integer => cases l <;> decide
    | logical | double => rfl
  | int i =>
    cases r with
    | logical => exact absurd h (show ¬ Rank.integer ≤ Rank.logical by decide)
    | integer | double => rfl
  | double d =>
    cases r with
    | logical => exact absurd h (show ¬ Rank.double ≤ Rank.logical by decide)
    | integer => exact absurd h (show ¬ Rank.double ≤ Rank.integer by decide)
    | double => rfl

end Scalar

namespace Rank

theorem le_max_left (a b : Rank) : a ≤ max a b := by
  cases a <;> cases b <;> decide

theorem le_max_right (a b : Rank) : b ≤ max a b := by
  cases a <;> cases b <;> decide

end Rank

namespace Value

variable {r k : Rank} {a a' b b' v : Value}

/-! ### What a comparison depends on -/

/-- Both or none are scalars, and their elements become the same doubles. -/
structure Alike (v w : Value) : Prop where
  isScalar_eq : v.isScalar = w.isScalar
  doubles_eq : v.elements.map Scalar.toDouble = w.elements.map Scalar.toDouble

theorem Alike.refl (v : Value) : Alike v v := ⟨rfl, rfl⟩

theorem Alike.length_eq (h : Alike a a') : a.length = a'.length := by
  simpa [length] using congrArg List.length h.doubles_eq

theorem Alike.recycled? (h : Alike a a') (i : Nat) :
    (a.recycled? i).map Scalar.toDouble = (a'.recycled? i).map Scalar.toDouble := by
  simp only [Value.recycled?, get?, ← List.getElem?_map, h.doubles_eq, h.length_eq]

theorem compareElements_congr (op : CompareOp) (ha : Alike a a') (hb : Alike b b') :
    a.compareElements op b = a'.compareElements op b' := by
  unfold compareElements
  rw [ha.length_eq, hb.length_eq]
  refine List.map_congr_left fun i _ ↦ ?_
  have hfirst := ha.recycled? i
  have hsecond := hb.recycled? i
  cases hx : a.recycled? i with
  | none =>
    rw [hx] at hfirst
    rw [Option.map_eq_none_iff.mp hfirst.symm]
  | some x =>
    rw [hx] at hfirst
    obtain ⟨x', hx', hxx⟩ := Option.map_eq_some_iff.mp hfirst.symm
    rw [hx']
    cases hy : b.recycled? i with
    | none =>
      rw [hy] at hsecond
      rw [Option.map_eq_none_iff.mp hsecond.symm]
    | some y =>
      rw [hy] at hsecond
      obtain ⟨y', hy', hyy⟩ := Option.map_eq_some_iff.mp hsecond.symm
      rw [hy']
      dsimp only
      rw [← Scalar.compareWith_toDouble, ← hxx, ← hyy, Scalar.compareWith_toDouble]

/-- The comparison without a coercion: the elements of each pair meet as they are. -/
def compareEach (op : CompareOp) (a b : Value) : Value :=
  match a, b with
  | scalar x, scalar y => scalar (.logical (x.compareWith op y))
  | x, y =>
    if x.length = 0 ∨ y.length = 0 then logicals []
    else logicals (x.compareElements op y)

theorem compareEach_of_scalar (op : CompareOp) (ha : a.isScalar = true) (hb : b.isScalar = true) :
    ∃ x y, a = scalar x ∧ b = scalar y ∧
      a.compareEach op b = scalar (.logical (x.compareWith op y)) := by
  cases a with
  | scalar x =>
    cases b with
    | scalar y => exact ⟨x, y, rfl, rfl, rfl⟩
    | null | logicals | ints | doubles => cases hb
  | null | logicals | ints | doubles => cases ha

theorem compareEach_of_not_scalar (op : CompareOp)
    (h : ¬ (a.isScalar = true ∧ b.isScalar = true)) : a.compareEach op b =
      logicals (if a.length = 0 ∨ b.length = 0 then [] else a.compareElements op b) := by
  rw [apply_ite logicals]
  cases a with
  | scalar x =>
    cases b with
    | scalar y => exact absurd ⟨rfl, rfl⟩ h
    | null | logicals | ints | doubles => rfl
  | null | logicals | ints | doubles => rfl

theorem compareEach_congr (op : CompareOp) (ha : Alike a a') (hb : Alike b b') :
    a.compareEach op b = a'.compareEach op b' := by
  by_cases hscalar : a.isScalar = true ∧ b.isScalar = true
  · obtain ⟨x, y, rfl, rfl, hanswer⟩ := compareEach_of_scalar op hscalar.1 hscalar.2
    obtain ⟨x', y', rfl, rfl, hanswer'⟩ := compareEach_of_scalar op
      (ha.isScalar_eq.symm.trans hscalar.1) (hb.isScalar_eq.symm.trans hscalar.2)
    rw [hanswer, hanswer', ← Scalar.compareWith_toDouble op x y,
      List.singleton_injective ha.doubles_eq, List.singleton_injective hb.doubles_eq,
      Scalar.compareWith_toDouble]
  · have hscalar' : ¬ (a'.isScalar = true ∧ b'.isScalar = true) := by
      rwa [← ha.isScalar_eq, ← hb.isScalar_eq]
    rw [compareEach_of_not_scalar op hscalar, compareEach_of_not_scalar op hscalar', ha.length_eq,
      hb.length_eq, compareElements_congr op ha hb]

/-! ### Climbing -/

/-- The value has no rank or one from which a coercion to `r` does not descend. -/
def Below (v : Value) (r : Rank) : Prop := ∀ k, v.rank = some k → k ≤ r

/-- All elements of a value have its rank. -/
theorem rank_of_mem_elements {s : Scalar} (h : s ∈ v.elements) : v.rank = some s.rank := by
  cases v with
  | null => cases h
  | scalar s' =>
    obtain rfl := List.mem_singleton.mp h
    rfl
  | logicals | ints | doubles =>
    obtain ⟨_, _, rfl⟩ := List.mem_map.mp h
    rfl

theorem elements_ofScalars (r : Rank) (items : List Scalar) :
    (ofScalars r items).elements = items.map (Scalar.coerce r) := by
  cases r <;> simp [ofScalars, elements, Scalar.coerce, Function.comp_def]

theorem elements_coerce (r : Rank) (v : Value) :
    (v.coerce r).elements = v.elements.map (Scalar.coerce r) := by
  cases v with
  | scalar s => rfl
  | null | logicals | ints | doubles => exact elements_ofScalars r _

theorem Below.alike_coerce (h : v.Below r) : Alike (v.coerce r) v where
  isScalar_eq := by cases v <;> cases r <;> rfl
  doubles_eq := by
    rw [elements_coerce, List.map_map]
    exact List.map_congr_left fun s hs ↦ Scalar.toDouble_coerce (h _ (rank_of_mem_elements hs))

/-- Both operands climb to their common rank. -/
theorem below_common (h : Rank.common a.rank b.rank = some r) : a.Below r ∧ b.Below r := by
  constructor
  · intro k hk
    rw [hk] at h
    rcases hl : b.rank with _ | l <;> rw [hl] at h <;> cases h
    · exact Nat.le_refl _
    · exact Rank.le_max_left k l
  · intro l hl
    rw [hl] at h
    rcases hk : a.rank with _ | k <;> rw [hk] at h <;> cases h
    · exact Nat.le_refl _
    · exact Rank.le_max_right k l

/-- What the common rank is does not matter. -/
theorem compareWith_eq_compareEach (op : CompareOp) (a b : Value) :
    a.compareWith op b = a.compareEach op b := by
  cases hcommon : Rank.common a.rank b.rank with
  | some r =>
    have hcoerced : a.compareWith op b = (a.coerce r).compareEach op (b.coerce r) := by
      rw [compareWith, hcommon]
      rfl
    obtain ⟨ha, hb⟩ := below_common hcommon
    rw [hcoerced, compareEach_congr op ha.alike_coerce hb.alike_coerce]
  | none =>
    -- neither operand has a rank
    cases a <;> cases b <;> first | rfl | cases hcommon

theorem compareWith_congr (op : CompareOp) (ha : Alike a a') (hb : Alike b b') :
    a.compareWith op b = a'.compareWith op b' := by
  rw [compareWith_eq_compareEach, compareWith_eq_compareEach, compareEach_congr op ha hb]

/-! ### The shape and the elements of the answer -/

theorem elements_compareWith (op : CompareOp) (a b : Value) : (a.compareWith op b).elements =
    if a.length = 0 ∨ b.length = 0 then [] else (a.compareElements op b).map .logical := by
  rw [compareWith_eq_compareEach]
  by_cases hscalar : a.isScalar = true ∧ b.isScalar = true
  · obtain ⟨x, y, rfl, rfl, -⟩ := compareEach_of_scalar op hscalar.1 hscalar.2
    rfl
  · rw [compareEach_of_not_scalar op hscalar]
    split_ifs <;> rfl

theorem isScalar_compareWith (op : CompareOp) (a b : Value) :
    (a.compareWith op b).isScalar = true ↔ a.isScalar = true ∧ b.isScalar = true := by
  rw [compareWith_eq_compareEach]
  by_cases hscalar : a.isScalar = true ∧ b.isScalar = true
  · obtain ⟨x, y, -, -, hanswer⟩ := compareEach_of_scalar op hscalar.1 hscalar.2
    rw [hanswer]
    exact iff_of_true rfl hscalar
  · rw [compareEach_of_not_scalar op hscalar]
    exact iff_of_false Bool.false_ne_true hscalar

theorem length_compareWith (op : CompareOp) (a b : Value) : (a.compareWith op b).length =
    if a.length = 0 ∨ b.length = 0 then 0 else max a.length b.length := by
  rw [length, elements_compareWith]
  split_ifs
  · rfl
  · simp [compareElements]

/-- A value that is not empty has an element at every index when it is repeated. -/
theorem exists_recycled? (h : v.length ≠ 0) (i : Nat) : ∃ s, v.recycled? i = some s :=
  ⟨_, List.getElem?_eq_getElem (Nat.mod_lt i (Nat.pos_of_ne_zero h))⟩

theorem get?_compareWith (op : CompareOp) {i : Nat} (h : i < (a.compareWith op b).length) :
    ∃ x y, a.recycled? i = some x ∧ b.recycled? i = some y ∧
      (a.compareWith op b).get? i = some (.logical (x.compareWith op y)) := by
  rw [length_compareWith] at h
  split_ifs at h with hempty
  · cases h
  · obtain ⟨ha, hb⟩ := not_or.mp hempty
    obtain ⟨x, hx⟩ := exists_recycled? ha i
    obtain ⟨y, hy⟩ := exists_recycled? hb i
    refine ⟨x, y, hx, hy, ?_⟩
    rw [get?, elements_compareWith, if_neg hempty]
    simp [compareElements, h, hx, hy]

theorem compareWith_at_any_rank (op : CompareOp) (a b : Value) :
    (∀ r k, a.Below r → b.Below k →
      (a.coerce r).compareWith op b = a.compareWith op b ∧
      a.compareWith op (b.coerce k) = a.compareWith op b ∧
      (a.coerce r).compareWith op (b.coerce k) = a.compareWith op b) ∧
    ((a.compareWith op b).isScalar = true ↔ a.isScalar = true ∧ b.isScalar = true) ∧
    (a.compareWith op b).length =
      (if a.length = 0 ∨ b.length = 0 then 0 else max a.length b.length) ∧
    ∀ i, i < (a.compareWith op b).length →
      ∃ x y, a.get? (i % a.length) = some x ∧ b.get? (i % b.length) = some y ∧
        (a.compareWith op b).get? i = some (.logical (x.compareWith op y)) := by
  refine ⟨fun r k ha hb ↦ ⟨?_, ?_, ?_⟩, isScalar_compareWith op a b, length_compareWith op a b,
    fun i hi ↦ get?_compareWith op hi⟩
  · exact compareWith_congr op ha.alike_coerce (.refl b)
  · exact compareWith_congr op (.refl a) hb.alike_coerce
  · exact compareWith_congr op ha.alike_coerce hb.alike_coerce

/-- Integers, one of them missing, against fewer truth values. -/
theorem compareWith_at_any_rank_missingBetween :
    (ints [1, missingInt, 3]).Below .double ∧ (logicals [.yes, .no]).Below .integer ∧
      ((ints [1, missingInt, 3]).coerce .double).compareWith .le
        ((logicals [.yes, .no]).coerce .integer) = logicals [.yes, .na, .no] := by
  obtain ⟨hranks, -⟩ := compareWith_at_any_rank .le (ints [1, missingInt, 3]) (logicals [.yes, .no])
  have hfirst : (ints [1, missingInt, 3]).Below .double := fun r hr ↦ by
    obtain rfl := Option.some.inj hr
    decide
  have hsecond : (logicals [.yes, .no]).Below .integer := fun r hr ↦ by
    obtain rfl := Option.some.inj hr
    decide
  obtain ⟨-, -, hboth⟩ := hranks .double .integer hfirst hsecond
  refine ⟨hfirst, hsecond, hboth.trans ?_⟩
  decide

end Value

end AdaptiveTree
