import AdaptiveTree.Proofs.Value.Comparison

/-!
One order behind the six comparisons. Two elements that are not missing stand in one order to each
other, and each operator asks for it; exchanging the operands reverses the order. So an operator
has a converse, which answers for the operands the other way round, and a negation, and of the
three strict ones exactly one holds.
-/

set_option autoImplicit false
set_option relaxedAutoImplicit false

namespace AdaptiveTree

/-! ### Operators -/

namespace CompareOp

/-- The operator that holds when the operands are exchanged. -/
def flip : CompareOp → CompareOp
  | eq => eq
  | ne => ne
  | lt => gt
  | le => ge
  | gt => lt
  | ge => le

/-- The operator that holds where this one does not. -/
def negated : CompareOp → CompareOp
  | eq => ne
  | ne => eq
  | lt => ge
  | le => gt
  | gt => le
  | ge => lt

/-- The operators of which exactly one holds of two elements. -/
def strict : List CompareOp := [lt, eq, gt]

theorem holds_flip (op : CompareOp) (o : Ordering) : op.flip.holds o.swap = op.holds o := by
  cases op <;> cases o <;> rfl

theorem holds_negated (op : CompareOp) (o : Ordering) : op.negated.holds o = ! op.holds o := by
  cases op <;> cases o <;> rfl

/-- Every order is the one that a strict operator asks for. -/
theorem exists_strict (o : Ordering) :
    ∃ op ∈ strict, ∀ op' ∈ strict, op'.holds o = decide (op' = op) := by
  cases o with
  | lt => exact ⟨lt, by decide⟩
  | eq => exact ⟨eq, by decide⟩
  | gt => exact ⟨gt, by decide⟩

end CompareOp

theorem Logical.not_ofBool (b : Bool) : (ofBool b).not = ofBool (! b) := by
  cases b <;> rfl

/-! ### Elements -/

namespace Scalar

theorem compareWith_of_missing {x y : Scalar} (h : (x.isMissing || y.isMissing) = true)
    (op : CompareOp) : x.compareWith op y = .na := by
  rw [compareWith, if_pos h]

/-- Elements that are not missing have an order, which is reversed with the elements. -/
theorem exists_order {x y : Scalar} (h : (x.isMissing || y.isMissing) = false) :
    ∃ o, ∀ op, x.compareWith op y = .ofBool (op.holds o) ∧
      y.compareWith op x = .ofBool (op.holds o.swap) := by
  -- all elements compare as the doubles that they become
  obtain ⟨hx, hy⟩ := Bool.or_eq_false_iff.mp h
  rw [← isMissing_toDouble] at hx hy
  have hdoubles {c d : Double} (hc : (double c).isMissing = false)
      (hd : (double d).isMissing = false) (op : CompareOp) :
      (double c).compareWith op (double d) =
        .ofBool (op.holds (compare c.orderKey d.orderKey)) := by
    have hc' : c.isNaN = false := hc
    have hd' : d.isNaN = false := hd
    simp [compareWith, order?, toDouble, Double.compare?, isMissing, hc', hd']
  refine ⟨compare x.toDouble.orderKey y.toDouble.orderKey, fun op ↦ ⟨?_, ?_⟩⟩
  · rw [← compareWith_toDouble, hdoubles hx hy]
  · rw [← compareWith_toDouble, hdoubles hy hx, Std.OrientedOrd.eq_swap]

theorem compareWith_flip (op : CompareOp) (x y : Scalar) :
    x.compareWith op y = y.compareWith op.flip x := by
  cases h : x.isMissing || y.isMissing with
  | true => rw [compareWith_of_missing h, compareWith_of_missing (Bool.or_comm _ _ ▸ h)]
  | false =>
    obtain ⟨o, ho⟩ := exists_order h
    rw [(ho op).1, (ho op.flip).2, CompareOp.holds_flip]

theorem not_compareWith (op : CompareOp) (x y : Scalar) :
    (x.compareWith op y).not = x.compareWith op.negated y := by
  cases h : x.isMissing || y.isMissing with
  | true => rw [compareWith_of_missing h, compareWith_of_missing h, Logical.not]
  | false =>
    obtain ⟨o, ho⟩ := exists_order h
    rw [(ho op).1, (ho op.negated).1, CompareOp.holds_negated, Logical.not_ofBool]

end Scalar

/-! ### Values -/

namespace Value

theorem compareElements_flip (op : CompareOp) (a b : Value) :
    a.compareElements op b = b.compareElements op.flip a := by
  unfold compareElements
  rw [Nat.max_comm]
  refine List.map_congr_left fun i _ ↦ ?_
  cases a.recycled? i with
  | none => cases b.recycled? i <;> rfl
  | some x =>
    cases b.recycled? i with
    | none => rfl
    | some y => exact x.compareWith_flip op y

theorem not_compareElements (op : CompareOp) (a b : Value) :
    (a.compareElements op b).map Logical.not = a.compareElements op.negated b := by
  unfold compareElements
  rw [List.map_map]
  refine List.map_congr_left fun i _ ↦ ?_
  rw [Function.comp_apply]
  cases a.recycled? i with
  | none => rfl
  | some x =>
    cases b.recycled? i with
    | none => rfl
    | some y => exact x.not_compareWith op y

theorem compareWith_flip (op : CompareOp) (a b : Value) :
    a.compareWith op b = b.compareWith op.flip a := by
  rw [compareWith_eq_compareEach, compareWith_eq_compareEach]
  by_cases hscalar : a.isScalar = true ∧ b.isScalar = true
  · obtain ⟨x, y, rfl, rfl, hanswer⟩ := compareEach_of_scalar op hscalar.1 hscalar.2
    rw [hanswer, x.compareWith_flip]
    rfl
  · rw [compareEach_of_not_scalar op hscalar, compareEach_of_not_scalar _ (mt And.symm hscalar),
      compareElements_flip]
    exact congrArg logicals (if_congr or_comm rfl rfl)

theorem complement_compareWith (op : CompareOp) (a b : Value) :
    (a.compareWith op b).complement = a.compareWith op.negated b := by
  rw [compareWith_eq_compareEach, compareWith_eq_compareEach]
  by_cases hscalar : a.isScalar = true ∧ b.isScalar = true
  · obtain ⟨x, y, rfl, rfl, hanswer⟩ := compareEach_of_scalar op hscalar.1 hscalar.2
    rw [hanswer]
    exact congrArg (fun l ↦ scalar (.logical l)) (x.not_compareWith op y)
  · have hcomplement (items : List Logical) :
        (logicals items).complement = logicals (items.map .not) := by
      simp [complement, elements, Scalar.toLogical, Function.comp_def]
    rw [compareEach_of_not_scalar op hscalar, compareEach_of_not_scalar _ hscalar, hcomplement,
      apply_ite (List.map Logical.not), not_compareElements, List.map_nil]

/-- The two elements that meet at a place, whatever the operator. -/
theorem exists_compared {a b : Value} {op : CompareOp} {i : Nat}
    (h : i < (a.compareWith op b).length) :
    ∃ x y, a.recycled? i = some x ∧ b.recycled? i = some y ∧
      ∀ op', (a.compareWith op' b).get? i = some (.logical (x.compareWith op' y)) := by
  obtain ⟨x, y, hx, hy, -⟩ := get?_compareWith op h
  refine ⟨x, y, hx, hy, fun op' ↦ ?_⟩
  rw [length_compareWith, ← length_compareWith op'] at h
  obtain ⟨x', y', hx', hy', hanswer⟩ := get?_compareWith op' h
  rw [hx] at hx'
  rw [hy] at hy'
  rw [hanswer, Option.some.inj hx', Option.some.inj hy']

/-- The six operators ask for one order: each has its converse and its negation, and wherever two
elements meet exactly one of the strict operators holds, unless one of the two is missing. -/
theorem compareWith_ordered (a b : Value) :
    (∀ op, a.compareWith op b = b.compareWith op.flip a) ∧
    (∀ op, UnaryOp.not.apply (a.compareWith op b) = a.compareWith op.negated b) ∧
    ∀ op i, i < (a.compareWith op b).length →
      ∃ x y, a.recycled? i = some x ∧ b.recycled? i = some y ∧
        if x.isMissing || y.isMissing then
          ∀ op', (a.compareWith op' b).get? i = some (.logical .na)
        else
          ∃ op' ∈ CompareOp.strict, ∀ op'' ∈ CompareOp.strict,
            (a.compareWith op'' b).get? i = some (.logical (.ofBool (op'' = op'))) := by
  refine ⟨fun op ↦ compareWith_flip op a b, fun op ↦ complement_compareWith op a b,
    fun op i hi ↦ ?_⟩
  obtain ⟨x, y, hx, hy, hanswer⟩ := exists_compared hi
  refine ⟨x, y, hx, hy, ?_⟩
  split_ifs with hmissing
  · intro op'
    rw [hanswer, Scalar.compareWith_of_missing hmissing]
  · obtain ⟨o, ho⟩ := Scalar.exists_order (Bool.eq_false_iff.mpr hmissing)
    obtain ⟨op', hop', hholds⟩ := CompareOp.exists_strict o
    refine ⟨op', hop', fun op'' hop'' ↦ ?_⟩
    rw [hanswer, (ho op'').1, hholds op'' hop'']

/-- A NaN that is no missing marker, and an integer that comes round again. -/
theorem compareWith_ordered_plainNaN :
    let a := ints [2, missingInt]
    let b := doubles [.ofNatBits 0x7FF8000000000000, .one, .one]
    0 < (a.compareWith .lt b).length ∧ 2 < (a.compareWith .lt b).length ∧
      (∀ op, (a.compareWith op b).get? 0 = some (.logical .na)) ∧
      ∃ op ∈ CompareOp.strict, ∀ op' ∈ CompareOp.strict,
        (a.compareWith op' b).get? 2 = some (.logical (.ofBool (op' = op))) := by
  intro a b
  have hfirst : 0 < (a.compareWith .lt b).length := by decide
  have hlast : 2 < (a.compareWith .lt b).length := by decide
  obtain ⟨-, -, hplaces⟩ := compareWith_ordered a b
  obtain ⟨x, y, hx, hy, hmissing⟩ := hplaces .lt 0 hfirst
  obtain ⟨x', y', hx', hy', hdecided⟩ := hplaces .lt 2 hlast
  have hdoubleNaN : a.recycled? 0 = some (.int 2) ∧
      b.recycled? 0 = some (.double (.ofNatBits 0x7FF8000000000000)) := by decide
  have hagain : a.recycled? 2 = some (.int 2) ∧ b.recycled? 2 = some (.double .one) := by
    decide
  obtain rfl := Option.some.inj (hdoubleNaN.1.symm.trans hx)
  obtain rfl := Option.some.inj (hdoubleNaN.2.symm.trans hy)
  obtain rfl := Option.some.inj (hagain.1.symm.trans hx')
  obtain rfl := Option.some.inj (hagain.2.symm.trans hy')
  rw [if_pos (by decide)] at hmissing
  rw [if_neg (by decide)] at hdecided
  exact ⟨hfirst, hlast, hmissing, hdecided⟩

end Value

end AdaptiveTree
