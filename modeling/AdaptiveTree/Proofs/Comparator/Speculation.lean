import AdaptiveTree.Proofs.Comparator

/-!
What a comparator makes of an operand: a hit, a miss that gives the operand back, or a failure
because something is missing. It misses exactly the operands that have another shape than the one
it was chosen for, and for all others it says what the general comparison with the constant says.
-/

set_option autoImplicit false
set_option relaxedAutoImplicit false

namespace AdaptiveTree

namespace Comparator

variable {seen v : Value} {c : Scalar} {k : Comparator}

/-! ### Shapes -/

/-- The rank of the scalars that a comparator takes. -/
def operandRank : Comparator → Rank
  | doubleDouble _ => .double
  | intDouble _ | intInt _ => .integer
  | logicalLogical _ | logicalInt _ => .logical

theorem answer?_eq_none_iff (k : Comparator) (v : Value) :
    k.answer? v = none ↔ ¬ (v.isScalar = true ∧ v.rank = some k.operandRank) := by
  cases v with
  | null | logicals | ints | doubles => cases k <;> simp [answer?, Value.isScalar]
  | scalar s =>
    cases k <;> cases s <;>
      simp [answer?, operandRank, Value.isScalar, Value.rank, Scalar.rank]

theorem forShapes?_eq_none_iff : forShapes? seen c = none ↔
    seen.isScalar = false ∨ seen.rank = some .logical ∧ c.rank = .double := by
  cases seen with
  | null | logicals | ints | doubles => simp [forShapes?, Value.isScalar]
  | scalar s => cases s <;> cases c <;> simp [forShapes?, Value.isScalar, Value.rank, Scalar.rank]

/-- A comparator takes the shape that it was chosen for. -/
theorem rank_of_forShapes? (h : forShapes? seen c = some k) : seen.rank = some k.operandRank := by
  unfold forShapes? at h
  split at h <;> cases h <;> rfl

/-! ### Answers -/

theorem compare_eq_miss_iff : k.compare v = .ok (.miss v) ↔ k.answer? v = none := by
  unfold compare
  rcases k.answer? v with _ | _ | _ | _ <;> simp [Logical.toBool?]

theorem compare_of_answer? {truth : Logical} (h : k.answer? v = some truth) :
    k.compare v = .ok (.hit true) ∧ truth = .yes ∨ k.compare v = .ok (.hit false) ∧ truth = .no ∨
      k.compare v = .error .unexpectedNA ∧ truth = .na := by
  unfold compare
  rw [h]
  cases truth <;> simp [Logical.toBool?]

theorem compare_agrees (seen : Value) (c : Scalar) :
    (forShapes? seen c = none ↔
      seen.isScalar = false ∨ seen.rank = some .logical ∧ c.rank = .double) ∧
    ∀ k, forShapes? seen c = some k → ∀ v : Value,
      (k.compare v = .ok (.miss v) ↔ ¬ (v.isScalar = true ∧ v.rank = seen.rank)) ∧
      (v.isScalar = true ∧ v.rank = seen.rank →
        k.compare v = .ok (.hit true) ∧ v.compareWith .eq (.scalar c) = .ofBool true ∨
        k.compare v = .ok (.hit false) ∧ v.compareWith .eq (.scalar c) = .ofBool false ∨
        k.compare v = .error .unexpectedNA ∧ v.compareWith .eq (.scalar c) = .na) := by
  refine ⟨forShapes?_eq_none_iff, fun k hshapes v ↦ ?_⟩
  rw [rank_of_forShapes? hshapes]
  refine ⟨compare_eq_miss_iff.trans (answer?_eq_none_iff k v), fun hshape ↦ ?_⟩
  obtain ⟨truth, hanswer⟩ := Option.ne_none_iff_exists'.mp
    fun hnone ↦ (answer?_eq_none_iff k v).mp hnone hshape
  rw [compareWith_of_answer? hshapes hanswer]
  rcases compare_of_answer? hanswer with ⟨hcompare, rfl⟩ | ⟨hcompare, rfl⟩ | ⟨hcompare, rfl⟩
  · exact Or.inl ⟨hcompare, rfl⟩
  · exact Or.inr (Or.inl ⟨hcompare, rfl⟩)
  · exact Or.inr (Or.inr ⟨hcompare, rfl⟩)

/-- A comparator for integers that was made for a logical constant. -/
theorem compare_agrees_integerAgainstTruth :
    forShapes? (.scalar (.int 7)) (.logical .yes) = some (intInt 1) ∧
      ((intInt 1).compare (.scalar (.int 1)) = .ok (.hit true) ∧
        (Value.scalar (.int 1)).compareWith .eq (.scalar (.logical .yes)) = .ofBool true) ∧
      (intInt 1).compare (.ints [1]) = .ok (.miss (.ints [1])) := by
  obtain ⟨-, hagrees⟩ := compare_agrees (.scalar (.int 7)) (.logical .yes)
  have hshapes : forShapes? (.scalar (.int 7)) (.logical .yes) = some (intInt 1) := rfl
  refine ⟨hshapes, ?_, ?_⟩
  · have hequal : (Value.scalar (.int 1)).compareWith .eq (.scalar (.logical .yes)) =
        .ofBool true := by decide
    rcases (hagrees _ hshapes (.scalar (.int 1))).2 ⟨rfl, rfl⟩ with hhit | ⟨-, hno⟩ | ⟨-, hna⟩
    · exact hhit
    · exact absurd (hequal.symm.trans hno) (by decide)
    · exact absurd (hequal.symm.trans hna) (by decide)
  · exact (hagrees _ hshapes (.ints [1])).1.mpr (by decide)

end Comparator

end AdaptiveTree
