import AdaptiveTree.Proofs.Value.Comparison
import AdaptiveTree.Value.Extent

/-!
Climbing loses nothing. Every element is determined by the double that it becomes: that double
coerces to each rank as the element itself does. So a coercion to a higher rank cannot be seen by
any coercion behind it, back to the element's own rank included, nor by a condition.
-/

set_option autoImplicit false
set_option relaxedAutoImplicit false

namespace AdaptiveTree

/-! ### Doubles of integer elements -/

namespace Double

theorem toInt32_ofInt32 {i : Int32} (hi : i ≠ missingInt) : (ofInt i.toInt).toInt32 = i := by
  have hlow := i.le_toInt
  have hhigh := i.toInt_lt
  have hleast : i.toInt ≠ -2 ^ 31 := fun h ↦ hi (Int32.toInt_inj.mp h)
  have hfits : fitsInt i.toInt = true := by
    rw [fitsInt, Bool.and_eq_true, decide_eq_true_eq, decide_eq_true_eq]
    omega
  rw [toInt32, isNaN_ofInt32, if_neg Bool.false_ne_true, truncate_ofInt (natAbs_toInt_lt i),
    if_pos hfits, Int32.ofInt_toInt]

theorem toLogical_ofInt32 (i : Int32) : (ofInt i.toInt).toLogical = .ofBool (i ≠ 0) := by
  have hzero : (ofInt i.toInt).magnitude = 0 ↔ i = 0 := by
    rw [magnitude_ofInt_eq_zero (natAbs_toInt_lt i), ← Int32.toInt_zero, Int32.toInt_inj]
  rw [toLogical, isNaN_ofInt32, if_neg Bool.false_ne_true]
  simp only [ne_eq, hzero]

end Double

/-! ### Elements -/

namespace Scalar

variable {r : Rank} {s : Scalar}

theorem toInt_toDouble (s : Scalar) : (double s.toDouble).toInt = s.toInt := by
  cases s with
  | logical l => cases l <;> decide
  | int i =>
    show (if i = missingInt then Double.na else Double.ofInt i.toInt).toInt32 = i
    split_ifs with hi
    · rw [hi]
      decide
    · exact Double.toInt32_ofInt32 hi
  | double d => rfl

theorem toLogical_toDouble (s : Scalar) : (double s.toDouble).toLogical = s.toLogical := by
  cases s with
  | logical l => cases l <;> decide
  | int i =>
    show (if i = missingInt then Double.na else Double.ofInt i.toInt).toLogical =
      if i = missingInt then .na else .ofBool (i ≠ 0)
    split_ifs with hi
    · decide
    · exact Double.toLogical_ofInt32 i
  | double d => rfl

/-- What an element coerces to can be read off the double that it becomes. -/
theorem coerce_toDouble (k : Rank) (s : Scalar) : (double s.toDouble).coerce k = s.coerce k := by
  cases k with
  | logical => exact congrArg logical s.toLogical_toDouble
  | integer => exact congrArg int s.toInt_toDouble
  | double => rfl

/-- No later coercion sees that an element has climbed. -/
theorem coerce_coerce (h : s.rank ≤ r) (k : Rank) : (s.coerce r).coerce k = s.coerce k := by
  rw [← coerce_toDouble k (s.coerce r), toDouble_coerce h, coerce_toDouble]

theorem coerce_rank (s : Scalar) : s.coerce s.rank = s := by
  cases s <;> rfl

theorem toLogical_coerce (h : s.rank ≤ r) : (s.coerce r).toLogical = s.toLogical := by
  rw [← toLogical_toDouble (s.coerce r), toDouble_coerce h, toLogical_toDouble]

theorem isMissing_coerce (h : s.rank ≤ r) : (s.coerce r).isMissing = s.isMissing := by
  rw [← isMissing_toDouble (s.coerce r), toDouble_coerce h, isMissing_toDouble]

end Scalar

/-! ### Values -/

namespace Value

variable {r k : Rank} {v : Value} {items : List Scalar}

theorem Below.of_rank (hv : v.rank = some k) (h : k ≤ r) : v.Below r := by
  intro l hl
  rw [hv] at hl
  obtain rfl := Option.some.inj hl
  exact h

theorem Below.rank_le {s : Scalar} (h : v.Below r) (hs : s ∈ v.elements) : s.rank ≤ r :=
  h _ (rank_of_mem_elements hs)

theorem rank_ofScalars (r : Rank) (items : List Scalar) : (ofScalars r items).rank = some r := by
  cases r <;> rfl

theorem isScalar_ofScalars (r : Rank) (items : List Scalar) :
    (ofScalars r items).isScalar = false := by
  cases r <;> rfl

/-- What the elements of a vector become at its rank is all that matters. -/
theorem ofScalars_congr {others : List Scalar}
    (h : items.map (Scalar.coerce k) = others.map (Scalar.coerce k)) :
    ofScalars k items = ofScalars k others := by
  cases k with
  | logical =>
    have hitems := congrArg (List.map Scalar.toLogical) h
    rw [List.map_map, List.map_map] at hitems
    exact congrArg logicals hitems
  | integer =>
    have hitems := congrArg (List.map Scalar.toInt) h
    rw [List.map_map, List.map_map] at hitems
    exact congrArg ints hitems
  | double =>
    have hitems := congrArg (List.map Scalar.toDouble) h
    rw [List.map_map, List.map_map] at hitems
    exact congrArg doubles hitems

/-- A vector can be made of elements that have climbed on the way. -/
theorem ofScalars_map_coerce (h : ∀ s ∈ items, s.rank ≤ r) :
    ofScalars k (items.map (Scalar.coerce r)) = ofScalars k items := by
  refine ofScalars_congr ?_
  rw [List.map_map]
  exact List.map_congr_left fun s hs ↦ Scalar.coerce_coerce (h s hs) k

theorem coerce_of_not_scalar (hv : v.isScalar = false) : v.coerce r = ofScalars r v.elements := by
  cases v with
  | scalar s => cases hv
  | null | logicals | ints | doubles => rfl

/-- No later coercion sees that a value has climbed. -/
theorem Below.coerce_coerce (h : v.Below r) (k : Rank) : (v.coerce r).coerce k = v.coerce k := by
  cases hv : v.isScalar with
  | true =>
    cases v with
    | scalar s => exact congrArg scalar (Scalar.coerce_coerce (h _ rfl) k)
    | null | logicals | ints | doubles => cases hv
  | false =>
    rw [coerce_of_not_scalar (h.alike_coerce.isScalar_eq.trans hv), elements_coerce,
      ofScalars_map_coerce fun s hs ↦ h.rank_le hs, coerce_of_not_scalar hv]

theorem coerce_rank (hv : v.rank = some k) : v.coerce k = v := by
  cases v with
  | null => cases hv
  | scalar s =>
    obtain rfl := Option.some.inj hv
    exact congrArg scalar s.coerce_rank
  | logicals items | ints items | doubles items =>
    obtain rfl := Option.some.inj hv
    simp [coerce, ofScalars, elements, Scalar.toLogical, Scalar.toInt, Scalar.toDouble,
      Function.comp_def]

theorem rank_coerce (r : Rank) (v : Value) : (v.coerce r).rank = some r := by
  cases v with
  | scalar s => cases r <;> rfl
  | null | logicals | ints | doubles => exact rank_ofScalars r _

theorem Below.isMissingAt_coerce (h : v.Below r) (i : Nat) :
    (v.coerce r).isMissingAt i = v.isMissingAt i := by
  rw [isMissingAt, isMissingAt, get?, get?, elements_coerce, List.getElem?_map]
  cases hs : v.elements[i]? with
  | none => rfl
  | some s => exact Scalar.isMissing_coerce (h.rank_le (List.mem_of_getElem? hs))

/-- A condition finds the same truth in a value that has climbed. -/
theorem Below.truth?_coerce (h : v.Below r) : (v.coerce r).truth? = v.truth? := by
  have hextent : (v.coerce r).extent = v.extent := by
    rw [extent, extent, h.alike_coerce.length_eq]
  rw [truth?, truth?, single?, single?, hextent, elements_coerce, List.head?_map]
  cases hs : v.elements.head? with
  | none => rfl
  | some s =>
    have hle := h.rank_le (List.mem_of_mem_head? hs)
    exact congrArg (fun l ↦ some (l, v.extent)) (Scalar.toLogical_coerce hle)

/-- A value that climbs keeps its shape, its missing elements and its truth, and neither climbing
further nor coming back to its own rank shows that it has. -/
theorem coerce_lossless (hv : v.rank = some k) (h : k ≤ r) :
    (v.coerce r).rank = some r ∧
    (∀ r', r ≤ r' → (v.coerce r).coerce r' = v.coerce r') ∧
    (v.coerce r).coerce k = v ∧
    (v.coerce r).length = v.length ∧ (v.coerce r).isScalar = v.isScalar ∧
    (∀ i, (v.coerce r).isMissingAt i = v.isMissingAt i) ∧
    (v.coerce r).elements = v.elements.map (Scalar.coerce r) ∧
    (v.coerce r).truth? = v.truth? := by
  have hbelow := Below.of_rank hv h
  refine ⟨rank_coerce r v, fun r' _ ↦ hbelow.coerce_coerce r', ?_, hbelow.alike_coerce.length_eq,
    hbelow.alike_coerce.isScalar_eq, hbelow.isMissingAt_coerce, elements_coerce r v,
    hbelow.truth?_coerce⟩
  rw [hbelow.coerce_coerce k, coerce_rank hv]

/-- The least integer that is a number, the largest one and a missing one, up and down again. -/
theorem coerce_lossless_extremes :
    (ints [-2147483647, missingInt, 2147483647]).rank = some .integer ∧
      Rank.integer ≤ Rank.double ∧
      (ints [-2147483647, missingInt, 2147483647]).coerce .double =
        doubles [.ofNatBits 0xC1DFFFFFFFC00000, .na, .ofNatBits 0x41DFFFFFFFC00000] ∧
      ((ints [-2147483647, missingInt, 2147483647]).coerce .double).coerce .integer =
        ints [-2147483647, missingInt, 2147483647] := by
  have hrank : (ints [-2147483647, missingInt, 2147483647]).rank = some .integer := rfl
  have hle : Rank.integer ≤ Rank.double := by decide
  obtain ⟨-, -, hback, -⟩ := coerce_lossless hrank hle
  exact ⟨hrank, hle, by decide, hback⟩

end Value

end AdaptiveTree
