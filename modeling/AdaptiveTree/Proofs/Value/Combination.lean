import AdaptiveTree.Builtin
import AdaptiveTree.Proofs.Value.Coercion
import Mathlib.Algebra.GroupWithZero.Nat
import Mathlib.Order.Bounds.Basic

/-!
Joining values to one vector. The rank of the vector is the highest among the values, and taking
the highest rank is associative; so it does not matter where values were joined before. Their
elements have then climbed in two steps instead of one, which no element shows.
-/

set_option autoImplicit false
set_option relaxedAutoImplicit false

namespace AdaptiveTree

namespace Rank

@[simp]
theorem common_none_left (a : Option Rank) : common none a = a := by
  cases a <;> rfl

@[simp]
theorem common_none_right (a : Option Rank) : common a none = a := by
  cases a <;> rfl

theorem common_assoc (a b c : Option Rank) :
    common (common a b) c = common a (common b c) := by
  cases a with
  | none => simp
  | some i =>
    cases b with
    | none => simp
    | some j =>
      cases c with
      | none => simp
      | some k => cases i <;> cases j <;> cases k <;> rfl

theorem le_of_eq {i j : Rank} (h : i = j) : i ≤ j := by
  rw [h]
  exact Nat.le_refl _

theorem logical_le (r : Rank) : logical ≤ r := Nat.zero_le _

theorem le_antisymm {i j : Rank} (h : i ≤ j) (h' : j ≤ i) : i = j := by
  have hlevel : i.level = j.level := Nat.le_antisymm h h'
  cases i <;> cases j <;> first | rfl | cases hlevel

theorem common_eq_none_iff {a b : Option Rank} : common a b = none ↔ a = none ∧ b = none := by
  cases a <;> cases b <;> simp [common]

/-- The rank at which two meet is one of theirs, and neither has a higher one. -/
theorem common_eq_some {a b : Option Rank} {r : Rank} (h : common a b = some r) :
    (a = some r ∨ b = some r) ∧ ∀ k, a = some k ∨ b = some k → k ≤ r := by
  cases a with
  | none =>
    rw [common_none_left] at h
    refine ⟨.inr h, ?_⟩
    rintro k (hk | hk)
    · cases hk
    · exact le_of_eq (Option.some.inj (hk.symm.trans h))
  | some i =>
    cases b with
    | none =>
      rw [common_none_right] at h
      refine ⟨.inl h, ?_⟩
      rintro k (hk | hk)
      · exact le_of_eq (Option.some.inj (hk.symm.trans h))
      · cases hk
    | some j =>
      obtain rfl := Option.some.inj h
      refine ⟨?_, ?_⟩
      · cases i <;> cases j <;> decide
      · rintro k (⟨⟨⟩⟩ | ⟨⟨⟩⟩)
        · exact le_max_left i j
        · exact le_max_right i j

end Rank

namespace Value

variable {r : Rank} {args : List Value}

/-! ### The highest rank -/

theorem foldl_common_start (start : Option Rank) (args : List Value) :
    args.foldl (fun r v ↦ Rank.common r v.rank) start = Rank.common start (highestRank args) := by
  unfold highestRank
  induction args generalizing start with
  | nil => simp
  | cons v rest ih =>
    rw [List.foldl_cons, List.foldl_cons, ih, ih (Rank.common none v.rank), Rank.common_none_left,
      Rank.common_assoc]

@[simp]
theorem highestRank_nil : highestRank [] = none := rfl

theorem highestRank_cons (v : Value) (rest : List Value) :
    highestRank (v :: rest) = Rank.common v.rank (highestRank rest) := by
  rw [highestRank, List.foldl_cons, foldl_common_start, Rank.common_none_left]

theorem highestRank_append (args others : List Value) :
    highestRank (args ++ others) = Rank.common (highestRank args) (highestRank others) := by
  rw [highestRank, List.foldl_append, foldl_common_start]
  rfl

theorem rank_eq_none_iff {v : Value} : v.rank = none ↔ v = .null := by
  cases v <;> simp [rank]

theorem highestRank_eq_none_iff : highestRank args = none ↔ ∀ v ∈ args, v = .null := by
  induction args with
  | nil => simp
  | cons v rest ih =>
    rw [highestRank_cons, Rank.common_eq_none_iff, ih, rank_eq_none_iff, List.forall_mem_cons]

/-- It is the rank of one of the values, and no value has a higher one. -/
theorem isGreatest_highestRank (h : highestRank args = some r) :
    IsGreatest {k | ∃ v ∈ args, v.rank = some k} r := by
  induction args generalizing r with
  | nil => cases h
  | cons v rest ih =>
    rw [highestRank_cons] at h
    obtain ⟨hsome, hle⟩ := Rank.common_eq_some h
    constructor
    · rcases hsome with hv | hrest
      · exact ⟨v, by simp, hv⟩
      · obtain ⟨u, hu, hrank⟩ := (ih hrest).1
        exact ⟨u, List.mem_cons_of_mem v hu, hrank⟩
    · rintro k ⟨u, hu, hrank⟩
      rcases List.mem_cons.mp hu with rfl | hu
      · exact hle k (.inl hrank)
      · cases hrest : highestRank rest with
        | none =>
          rw [highestRank_eq_none_iff.mp hrest u hu] at hrank
          cases hrank
        | some j => exact Nat.le_trans ((ih hrest).2 ⟨u, hu, hrank⟩) (hle j (.inr hrest))

/-- There is no other rank with these properties. -/
theorem highestRank_eq (hsome : ∃ v ∈ args, v.rank = some r)
    (hle : ∀ v ∈ args, ∀ k, v.rank = some k → k ≤ r) : highestRank args = some r := by
  obtain ⟨v, hv, hrank⟩ := hsome
  cases h : highestRank args with
  | none =>
    rw [highestRank_eq_none_iff.mp h v hv] at hrank
    cases hrank
  | some j =>
    obtain ⟨u, hu, hj⟩ := (isGreatest_highestRank h).1
    have hjr := Rank.le_antisymm (hle u hu j hj) ((isGreatest_highestRank h).2 ⟨v, hv, hrank⟩)
    rw [hjr]

theorem rank_le_of_mem {s : Scalar} (h : highestRank args = some r)
    (hs : s ∈ args.flatMap elements) : s.rank ≤ r := by
  obtain ⟨v, hv, hmem⟩ := List.mem_flatMap.mp hs
  exact (isGreatest_highestRank h).2 ⟨v, hv, rank_of_mem_elements hmem⟩

end Value

/-! ### Joining -/

namespace Builtin

open Value (highestRank ofScalars)

variable {r : Rank} {args : List Value}

theorem combineValues_of_rank (h : highestRank args = some r) :
    combineValues args = ofScalars r (args.flatMap Value.elements) := by
  rw [combineValues, h]

theorem combineValues_of_no_rank (h : highestRank args = none) : combineValues args = .null := by
  rw [combineValues, h]

theorem rank_combineValues (args : List Value) : (combineValues args).rank = highestRank args := by
  cases h : highestRank args with
  | none =>
    rw [combineValues_of_no_rank h]
    rfl
  | some r => rw [combineValues_of_rank h, Value.rank_ofScalars]

theorem elements_combineValues (h : highestRank args = some r) :
    (combineValues args).elements = (args.flatMap Value.elements).map (Scalar.coerce r) := by
  rw [combineValues_of_rank h, Value.elements_ofScalars]

/-- Elements that were joined coerce to every rank as they did before. -/
theorem map_coerce_combineValues (k : Rank) (args : List Value) :
    (combineValues args).elements.map (Scalar.coerce k) =
      (args.flatMap Value.elements).map (Scalar.coerce k) := by
  cases h : highestRank args with
  | none =>
    have hnull := Value.highestRank_eq_none_iff.mp h
    have helements : args.flatMap Value.elements = [] :=
      List.flatMap_eq_nil_iff.mpr fun v hv ↦ by rw [hnull v hv]; rfl
    rw [combineValues_of_no_rank h, helements]
    rfl
  | some r =>
    rw [elements_combineValues h, List.map_map]
    exact List.map_congr_left fun s hs ↦ Scalar.coerce_coerce (Value.rank_le_of_mem h hs) k

/-- What a join depends on: the highest rank, and what the elements become at it. -/
theorem combineValues_congr {others : List Value} (hrank : highestRank args = highestRank others)
    (helements : ∀ k, (args.flatMap Value.elements).map (Scalar.coerce k) =
      (others.flatMap Value.elements).map (Scalar.coerce k)) :
    combineValues args = combineValues others := by
  cases h : highestRank others with
  | none => rw [combineValues_of_no_rank h, combineValues_of_no_rank (hrank.trans h)]
  | some r =>
    rw [combineValues_of_rank h, combineValues_of_rank (hrank.trans h),
      Value.ofScalars_congr (helements r)]

/-- Values may be joined beforehand. -/
theorem combineValues_nested (xs ys zs : List Value) :
    combineValues (xs ++ [combineValues ys] ++ zs) = combineValues (xs ++ ys ++ zs) := by
  refine combineValues_congr ?_ fun k ↦ ?_
  · simp only [Value.highestRank_append, Value.highestRank_cons, Value.highestRank_nil,
      Rank.common_none_right, rank_combineValues]
  · simp only [List.flatMap_append, List.flatMap_cons, List.flatMap_nil, List.append_nil,
      List.map_append, map_coerce_combineValues]

theorem combineValues_eq_null_iff : combineValues args = .null ↔ ∀ v ∈ args, v = .null := by
  rw [← Value.rank_eq_none_iff, rank_combineValues, Value.highestRank_eq_none_iff]

/-- What is joined: the elements of all values in their order, at the highest rank. -/
structure Joins (args : List Value) (r : Rank) (joined : Value) : Prop where
  isGreatest : IsGreatest {k | ∃ v ∈ args, v.rank = some k} r
  rank_eq : joined.rank = some r
  isScalar_eq : joined.isScalar = false
  length_eq : joined.length = (args.map Value.length).sum
  get?_eq : ∀ i, joined.get? i = (args.flatMap Value.elements)[i]?.map (Scalar.coerce r)
  isMissingAt_eq : ∀ i, joined.isMissingAt i =
    (args.flatMap Value.elements)[i]?.any Scalar.isMissing

theorem joins_combineValues (h : highestRank args = some r) :
    Joins args r (combineValues args) where
  isGreatest := Value.isGreatest_highestRank h
  rank_eq := (rank_combineValues args).trans h
  isScalar_eq := by rw [combineValues_of_rank h, Value.isScalar_ofScalars]
  length_eq := by
    rw [Value.length, elements_combineValues h, List.length_map, List.length_flatMap]
    rfl
  get?_eq i := by rw [Value.get?, elements_combineValues h, List.getElem?_map]
  isMissingAt_eq i := by
    rw [Value.isMissingAt, Value.get?, elements_combineValues h, List.getElem?_map]
    cases hs : (args.flatMap Value.elements)[i]? with
    | none => rfl
    | some s =>
      exact Scalar.isMissing_coerce (Value.rank_le_of_mem h (List.mem_of_getElem? hs))

/-- Joining is associative. What is joined is nothing exactly if all of the values are, and else a
vector of their elements at the highest rank. -/
theorem combineValues_associative :
    (∀ xs ys zs : List Value,
      combineValues (xs ++ [combineValues ys] ++ zs) = combineValues (xs ++ ys ++ zs)) ∧
    ∀ args : List Value,
      (combineValues args = .null ↔ ∀ v ∈ args, v = .null) ∧
      (combineValues args ≠ .null → ∃ r, Joins args r (combineValues args)) := by
  refine ⟨combineValues_nested, fun args ↦ ⟨combineValues_eq_null_iff, fun hsome ↦ ?_⟩⟩
  cases h : highestRank args with
  | none => exact absurd (combineValues_of_no_rank h) hsome
  | some r => exact ⟨r, joins_combineValues h⟩

/-- Truth values and an integer that are joined first climb in two steps; nothing and an empty
vector leave no element behind. -/
theorem combineValues_associative_climbsTwice :
    combineValues ([.null] ++ [combineValues [.logicals [.yes, .na], .scalar (.int missingInt)]] ++
      [.doubles [], .scalar (.int 2)]) = .doubles [.one, .na, .na, .ofNatBits 0x4000000000000000] ∧
    ∃ r, Joins [.logicals [.yes], .scalar (.double .na)] r (.doubles [.one, .na]) := by
  obtain ⟨hnested, hjoins⟩ := combineValues_associative
  refine ⟨(hnested _ _ _).trans (by decide), (hjoins _).2 (by decide)⟩

end Builtin

end AdaptiveTree
