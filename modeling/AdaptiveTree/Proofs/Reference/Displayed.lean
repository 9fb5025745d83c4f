import AdaptiveTree.Proofs.Depth.Bounds
import AdaptiveTree.Proofs.Grammar.Displayed
import AdaptiveTree.Proofs.Value.Combination

/-!
What the text of a value stands for. An element is read as itself, but for the missing ones, which
are all read as the missing truth value; joining the elements of a vector brings them back to the
rank that one of them still has.
-/

set_option autoImplicit false
set_option relaxedAutoImplicit false

namespace AdaptiveTree

variable {e : Expr} {s : Scalar} {items : List Scalar} {w : World}

/-! ### Elements -/

theorem Expr.exists_literal {l : Literal} (he : e.bare = .literal l .origin) :
    ∃ span, e = .literal l span := by
  cases e <;> simp only [Expr.bare, Expr.literal.injEq, reduceCtorEq, and_true] at he
  exact ⟨_, by rw [he]⟩

theorem Expr.exists_neg {l : Literal} (he : e.bare = .unary .neg (.literal l .origin) .origin) :
    ∃ span span', e = .unary .neg (.literal l span) span' := by
  cases e <;> simp only [Expr.bare, Expr.unary.injEq, reduceCtorEq, and_true] at he
  obtain ⟨rfl, hoperand⟩ := he
  obtain ⟨span, rfl⟩ := exists_literal hoperand
  exact ⟨span, _, rfl⟩

/-- An element is read as a literal, or as a literal with a minus in front of it. -/
theorem Scalar.expr_cases (he : e.bare = s.expr.bare) :
    (∃ l span, e = .literal l span ∧ l.value = .scalar s.reread) ∨
    ∃ l span span', e = .unary .neg (.literal l span) span' ∧
      l.value.negate = .scalar s.reread := by
  have hliteral {l : Literal} (he : e.bare = .literal l .origin)
      (hl : l.value = .scalar s.reread) :
      ∃ l span, e = .literal l span ∧ l.value = .scalar s.reread := by
    obtain ⟨span, rfl⟩ := Expr.exists_literal he
    exact ⟨l, span, rfl, hl⟩
  have hneg {l : Literal} (he : e.bare = .unary .neg (.literal l .origin) .origin)
      (hl : l.value.negate = .scalar s.reread) : ∃ l span span',
        e = .unary .neg (.literal l span) span' ∧ l.value.negate = .scalar s.reread := by
    obtain ⟨span, span', rfl⟩ := Expr.exists_neg he
    exact ⟨l, span, span', rfl, hl⟩
  cases s with
  | logical l => exact .inl (hliteral he rfl)
  | int i =>
    rw [Scalar.expr] at he
    rw [Scalar.reread] at hliteral hneg ⊢
    split_ifs at he hliteral hneg ⊢ with hi hsign
    · exact .inl (hliteral he rfl)
    · refine .inr (hneg he ?_)
      rw [Literal.value, Literal.scalar?, Value.negate, Scalar.negate, negateInt_neg hsign hi]
    · exact .inl (hliteral he rfl)
  | double d =>
    rw [Scalar.expr] at he
    rw [Scalar.reread] at hliteral hneg ⊢
    split_ifs at he hliteral hneg ⊢ with hna hsign
    · exact .inl (hliteral he rfl)
    · refine .inr (hneg he ?_)
      rw [Literal.value, Literal.scalar?, Value.negate, Scalar.negate,
        neg_ofNatBits_magnitude hsign]
    · exact .inl (hliteral he rfl)

theorem Scalar.depth_le (he : e.bare = s.expr.bare) : e.depth ≤ 2 := by
  rcases Scalar.expr_cases he with ⟨l, span, rfl, -⟩ | ⟨l, span, span', rfl, -⟩ <;>
    simp [Expr.depth]

theorem Scalar.depthEach_le {args : List Expr}
    (hargs : args.map Expr.bare = (items.map Scalar.expr).map Expr.bare) :
    Expr.depthEach args ≤ 2 := by
  induction args generalizing items with
  | nil => simp [Expr.depthEach]
  | cons e rest ih =>
    cases items with
    | nil => cases hargs
    | cons s items =>
      obtain ⟨he, hrest⟩ := List.cons.inj hargs
      exact Nat.max_le.mpr ⟨depth_le he, ih hrest⟩

namespace Reference

theorem expr_of_scalar (he : e.bare = s.expr.bare) : expr e w = .ok (.scalar s.reread) w := by
  rcases Scalar.expr_cases he with ⟨l, span, rfl, hl⟩ | ⟨l, span, span', rfl, hl⟩
  · rw [expr, hl]
    rfl
  · rw [expr, expr, pure_bind, UnaryOp.apply, hl]
    rfl

theorem each_of_scalars {args : List Expr}
    (hargs : args.map Expr.bare = (items.map Scalar.expr).map Expr.bare) :
    each args w = .ok (items.map fun s ↦ .scalar s.reread) w := by
  induction args generalizing items with
  | nil =>
    cases items with
    | nil => rfl
    | cons => cases hargs
  | cons e rest ih =>
    cases items with
    | nil => cases hargs
    | cons s items =>
      obtain ⟨he, hrest⟩ := List.cons.inj hargs
      rw [each, bind_eq (expr_of_scalar he), bind_eq (ih hrest)]
      rfl

end Reference

/-- A scalar that is not missing is read as itself. -/
theorem Scalar.reread_eq (hs : (Value.scalar s).isDisplayable = true) : s.reread = s := by
  cases s with
  | logical => rfl
  | int i => rw [reread, if_neg (of_decide_eq_true hs)]
  | double d =>
    refine if_neg ?_
    rintro rfl
    cases hs

/-! ### Joining the elements -/

theorem Scalar.rank_reread (s : Scalar) : s.reread.rank = .logical ∨ s.reread.rank = s.rank := by
  cases s with
  | logical => exact .inl rfl
  | _ =>
    rw [Scalar.reread]
    split_ifs
    · exact .inl rfl
    · exact .inr rfl

theorem Scalar.toInt_reread (i : Int32) : (int i).reread.toInt = i := by
  rw [Scalar.reread]
  split_ifs with hi
  · exact hi.symm
  · rfl

theorem Scalar.toDouble_reread (d : Double) : (double d).reread.toDouble = d := by
  rw [Scalar.reread]
  split_ifs with hd
  · exact hd.symm
  · rfl

namespace Builtin

/-- Elements that have lost their rank take it back from one that has not. -/
theorem combineValues_reread {r : Rank} (hranks : ∀ s ∈ items, s.rank = r)
    (hsome : ∃ s ∈ items, s.reread.rank = r) :
    combineValues (items.map fun s ↦ .scalar s.reread) =
      .ofScalars r (items.map Scalar.reread) := by
  have hrank : Value.highestRank (items.map fun s ↦ .scalar s.reread) = some r := by
    refine Value.highestRank_eq (by simpa [Value.rank] using hsome) fun v hv k hk ↦ ?_
    obtain ⟨s, hs, rfl⟩ := List.mem_map.mp hv
    obtain rfl := Option.some.inj hk
    rcases s.rank_reread with hlogical | hsame
    · rw [hlogical]
      exact Rank.logical_le r
    · exact Rank.le_of_eq (hsame.trans (hranks s hs))
  have helements : (items.map fun s ↦ Value.scalar s.reread).flatMap Value.elements =
      items.map Scalar.reread := by
    rw [List.flatMap_map]
    exact List.flatMap_pure_eq_map _ _
  rw [combineValues, hrank, helements]

theorem combineValues_logicals {ls : List Logical} (hsome : ls ≠ []) :
    combineValues ((Value.logicals ls).elements.map fun s ↦ .scalar s.reread) =
      .logicals ls := by
  have helements : (Value.logicals ls).elements = ls.map .logical := rfl
  obtain ⟨l, hl⟩ := List.exists_mem_of_ne_nil ls hsome
  rw [helements, combineValues_reread (r := .logical) (by simp [Scalar.rank])
    ⟨.logical l, List.mem_map_of_mem hl, rfl⟩]
  simp [Value.ofScalars, Scalar.reread, Scalar.toLogical, Function.comp_def]

theorem combineValues_ints {is : List Int32} (hsome : is.any (· ≠ missingInt) = true) :
    combineValues ((Value.ints is).elements.map fun s ↦ .scalar s.reread) = .ints is := by
  have helements : (Value.ints is).elements = is.map .int := rfl
  obtain ⟨i, hi, hpresent⟩ := List.any_eq_true.mp hsome
  have hrank : (Scalar.int i).reread.rank = .integer := by
    rw [Scalar.reread, if_neg (by simpa using hpresent)]
    rfl
  rw [helements, combineValues_reread (by simp [Scalar.rank])
    ⟨.int i, List.mem_map_of_mem hi, hrank⟩]
  simp [Value.ofScalars, Scalar.toInt_reread, Function.comp_def]

theorem combineValues_doubles {ds : List Double} (hsome : ds.any Double.isFinite = true) :
    combineValues ((Value.doubles ds).elements.map fun s ↦ .scalar s.reread) =
      .doubles ds := by
  have helements : (Value.doubles ds).elements = ds.map .double := rfl
  obtain ⟨d, hd, hfinite⟩ := List.any_eq_true.mp hsome
  have hrank : (Scalar.double d).reread.rank = .double := by
    have hpresent : d ≠ .na := by
      rintro rfl
      cases hfinite
    rw [Scalar.reread, if_neg hpresent]
    rfl
  rw [helements, combineValues_reread (by simp [Scalar.rank])
    ⟨.double d, List.mem_map_of_mem hd, hrank⟩]
  simp [Value.ofScalars, Scalar.toDouble_reread, Function.comp_def]

end Builtin

/-! ### Values -/

theorem Expr.exists_call {args : List Expr} (he : e.bare = (call "c" args .origin).bare) :
    ∃ args' span, e = call "c" args' span ∧ args'.map bare = args.map bare := by
  cases e <;> simp only [Expr.bare, Expr.call.injEq, reduceCtorEq, and_true] at he
  obtain ⟨rfl, hargs⟩ := he
  rw [bareAll_eq_map, bareAll_eq_map] at hargs
  exact ⟨_, _, rfl, hargs⟩

theorem Expr.exists_block {p : Expr} (hp : p.bare = (block [e] .origin).bare) :
    ∃ e' span, p = block [e'] span ∧ e'.bare = e.bare := by
  cases p <;> simp only [Expr.bare, Expr.block.injEq, reduceCtorEq, and_true] at hp
  rw [bareAll_eq_map, bareAll_eq_map] at hp
  obtain ⟨e', rfl, he⟩ := List.map_eq_singleton_iff.mp hp
  exact ⟨e', _, rfl, he⟩

theorem Value.depth_le {v : Value} (he : e.bare = v.expr.bare) : e.depth ≤ 3 := by
  have hcall (items : List Scalar)
      (he : e.bare = (Expr.call "c" (items.map Scalar.expr) .origin).bare) : e.depth ≤ 3 := by
    obtain ⟨args, span, rfl, hargs⟩ := Expr.exists_call he
    exact Nat.succ_le_succ (Scalar.depthEach_le hargs)
  cases v with
  | null =>
    obtain ⟨span, rfl⟩ := Expr.exists_literal he
    simp [Expr.depth]
  | scalar s => exact (Scalar.depth_le he).trans (by decide)
  | _ => exact hcall _ he

namespace Reference

/-- A call that joins elements, where no binding hides the function that does. -/
theorem expr_of_call (hc : w.frame.get? "c" = none)
    (he : e.bare = (Expr.call "c" (items.map Scalar.expr) .origin).bare) :
    expr e w = .ok (Builtin.combineValues (items.map fun s ↦ .scalar s.reread)) w := by
  obtain ⟨args, span, rfl, hargs⟩ := Expr.exists_call he
  have hcallee : lookupCallee span "c" w = .ok (.builtin .combine) w := by
    have hget : (get : Run World) w = .ok w w := rfl
    have hlookup : Builtin.lookup? "c" = some .combine := by decide
    unfold lookupCallee
    rw [bind_eq hget, hc, hlookup]
    rfl
  rw [expr, bind_eq hcallee, bind_eq (each_of_scalars hargs), apply, Builtin.answer]
  · rfl
  · simp

/-- What the text of a value is read as has that value. -/
theorem expr_of_value {v : Value} (hv : v.isDisplayable = true) (hc : w.frame.get? "c" = none)
    (he : e.bare = v.expr.bare) : expr e w = .ok v w := by
  cases v with
  | null =>
    obtain ⟨span, rfl⟩ := Expr.exists_literal he
    rfl
  | scalar s =>
    rw [expr_of_scalar he, Scalar.reread_eq hv]
  | logicals ls =>
    rw [expr_of_call hc he, Builtin.combineValues_logicals]
    simpa [Value.isDisplayable] using hv
  | ints is => rw [expr_of_call hc he, Builtin.combineValues_ints hv]
  | doubles ds =>
    rw [expr_of_call hc he, Builtin.combineValues_doubles ((Bool.and_eq_true _ _).mp hv).2]

/-- The program that the text of a value is read as gives that value. -/
theorem run_of_value {v : Value} {p : Expr} (hv : v.isDisplayable = true)
    (hc : w.frame.get? "c" = none) (hp : p.bare = (Expr.block [v.expr] .origin).bare) :
    run p w = (.ok v, w) := by
  obtain ⟨e, span, rfl, he⟩ := Expr.exists_block hp
  have hexpr : expr (.block [e] span) w = .ok v w := by
    rw [expr, inOrder, bind_eq (expr_of_value hv hc he)]
    rfl
  rw [run, hexpr]

end Reference

end AdaptiveTree
