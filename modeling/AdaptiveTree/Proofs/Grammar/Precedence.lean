import Mathlib.Data.List.Forall2
import AdaptiveTree.Grammar.Conversion
import AdaptiveTree.Proofs.Grammar.Grouping

/-!
Pairs and drafts by precedence. The pairs of operands and operators are taken apart in the steps in
which the operands and operators themselves are climbed, so no operator is out of place and no step
is missing. An error stands for its operand on the way and is handed on as the drafts hand it on.
-/

set_option autoImplicit false
set_option relaxedAutoImplicit false

namespace AdaptiveTree.Grammar

variable {α β : Type}

/-! ### Drafts as conversions -/

def OversizedInteger.toCustomError (l : OversizedInteger) : CustomError :=
  .invalidNumber l.text l.span

/-- What was read, with a literal out of range as an error among others. -/
def converted (x : Except OversizedInteger α) : Converted α :=
  x.mapError OversizedInteger.toCustomError

def conversion (x : Except OversizedInteger α) : Conversion α := ExceptT.mk (some (converted x))

theorem conversion_bind (x : Except OversizedInteger α) (f : α → Except OversizedInteger β) :
    conversion (x >>= f) = conversion x >>= fun a ↦ conversion (f a) := by
  cases x <;> rfl

theorem conversion_pure (a : α) : conversion (pure a) = pure a := rfl

/-! ### What pairs stand for -/

/-- The pair stands for a draft, and for no operator or keyword. -/
structure Pair.Yields (p : Pair) (d : Draft) : Prop where
  affix : p.rule.affix? = none
  keyword : p.rule ≠ .elseKeyword
  convert_eq : convert p = conversion d

structure Pair.Signs (p : Pair) (s : Sign) : Prop where
  rule_eq : p.rule = .ofSign s.op
  start_eq : p.span.start = s.start

/-- The pairs of an operand: those of its signs, and one for what these stand in front of. -/
def OperandPairs (pairs : List Pair) (o : Operand) : Prop :=
  ∃ signs p, pairs = signs ++ [p] ∧ List.Forall₂ Pair.Signs signs o.signs ∧ p.Yields o.term

/-- The pairs of a comparison and the operand on its right. -/
def ComparisonPairs (pairs : List Pair) (o : CompareOp × Operand) : Prop :=
  ∃ op operand, pairs = op :: operand ∧ op.rule = .ofComparison o.1 ∧ OperandPairs operand o.2

variable {p : Pair} {s : Sign} {d d' : Draft}

theorem Pair.Signs.affix (h : p.Signs s) : p.rule.affix? = some (.before, signPower s.op) := by
  rw [h.rule_eq]
  cases s.op <;> rfl

theorem Pair.Signs.convertPrefix_eq (h : p.Signs s) :
    convertPrefix p (converted d) = converted (d.sign s) := by
  cases d with
  | error l => rfl
  | ok e =>
    have hunary : p.rule.unary? = some s.op := by
      rw [h.rule_eq]
      cases s.op <;> rfl
    simp only [convertPrefix, converted, Except.mapError, bind, Except.bind]
    rw [hunary, h.start_eq]
    rfl

theorem convertInfix_eq {op : CompareOp} (h : p.rule = .ofComparison op) :
    convertInfix (converted d) p (converted d') = converted (Draft.compare op d d') := by
  have hcomparison : p.rule.comparison? = some op := by
    rw [h]
    cases op <;> rfl
  rcases d with _ | a
  · rfl
  rcases d' with _ | b
  · rfl
  simp only [convertInfix, converted, Except.mapError, bind, Except.bind]
  rw [hcomparison]
  rfl

theorem affix_ofComparison (op : CompareOp) :
    (Rule.ofComparison op).affix? = some (.between, comparePower) := by
  cases op <;> rfl

theorem length_convertTerms (ps : List Pair) : (convertTerms ps).length = ps.length := by
  induction ps with
  | nil => rfl
  | cons p ps ih => rw [convertTerms, List.length_cons, ih, List.length_cons]

/-! ### Climbing -/

/-- Taking pairs apart has the result of climbing, and leaves the pairs of what climbing leaves. -/
def Takes (taken : Option (Converted Expr × List Term)) (result : Draft × Tail) (rest : Tail)
    (behind : List (List Pair)) : Prop :=
  ∃ n, result.2 = rest.drop n ∧
    taken = some (converted result.1, convertTerms (behind.drop n).flatten)

section Takes

variable {depth : Nat} {rest : Tail} {behind : List (List Pair)}

theorem length_flatten_drop_le (n : Nat) (behind : List (List Pair)) :
    (behind.drop n).flatten.length ≤ behind.flatten.length := by
  have hlength := congrArg (fun pss : List (List Pair) ↦ pss.flatten.length)
    (List.take_append_drop n behind)
  rw [List.flatten_append, List.length_append] at hlength
  omega

/-- What is taken behind what was taken. -/
theorem Takes.more {taken : Option (Converted Expr × List Term)} {result : Draft × Tail} {n : Nat}
    (h : Takes taken result (rest.drop n) (behind.drop n)) : Takes taken result rest behind := by
  obtain ⟨m, hrest, htaken⟩ := h
  rw [List.drop_drop] at hrest htaken
  exact ⟨n + m, hrest, htaken⟩

/-- Taking an operand apart goes like climbing it, with as many steps as there are pairs. -/
def TakesOperands (depth : Nat) : Prop :=
  ∀ (power : Nat) (signs : List Sign) (term : Draft) (rest : Tail) (signPairs : List Pair)
    (p : Pair) (behind : List (List Pair)), List.Forall₂ Pair.Signs signPairs signs →
    p.Yields term → List.Forall₂ ComparisonPairs behind rest →
    (signPairs ++ p :: behind.flatten).length < depth →
    Takes (takeExpr depth power (convertTerms (signPairs ++ p :: behind.flatten)))
      (climb depth power signs term rest) rest behind

/-- So does giving an operand the comparisons behind it. -/
def TakesComparisons (depth : Nat) : Prop :=
  ∀ (power : Nat) (left : Draft) (rest : Tail) (behind : List (List Pair)),
    List.Forall₂ ComparisonPairs behind rest → behind.flatten.length < depth →
    Takes (takeInfixes depth power (converted left) (convertTerms behind.flatten))
      (extend depth power left rest) rest behind

theorem TakesOperands.succ (hoperands : TakesOperands depth)
    (hcomparisons : TakesComparisons depth) : TakesOperands (depth + 1) := by
  intro power signs term rest signPairs p behind hsigns hterm hbehind hdepth
  cases hsigns with
  | nil =>
    rw [List.nil_append, List.length_cons] at hdepth
    rw [List.nil_append, convertTerms, takeExpr, hterm.affix, hterm.convert_eq, climb]
    exact hcomparisons _ _ _ _ hbehind (by omega)
  | @cons q s signPairs signs hs hsigns =>
    rw [List.cons_append, List.length_cons] at hdepth
    rw [List.cons_append, convertTerms, takeExpr, hs.affix, climb]
    obtain ⟨n, hleft, htaken⟩ := hoperands (signPower s.op - 1) _ _ _ _ _ _ hsigns hterm hbehind
      (by omega)
    dsimp only
    rw [htaken]
    generalize climb depth (signPower s.op - 1) signs term rest = result at hleft ⊢
    obtain ⟨operand, left⟩ := result
    obtain rfl : left = rest.drop n := hleft
    dsimp only [bind, Option.bind]
    rw [hs.convertPrefix_eq]
    refine Takes.more (hcomparisons _ _ _ _ (List.forall₂_drop n hbehind) ?_)
    have hlength := length_flatten_drop_le n behind
    rw [List.length_append, List.length_cons] at hdepth
    omega

theorem TakesComparisons.succ (hoperands : TakesOperands depth)
    (hcomparisons : TakesComparisons depth) : TakesComparisons (depth + 1) := by
  intro power left rest behind hbehind hdepth
  cases hbehind with
  | nil => exact ⟨0, rfl, rfl⟩
  | @cons pairs o behind rest ho hbehind =>
    obtain ⟨op, right⟩ := o
    obtain ⟨p, _, rfl, hop, signs, term, rfl, hsigns, hterm⟩ := ho
    dsimp only at hop hsigns hterm
    rw [List.flatten_cons, List.cons_append, List.append_assoc, List.singleton_append] at hdepth ⊢
    rw [List.length_cons] at hdepth
    rw [convertTerms, takeInfixes, hop, affix_ofComparison, extend]
    dsimp only
    by_cases hpower : power < comparePower
    · rw [if_pos hpower, if_pos hpower]
      obtain ⟨n, hleft, htaken⟩ :=
        hoperands comparePower _ _ _ _ _ _ hsigns hterm hbehind (by omega)
      rw [htaken]
      generalize climb depth comparePower right.signs right.term rest = result at hleft ⊢
      obtain ⟨operand, left'⟩ := result
      obtain rfl : left' = rest.drop n := hleft
      dsimp only [bind, Option.bind]
      rw [convertInfix_eq hop]
      refine Takes.more (n := n + 1) (hcomparisons _ _ _ _ (List.forall₂_drop n hbehind) ?_)
      have hlength := length_flatten_drop_le n behind
      rw [List.length_append, List.length_cons] at hdepth
      omega
    · rw [if_neg hpower, if_neg hpower]
      refine ⟨0, rfl, ?_⟩
      rw [List.drop_zero, List.flatten_cons, List.cons_append, List.append_assoc, convertTerms]
      rfl

theorem takes (depth : Nat) : TakesOperands depth ∧ TakesComparisons depth := by
  induction depth with
  | zero =>
    refine ⟨fun _ _ _ _ _ _ _ _ _ _ h ↦ ?_, fun _ _ _ _ _ h ↦ ?_⟩
    · exact absurd h (Nat.not_lt_zero _)
    · exact absurd h (Nat.not_lt_zero _)
  | succ depth ih => exact ⟨TakesOperands.succ ih.1 ih.2, TakesComparisons.succ ih.1 ih.2⟩

end Takes

theorem length_flatten_eq {rest : Tail} {behind : List (List Pair)}
    (h : List.Forall₂ ComparisonPairs behind rest) :
    behind.flatten.length = Grouping.reach rest := by
  induction h with
  | nil => rfl
  | @cons pairs o behind rest ho _ ih =>
    obtain ⟨op, right⟩ := o
    obtain ⟨p, _, rfl, -, signs, term, rfl, hsigns, -⟩ := ho
    rw [List.flatten_cons, List.length_append, ih, Grouping.reach_cons, ← hsigns.length_eq,
      List.length_cons, List.length_append, List.length_singleton]

/-- The operands and operators of a sequence are converted to the expression that it stands for. -/
theorem convertChain_eq {c : Chain} {first : List Pair} {behind : List (List Pair)}
    (hfirst : OperandPairs first c.first) (hrest : List.Forall₂ ComparisonPairs behind c.rest) :
    convertChain (convertTerms (first ++ behind.flatten)) = conversion c.toExpr := by
  obtain ⟨signs, p, rfl, hsigns, hterm⟩ := hfirst
  have hdepth : (signs ++ p :: behind.flatten).length + 1 = c.depth := by
    rw [Grouping.depth_eq, List.length_append, List.length_cons, length_flatten_eq hrest,
      hsigns.length_eq]
    omega
  have hpairs : signs ++ [p] ++ behind.flatten = signs ++ p :: behind.flatten := by
    rw [List.append_assoc, List.singleton_append]
  obtain ⟨n, -, htaken⟩ := (takes c.depth).1 0 _ _ _ _ _ _ hsigns hterm hrest (by omega)
  rw [convertChain, hpairs, length_convertTerms, hdepth, htaken]
  rfl

end AdaptiveTree.Grammar
