import AdaptiveTree.Proofs.Depth.Levels

/-!
Bounds for the levels that can be read off a program. Its syntax is nested at least as deep as its
evaluation, but for the return tails, each of which has the statements behind it evaluated two
levels deeper; and there is a bound for how much the forms of its conditionals can make of a
difference.
-/

set_option autoImplicit false
set_option relaxedAutoImplicit false

namespace AdaptiveTree

namespace Expr

mutual

/-- How deep the syntax is nested. -/
def depth : Expr → Nat
  | literal .. | ident .. => 1
  | unary _ e _ | assign _ e _ => depth e + 1
  | compare _ left right _ => max (depth left) (depth right) + 1
  | call _ args _ => depthEach args + 1
  | ifThen c t _ => max (depth c) (depth t) + 1
  | ifElse c t e _ => max (depth c) (max (depth t) (depth e)) + 1
  | block items _ => depthEach items + 1

/-- The depth of the deepest of some expressions. -/
def depthEach : List Expr → Nat
  | [] => 0
  | e :: rest => max (depth e) (depthEach rest)

end

/-- The levels that are saved where a condition is a test of equality with a constant and only
its other operand is evaluated. There are two of them if the constant is negated. -/
def spared (operands : Bool) : Expr → Nat
  | compare op left right span =>
    if operands && (compare op left right span).constantTested?.isSome then depth right else 0
  | _ => 0

mutual

/-- The levels that are saved at all conditions together. -/
def savings (operands : Bool) : Expr → Nat
  | literal .. | ident .. => 0
  | unary _ e _ | assign _ e _ => savings operands e
  | compare _ left right _ => savings operands left + savings operands right
  | call _ args _ => savingsEach operands args
  | ifThen c t _ => spared operands c + savings operands c + savings operands t
  | ifElse c t e _ =>
    spared operands c + savings operands c + (savings operands t + savings operands e)
  | block items _ => savingsEach operands items

def savingsEach (operands : Bool) : List Expr → Nat
  | [] => 0
  | e :: rest => savings operands e + savingsEach operands rest

end

variable {e : Expr} {t : ReturnTail}

theorem depth_pos (e : Expr) : 0 < depth e := by
  cases e <;> rw [depth] <;> omega

theorem depthEach_append (items others : List Expr) :
    depthEach (items ++ others) = max (depthEach items) (depthEach others) := by
  induction items with
  | nil => simp [depthEach]
  | cons e rest ih => rw [List.cons_append, depthEach, depthEach, ih, Nat.max_assoc]

theorem savingsEach_append (operands : Bool) (items others : List Expr) :
    savingsEach operands (items ++ others) =
      savingsEach operands items + savingsEach operands others := by
  induction items with
  | nil => simp [savingsEach]
  | cons e rest ih => rw [List.cons_append, savingsEach, savingsEach, ih, Nat.add_assoc]

/-- The parts of a return tail are nested less deep than the tail. -/
theorem depth_of_returnTail? (h : e.returnTail? = some t) :
    depth t.cond < depth e ∧ depth t.arg + 1 < depth e ∧
      (t.body ≠ [] → depthEach t.body + 1 < depth e) := by
  obtain ⟨branch, span, rfl, hbranch⟩ := returnTail?_eq_some_iff.mp h
  have hcall : depthEach [call "return" [t.arg] t.callSpan] = depth t.arg + 1 := by
    simp [depthEach, depth]
  have hstatements := congrArg depthEach hbranch
  rw [depthEach_append, hcall] at hstatements
  rw [depth]
  cases branch with
  | block items span' =>
    rw [statements] at hstatements
    rw [depth]
    omega
  | _ =>
    -- The branch is the call itself.
    have hsingle := congrArg List.length hbranch
    simp only [statements, List.length_append, List.length_singleton] at hsingle
    have hbody : t.body = [] := List.length_eq_zero_iff.mp (by omega)
    simp only [statements, depthEach, hbody] at hstatements
    refine ⟨by omega, by omega, fun hne ↦ absurd hbody hne⟩

theorem savings_of_returnTail? (operands : Bool) (h : e.returnTail? = some t) :
    savings operands t.cond + savingsEach operands t.body + savings operands t.arg ≤
      savings operands e := by
  obtain ⟨branch, span, rfl, hbranch⟩ := returnTail?_eq_some_iff.mp h
  have hcall :
      savingsEach operands [call "return" [t.arg] t.callSpan] = savings operands t.arg := by
    simp [savingsEach, savings]
  have hstatements : savingsEach operands branch.statements = savings operands branch := by
    cases branch <;> simp [statements, savingsEach, savings]
  rw [hbranch, savingsEach_append, hcall] at hstatements
  rw [savings]
  omega

end Expr

/-- The return tails of a program that are recognised. -/
def CompilationOptions.tails (options : CompilationOptions) : Expr → Nat
  | .block items _ => if options.returnTails then items.countP (·.returnTail?.isSome) else 0
  | _ => 0

/-- How far the levels of a program can be apart from each other in different forms. -/
def CompilationOptions.savings (options : CompilationOptions) (source : Expr) : Nat :=
  source.savings options.constantComparisons + options.tails source

namespace Reference

variable (f : Forms) (w : World)

theorem branchLevels_le {a b n : Nat} (l : Logical) (ha : a ≤ n) (hb : b ≤ n) :
    branchLevels a b l ≤ n := by
  unfold branchLevels
  split
  · exact Nat.zero_le _
  · split_ifs <;> assumption

theorem branchLevels_le_add {a b a' b' n : Nat} (l : Logical) (ha : a ≤ a' + n)
    (hb : b ≤ b' + n) : branchLevels a b l ≤ branchLevels a' b' l + n := by
  unfold branchLevels
  split
  · exact Nat.zero_le _
  · split_ifs <;> assumption

/-! ### The depth of the syntax -/

mutual

theorem levels_le_depth (tested : Bool) : (e : Expr) → (w : World) → levels f tested e w ≤ e.depth
  | .literal .., w | .ident .., w => Nat.le_of_eq (by rw [levels, Expr.depth])
  | .unary _ e _, w | .assign _ e _, w => by
    rw [levels, Expr.depth]
    exact Nat.succ_le_succ (levels_le_depth false e w)
  | .compare _ left right _, w => by
    have hleft := levels_le_depth false left w
    have hright : after (fun _ w' ↦ levels f false right w') (expr left w) ≤ right.depth :=
      after_le (fun _ w' ↦ levels_le_depth false right w') _
    rw [levels, Expr.depth]
    split <;> omega
  | .call name args span, w => by
    rw [levels, Expr.depth]
    exact Nat.succ_le_succ (after_le (fun _ w' ↦ levelsEach_le_depth args w') _)
  | .ifThen c t _, w => by
    have hc := levels_le_depth true c w
    have hbranch : after (fun l w' ↦ branchLevels (levels f false t w') 1 l) (test c w) ≤ t.depth :=
      after_le (fun l w' ↦ branchLevels_le l (levels_le_depth false t w') t.depth_pos) _
    rw [levels, Expr.depth]
    omega
  | .ifElse c t e _, w => by
    have hc := levels_le_depth true c w
    have hbranch : after (fun l w' ↦ branchLevels (levels f false t w') (levels f false e w') l)
        (test c w) ≤ max t.depth e.depth :=
      after_le (fun l w' ↦ branchLevels_le l
        (Nat.le_trans (levels_le_depth false t w') (Nat.le_max_left ..))
        (Nat.le_trans (levels_le_depth false e w') (Nat.le_max_right ..))) _
    rw [levels, Expr.depth]
    omega
  | .block items _, w => by
    rw [levels, Expr.depth]
    exact Nat.succ_le_succ (levelsEach_le_depth items w)

theorem levelsEach_le_depth : (items : List Expr) → (w : World) →
    levelsEach f items w ≤ Expr.depthEach items
  | [], w => by
    rw [levelsEach]
    exact Nat.zero_le _
  | e :: rest, w => by
    have hfirst := levels_le_depth false e w
    have hrest : after (fun _ w' ↦ levelsEach f rest w') (expr e w) ≤ Expr.depthEach rest :=
      after_le (fun _ w' ↦ levelsEach_le_depth rest w') _
    rw [levelsEach, Expr.depthEach]
    omega

end

/-- What a return tail does after its condition is nested less deep than the tail, but for what
stands behind it. -/
theorem tailLevels_le_depth {e : Expr} {t : Expr.ReturnTail} (htail : e.returnTail? = some t)
    {rest : World → Nat} {n : Nat} (hrest : ∀ w, rest w ≤ n) (l : Logical) (w : World) :
    tailLevels f t rest l w + 1 ≤ max e.depth (n + 1) := by
  obtain ⟨-, harg, hbody⟩ := Expr.depth_of_returnTail? htail
  have hcall (w : World) : callLevels f t rest w ≤ max (t.arg.depth + 1) n := by
    have hlevels := levels_le_depth f false (.call "return" [t.arg] t.callSpan) w
    have hafter : after (fun _ w' ↦ rest w') (expr (.call "return" [t.arg] t.callSpan) w) ≤ n :=
      after_le (fun _ w' ↦ hrest w') _
    simp only [Expr.depth, Expr.depthEach] at hlevels
    unfold callLevels
    omega
  have hend : after (fun _ w' ↦ endLevels f t rest w') (body t.body w) ≤
      max (t.arg.depth + 1) n :=
    after_le (fun _ w' ↦ Nat.le_trans (endLevels_le f w' t rest) (hcall w')) _
  have hfirst : bodyLevels f t.body w < e.depth := by
    cases hitems : t.body with
    | nil => exact e.depth_pos
    | cons first others =>
      have hlevels := levelsEach_le_depth f (first :: others) w
      have hdepth := hbody (by simp [hitems])
      rw [hitems] at hdepth
      rw [bodyLevels]
      omega
  have hn := hrest w
  have hbranch : tailLevels f t rest l w ≤ max (e.depth - 1) n :=
    branchLevels_le l (by omega) (by omega)
  have hpos := e.depth_pos
  omega

theorem statementLevels_le_depth (items : List Expr) (w : World) : statementLevels f items w ≤
    Expr.depthEach items + 2 * items.countP (·.returnTail?.isSome) := by
  induction items generalizing w with
  | nil =>
    rw [statementLevels]
    exact Nat.zero_le _
  | cons e rest ih =>
    rw [statementLevels, Expr.depthEach, List.countP_cons]
    cases htail : e.returnTail? with
    | some t =>
      have hcond := levels_le_depth f false t.cond w
      have hless := (Expr.depth_of_returnTail? htail).1
      have hafter : after (tailLevels f t fun w' ↦ statementLevels f rest w' + 1) (test t.cond w) ≤
          max e.depth (Expr.depthEach rest + 2 * rest.countP (·.returnTail?.isSome) + 2) - 1 :=
        after_le (fun l w' ↦ Nat.le_sub_one_of_lt
          (tailLevels_le_depth f htail (fun w ↦ Nat.succ_le_succ (ih w)) l w')) _
      simp only [Option.isSome_some, if_true]
      omega
    | none =>
      have hfirst := levels_le_depth f false e w
      have hafter : after (fun _ w' ↦ statementLevels f rest w') (expr e w) ≤
          Expr.depthEach rest + 2 * rest.countP (·.returnTail?.isSome) :=
        after_le (fun _ w' ↦ ih w') _
      simp only [Option.isSome_none, Bool.false_eq_true, if_false]
      omega

/-- Each return tail that is recognised makes room for two levels necessary. -/
theorem programLevels_le (options : CompilationOptions) (source : Expr) :
    programLevels f options source w ≤ source.depth + 2 * options.tails source := by
  cases source with
  | block items span =>
    rw [programLevels, CompilationOptions.tails]
    split_ifs
    · have hitems := statementLevels_le_depth f items w
      rw [Expr.depth]
      omega
    · exact levels_le_depth f false (.block items span) w
  | _ => exact levels_le_depth f false _ w

/-! ### Other forms -/

section Savings

variable (operands : Bool)

mutual

theorem levels_most_le (tested : Bool) : (e : Expr) → (w : World) →
    levels .most tested e w ≤ levels (.least operands) tested e w +
      (e.savings operands + if tested then e.spared operands else 0)
  | .literal .., w | .ident .., w => by
    rw [levels, levels]
    exact Nat.le_add_right ..
  | .unary _ e _, w | .assign _ e _, w => by
    have he := levels_most_le false e w
    simp only [levels, Expr.savings, Bool.false_eq_true, if_false] at he ⊢
    omega
  | .compare op left right span, w => by
    have hleft := levels_most_le false left w
    have hright : after (fun _ w' ↦ levels .most false right w') (expr left w) ≤
        after (fun _ w' ↦ levels (.least operands) false right w') (expr left w) +
          (right.savings operands + 0) :=
      after_le_add (fun _ w' ↦ levels_most_le false right w') _
    have hconstant : after (fun _ w' ↦ levels .most false right w') (expr left w) ≤ right.depth :=
      after_le (fun _ w' ↦ levels_le_depth .most false right w') _
    have hpos := levels_pos (.least operands) w false left
    have hdepth := right.depth_pos
    have hmost : levels .most tested (.compare op left right span) w =
        levels .most false (.compare op left right span) w := by
      cases tested
      · rfl
      · exact levels_tested _ _ (Or.inl rfl)
    rw [hmost, levels_compare, levels, Expr.savings, Expr.spared]
    simp only [Bool.false_eq_true, if_false] at hleft
    cases hreads : operands && (Expr.compare op left right span).constantTested?.isSome <;>
      cases tested <;>
        simp only [Forms.least, Bool.true_and, Bool.false_and, hreads, Bool.false_eq_true,
          if_true, if_false] at hleft hright hpos ⊢ <;>
        omega
  | .call name args span, w => by
    have hargs : after (fun _ w' ↦ levelsEach .most args w') (lookupCallee span name w) ≤
        after (fun _ w' ↦ levelsEach (.least operands) args w') (lookupCallee span name w) +
          Expr.savingsEach operands args :=
      after_le_add (fun _ w' ↦ levelsEach_most_le args w') _
    rw [levels, levels, Expr.savings]
    omega
  | .ifThen c t _, w => by
    have hc := levels_most_le true c w
    have hbranch : after (fun l w' ↦ branchLevels (levels .most false t w') 1 l) (test c w) ≤
        after (fun l w' ↦ branchLevels (levels (.least operands) false t w') 1 l) (test c w) +
          t.savings operands :=
      after_le_add (fun l w' ↦
        branchLevels_le_add l (levels_most_le false t w') (Nat.le_add_right ..)) _
    simp only [if_true] at hc
    rw [levels, levels, Expr.savings]
    omega
  | .ifElse c t e _, w => by
    have hc := levels_most_le true c w
    have hbranch : after (fun l w' ↦ branchLevels (levels .most false t w')
          (levels .most false e w') l) (test c w) ≤
        after (fun l w' ↦ branchLevels (levels (.least operands) false t w')
          (levels (.least operands) false e w') l) (test c w) +
          (t.savings operands + e.savings operands) :=
      after_le_add (fun l w' ↦ branchLevels_le_add l
        (Nat.le_trans (levels_most_le false t w') (by simp))
        (Nat.le_trans (levels_most_le false e w') (by simp))) _
    simp only [if_true] at hc
    rw [levels, levels, Expr.savings]
    omega
  | .block items _, w => by
    have hitems := levelsEach_most_le items w
    rw [levels, levels, Expr.savings]
    omega

theorem levelsEach_most_le : (items : List Expr) → (w : World) → levelsEach .most items w ≤
    levelsEach (.least operands) items w + Expr.savingsEach operands items
  | [], w => by
    rw [levelsEach]
    exact Nat.zero_le _
  | e :: rest, w => by
    have hfirst := levels_most_le false e w
    have hrest : after (fun _ w' ↦ levelsEach .most rest w') (expr e w) ≤
        after (fun _ w' ↦ levelsEach (.least operands) rest w') (expr e w) +
          Expr.savingsEach operands rest :=
      after_le_add (fun _ w' ↦ levelsEach_most_le rest w') _
    simp only [Bool.false_eq_true, if_false] at hfirst
    rw [levelsEach, levelsEach, Expr.savingsEach]
    omega

end

variable {e : Expr} {t : Expr.ReturnTail} {rest rest' : World → Nat} {n : Nat}

theorem bodyLevels_most_le (items : List Expr) (w : World) : bodyLevels .most items w ≤
    bodyLevels (.least operands) items w + Expr.savingsEach operands items := by
  cases items with
  | nil => exact Nat.zero_le _
  | cons first others =>
    have hitems := levelsEach_most_le operands (first :: others) w
    rw [bodyLevels, bodyLevels]
    omega

/-- Only the call of `return` may be left out on top. -/
theorem endLevels_most_le (hrest : ∀ w, rest w ≤ rest' w + n) (t : Expr.ReturnTail) (w : World) :
    endLevels .most t rest w ≤
      endLevels (.least operands) t rest' w + (t.arg.savings operands + n + 1) := by
  have harg := levels_most_le operands false t.arg w
  simp only [Bool.false_eq_true, if_false] at harg
  cases hbound : w.frame.contains "return" with
  | false =>
    have hleast : endLevels (.least operands) t rest' w =
        levels (.least operands) false t.arg w := by
      simp [endLevels, Forms.least, hbound]
    rw [endLevels_most, callLevels_unbound _ hbound, hleast]
    omega
  | true =>
    have hleast : endLevels (.least operands) t rest' w =
        callLevels (.least operands) t rest' w := by
      simp [endLevels, hbound]
    have hcall := levels_most_le operands false (.call "return" [t.arg] t.callSpan) w
    have hafter : after (fun _ w' ↦ rest w') (expr (.call "return" [t.arg] t.callSpan) w) ≤
        after (fun _ w' ↦ rest' w') (expr (.call "return" [t.arg] t.callSpan) w) + n :=
      after_le_add (fun _ w' ↦ hrest w') _
    simp only [Expr.savings, Expr.savingsEach, Bool.false_eq_true, if_false] at hcall
    rw [endLevels_most, hleast, callLevels, callLevels]
    omega

theorem tailLevels_most_le (hrest : ∀ w, rest w ≤ rest' w + n) (t : Expr.ReturnTail)
    (l : Logical) (w : World) : tailLevels .most t rest l w ≤
      tailLevels (.least operands) t rest' l w +
        (Expr.savingsEach operands t.body + t.arg.savings operands + n + 1) := by
  have hbody := bodyLevels_most_le operands t.body w
  have hend : after (fun _ w' ↦ endLevels .most t rest w') (body t.body w) ≤
      after (fun _ w' ↦ endLevels (.least operands) t rest' w') (body t.body w) +
        (t.arg.savings operands + n + 1) :=
    after_le_add (fun _ w' ↦ endLevels_most_le operands hrest t w') _
  have hbehind := hrest w
  exact branchLevels_le_add l (by omega) (by omega)

theorem statementLevels_most_le (items : List Expr) (w : World) : statementLevels .most items w ≤
    statementLevels (.least operands) items w +
      (Expr.savingsEach operands items + items.countP (·.returnTail?.isSome)) := by
  induction items generalizing w with
  | nil =>
    rw [statementLevels]
    exact Nat.zero_le _
  | cons e rest ih =>
    rw [statementLevels, statementLevels, Expr.savingsEach, List.countP_cons]
    cases htail : e.returnTail? with
    | some t =>
      have hcond := levels_most_le operands false t.cond w
      have hparts := Expr.savings_of_returnTail? operands htail
      have hrest (w : World) : statementLevels .most rest w + 1 ≤
          statementLevels (.least operands) rest w + 1 +
            (Expr.savingsEach operands rest + rest.countP (·.returnTail?.isSome)) := by
        have h := ih w
        omega
      have hafter := after_le_add (tailLevels_most_le operands hrest t) (test t.cond w)
      simp only [Option.isSome_some, if_true, Bool.false_eq_true, if_false] at hcond ⊢
      omega
    | none =>
      have hfirst := levels_most_le operands false e w
      have hafter : after (fun _ w' ↦ statementLevels .most rest w') (expr e w) ≤
          after (fun _ w' ↦ statementLevels (.least operands) rest w') (expr e w) +
            (Expr.savingsEach operands rest + rest.countP (·.returnTail?.isSome)) :=
        after_le_add (fun _ w' ↦ ih w') _
      simp only [Option.isSome_none, Bool.false_eq_true, if_false] at hfirst ⊢
      omega

/-- The forms of the conditionals of a program do not make more of a difference. -/
theorem programLevels_most_le (options : CompilationOptions) (source : Expr) (w : World) :
    programLevels .most options source w ≤
      programLevels (.least options.constantComparisons) options source w +
        options.savings source := by
  have hexpr (e : Expr) : levels .most false e w ≤
      levels (.least options.constantComparisons) false e w + options.savings e := by
    have he := levels_most_le options.constantComparisons false e w
    rw [CompilationOptions.savings]
    simp only [Bool.false_eq_true, if_false] at he
    omega
  cases source with
  | block items span =>
    rw [programLevels, programLevels]
    split_ifs with hon
    · have hitems := statementLevels_most_le options.constantComparisons items w
      rw [CompilationOptions.savings, CompilationOptions.tails, if_pos hon, Expr.savings]
      omega
    · exact hexpr (.block items span)
  | _ => exact hexpr _

end Savings

end Reference

end AdaptiveTree
