import AdaptiveTree.Proofs.Depth.Branches
import AdaptiveTree.Proofs.Simulation.Conditional

/-!
The levels of a conditional, in whatever form. A form that reads an operand saves the level of the
comparison as long as a comparator answers, and at most the constant is evaluated beside the
operand where none does.
-/

set_option autoImplicit false
set_option relaxedAutoImplicit false

namespace AdaptiveTree

open Machine (Later)

namespace Reference

/-- A test may leave out a comparison. -/
theorem levels_tested_le (f : Forms) (e : Expr) (w : World) :
    levels f true e w ≤ levels f false e w := by
  cases e with
  | compare op left right span =>
    rw [levels_compare, levels]
    split
    · exact Nat.le_succ_of_le (Nat.le_max_left ..)
    · exact Nat.le_refl _
  | _ => simp only [levels, Nat.le_refl]

/-- The operand of a comparison with a constant, then the constant unless it is left out, and then
what the truth of the comparison leads to. -/
def operandLevels (f : Forms) (left right : Expr) (compared : Value → Run Logical)
    (next : Logical → World → Nat) (w : World) : Nat :=
  max (levels f false left w)
    (after (fun v w' ↦ max (if f.operandOnly then 0 else levels f false right w')
      (after next (compared v w'))) (expr left w))

section Operand

variable {left right : Expr} {op : CompareOp} {span : Span} {compared : Value → Run Logical}
  (htest : test (.compare op left right span) = expr left >>= compared)
  (next : Logical → World → Nat) (w : World)

include htest

theorem operandLevels_most :
    operandLevels .most left right compared next w ≤
      max (levels .most true (.compare op left right span) w)
        (after next (test (.compare op left right span) w)) := by
  rw [levels_tested _ _ (Or.inl rfl), levels_compare, htest, after_bind]
  unfold operandLevels
  rw [after_max]
  simp only [Forms.most, Bool.false_eq_true, if_false]
  omega

theorem operandLevels_least
    (hconstant : (Expr.compare op left right span).constantTested?.isSome) :
    operandLevels (.least true) left right compared next w =
      max (levels (.least true) true (.compare op left right span) w)
        (after next (test (.compare op left right span) w)) := by
  rw [levels, hconstant, htest, after_bind]
  simp [operandLevels, Forms.least]

end Operand

end Reference

namespace Eval

variable {operands : Bool} {calls : NodeId → Span} {busy : NodeId → Prop} {limit : Nat}
  {exec : Evaluator} {m : Machine} {id x : NodeId} {n : Node} {part : Part} {form : Conditional}
  {c : Expr} {k : Scalar} {next : Logical → World → Forms → Nat}

section Resuming

variable (hbranch : GaugesBranch operands calls limit exec part next) (hlimit : 0 < limit)
  (hpoised : Poised operands calls busy m) (hcondition : part.condition? = some c)

include hbranch hlimit hpoised hcondition

theorem gauged_resume (hshows : Shows calls busy m.tree id part) (hwhole : m.tree.ReadsWhole id)
    (rounds : Nat) {observed : Value} (hadmits : Reference.Admits c observed) :
    Gauged operands limit
      (fun g ↦ Reference.after (fun l w ↦ next l w g) (Reference.truth c.span observed m.world))
      (resume exec (rounds + 1) id observed m) := by
  obtain ⟨t', step, target, hlater, hstep, htarget, hresume⟩ :=
    exists_resumed hpoised.ready hshows hcondition hwhole rounds hadmits
  have hpoised' := hpoised.later hlater
  rw [hresume]
  exact .behind (follows_convertObserved hpoised'.ready hstep observed)
    (.convertObserved step observed) fun l m₁ hlater₁ _ ↦
      hbranch l hlimit (hpoised'.later hlater₁) (htarget.later hpoised'.ready hlater₁)

variable (hexec : Simulates calls exec) (hgauge : Gauges operands calls limit exec)

include hexec hgauge

/-- The general comparison, which evaluates the constant. -/
theorem gauged_finishComparison {left right : Expr} {span : Span}
    (hc : c = .compare .eq left right span) (hright : Reference.expr right = pure (.scalar k))
    (hshows : Shows calls busy m.tree x part) (hnode : m.tree.node? x = some n)
    (hkind : n.kind = .cond form) (hreads : form.readsOperand = false)
    (hcond : Shows calls busy m.tree form.cond (.value c)) (rounds : Nat) (v : Value) :
    Gauged operands limit
      (fun g ↦ max (Reference.levels g false right m.world)
        (Reference.after (fun l w ↦ next l w g)
          (Reference.truth c.span (v.compareWith .eq (.scalar k)) m.world)))
      (finishComparison exec (resume exec (rounds + 1)) x v m) := by
  subst hc
  have hready := hpoised.ready
  obtain ⟨r, finish, hr, hcomparison, hfinish⟩ :=
    finishComparison_eq exec hready hnode hkind hcond (resume exec (rounds + 1)) v
  have hwhole : m.tree.ReadsWhole x :=
    ⟨x, n, form, Tree.resolve_of_node? hnode, hnode, hkind, hreads⟩
  have hafter (g : Forms) : Reference.after (fun l w ↦ next l w g)
      (Reference.truth span (v.compareWith .eq (.scalar k)) m.world) =
      Reference.after (fun constant w ↦ Reference.after (fun l w' ↦ next l w' g)
        (Reference.truth span (v.compareWith .eq constant) w)) (Reference.expr right m.world) := by
    rw [hright]
    rfl
  show Gauged operands limit (fun g ↦ max _ (Reference.after _ (Reference.truth span _ _))) _
  simp only [hcomparison, hafter]
  refine .bind (hexec.value hready hr) (hgauge.value hpoised hr) fun constant m₁ hlater _ _ ↦ ?_
  have hpoised₁ := hpoised.later hlater
  have hshows₁ := hshows.later hready hlater
  have hadmits : Reference.Admits (.compare .eq left right span) (v.compareWith .eq constant) :=
    fun _ ↦ Reference.ofValue_compareWith ..
  rcases hfinish constant with ⟨truth, hcompare, heq⟩ | heq
  · rw [heq, hcompare]
    exact hbranch truth hlimit hpoised₁ hshows₁
  · rw [heq]
    exact gauged_resume hbranch hlimit hpoised₁ hcondition hshows₁
      (hlater.adapts.readsWhole hready.sound.forest hwhole) rounds hadmits

/-- Going on with the operand, in a form that reads no more than that. -/
theorem gauged_operated {left right : Expr} {span : Span}
    (hc : c = .compare .eq left right span) (hright : Reference.expr right = pure (.scalar k))
    {v : Value} {rounds : Nat} {result : EStateM.Result Exit Machine Value}
    (hoperated : Operated calls busy exec m part c k v rounds result) (hon : operands = true) :
    Gauged operands limit
      (fun g ↦ max (if g.operandOnly then 0 else Reference.levels g false right m.world)
        (Reference.after (fun l w ↦ next l w g)
          (Reference.truth c.span (v.compareWith .eq (.scalar k)) m.world))) result := by
  subst hon
  cases hoperated with
  | @answered t' target l hlater hshows' hanswer =>
    rw [hanswer]
    exact (hbranch l hlimit (hpoised.later hlater) hshows').weaken
      (Nat.le_of_eq (Nat.zero_max _)) (Nat.le_max_right ..)
  | demoted hlater hshows' hnode hkind hreads hcond =>
    refine (gauged_finishComparison hbranch hlimit (hpoised.later hlater) hcondition hexec hgauge
      hc hright hshows' hnode hkind hreads hcond rounds v).weaken ?_ (Nat.le_refl _)
    exact Nat.max_le.mpr ⟨Nat.zero_le _, Nat.le_max_right ..⟩

end Resuming

section Forms

variable (hexec : Simulates calls exec) (hgauge : Gauges operands calls limit exec)
  (hbranch : GaugesBranch operands calls limit exec part next)
  (hpoised : Poised operands calls busy m) (hshows : Shows calls busy m.tree x part)
  (hcondition : part.condition? = some c) (hnode : m.tree.node? x = some n)
  (hkind : n.kind = .cond form)

include hexec hgauge hbranch hpoised hshows hcondition hnode hkind

theorem gauged_conditional_whole (hreads : form.readsOperand = false) :
    Gauged operands limit
      (fun g ↦ max (Reference.levels g false c m.world)
        (Reference.after (fun l w ↦ next l w g) (Reference.test c m.world)))
      (conditional exec x form m) := by
  have hready := hpoised.ready
  have hcond := ((hshows.condition hready.sound.forest hnode hkind hcondition).1 hreads).outside
  have hwhole : m.tree.ReadsWhole x :=
    ⟨x, n, form, Tree.resolve_of_node? hnode, hnode, hkind, hreads⟩
  have hhit (l : Logical) {m₁ : Machine} (hlater : Later calls busy m m₁)
      (hfits : Reference.levels (.least operands) false c m.world ≤ limit) :
      Gauged operands limit (next l m₁.world) (takeBranch exec x l m₁) :=
    hbranch l (Nat.lt_of_lt_of_le (Reference.levels_pos _ _ _ c) hfits) (hpoised.later hlater)
      (hshows.later hready hlater)
  have hmiss (v : Value) {m₁ : Machine} (hlater : Later calls busy m m₁)
      (hadmits : Reference.Admits c v)
      (hfits : Reference.levels (.least operands) false c m.world ≤ limit) :
      Gauged operands limit
        (fun g ↦ Reference.after (fun l w ↦ next l w g) (Reference.truth c.span v m₁.world))
        (settle exec x v m₁) :=
    gauged_resume hbranch (Nat.lt_of_lt_of_le (Reference.levels_pos _ _ _ c) hfits)
      (hpoised.later hlater) hcondition (hshows.later hready hlater)
      (hlater.adapts.readsWhole hready.sound.forest hwhole) _ hadmits
  cases form with
  | const | specialized => simp [Conditional.readsOperand] at hreads
  | generic =>
    exact .bind_sensed (follows_scalarLogical hexec hready hcond)
      (gauged_scalarLogical hgauge hpoised hcond) (fun l _ hlater hfits ↦ hhit l hlater hfits)
      fun v _ hlater hadmits hfits ↦ hmiss v hlater hadmits hfits
  | noElse | twoBranch | returnBuiltin | returnOverridden =>
    exact .bind_sensed (follows_presentLogical hexec hready hcond)
      (gauged_presentLogical hgauge hpoised hcond)
      (fun truth _ hlater hfits ↦ hhit (.ofBool truth) hlater hfits)
      fun v _ hlater hadmits hfits ↦ hmiss v hlater hadmits hfits

theorem gauged_conditional_operand (hreads : form.readsOperand = true) :
    Gauged operands limit
      (fun g ↦ max (Reference.levels g true c m.world)
        (Reference.after (fun l w ↦ next l w g) (Reference.test c m.world)))
      (conditional exec x form m) := by
  have hready := hpoised.ready
  have hinside : ∀ y, busy y → Shows.inside busy x y := fun _ hy ↦ Or.inl hy
  have hon := hpoised.operands_eq hshows hnode hkind hreads
  obtain ⟨left, right, span, k, l, finish, hc, hconstant, hl, hconditional, hoperated⟩ :=
    exists_operated hready hshows hcondition hnode hkind exec hreads
  obtain ⟨_, _, _, hc', hright, htest⟩ := Reference.test_of_constant hconstant
  obtain ⟨-, rfl, rfl, rfl⟩ := Expr.compare.inj (hc.symm.trans hc')
  have hgauged : Gauged operands limit
      (fun g ↦ Reference.operandLevels g left right
        (fun v ↦ Reference.truth c.span (v.compareWith .eq (.scalar k))) (fun l w ↦ next l w g)
        m.world) (conditional exec x form m) := by
    rw [hconditional]
    refine .bind (hexec.value (hready.inside hnode) hl) (hgauge.value (hpoised.inside hnode) hl)
      fun v m₁ hinner _ hfits ↦ ?_
    obtain ⟨rounds, hoperated⟩ := hoperated v m₁ hinner
    exact gauged_operated hbranch (Nat.lt_of_lt_of_le (Reference.levels_pos _ _ _ left) hfits)
      (hpoised.later (hinner.mono hinside)) hcondition hexec hgauge hc hright hoperated hon
  subst hc hon
  exact hgauged.weaken
    (Nat.le_of_eq (Reference.operandLevels_least htest _ _ (by rw [hconstant]; rfl)).symm)
    (Reference.operandLevels_most htest _ _)

/-- A conditional in any form, where its condition is counted as one that is tested. -/
theorem gauged_conditional :
    Gauged operands limit
      (fun g ↦ max (Reference.levels g true c m.world)
        (Reference.after (fun l w ↦ next l w g) (Reference.test c m.world)))
      (conditional exec x form m) := by
  cases hreads : form.readsOperand with
  | false =>
    refine (gauged_conditional_whole hexec hgauge hbranch hpoised hshows hcondition hnode hkind
      hreads).weaken ?_ ?_
    · have hless := Reference.levels_tested_le (.least operands) c m.world
      exact Nat.max_le.mpr ⟨Nat.le_trans hless (Nat.le_max_left ..), Nat.le_max_right ..⟩
    · exact Nat.le_of_eq (by rw [Reference.levels_tested _ _ (Or.inl rfl)])
  | true =>
    exact gauged_conditional_operand hexec hgauge hbranch hpoised hshows hcondition hnode hkind
      hreads

end Forms

end Eval

end AdaptiveTree
