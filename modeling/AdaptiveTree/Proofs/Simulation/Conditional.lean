import AdaptiveTree.Proofs.Simulation.Comparison

/-!
A conditional in any form, from its condition to the end of its branch. The form decides what is
evaluated of the condition and what is adapted on the way, and nothing else.
-/

set_option autoImplicit false
set_option relaxedAutoImplicit false

namespace AdaptiveTree.Eval

open Machine (Later)

variable {calls : NodeId → Span} {busy : NodeId → Prop} {exec : Evaluator} {m : Machine}
  {x : NodeId} {n : Node} {part : Part} {form : Conditional} {c : Expr}
  {agrees : EStateM.Result Halt World Value → Value → World → Prop}
  {goOn : Logical → Reference.Run Value}

theorem settle_eq (v : Value) :
    settle exec x v m = resume exec (m.watch.pending + 2) x v m :=
  rfl

section

variable (hexec : Simulates calls exec) (hbranch : Branching calls exec part agrees goOn)
  (hready : Ready calls busy m) (hshows : Shows calls busy m.tree x part)
  (hcondition : part.condition? = some c) (hnode : m.tree.node? x = some n)
  (hkind : n.kind = .cond form)

include hready hshows hcondition hnode hkind

include hexec hbranch in
theorem follows_conditional_whole (hreads : form.readsOperand = false) :
    Follows calls busy agrees m ((Reference.test c >>= goOn) m.world)
      (conditional exec x form m) := by
  have hcond := ((hshows.condition hready.sound.forest hnode hkind hcondition).1 hreads).outside
  have hwhole : m.tree.ReadsWhole x :=
    ⟨x, n, form, Tree.resolve_of_node? hnode, hnode, hkind, hreads⟩
  have hhit (l : Logical) {m₁ : Machine} (hlater : Later calls busy m m₁) :
      Follows calls busy agrees m₁ (goOn l m₁.world) (takeBranch exec x l m₁) :=
    hbranch l (hready.later hlater) (hshows.later hready hlater)
  have hmiss (v : Value) {m₁ : Machine} (hlater : Later calls busy m m₁)
      (hadmits : Reference.Admits c v) :
      Follows calls busy agrees m₁ ((Reference.truth c.span v >>= goOn) m₁.world)
        (settle exec x v m₁) :=
    follows_resume hbranch (hready.later hlater) (hshows.later hready hlater) hcondition
      (hlater.adapts.readsWhole hready.sound.forest hwhole) _ hadmits
  cases form with
  | const | specialized => simp [Conditional.readsOperand] at hreads
  | generic =>
    exact .bind_sensed (follows_scalarLogical hexec hready hcond)
      (fun l _ hlater ↦ hhit l hlater) fun v _ hlater hadmits ↦ hmiss v hlater hadmits
  | noElse | twoBranch | returnBuiltin | returnOverridden =>
    exact .bind_sensed (follows_presentLogical hexec hready hcond)
      (fun truth _ hlater ↦ hhit (.ofBool truth) hlater)
      fun v _ hlater hadmits ↦ hmiss v hlater hadmits

omit hshows hcondition in
/-- A form that reads only an operand is still there when the operand has been evaluated. -/
theorem exists_operand_form (hreads : form.readsOperand = true) {m₁ : Machine}
    (hinner : Later calls (Shows.inside busy x) m m₁) :
    ∃ n₁ form₁, m₁.tree.node? x = some n₁ ∧ n₁.kind = .cond form₁ ∧
      form₁.readsOperand = true := by
  have hplain : ∀ form', n.kind = .cond form' → form'.isTail = false := by
    intro form' hform'
    obtain rfl := NodeKind.cond.inj (hkind.symm.trans hform')
    cases form with
    | const | specialized => rfl
    | _ => simp [Conditional.readsOperand] at hreads
  obtain ⟨n₁, hnode₁, hshape, _⟩ :=
    hinner.adapts.kept hready.sound.forest hnode (Or.inr rfl) hplain
  obtain ⟨form₁, hkind₁, hsame⟩ := NodeKind.eq_cond_of_shape (hkind ▸ hshape)
  exact ⟨n₁, form₁, hnode₁, hkind₁, (hsame _ Conditional.readsOperand_withChildren).trans hreads⟩

/-- A form that reads only an operand evaluates it and goes on with it. -/
theorem exists_operated (exec : Evaluator) (hreads : form.readsOperand = true) :
    ∃ left right span k l finish, c = .compare .eq left right span ∧
      c.constantTested? = some k ∧ Shows calls (Shows.inside busy x) m.tree l (.value left) ∧
      conditional exec x form m = (exec l >>= finish) m ∧
      ∀ v m₁, Later calls (Shows.inside busy x) m m₁ →
        ∃ rounds, Operated calls busy exec m₁ part c k v rounds (finish v m₁) := by
  have hcond := (hshows.condition hready.sound.forest hnode hkind hcondition).2 hreads
  obtain ⟨parts, _, hfits, _⟩ := hshows.children_at hready.sound.forest hnode
  rw [hkind] at hfits
  have hlater' {m₁ : Machine} (hinner : Later calls (Shows.inside busy x) m m₁) :
      Later calls busy m m₁ := hinner.mono fun _ hy ↦ Or.inl hy
  have hsettled {k : Scalar} (hconstant : c.constantTested? = some k) (v : Value) {m₁ : Machine}
      (hinner : Later calls (Shows.inside busy x) m m₁) :
      ∃ rounds, Operated calls busy exec m₁ part c k v rounds (settle exec x v m₁) := by
    obtain ⟨n₁, form₁, hnode₁, hkind₁, hreads₁⟩ :=
      exists_operand_form hready hnode hkind hreads hinner
    exact ⟨_, operated_resume (hready.later (hlater' hinner))
      (hshows.later hready (hlater' hinner)) hcondition hnode₁ hkind₁ hreads₁ exec hconstant _ v⟩
  cases form with
  | const cond =>
    have hconstant := hfits.constantTested?_of_const hcondition
    obtain ⟨left, right, span, rfl, _⟩ := Reference.test_of_constant hconstant
    obtain ⟨l, r, hcomparison, hl, _⟩ := comparison_eq (hready.inside hnode) hcond
    exact ⟨left, right, span, _, l, settle exec x, rfl, hconstant, hl, bind_eq hcomparison,
      fun v m₁ hinner ↦ hsettled hconstant v hinner⟩
  | specialized cond _ _ comparator =>
    obtain ⟨k, seen, hconstant, hshapes⟩ := hfits.constantTested?_of_specialized hcondition
    obtain ⟨left, right, span, rfl, _⟩ := Reference.test_of_constant hconstant
    obtain ⟨l, r, hcomparison, hl, _⟩ := comparison_eq (hready.inside hnode) hcond
    refine ⟨left, right, span, k, l, compareSpecialized exec (settle exec) x comparator, rfl,
      hconstant, hl, bind_eq hcomparison, fun v m₁ hinner ↦ ?_⟩
    cases hanswer : comparator.answer? v with
    | some truth =>
      have hshows₁ := hshows.later hready (hlater' hinner)
      rw [compareSpecialized_of_answer hshows₁ hanswer]
      exact ⟨0, .answered (.refl hinner.sound) hshows₁
        (Comparator.compareWith_of_answer? hshapes hanswer)⟩
    | none =>
      unfold compareSpecialized Comparator.compare
      rw [hanswer]
      exact hsettled hconstant v hinner
  | _ => simp [Conditional.readsOperand] at hreads

include hexec hbranch in
theorem follows_conditional_operand (hreads : form.readsOperand = true) :
    Follows calls busy agrees m ((Reference.test c >>= goOn) m.world)
      (conditional exec x form m) := by
  have hinside : ∀ y, busy y → Shows.inside busy x y := fun _ hy ↦ Or.inl hy
  obtain ⟨left, right, span, k, l, finish, hc, hconstant, hl, hconditional, hoperated⟩ :=
    exists_operated hready hshows hcondition hnode hkind exec hreads
  obtain ⟨_, _, _, hc', _, htest⟩ := Reference.test_of_constant hconstant
  obtain ⟨-, rfl, rfl, rfl⟩ := Expr.compare.inj (hc.symm.trans hc')
  rw [hconditional, htest, bind_assoc]
  refine .bind_inside hinside (hexec.value (hready.inside hnode) hl) fun v m₁ hinner _ ↦ ?_
  obtain ⟨rounds, hoperated⟩ := hoperated v m₁ hinner
  exact follows_operated hexec hbranch (hready.later (hinner.mono hinside)) hcondition hconstant
    hoperated

include hexec hbranch in
theorem follows_conditional :
    Follows calls busy agrees m ((Reference.test c >>= goOn) m.world)
      (conditional exec x form m) := by
  cases hreads : form.readsOperand with
  | false =>
    exact follows_conditional_whole hexec hbranch hready hshows hcondition hnode hkind hreads
  | true =>
    exact follows_conditional_operand hexec hbranch hready hshows hcondition hnode hkind hreads

end

end AdaptiveTree.Eval
