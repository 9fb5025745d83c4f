import AdaptiveTree.Proofs.Simulation.Resume

/-!
Conditionals that test equality with a constant. They evaluate only the other operand and answer
by a comparator or, when it does not fit, by the general comparison; either way the branch is
the one that the reference takes.
-/

set_option autoImplicit false
set_option relaxedAutoImplicit false

namespace AdaptiveTree.Eval

open Machine (Later)

variable {calls : NodeId → Span} {busy : NodeId → Prop} {exec : Evaluator} {m : Machine}
  {id x : NodeId} {n : Node} {part : Part} {form : Conditional} {c : Expr} {k : Scalar}
  {v : Value}
  {agrees : EStateM.Result Halt World Value → Value → World → Prop}
  {goOn : Logical → Reference.Run Value}

/-- What the reference does after it has evaluated the operand that is compared. -/
def afterOperand (c : Expr) (k : Scalar) (goOn : Logical → Reference.Run Value) (v : Value) :
    Reference.Run Value :=
  Reference.truth c.span (v.compareWith .eq (.scalar k)) >>= goOn

theorem afterOperand_of_compareWith {l : Logical}
    (h : v.compareWith .eq (.scalar k) = .scalar (.logical l)) :
    afterOperand c k goOn v = goOn l := by
  have htruth : Reference.truth c.span (.scalar (.logical l)) = pure l := rfl
  rw [afterOperand, h, htruth, pure_bind]

/-- The operands of the comparison with a constant. -/
theorem comparison_eq (hready : Ready calls busy m) {left right : Expr} {span : Span}
    (hshows : Shows calls busy m.tree id (.value (.compare .eq left right span))) :
    ∃ l r, comparison id m = .ok (.eq, l, r) m ∧ Shows calls busy m.tree l (.value left) ∧
      Shows calls busy m.tree r (.value right) := by
  obtain ⟨x, n, parts, hresolve, hnode, _, hfits, hbelow⟩ := hshows.children hready.sound.forest
  have hinside : ∀ y, busy y → Shows.inside busy x y := fun _ hy ↦ Or.inl hy
  obtain ⟨l, r, hkind, hparts⟩ := hfits.eq_of_compare
  rw [hkind, hparts] at hbelow
  refine ⟨l, r, ?_, (hbelow (l, .value left) (by simp [NodeKind.children])).mono hinside,
    (hbelow (r, .value right) (by simp [NodeKind.children])).mono hinside⟩
  unfold comparison
  rw [bind_eq (ask_eq hresolve), bind_eq (ask_eq (Tree.kind_eq hnode)), hkind]
  rfl

/-! ### Answers -/

/-- A comparator that answers leads to the branch, also where the answer is missing. -/
theorem compareSpecialized_of_answer (hshows : Shows calls busy m.tree id part)
    {comparator : Comparator} {l : Logical} (hanswer : comparator.answer? v = some l)
    (onMiss : NodeId → Value → Eval Value) :
    compareSpecialized exec onMiss id comparator v m = takeBranch exec id l m := by
  unfold compareSpecialized Comparator.compare
  rw [hanswer]
  cases l with
  | no | yes => rfl
  | na =>
    obtain ⟨x, _, hresolve, _⟩ := hshows.exists_node?
    show (fail id .unexpectedNA : Eval Value) m = _
    rw [takeBranch_na hresolve, hshows.fail_eq, (hshows.resolved hresolve).fail_eq]

/-- The general comparison evaluates the constant. Then the branch is taken, unless the comparison
gives no truth value. -/
theorem finishComparison_eq (exec : Evaluator) (hready : Ready calls busy m)
    (hnode : m.tree.node? x = some n) (hkind : n.kind = .cond form) {left right : Expr}
    {span : Span}
    (hcond : Shows calls busy m.tree form.cond (.value (.compare .eq left right span)))
    (onMiss : NodeId → Value → Eval Value) (v : Value) :
    ∃ r finish, Shows calls busy m.tree r (.value right) ∧
      finishComparison exec onMiss x v m = (exec r >>= finish) m ∧
      ∀ constant,
        (∃ truth, v.compareWith .eq constant = .scalar (.logical truth) ∧
          finish constant = takeBranch exec x truth) ∨
        finish constant = onMiss x (v.compareWith .eq constant) := by
  obtain ⟨l, r, hcomparison, _, hr⟩ := comparison_eq hready hcond
  rw [finishComparison, bind_eq (ask_eq (Tree.kind_eq hnode)), hkind]
  refine ⟨r, _, hr, bind_eq hcomparison, fun constant ↦ ?_⟩
  cases v.compareWith .eq constant with
  | scalar s =>
    cases s with
    | logical truth => exact .inl ⟨truth, rfl, rfl⟩
    | int | double => exact .inr rfl
  | null | logicals | ints | doubles => exact .inr rfl

/-- The general comparison, in a conditional that reads its condition as a whole. -/
theorem follows_finishComparison (hexec : Simulates calls exec)
    (hbranch : Branching calls exec part agrees goOn)
    (hready : Ready calls busy m) (hshows : Shows calls busy m.tree x part)
    (hcondition : part.condition? = some c) (hconstant : c.constantTested? = some k)
    (hnode : m.tree.node? x = some n) (hkind : n.kind = .cond form)
    (hreads : form.readsOperand = false) (hcond : Shows calls busy m.tree form.cond (.value c))
    (rounds : Nat) (v : Value) :
    Follows calls busy agrees m (afterOperand c k goOn v m.world)
      (finishComparison exec (resume exec (rounds + 1)) x v m) := by
  obtain ⟨left, right, span, rfl, hright, _⟩ := Reference.test_of_constant hconstant
  obtain ⟨r, finish, hr, hcomparison, hfinish⟩ :=
    finishComparison_eq exec hready hnode hkind hcond (resume exec (rounds + 1)) v
  have hwhole : m.tree.ReadsWhole x :=
    ⟨x, n, form, Tree.resolve_of_node? hnode, hnode, hkind, hreads⟩
  have href : afterOperand (.compare .eq left right span) k goOn v m.world =
      (Reference.expr right >>= fun constant ↦
        Reference.truth span (v.compareWith .eq constant) >>= goOn) m.world := by
    rw [hright, pure_bind]
    rfl
  rw [href, hcomparison]
  refine .bind (hexec.value hready hr) fun constant m₁ hlater _ ↦ ?_
  have hready₁ := hready.later hlater
  have hshows₁ := hshows.later hready hlater
  rcases hfinish constant with ⟨truth, hcompare, heq⟩ | heq
  · have htruth : Reference.truth span (.scalar (.logical truth)) = pure truth := rfl
    rw [heq, hcompare, htruth, pure_bind]
    exact hbranch truth hready₁ hshows₁
  · rw [heq]
    exact follows_resume hbranch hready₁ hshows₁ hcondition
      (hlater.adapts.readsWhole hready.sound.forest hwhole) rounds
      fun _ ↦ Reference.ofValue_compareWith ..

/-! ### Giving up or choosing a comparator -/

/-- How the evaluation of a conditional goes on with the operand of its comparison: the tree is
adapted, and then the branch is taken or the general comparison is made in a form for it. -/
inductive Operated (calls : NodeId → Span) (busy : NodeId → Prop) (exec : Evaluator) (m : Machine)
    (part : Part) (c : Expr) (k : Scalar) (v : Value) (rounds : Nat) :
    EStateM.Result Exit Machine Value → Prop
  | answered {t' : Tree} {target : NodeId} {l : Logical}
      (hlater : Later calls busy m { m with tree := t' }) (hshows : Shows calls busy t' target part)
      (hanswer : v.compareWith .eq (.scalar k) = .scalar (.logical l)) :
    Operated calls busy exec m part c k v rounds (takeBranch exec target l { m with tree := t' })
  | demoted {t' : Tree} {target : NodeId} {n : Node} {form : Conditional}
      (hlater : Later calls busy m { m with tree := t' }) (hshows : Shows calls busy t' target part)
      (hnode : t'.node? target = some n) (hkind : n.kind = .cond form)
      (hreads : form.readsOperand = false) (hcond : Shows calls busy t' form.cond (.value c)) :
    Operated calls busy exec m part c k v rounds
      (finishComparison exec (resume exec (rounds + 1)) target v { m with tree := t' })

section Operand

variable (hready : Ready calls busy m) (hshows : Shows calls busy m.tree x part)
  (hcondition : part.condition? = some c) (hnode : m.tree.node? x = some n)
  (hkind : n.kind = .cond form) (hreads : form.readsOperand = true)

include hready hshows hcondition hnode hkind hreads

theorem operated_demoted (exec : Evaluator) (k : Scalar) (rounds : Nat) (v : Value) :
    Operated calls busy exec m part c k v rounds
      ((edit (Edit.installGeneric x) >>= fun generic ↦
        finishComparison exec (resume exec (rounds + 1)) generic v) m) := by
  have hcond := ((hshows.condition hready.sound.forest hnode hkind hcondition).2 hreads).outside
  have hplain : n.kind.isBuiltinTail = false := by
    rw [hkind]
    cases form <;> first | rfl | simp [Conditional.readsOperand] at hreads
  obtain ⟨t', c', b, e, extra, hinstall, hreplaced, hrecast⟩ :=
    Edit.installGeneric_eq (calls x) hready.sound.forest hnode hkind (Or.inr hreads)
  have hlater := hready.replace hreplaced hrecast (hshows.not_occupied hnode) hplain
    (by simp [hkind])
  have hsame : c' = form.cond := by
    rw [hkind] at hrecast
    cases hrecast <;> rfl
  rw [bind_eq (edit_eq hinstall)]
  exact .demoted hlater (hshows.at_replacement hready hreplaced hrecast (by simp [hkind]))
    hreplaced.node?_new rfl rfl (hsame ▸ hcond.later hready hlater)

/-- Going on with the operand of a comparison. -/
theorem operated_resume (exec : Evaluator) (hconstant : c.constantTested? = some k)
    (rounds : Nat) (v : Value) :
    Operated calls busy exec m part c k v rounds (resume exec (rounds + 2) x v m) := by
  have hdemoted := operated_demoted hready hshows hcondition hnode hkind hreads exec k rounds v
  obtain ⟨kind, hcond⟩ := exists_kind_cond hready.sound.forest hnode hkind
  rw [resume_ask (Tree.resolve_of_node? hnode) hnode hkind hcond]
  cases form with
  | const c' b e k' =>
    obtain rfl : k' = k := by
      obtain ⟨parts, _, hfits, _⟩ := hshows.children_at hready.sound.forest hnode
      rw [hkind] at hfits
      exact Option.some.inj ((hfits.constantTested?_of_const hcondition).symm.trans hconstant)
    cases hshapes : Comparator.forShapes? v k' with
    | none =>
      have hplan : Transition.forConditional (.const c' b e k') (some kind) v = .demote := by
        simp [Transition.forConditional, hshapes]
      rw [hplan]
      exact hdemoted
    | some comparator =>
      have hplan : Transition.forConditional (.const c' b e k') (some kind) v =
          .specialize comparator := by
        simp [Transition.forConditional, hshapes]
      rw [hplan]
      obtain ⟨t', hinstall, hreplaced, hrecast⟩ :=
        Edit.installSpecialized_eq (calls x) hready.sound.forest hnode hkind hshapes
      have hlater := hready.replace hreplaced hrecast (hshows.not_occupied hnode)
        (by rw [hkind]; rfl) (by simp [hkind])
      have hshows' := hshows.at_replacement hready hreplaced hrecast (by simp [hkind])
      obtain ⟨l, hanswer⟩ := Comparator.exists_answer? hshapes
      show Operated _ _ _ _ _ _ _ _ _ ((edit (Edit.installSpecialized x comparator) >>= _) m)
      rw [bind_eq (edit_eq hinstall), compareSpecialized_of_answer hshows' hanswer]
      exact .answered hlater hshows' (Comparator.compareWith_of_answer? hshapes hanswer)
  | specialized => exact hdemoted
  | _ => simp [Conditional.readsOperand] at hreads

end Operand

theorem follows_operated (hexec : Simulates calls exec)
    (hbranch : Branching calls exec part agrees goOn) (hready : Ready calls busy m)
    (hcondition : part.condition? = some c) (hconstant : c.constantTested? = some k)
    {rounds : Nat} {result : EStateM.Result Exit Machine Value}
    (hoperated : Operated calls busy exec m part c k v rounds result) :
    Follows calls busy agrees m (afterOperand c k goOn v m.world) result := by
  cases hoperated with
  | answered hlater hshows hanswer =>
    rw [afterOperand_of_compareWith hanswer]
    exact (hbranch _ (hready.later hlater) hshows).after hlater
  | demoted hlater hshows hnode hkind hreads hcond =>
    exact (follows_finishComparison hexec hbranch (hready.later hlater) hshows hcondition
      hconstant hnode hkind hreads hcond rounds v).after hlater

end AdaptiveTree.Eval
