import AdaptiveTree.Proofs.Simulation.Branches

/-!
Going on after a miss. The adaptation does not show: whatever form a conditional gets, it goes on
with the value at hand as the reference does after it has evaluated the condition once. Two
rounds are enough for that.
-/

set_option autoImplicit false
set_option relaxedAutoImplicit false

namespace AdaptiveTree.Eval

open Machine (Later)

variable {calls : NodeId → Span} {busy : NodeId → Prop} {exec : Evaluator} {m : Machine}
  {id x : NodeId} {n : Node} {part : Part} {form : Conditional} {c : Expr}
  {agrees : EStateM.Result Halt World Value → Value → World → Prop}
  {goOn : Logical → Reference.Run Value}

/-- Taking the branch of a node that shows the part follows what the reference does when it knows
the truth of the condition. -/
def Branching (calls : NodeId → Span) (exec : Evaluator) (part : Part)
    (agrees : EStateM.Result Halt World Value → Value → World → Prop)
    (goOn : Logical → Reference.Run Value) : Prop :=
  ∀ {busy : NodeId → Prop} {m : Machine} {id : NodeId} (truth : Logical),
    Ready calls busy m → Shows calls busy m.tree id part →
    Follows calls busy agrees m (goOn truth m.world) (takeBranch exec id truth m)

/-! ### Forms that read their condition as a whole -/

/-- The step above a condition, put there if need be. -/
theorem ensureConversion_eq (hready : Ready calls busy m)
    (hshows : Shows calls busy m.tree x part) (hnode : m.tree.node? x = some n)
    (hkind : n.kind = .cond form) (hreads : form.readsOperand = false)
    (hcondition : part.condition? = some c) {k : NodeKind}
    (hcond : m.tree.kind form.cond = .ok k) {observed : Value}
    (hadmits : Reference.Admits c observed) :
    ∃ step t', ensureConversion x form.cond k observed m = .ok step { m with tree := t' } ∧
      Later calls busy m { m with tree := t' } ∧ Shows calls busy t' step (.test c) ∧
      ∃ n', t'.node? x = some n' ∧ n'.kind.shape = n.kind.shape := by
  have hforest := hready.sound.forest
  unfold ensureConversion
  by_cases hconversion : k.isConversion
  · rw [if_pos hconversion]
    exact ⟨form.cond, m.tree, rfl, .refl hready.sound,
      ((hshows.condition hforest hnode hkind hcondition).1 hreads).outside, n, hnode, rfl⟩
  · rw [if_neg hconversion]
    have hmem : form.cond ∈ n.kind.children := by
      rw [hkind]
      cases form <;> simp [NodeKind.children, Conditional.children, Conditional.cond]
    obtain ⟨child, t', hchild, hinstall, hwrapped⟩ :=
      Edit.installConversion_eq hforest hnode hmem (.ofValue observed)
    have hplain : child.kind.isConversion = false := by
      obtain rfl := Except.ok.inj ((Tree.kind_eq hchild).symm.trans hcond)
      exact Bool.eq_false_iff.mpr hconversion
    have hmode : child.kind.isCompare = true → ConvertMode.ofValue observed = .logical := by
      intro hcompare
      have hvalue := ((hshows.condition hforest hnode hkind hcondition).1 hreads).value
        (Tree.resolve_of_node? hchild) hchild hplain
      exact hadmits ((hvalue.isCompare_iff hchild).mp ⟨child, hchild, hcompare⟩)
    have hlater := hready.wrap hwrapped hkind hreads hplain (hshows.not_occupied hnode) hmode
    have hnode' := hwrapped.node?_parent
    obtain ⟨form', hform', hstep⟩ := NodeKind.exists_replaceChild_cond form m.tree.nextId
    have hkind' : n.kind.replaceChild form.cond m.tree.nextId = .cond form' := by
      rw [hkind]
      exact hform'
    have hreads' : form'.readsOperand = false := by
      have hshape := NodeKind.shape_replaceChild n.kind form.cond m.tree.nextId
      rw [hkind', hkind] at hshape
      obtain ⟨_, heq, hsame⟩ := NodeKind.eq_cond_of_shape hshape
      obtain rfl := NodeKind.cond.inj heq
      exact (hsame _ Conditional.readsOperand_withChildren).trans hreads
    have htest := ((hshows.later hready hlater).condition hlater.sound.forest hnode' hkind'
      hcondition).1 hreads'
    rw [hstep] at htest
    exact ⟨m.tree.nextId, t', edit_eq hinstall, hlater, htest.outside, _, hnode',
      NodeKind.shape_replaceChild _ _ _⟩

/-- What is done once there is a step above the condition: the value at hand is reduced at its
place, and the branch is taken at the conditional or at what has replaced it. -/
theorem follows_observed (hbranch : Branching calls exec part agrees goOn)
    (hready : Ready calls busy m) {step target : NodeId}
    (hstep : Shows calls busy m.tree step (.test c))
    (htarget : Shows calls busy m.tree target part) (observed : Value) :
    Follows calls busy agrees m ((Reference.truth c.span observed >>= goOn) m.world)
      ((convertObserved step observed >>= fun l ↦ takeBranch exec target l) m) :=
  .bind (follows_convertObserved hready hstep observed) fun l _ hlater _ ↦
    hbranch l (hready.later hlater) (htarget.later hready hlater)

/-- The adaptation is chosen by the form that the conditional has by then. -/
theorem resume_ask (hresolve : m.tree.resolve id = .ok x) (hnode : m.tree.node? x = some n)
    (hkind : n.kind = .cond form) {k : NodeKind} (hcond : m.tree.kind form.cond = .ok k)
    (rounds : Nat) (observed : Value) :
    resume exec (rounds + 1) id observed m =
      (match Transition.forConditional form (some k) observed with
      | .wrapCondition mode => do
        let step ← edit (Edit.installConversion x form.cond mode)
        takeBranch exec x (← convertObserved step observed)
      | .reuseConversion => do takeBranch exec x (← convertObserved form.cond observed)
      | .generalize => do
        let step ← ensureConversion x form.cond k observed
        let generic ← edit (Edit.installGeneric x)
        takeBranch exec generic (← convertObserved step observed)
      | .specialize k => do
        let new ← edit (Edit.installSpecialized x k)
        compareSpecialized exec (resume exec rounds) new k observed
      | .demote => do
        let generic ← edit (Edit.installGeneric x)
        finishComparison exec (resume exec rounds) generic observed
      | .widenConversion => unexpected x (.cond form) : Eval Value) m := by
  rw [resume, bind_eq (ask_eq hresolve), bind_eq (ask_eq (Tree.kind_eq hnode)), hkind]
  exact bind_eq (ask_eq hcond)

theorem resume_eq (hresolve : m.tree.resolve id = .ok x) (hnode : m.tree.node? x = some n)
    (hkind : n.kind = .cond form) {k : NodeKind} (hcond : m.tree.kind form.cond = .ok k)
    (hreads : form.readsOperand = false) (rounds : Nat) (observed : Value) :
    resume exec (rounds + 1) id observed m =
      (do
        let step ← ensureConversion x form.cond k observed
        let target ← if form.isRestricted then edit (Edit.installGeneric x) else pure x
        let l ← convertObserved step observed
        takeBranch exec target l : Eval Value) m := by
  rw [resume_ask hresolve hnode hkind hcond]
  have hforCondition : Transition.forCondition (some k) observed =
      if k.isConversion then .reuseConversion else .wrapCondition (.ofValue observed) := rfl
  unfold ensureConversion
  cases form with
  | const | specialized => simp [Conditional.readsOperand] at hreads
  | noElse | twoBranch => rfl
  | generic | returnBuiltin | returnOverridden =>
    show ((match Transition.forCondition (some k) observed with
      | .wrapCondition _ => _ | .reuseConversion => _ | .generalize => _ | .specialize _ => _
      | .demote => _ | .widenConversion => _) : Eval Value) m = _
    rw [hforCondition]
    by_cases hconversion : k.isConversion
    · rw [if_pos hconversion, if_pos hconversion]
      rfl
    · rw [if_neg hconversion, if_neg hconversion]
      rfl

theorem exists_kind_cond (hforest : m.tree.Forest) (hnode : m.tree.node? x = some n)
    (hkind : n.kind = .cond form) : ∃ k, m.tree.kind form.cond = .ok k := by
  have hmem : form.cond ∈ n.kind.children := by
    rw [hkind]
    cases form <;> simp [NodeKind.children, Conditional.children, Conditional.cond]
  obtain ⟨child, hchild, _⟩ := hforest.exists_child hnode hmem
  exact ⟨_, Tree.kind_eq hchild⟩

/-- Going on with a value that was observed where the condition was expected to be plain comes down
to reducing the value and taking the branch; only the tree is adapted before. -/
theorem exists_resumed (hready : Ready calls busy m) (hshows : Shows calls busy m.tree id part)
    (hcondition : part.condition? = some c) (hwhole : m.tree.ReadsWhole id) (rounds : Nat)
    {observed : Value} (hadmits : Reference.Admits c observed) :
    ∃ t' step target, Later calls busy m { m with tree := t' } ∧
      Shows calls busy t' step (.test c) ∧ Shows calls busy t' target part ∧
      resume exec (rounds + 1) id observed m =
        (convertObserved step observed >>= fun l ↦ takeBranch exec target l)
          { m with tree := t' } := by
  obtain ⟨x, n, form, hresolve, hnode, hkind, hreads⟩ := hwhole
  have hshows' := hshows.resolved hresolve
  obtain ⟨k, hcond⟩ := exists_kind_cond hready.sound.forest hnode hkind
  obtain ⟨step, t₁, hensure, hlater, hstep, n₁, hnode₁, hshape⟩ :=
    ensureConversion_eq hready hshows' hnode hkind hreads hcondition hcond hadmits
  have hready₁ := hready.later hlater
  have hshows₁ := hshows'.later hready hlater
  rw [resume_eq hresolve hnode hkind hcond hreads, bind_eq hensure]
  by_cases hrestricted : form.isRestricted
  · rw [if_pos hrestricted]
    obtain ⟨form₁, hkind₁, hsame⟩ := NodeKind.eq_cond_of_shape (hkind ▸ hshape)
    have hrestricted₁ := (hsame _ Conditional.isRestricted_withChildren).trans hrestricted
    have hplain₁ : n₁.kind.isBuiltinTail = false := by
      rw [hkind₁]
      cases form₁ <;> first | rfl | cases hrestricted₁
    obtain ⟨t₂, c', b, e, extra, hinstall, hreplaced, hrecast⟩ :=
      Edit.installGeneric_eq (calls x) hready₁.sound.forest hnode₁ hkind₁
        (Or.inl hrestricted₁)
    have hlater₂ := hready₁.replace hreplaced hrecast (hshows₁.not_occupied hnode₁) hplain₁
      (by simp [hkind₁])
    exact ⟨t₂, step, _, hlater.trans hlater₂, hstep.later hready₁ hlater₂,
      hshows₁.at_replacement hready₁ hreplaced hrecast (by simp [hkind₁]),
      bind_eq (edit_eq hinstall)⟩
  · rw [if_neg hrestricted, pure_bind]
    exact ⟨t₁, step, x, hlater, hstep, hshows₁, rfl⟩

theorem follows_resume (hbranch : Branching calls exec part agrees goOn)
    (hready : Ready calls busy m) (hshows : Shows calls busy m.tree id part)
    (hcondition : part.condition? = some c) (hwhole : m.tree.ReadsWhole id) (rounds : Nat)
    {observed : Value} (hadmits : Reference.Admits c observed) :
    Follows calls busy agrees m ((Reference.truth c.span observed >>= goOn) m.world)
      (resume exec (rounds + 1) id observed m) := by
  obtain ⟨t', step, target, hlater, hstep, htarget, hresume⟩ :=
    exists_resumed hready hshows hcondition hwhole rounds hadmits
  rw [hresume]
  exact (follows_observed hbranch (hready.later hlater) hstep htarget observed).after hlater

end AdaptiveTree.Eval
