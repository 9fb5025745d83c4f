import AdaptiveTree.Proofs.Simulation.Course

/-!
Evaluation with the loop of adaptations taken apart. One round adapts a conditional once and gives
what still misses to whatever comes next, so the loop is any number of rounds one inside the
other. What evaluation does to a machine is followed through one round, and from there through
all of evaluation.
-/

set_option autoImplicit false
set_option relaxedAutoImplicit false

namespace AdaptiveTree

namespace Transition

variable {form : Conditional} {cond : Option NodeKind} {v : Value}

theorem exists_shapes {k : Comparator} (h : forConditional form cond v = .specialize k) :
    ∃ constant, Comparator.forShapes? v constant = some k := by
  cases form with
  | generic | returnBuiltin | returnOverridden =>
    simp only [forConditional, forCondition] at h
    split_ifs at h
  | noElse | twoBranch | specialized => cases h
  | const _ _ _ constant =>
    simp only [forConditional] at h
    cases hshapes : Comparator.forShapes? v constant with
    | none =>
      rw [hshapes] at h
      cases h
    | some other =>
      rw [hshapes] at h
      obtain rfl := Transition.specialize.inj h
      exact ⟨constant, hshapes⟩

/-- Only a comparison with a constant is given up. -/
theorem readsOperand_of_demote (h : forConditional form cond v = .demote) :
    form.readsOperand = true := by
  cases form with
  | const | specialized => rfl
  | generic | returnBuiltin | returnOverridden =>
    simp only [forConditional, forCondition] at h
    split_ifs at h
  | noElse | twoBranch => cases h

end Transition

namespace Eval

/-- Adapts a conditional that missed and finishes its evaluation with the value observed; what
misses again is given to `onMiss`. -/
def adaptOnce (exec : Evaluator) (onMiss : NodeId → Value → Eval Value) (node : NodeId)
    (observed : Value) : Eval Value := do
  let id ← ask (·.resolve node)
  match ← ask (·.kind id) with
  | .cond form =>
    let kind ← ask (·.kind form.cond)
    match Transition.forConditional form (some kind) observed with
    | .wrapCondition mode =>
      let step ← edit (Edit.installConversion id form.cond mode)
      takeBranch exec id (← convertObserved step observed)
    | .reuseConversion => takeBranch exec id (← convertObserved form.cond observed)
    | .generalize =>
      let step ← ensureConversion id form.cond kind observed
      let generic ← edit (Edit.installGeneric id)
      takeBranch exec generic (← convertObserved step observed)
    | .specialize k =>
      let new ← edit (Edit.installSpecialized id k)
      compareSpecialized exec onMiss new k observed
    | .demote =>
      let generic ← edit (Edit.installGeneric id)
      finishComparison exec onMiss generic observed
    | .widenConversion => unexpected id (.cond form)
  | kind => unexpected id kind

/-- Evaluates a conditional; what misses is given to `onMiss`. -/
def conditionalWith (exec : Evaluator) (onMiss : NodeId → Value → Eval Value) (node : NodeId)
    (form : Conditional) : Eval Value := do
  match form with
  | .generic cond _ _ =>
    match ← scalarLogical exec cond with
    | .hit truth => takeBranch exec node truth
    | .miss v => onMiss node v
  | .noElse cond _ | .twoBranch cond _ _ | .returnBuiltin cond _ _ _
  | .returnOverridden cond _ _ _ =>
    match ← presentLogical exec cond with
    | .hit truth => takeBranch exec node (.ofBool truth)
    | .miss v => onMiss node v
  | .const cond _ _ _ =>
    let (_, operand, _) ← comparison cond
    onMiss node (← exec operand)
  | .specialized cond _ _ k =>
    let (_, operand, _) ← comparison cond
    compareSpecialized exec onMiss node k (← exec operand)

/-- Evaluates a node; what a conditional misses is given to `onMiss`. -/
def stepWith (exec : Evaluator) (onMiss : NodeId → Value → Eval Value) (node : NodeId) :
    Eval Value := do
  let id ← ask (·.resolve node)
  match ← ask (·.kind id) with
  | .cond form => conditionalWith exec onMiss id form
  | _ => step exec node

variable {exec exec' : Evaluator} {onMiss onMiss' : NodeId → Value → Eval Value} {m : Machine}

theorem resume_succ (exec : Evaluator) (rounds : Nat) :
    resume exec (rounds + 1) = adaptOnce exec (resume exec rounds) := rfl

theorem conditional_eq (exec : Evaluator) :
    conditional exec = conditionalWith exec (settle exec) := by
  funext node form
  cases form <;> rfl

theorem stepWith_settle (exec : Evaluator) : stepWith exec (settle exec) = step exec := by
  funext node m
  unfold stepWith
  cases hresolve : m.tree.resolve node with
  | error e =>
    have hask : ask (·.resolve node) m = .error (.raised (.brokenTree e) .origin) m :=
      ask_error_eq hresolve
    unfold step
    rw [bind_error_eq hask, bind_error_eq hask]
  | ok id =>
    obtain ⟨n, hnode⟩ := Tree.exists_node?_of_resolve hresolve
    rw [bind_eq (ask_eq hresolve), bind_eq (ask_eq (Tree.kind_eq hnode))]
    cases hkind : n.kind with
    | cond form =>
      unfold step
      rw [bind_eq (ask_eq hresolve), bind_eq (ask_eq (Tree.kind_eq hnode)), hkind,
        ← conditional_eq]
    | _ => rfl

/-! ### One round -/

section Round

variable {fits : Machine → Prop} {leads : Machine → Machine → Prop}
  (hcourse : Machine.Course fits leads)
  (hexec : ∀ id m, fits m → Agrees leads m (exec id) (exec' id))

include hcourse hexec

theorem agrees_compareSpecialized (node : NodeId) (k : Comparator) (operand : Value)
    (hm : fits m) (hmiss : k.answer? operand = none →
      Agrees leads m (onMiss node operand) (onMiss' node operand)) :
    Agrees leads m (compareSpecialized exec onMiss node k operand)
      (compareSpecialized exec' onMiss' node k operand) := by
  unfold compareSpecialized Comparator.compare
  cases hanswer : k.answer? operand with
  | none => exact hmiss hanswer
  | some truth =>
    cases truth with
    | na => exact agrees_fail hcourse hm node _
    | no | yes => exact agrees_takeBranch hcourse hexec node _ hm

theorem agrees_finishComparison (node : NodeId) (operand : Value) (hm : fits m)
    (hmiss : ∀ v m', leads m m' → fits m' → Agrees leads m' (onMiss node v) (onMiss' node v)) :
    Agrees leads m (finishComparison exec onMiss node operand)
      (finishComparison exec' onMiss' node operand) := by
  refine .ask hcourse hm fun kind _ ↦ ?_
  cases kind with
  | cond form =>
    have hparts := agrees_comparison hcourse hm form.cond
    refine hparts.bind hcourse hm fun parts m₁ hok₁ hm₁ ↦ ?_
    have hright := hexec parts.2.2 m₁ hm₁
    refine hright.bind hcourse hm₁ fun constant m₂ hok₂ hm₂ ↦ ?_
    have hleads : leads m m₂ := by
      have hleads₁ := hparts.leads
      have hleads₂ := hright.leads
      rw [hok₁] at hleads₁
      rw [hok₂] at hleads₂
      exact hcourse.trans hleads₁ hleads₂
    cases operand.compareWith parts.1 constant with
    | scalar s =>
      cases s with
      | logical truth => exact agrees_takeBranch hcourse hexec node truth hm₂
      | int | double => exact hmiss _ m₂ hleads hm₂
    | _ => exact hmiss _ m₂ hleads hm₂
  | _ => exact agrees_fail hcourse hm node _

/-- What comes next is only met after a comparison was given up. -/
theorem agrees_adaptOnce (node : NodeId) (observed : Value) (hm : fits m)
    (hmiss : ∀ id form new t v m', m.tree.resolve node = .ok id →
      m.tree.kind id = .ok (.cond form) → form.readsOperand = true →
      Edit.installGeneric id m.tree = .ok new t → leads { m with tree := t } m' → fits m' →
      Agrees leads m' (onMiss new v) (onMiss' new v)) :
    Agrees leads m (adaptOnce exec onMiss node observed)
      (adaptOnce exec' onMiss' node observed) := by
  have hconverted : ∀ (step id : NodeId) {m : Machine}, fits m →
      Agrees leads m (convertObserved step observed >>= takeBranch exec id)
        (convertObserved step observed >>= takeBranch exec' id) := fun step id _ hm ↦
    (agrees_convertObserved hcourse hm step observed).bind hcourse hm fun truth _ _ hm ↦
      agrees_takeBranch hcourse hexec id truth hm
  refine .ask hcourse hm fun id hid ↦ .ask hcourse hm fun kind hkind ↦ ?_
  cases kind with
  | cond form =>
    refine .ask hcourse hm fun k _ ↦ ?_
    cases htransition : Transition.forConditional form (some k) observed with
    | wrapCondition mode =>
      exact (agrees_edit hcourse hm (.conversion id form.cond mode)).bind hcourse hm
        fun step _ _ hm ↦ hconverted step id hm
    | reuseConversion => exact hconverted form.cond id hm
    | generalize =>
      have hstep : Agrees leads m (ensureConversion id form.cond k observed)
          (ensureConversion id form.cond k observed) := by
        unfold ensureConversion
        split_ifs
        · exact agrees_pure hcourse hm _
        · exact agrees_edit hcourse hm (.conversion id form.cond _)
      exact hstep.bind hcourse hm fun step _ _ hm ↦
        (agrees_edit hcourse hm (.generic id)).bind hcourse hm fun new _ _ hm ↦
          hconverted step new hm
    | specialize comparator =>
      refine (agrees_edit hcourse hm (.specialized id comparator)).bind hcourse hm
        fun new _ _ hm ↦ ?_
      refine agrees_compareSpecialized hcourse hexec new comparator observed hm fun hnone ↦ ?_
      -- a comparator is made for the value at hand
      obtain ⟨constant, hshapes⟩ := Transition.exists_shapes htransition
      obtain ⟨truth, hanswer⟩ := Comparator.exists_answer? hshapes
      cases hnone.symm.trans hanswer
    | demote =>
      have hreads := Transition.readsOperand_of_demote htransition
      have hedit := agrees_edit hcourse hm (e := Edit.installGeneric id) (.generic id)
      refine hedit.bind hcourse hm fun new m₁ hok hm₁ ↦ ?_
      obtain ⟨t, hinstalled, rfl⟩ : ∃ t, Edit.installGeneric id m.tree = .ok new t ∧
          m₁ = { m with tree := t } := by
        unfold edit at hok
        cases hresult : Edit.installGeneric id m.tree with
        | ok a t =>
          rw [hresult] at hok
          cases hok
          exact ⟨t, rfl, rfl⟩
        | error e t =>
          rw [hresult] at hok
          cases hok
      exact agrees_finishComparison hcourse hexec new observed hm₁ fun v m' hleads hm' ↦
        hmiss id form new t v m' hid hkind hreads hinstalled hleads hm'
    | widenConversion => exact agrees_fail hcourse hm id _
  | _ => exact agrees_fail hcourse hm id _

/-! ### All of evaluation -/

theorem agrees_conditionalWith (node : NodeId) (form : Conditional) (hm : fits m)
    (hmiss : ∀ node v m, fits m → Agrees leads m (onMiss node v) (onMiss' node v)) :
    Agrees leads m (conditionalWith exec onMiss node form)
      (conditionalWith exec' onMiss' node form) := by
  cases form with
  | generic cond =>
    refine (agrees_scalarLogical hcourse hexec cond hm).bind hcourse hm fun sensed m' _ hm ↦ ?_
    cases sensed with
    | hit truth => exact agrees_takeBranch hcourse hexec node truth hm
    | miss v => exact hmiss node v m' hm
  | noElse cond | twoBranch cond | returnBuiltin cond | returnOverridden cond =>
    refine (agrees_presentLogical hcourse hexec cond hm).bind hcourse hm fun sensed m' _ hm ↦ ?_
    cases sensed with
    | hit truth => exact agrees_takeBranch hcourse hexec node (.ofBool truth) hm
    | miss v => exact hmiss node v m' hm
  | const cond =>
    refine (agrees_comparison hcourse hm cond).bind hcourse hm fun parts m' _ hm ↦ ?_
    exact (hexec parts.2.1 m' hm).bind hcourse hm fun v m'' _ hm ↦ hmiss node v m'' hm
  | specialized cond _ _ k =>
    refine (agrees_comparison hcourse hm cond).bind hcourse hm fun parts m' _ hm ↦ ?_
    exact (hexec parts.2.1 m' hm).bind hcourse hm fun v m'' _ hm ↦
      agrees_compareSpecialized hcourse hexec node k v hm fun _ ↦ hmiss node v m'' hm

/-- Every node but a conditional. -/
theorem agrees_evaluated (id : NodeId) (kind : NodeKind) (hkind : ∀ form, kind ≠ .cond form)
    (hm : fits m) : Agrees leads m (evaluated (fun _ ↦ false) exec id kind)
      (evaluated (fun _ ↦ false) exec' id kind) := by
  cases kind with
  | constant v => exact agrees_pure hcourse hm v
  | read name => exact agrees_read hcourse hm id name
  | assign name value =>
    exact (hexec value m hm).bind hcourse hm fun v _ _ hm ↦
      (agrees_assign hcourse hm name v).bind hcourse hm fun _ _ _ hm ↦ agrees_pure hcourse hm v
  | sequence items => exact agrees_inOrder hcourse hexec .null items hm
  | unary op operand =>
    exact (hexec operand m hm).bind hcourse hm fun v _ _ hm ↦ agrees_pure hcourse hm (op.apply v)
  | compare op left right =>
    exact (hexec left m hm).bind hcourse hm fun a m₁ _ hm ↦
      (hexec right m₁ hm).bind hcourse hm fun b _ _ hm ↦
        agrees_pure hcourse hm (a.compareWith op b)
  | call name args => exact agrees_call hcourse hexec id name args hm
  | convert =>
    exact (agrees_convert hcourse hexec id hm).bind hcourse hm fun truth _ _ hm ↦
      agrees_pure hcourse hm (Value.scalar (.logical truth))
  | cond form => exact absurd rfl (hkind form)

theorem agrees_stepWith (node : NodeId) (hm : fits m)
    (hmiss : ∀ node v m, fits m → Agrees leads m (onMiss node v) (onMiss' node v)) :
    Agrees leads m (stepWith exec onMiss node) (stepWith exec' onMiss' node) := by
  refine .ask hcourse hm fun id hid ↦ .ask hcourse hm fun kind hkind ↦ ?_
  obtain ⟨n, hnode, rfl⟩ := Tree.kind_eq_ok hkind
  have hother : (∀ form, n.kind ≠ .cond form) →
      Agrees leads m (step exec node) (step exec' node) := by
    intro hplain
    have hstep : ∀ exec : Evaluator,
        step exec node m = evaluated (fun _ ↦ false) exec id n.kind m := fun exec ↦ by
      rw [← stepUntil_never, stepUntil_eq hid hnode]
    obtain ⟨hsame, hleads⟩ := agrees_evaluated hcourse hexec id n.kind hplain hm
    exact ⟨by rw [hstep, hstep, hsame], by rw [hstep]; exact hleads⟩
  cases hshape : n.kind with
  | cond form => exact agrees_conditionalWith hcourse hexec id form hm hmiss
  | _ => exact hother (by simp [hshape])

theorem agrees_resume (rounds : Nat) (node : NodeId) (observed : Value) (hm : fits m) :
    Agrees leads m (resume exec rounds node observed) (resume exec' rounds node observed) := by
  induction rounds generalizing m node observed with
  | zero => exact agrees_fail hcourse hm node _
  | succ rounds ih =>
    rw [resume_succ, resume_succ]
    exact agrees_adaptOnce hcourse hexec node observed hm fun _ _ new _ v _ _ _ _ _ _ hm ↦
      ih new v hm

theorem agrees_settle (node : NodeId) (observed : Value) (hm : fits m) :
    Agrees leads m (settle exec node observed) (settle exec' node observed) := by
  obtain ⟨hsame, hleads⟩ := agrees_resume hcourse hexec (m.watch.pending + 2) node observed hm
  exact ⟨by rw [settle_eq, settle_eq, hsame], by rw [settle_eq]; exact hleads⟩

theorem agrees_step (node : NodeId) (hm : fits m) :
    Agrees leads m (step exec node) (step exec' node) := by
  rw [← stepWith_settle, ← stepWith_settle]
  exact agrees_stepWith hcourse hexec node hm fun node v _ hm ↦
    agrees_settle hcourse hexec node v hm

omit hexec in
theorem agrees_execute (limit : Nat) (node : NodeId) (hm : fits m) :
    Agrees leads m (execute limit node) (execute limit node) := by
  induction limit generalizing m node with
  | zero => exact ⟨rfl, hcourse.refl hm⟩
  | succ limit ih => exact agrees_step hcourse (fun id _ hm ↦ ih id hm) node hm

end Round

end Eval

namespace Machine

variable {fits : Machine → Prop} {leads : Machine → Machine → Prop} {m : Machine}

/-- Whatever every step of an evaluation keeps to, evaluation keeps to. -/
theorem Course.leads_execute (hcourse : Course fits leads) (hm : fits m) (limit : Nat)
    (node : NodeId) : leads m (machineOf (Eval.execute limit node m)) :=
  (Eval.agrees_execute hcourse limit node hm).leads

end Machine

end AdaptiveTree
