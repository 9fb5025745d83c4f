import AdaptiveTree.Proofs.Simulation.Run

/-!
Evaluation beside evaluation. One computation goes as another does unless it is left early in a
way that is given; if the nested evaluations of two evaluators are so related, everything that is
built of them is.
-/

set_option autoImplicit false
set_option relaxedAutoImplicit false

namespace AdaptiveTree.Eval

/-- The first goes as the second does, unless it is left in a way and a machine given. -/
def Unless {α : Type} (left : Exit → Machine → Prop) (x y : Eval α) : Prop :=
  ∀ m, x m = y m ∨ ∃ exit m', x m = .error exit m' ∧ left exit m'

variable {left : Exit → Machine → Prop} {exec exec' : Evaluator} {stop stop' : Machine → Bool}

namespace Unless

theorem refl {α : Type} (x : Eval α) : Unless left x x := fun _ ↦ Or.inl rfl

theorem bind {α β : Type} {x y : Eval α} {f g : α → Eval β} (h : Unless left x y)
    (hnext : ∀ a, Unless left (f a) (g a)) : Unless left (x >>= f) (y >>= g) := by
  intro m
  rcases h m with heq | ⟨exit, m', hexit, hleft⟩
  · cases hy : y m with
    | ok a m₁ =>
      rw [bind_eq (heq.trans hy), bind_eq hy]
      exact hnext a m₁
    | error e m₁ =>
      rw [bind_error_eq (heq.trans hy), bind_error_eq hy]
      exact Or.inl rfl
  · exact Or.inr ⟨exit, m', bind_error_eq hexit, hleft⟩

/-- Both begin with the same computation. -/
theorem after {α β : Type} {x : Eval α} {f g : α → Eval β} (hnext : ∀ a, Unless left (f a) (g a)) :
    Unless left (x >>= f) (x >>= g) :=
  (refl x).bind hnext

variable (hexec : ∀ id, Unless left (exec id) (exec' id))

/-! ### Children in order -/

include hexec

theorem values (ids : List NodeId) :
    Unless left (Eval.values exec ids) (Eval.values exec' ids) := by
  induction ids with
  | nil => exact refl _
  | cons id rest ih =>
    rw [Eval.values, Eval.values]
    exact (hexec id).bind fun _ ↦ ih.bind fun _ ↦ refl _

theorem inOrder (last : Value) (ids : List NodeId) :
    Unless left (Eval.inOrder exec last ids) (Eval.inOrder exec' last ids) := by
  induction ids generalizing last with
  | nil => exact refl _
  | cons id rest ih =>
    rw [Eval.inOrder, Eval.inOrder]
    exact (hexec id).bind fun v ↦ ih v

theorem call (node : NodeId) (name : String) (args : List NodeId) :
    Unless left (Eval.call exec node name args) (Eval.call exec' node name args) :=
  after fun _ ↦ (values hexec args).bind fun _ ↦ refl _

/-! ### Conditions -/

theorem convert (node : NodeId) :
    Unless left (Eval.convert exec node) (Eval.convert exec' node) := by
  refine after fun kind ↦ ?_
  cases kind with
  | convert input mode => exact (hexec input).bind fun _ ↦ refl _
  | _ => exact refl _

theorem scalarLogical (node : NodeId) :
    Unless left (Eval.scalarLogical exec node) (Eval.scalarLogical exec' node) := by
  refine after fun id ↦ after fun kind ↦ ?_
  cases kind with
  | convert => exact (convert hexec id).bind fun _ ↦ refl _
  | _ => exact (hexec id).bind fun _ ↦ refl _

theorem presentLogical (node : NodeId) :
    Unless left (Eval.presentLogical exec node) (Eval.presentLogical exec' node) :=
  (scalarLogical hexec node).bind fun _ ↦ refl _

/-! ### Branches -/

theorem runBody (body : Option NodeId) :
    Unless left (Eval.runBody exec body) (Eval.runBody exec' body) := by
  cases body with
  | none => exact refl _
  | some id => exact (hexec id).bind fun _ ↦ refl _

theorem runTail (node : NodeId) :
    Unless left (Eval.runTail exec node) (Eval.runTail exec' node) := by
  refine after fun current ↦ after fun kind ↦ ?_
  cases kind with
  | cond form =>
    cases form with
    | returnBuiltin _ _ arg _ => exact hexec arg
    | returnOverridden _ _ call rest => exact (hexec call).bind fun _ ↦ hexec rest
    | _ => exact refl _
  | _ => exact refl _

theorem takeBranch (node : NodeId) (truth : Logical) :
    Unless left (Eval.takeBranch exec node truth) (Eval.takeBranch exec' node truth) := by
  refine after fun id ↦ ?_
  cases truth.toBool? with
  | none => exact refl _
  | some holds =>
    refine after fun kind ↦ ?_
    cases kind with
    | cond form =>
      cases form with
      | generic | twoBranch | const | specialized => exact hexec _
      | noElse _ t =>
        cases holds with
        | true => exact hexec t
        | false => exact refl _
      | returnBuiltin _ body _ rest =>
        cases holds with
        | true => exact (runBody hexec body).bind fun _ ↦ runTail hexec id
        | false => exact hexec rest
      | returnOverridden _ body call rest =>
        cases holds with
        | true => exact (runBody hexec body).bind fun _ ↦ (hexec call).bind fun _ ↦ hexec rest
        | false => exact hexec rest
    | _ => exact refl _

/-! ### Comparisons and adaptations -/

section Miss

variable {onMiss onMiss' : NodeId → Value → Eval Value}
  (hmiss : ∀ id v, Unless left (onMiss id v) (onMiss' id v))

include hmiss

theorem compareSpecialized (node : NodeId) (k : Comparator) (operand : Value) :
    Unless left (Eval.compareSpecialized exec onMiss node k operand)
      (Eval.compareSpecialized exec' onMiss' node k operand) := by
  unfold Eval.compareSpecialized Comparator.compare
  cases k.answer? operand with
  | none => exact hmiss node operand
  | some truth =>
    cases truth with
    | na => exact refl _
    | no | yes => exact takeBranch hexec node _

theorem finishComparison (node : NodeId) (operand : Value) :
    Unless left (Eval.finishComparison exec onMiss node operand)
      (Eval.finishComparison exec' onMiss' node operand) := by
  refine after fun kind ↦ ?_
  cases kind with
  | cond form =>
    refine after fun parts ↦ (hexec parts.2.2).bind fun constant ↦ ?_
    cases operand.compareWith parts.1 constant with
    | scalar s =>
      cases s with
      | logical truth => exact takeBranch hexec node truth
      | int | double => exact hmiss node _
    | _ => exact hmiss node _
  | _ => exact refl _

end Miss

theorem resume (rounds : Nat) (node : NodeId) (observed : Value) :
    Unless left (Eval.resume exec rounds node observed)
      (Eval.resume exec' rounds node observed) := by
  induction rounds generalizing node observed with
  | zero => exact refl _
  | succ rounds ih =>
    refine after fun id ↦ after fun kind ↦ ?_
    cases kind with
    | cond form =>
      refine after fun k ↦ ?_
      cases Transition.forConditional form (some k) observed with
      | wrapCondition mode => exact after fun _ ↦ after fun l ↦ takeBranch hexec id l
      | reuseConversion => exact after fun l ↦ takeBranch hexec id l
      | generalize => exact after fun _ ↦ after fun new ↦ after fun l ↦ takeBranch hexec new l
      | specialize k => exact after fun new ↦ compareSpecialized hexec ih new k observed
      | demote => exact after fun new ↦ finishComparison hexec ih new observed
      | widenConversion => exact refl _
    | _ => exact refl _

theorem settle (node : NodeId) (observed : Value) :
    Unless left (Eval.settle exec node observed) (Eval.settle exec' node observed) :=
  after fun _ ↦ resume hexec _ node observed

theorem conditional (node : NodeId) (form : Conditional) :
    Unless left (Eval.conditional exec node form) (Eval.conditional exec' node form) := by
  cases form with
  | generic cond =>
    refine (scalarLogical hexec cond).bind fun sensed ↦ ?_
    cases sensed with
    | hit truth => exact takeBranch hexec node truth
    | miss v => exact settle hexec node v
  | noElse cond | twoBranch cond | returnBuiltin cond | returnOverridden cond =>
    refine (presentLogical hexec cond).bind fun sensed ↦ ?_
    cases sensed with
    | hit truth => exact takeBranch hexec node (.ofBool truth)
    | miss v => exact settle hexec node v
  | const => exact after fun parts ↦ (hexec parts.2.1).bind fun v ↦ settle hexec node v
  | specialized _ _ _ k =>
    exact after fun parts ↦ (hexec parts.2.1).bind fun v ↦
      compareSpecialized hexec (settle hexec) node k v

/-! ### Nodes -/

/-- The evaluators may stop after other bindings, if being left there is one of the ways. -/
theorem evaluated (hstop : ∀ m, stop m = stop' m ∨ stop m = true ∧ left (.tooDeep .origin) m)
    (node : NodeId) (kind : NodeKind) :
    Unless left (Eval.evaluated stop exec node kind) (Eval.evaluated stop' exec' node kind) := by
  cases kind with
  | constant | read => exact refl _
  | assign name value =>
    refine (hexec value).bind fun v ↦ after fun _ m ↦ ?_
    have hget : (get : Eval Machine) m = .ok m m := rfl
    rw [Eval.bind_eq hget, Eval.bind_eq hget]
    rcases hstop m with heq | ⟨hstops, hleft⟩
    · rw [heq]
      exact Or.inl rfl
    · rw [hstops]
      exact Or.inr ⟨_, m, rfl, hleft⟩
  | sequence items => exact inOrder hexec .null items
  | unary _ operand => exact (hexec operand).bind fun _ ↦ refl _
  | compare _ l r => exact (hexec l).bind fun _ ↦ (hexec r).bind fun _ ↦ refl _
  | call name args => exact call hexec node name args
  | convert => exact (convert hexec node).bind fun _ ↦ refl _
  | cond form => exact conditional hexec node form

theorem stepUntil (hstop : ∀ m, stop m = stop' m ∨ stop m = true ∧ left (.tooDeep .origin) m)
    (node : NodeId) :
    Unless left (Eval.stepUntil stop exec node) (Eval.stepUntil stop' exec' node) := by
  intro m
  cases hresolve : m.tree.resolve node with
  | error e =>
    have hask : ask (·.resolve node) m = .error (.raised (.brokenTree e) .origin) m := by
      rw [ask, hresolve]
    unfold Eval.stepUntil
    rw [bind_error_eq hask, bind_error_eq hask]
    exact Or.inl rfl
  | ok x =>
    obtain ⟨n, hnode⟩ := Tree.exists_node?_of_resolve hresolve
    rw [stepUntil_eq hresolve hnode, stepUntil_eq hresolve hnode]
    exact evaluated hexec hstop x n.kind m

/-- Evaluators that never stop differ only in what they do with children. -/
theorem step (node : NodeId) : Unless left (Eval.step exec node) (Eval.step exec' node) := by
  rw [← stepUntil_never, ← stepUntil_never]
  exact stepUntil hexec (fun _ ↦ Or.inl rfl) node

end Unless

end AdaptiveTree.Eval
