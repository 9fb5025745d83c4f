import AdaptiveTree.Proofs.Places.Placed

/-!
The places of what a conditional warns of and fails with. A conversion step has the place of its
condition, and a conditional keeps its own place in whatever form it goes on.
-/

set_option autoImplicit false
set_option relaxedAutoImplicit false

namespace AdaptiveTree.Eval

open Machine (Later)

variable {source : String} {calls : NodeId → Span} {busy : NodeId → Prop} {exec : Evaluator}
  {m : Machine} {id x : NodeId} {n : Node} {part : Part} {form : Conditional} {c e : Expr}

/-- What a condition has missed is a value that its expression can have. -/
theorem admits_of_miss {α : Type} {truth : α → Logical} {v : Value} {m' : Machine}
    {reference : EStateM.Result Halt World Logical}
    (h : Follows calls busy (Sensed e truth) m reference
      (.ok (.miss v) m' : EStateM.Result Exit Machine (Speculation α))) :
    Reference.Admits e v := by
  cases h with
  | ok _ hagrees => exact hagrees.2

/-! ### Conditions -/

section Conditions

variable (hexec : Simulates calls exec) (hplaces : Places source calls exec)
  (hready : Ready calls busy m) (he : e.Located source)

include hexec hplaces hready he

theorem placed_convert {input : NodeId} {mode : ConvertMode} (hx : m.tree.node? x = some n)
    (hkind : n.kind = .convert input mode) (hshows : Shows calls busy m.tree x (.test e)) :
    Placed source calls busy m (convert exec x m) := by
  obtain ⟨parts, _, hfits, hbelow⟩ := hshows.children_at hready.sound.forest hx
  rw [hkind] at hfits hbelow
  obtain rfl := hfits.parts_of_convert
  have hinput := hbelow (input, .value e) (List.mem_singleton.mpr rfl)
  have hinside : ∀ y, busy y → Shows.inside busy x y := fun _ hy ↦ Or.inl hy
  unfold convert
  rw [bind_eq (ask_eq (Tree.kind_eq hx)), hkind]
  refine .bind_inside hinside (hplaces (hready.inside hx) ⟨.value e, he, hinput⟩)
    fun v m₁ hresult hinner ↦ ?_
  have hfollows := hexec.value (hready.inside hx) hinput
  rw [hresult] at hfollows
  have hlater := hinner.mono hinside
  have hready₁ := hready.later hlater
  have hplan : Transition.plan? (.convert input mode) none v =
      if mode.accepts v then none else some .widenConversion := rfl
  rw [hplan]
  by_cases haccepts : mode.accepts v
  · rw [if_pos haccepts]
    exact placed_convertObserved hready₁ ⟨.test e, he, hshows.later hready hlater⟩ v
  · rw [if_neg haccepts]
    have hadmits : Reference.Admits e v := by
      cases hfollows with
      | ok _ hagrees => exact Reference.admits_of_expr hagrees
    obtain ⟨step, t', hwiden, hwidened, hstep⟩ :=
      exists_widened hready hx hkind hshows hinner haccepts hadmits
    show Placed _ _ _ _ ((edit (Edit.widenConversion x) >>= _) m₁)
    rw [bind_eq hwiden]
    exact (placed_convertObserved (hready₁.later hwidened) ⟨.test e, he, hstep⟩ v).after
      hwidened (.of_eq rfl)

theorem placed_scalarLogical (hshows : Shows calls busy m.tree id (.test e)) :
    Placed source calls busy m (scalarLogical exec id m) := by
  obtain ⟨x, n, hresolve, hnode, _⟩ := hshows.exists_node?
  have hshows' := hshows.resolved hresolve
  unfold scalarLogical
  rw [bind_eq (ask_eq hresolve), bind_eq (ask_eq (Tree.kind_eq hnode))]
  cases hkind : n.kind with
  | convert input mode =>
    exact (placed_convert hexec hplaces hready he hnode hkind hshows').before
  | _ =>
    refine (hplaces hready ⟨.test e, he, hshows'⟩).bind fun v m₁ _ hlater ↦ ?_
    split <;> exact .pure hlater.sound

theorem placed_presentLogical (hshows : Shows calls busy m.tree id (.test e)) :
    Placed source calls busy m (presentLogical exec id m) := by
  refine (placed_scalarLogical hexec hplaces hready he hshows).bind fun s m₁ _ hlater ↦ ?_
  cases s <;> exact .pure hlater.sound

end Conditions

/-! ### Branches -/

section Branches

variable (hplaces : Places source calls exec)

include hplaces

theorem placed_runBody (hready : Ready calls busy m) {body : Option NodeId}
    (hbody : ∀ b ∈ body.toList, ShowsIn source calls busy m.tree b) :
    Placed source calls busy m (runBody exec body m) := by
  cases body with
  | none => exact .pure hready.sound
  | some b => exact (hplaces hready (hbody b (List.mem_singleton.mpr rfl))).before

/-- A call and then the statements behind it. -/
theorem placed_call_rest (hready : Ready calls busy m) {call rest : NodeId}
    (hcall : ShowsIn source calls busy m.tree call)
    (hrest : ShowsIn source calls busy m.tree rest) :
    Placed source calls busy m ((exec call >>= fun _ ↦ exec rest) m) :=
  (hplaces hready hcall).bind fun _ _ _ hlater ↦
    hplaces (hready.later hlater) (hrest.later hready hlater)

theorem placed_runTail (hready : Ready calls busy m)
    (hshows : ShowsIn source calls busy m.tree id) :
    Placed source calls busy m (runTail exec id m) := by
  obtain ⟨x, n, hresolve, hnode, -, hbelow⟩ := hshows.children hready
  unfold runTail
  rw [bind_eq (ask_eq hresolve), bind_eq (ask_eq (Tree.kind_eq hnode))]
  cases hkind : n.kind with
  | cond form =>
    rw [hkind] at hbelow
    cases form with
    | returnBuiltin c body arg rest =>
      exact hplaces hready (hbelow arg (by simp [NodeKind.children, Conditional.children]))
    | returnOverridden c body call rest =>
      exact placed_call_rest hplaces hready
        (hbelow call (by simp [NodeKind.children, Conditional.children]))
        (hbelow rest (by simp [NodeKind.children, Conditional.children]))
    | _ => exact placed_fail hready hshows _
  | _ => exact placed_fail hready hshows _

theorem placed_branch (hready : Ready calls busy m) (hshows : ShowsIn source calls busy m.tree x)
    (hresolve : m.tree.resolve id = .ok x) (hnode : m.tree.node? x = some n)
    (hkind : n.kind = .cond form)
    (hbelow : ∀ c ∈ form.children, ShowsIn source calls busy m.tree c) (holds : Bool) :
    Placed source calls busy m (takeBranch exec id (.ofBool holds) m) := by
  have htruth : (Logical.ofBool holds).toBool? = some holds := by cases holds <;> rfl
  have hchild {c : NodeId} (hc : c ∈ form.children) :
      Placed source calls busy m (exec c m) := hplaces hready (hbelow c hc)
  cases form with
  | returnBuiltin c body arg rest =>
    rw [takeBranch_builtin hresolve hnode hkind]
    cases holds with
    | false => exact hchild (by simp [Conditional.children])
    | true =>
      have hbody : Placed source calls busy m (runBody exec body m) :=
        placed_runBody hplaces hready fun b hb ↦ hbelow b (by simp [Conditional.children, hb])
      exact hbody.bind fun _ _ _ hlater ↦
        placed_runTail hplaces (hready.later hlater) (hshows.later hready hlater)
  | returnOverridden c body call rest =>
    rw [takeBranch_overridden hresolve hnode hkind]
    cases holds with
    | false => exact hchild (by simp [Conditional.children])
    | true =>
      have hbody : Placed source calls busy m (runBody exec body m) :=
        placed_runBody hplaces hready fun b hb ↦ hbelow b (by simp [Conditional.children, hb])
      have hcall := hbelow call (by simp [Conditional.children])
      have hrest := hbelow rest (by simp [Conditional.children])
      exact hbody.bind fun _ _ _ hlater ↦ placed_call_rest hplaces (hready.later hlater)
        (hcall.later hready hlater) (hrest.later hready hlater)
  | noElse c t =>
    rw [takeBranch_eq hresolve hnode hkind rfl htruth]
    cases holds with
    | false => exact .pure hready.sound
    | true => exact hchild (by simp [Conditional.children])
  | generic | twoBranch | const | specialized =>
    rw [takeBranch_eq hresolve hnode hkind rfl htruth]
    cases holds <;> exact hchild (by simp [Conditional.children])

/-- The branch that a truth value selects, in whatever form the conditional has by then. -/
theorem placed_takeBranch (hready : Ready calls busy m)
    (hshows : ShowsIn source calls busy m.tree id) (truth : Logical) :
    Placed source calls busy m (takeBranch exec id truth m) := by
  obtain ⟨x, n, hresolve, hnode, hshows', hbelow⟩ := hshows.children hready
  rcases htruth : truth.toBool? with _ | holds
  · obtain rfl : truth = .na := by cases truth <;> first | rfl | cases htruth
    rw [takeBranch_na hresolve]
    exact placed_fail hready hshows' .unexpectedNA
  obtain rfl : truth = .ofBool holds := by cases truth <;> cases htruth <;> rfl
  cases hkind : n.kind with
  | cond form =>
    rw [hkind] at hbelow
    exact placed_branch hplaces hready hshows' hresolve hnode hkind hbelow holds
  | _ =>
    -- Only a conditional has branches.
    have hunexpected : takeBranch exec id (.ofBool holds) m =
        (unexpected x n.kind : Eval Value) m := by
      unfold takeBranch
      rw [bind_eq (ask_eq hresolve), htruth]
      show (ask (·.kind x) >>= _) m = _
      rw [bind_eq (ask_eq (Tree.kind_eq hnode)), hkind]
    rw [hunexpected]
    exact placed_fail hready hshows' _

end Branches

/-! ### Going on after a miss -/

section Missing

variable (hplaces : Places source calls exec) (hready : Ready calls busy m)
  (hpart : part.LocatedIn source) (hcondition : part.condition? = some c)

include hplaces hready hpart hcondition

theorem placed_resume (hshows : Shows calls busy m.tree id part) (hwhole : m.tree.ReadsWhole id)
    (rounds : Nat) {observed : Value} (hadmits : Reference.Admits c observed) :
    Placed source calls busy m (resume exec (rounds + 1) id observed m) := by
  obtain ⟨t', step, target, hlater, hstep, htarget, hresume⟩ :=
    exists_resumed hready hshows hcondition hwhole rounds hadmits
  have hready' := hready.later hlater
  rw [hresume]
  have hc := hpart.condition hcondition
  refine (Placed.bind (placed_convertObserved hready' ⟨.test c, hc, hstep⟩ observed)
    fun l m₁ _ hlater₁ ↦ ?_).after hlater (.of_eq rfl)
  exact placed_takeBranch hplaces (hready'.later hlater₁)
    ⟨part, hpart, htarget.later hready' hlater₁⟩ l

/-- Going on with the operand of a comparison with a constant. -/
theorem placed_operated {k : Scalar} (hconstant : c.constantTested? = some k) {v : Value}
    {rounds : Nat} {result : EStateM.Result Exit Machine Value}
    (hoperated : Operated calls busy exec m part c k v rounds result) :
    Placed source calls busy m result := by
  cases hoperated with
  | answered hlater hshows =>
    exact (placed_takeBranch hplaces (hready.later hlater) ⟨part, hpart, hshows⟩ _).after hlater
      (.of_eq rfl)
  | @demoted t' target n form hlater hshows hnode hkind hreads hcond =>
    have hready' := hready.later hlater
    obtain ⟨left, right, span, rfl, _⟩ := Reference.test_of_constant hconstant
    obtain ⟨-, _, -, hright, -⟩ := (hpart.condition hcondition).spread
    obtain ⟨r, finish, hr, hcomparison, hfinish⟩ :=
      finishComparison_eq exec hready' hnode hkind hcond (resume exec (rounds + 1)) v
    have hwhole : Tree.ReadsWhole t' target :=
      ⟨target, n, form, Tree.resolve_of_node? hnode, hnode, hkind, hreads⟩
    rw [hcomparison]
    refine (Placed.bind (hplaces hready' ⟨.value right, hright, hr⟩)
      fun constant m₁ _ hlater₁ ↦ ?_).after hlater (.of_eq rfl)
    have hready₁ := hready'.later hlater₁
    have hshows₁ := hshows.later hready' hlater₁
    rcases hfinish constant with ⟨truth, -, heq⟩ | heq
    · rw [heq]
      exact placed_takeBranch hplaces hready₁ ⟨part, hpart, hshows₁⟩ truth
    · rw [heq]
      exact placed_resume hplaces hready₁ hpart hcondition hshows₁
        (hlater₁.adapts.readsWhole hready'.sound.forest hwhole) rounds
        fun _ ↦ Reference.ofValue_compareWith ..

end Missing

/-! ### Whole conditionals -/

section Forms

variable (hexec : Simulates calls exec) (hplaces : Places source calls exec)
  (hready : Ready calls busy m) (hpart : part.LocatedIn source)
  (hshows : Shows calls busy m.tree x part) (hcondition : part.condition? = some c)
  (hnode : m.tree.node? x = some n) (hkind : n.kind = .cond form)

include hexec hplaces hready hpart hshows hcondition hnode hkind

theorem placed_conditional_whole (hreads : form.readsOperand = false) :
    Placed source calls busy m (conditional exec x form m) := by
  have hcond := ((hshows.condition hready.sound.forest hnode hkind hcondition).1 hreads).outside
  have hc := hpart.condition hcondition
  have hwhole : m.tree.ReadsWhole x :=
    ⟨x, n, form, Tree.resolve_of_node? hnode, hnode, hkind, hreads⟩
  have hhit (l : Logical) {m₁ : Machine} (hlater : Later calls busy m m₁) :
      Placed source calls busy m₁ (takeBranch exec x l m₁) :=
    placed_takeBranch hplaces (hready.later hlater) ⟨part, hpart, hshows.later hready hlater⟩ l
  have hmiss (v : Value) {m₁ : Machine} (hlater : Later calls busy m m₁)
      (hadmits : Reference.Admits c v) : Placed source calls busy m₁ (settle exec x v m₁) :=
    placed_resume hplaces (hready.later hlater) hpart hcondition (hshows.later hready hlater)
      (hlater.adapts.readsWhole hready.sound.forest hwhole) _ hadmits
  cases form with
  | const | specialized => simp [Conditional.readsOperand] at hreads
  | generic =>
    refine (placed_scalarLogical hexec hplaces hready hc hcond).bind fun s m₁ hresult hlater ↦ ?_
    cases s with
    | hit l => exact hhit l hlater
    | miss v =>
      exact hmiss v hlater (admits_of_miss (hresult ▸ follows_scalarLogical hexec hready hcond))
  | noElse | twoBranch | returnBuiltin | returnOverridden =>
    refine (placed_presentLogical hexec hplaces hready hc hcond).bind fun s m₁ hresult hlater ↦ ?_
    cases s with
    | hit truth => exact hhit (.ofBool truth) hlater
    | miss v =>
      exact hmiss v hlater (admits_of_miss (hresult ▸ follows_presentLogical hexec hready hcond))

omit hexec in
theorem placed_conditional_operand (hreads : form.readsOperand = true) :
    Placed source calls busy m (conditional exec x form m) := by
  have hinside : ∀ y, busy y → Shows.inside busy x y := fun _ hy ↦ Or.inl hy
  obtain ⟨left, right, span, k, l, finish, rfl, hconstant, hl, hconditional, hoperated⟩ :=
    exists_operated hready hshows hcondition hnode hkind exec hreads
  obtain ⟨-, hleft, -⟩ := (hpart.condition hcondition).spread
  rw [hconditional]
  refine .bind_inside hinside (hplaces (hready.inside hnode) ⟨.value left, hleft, hl⟩)
    fun v m₁ _ hinner ↦ ?_
  obtain ⟨rounds, hoperated⟩ := hoperated v m₁ hinner
  exact placed_operated hplaces (hready.later (hinner.mono hinside)) hpart hcondition hconstant
    hoperated

end Forms

theorem placed_conditional (hexec : Simulates calls exec) (hplaces : Places source calls exec)
    (hready : Ready calls busy m) (hshows : ShowsIn source calls busy m.tree x)
    (hnode : m.tree.node? x = some n) (hkind : n.kind = .cond form) :
    Placed source calls busy m (conditional exec x form m) := by
  obtain ⟨part, c, hpart, hshows, hcondition⟩ := hshows.exists_condition hready hnode hkind
  cases hreads : form.readsOperand with
  | false =>
    exact placed_conditional_whole hexec hplaces hready hpart hshows hcondition hnode hkind hreads
  | true =>
    exact placed_conditional_operand hplaces hready hpart hshows hcondition hnode hkind hreads

end AdaptiveTree.Eval
