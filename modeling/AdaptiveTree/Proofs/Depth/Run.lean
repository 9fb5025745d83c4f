import AdaptiveTree.Proofs.Depth.Conditional
import AdaptiveTree.Proofs.Simulation.Run

/-!
Evaluation under any limit is gauged by the levels of what is evaluated. A node adds one level to
what its children need.
-/

set_option autoImplicit false
set_option relaxedAutoImplicit false

namespace AdaptiveTree.Eval

variable {operands : Bool} {calls : NodeId → Span} {busy : NodeId → Prop} {limit : Nat}
  {exec : Evaluator} {m : Machine} {id x : NodeId} {n : Node}

theorem step_eq (hresolve : m.tree.resolve id = .ok x) (hnode : m.tree.node? x = some n) :
    step exec id m = evaluated (fun _ ↦ false) exec x n.kind m := by
  rw [← stepUntil_never]
  exact stepUntil_eq hresolve hnode

variable (hexec : Simulates calls exec) (hgauge : Gauges operands calls limit exec)

include hexec hgauge

theorem gauged_branches (hpoised : Poised operands calls busy m)
    {source cond thenBranch elseBranch : Expr} {form : Conditional}
    (hsource : source.Branches cond thenBranch elseBranch)
    (hshows : Shows calls busy m.tree x (.value source)) (hnode : m.tree.node? x = some n)
    (hkind : n.kind = .cond form) :
    Gauged operands (limit + 1) (fun g ↦ Reference.levels g false source m.world)
      (conditional exec x form m) := by
  have hcondition : (Part.value source).condition? = some cond := by cases hsource <;> rfl
  simp only [Reference.levels_of_branches _ _ hsource]
  exact .succ (gauged_conditional hexec hgauge (gauged_takeBranch hgauge hsource) hpoised hshows
    hcondition hnode hkind)

theorem gauged_value (hpoised : Poised operands calls busy m) {e : Expr}
    (hshows : Shows calls busy m.tree id (.value e)) :
    Gauged operands (limit + 1) (fun g ↦ Reference.levels g false e m.world)
      (step exec id m) := by
  have hready := hpoised.ready
  obtain ⟨x, ⟨kind, span, parent⟩, parts, hresolve, hnode, _, hfits, hbelow⟩ :=
    hshows.children hready.sound.forest
  have hshows' := hshows.resolved hresolve
  have hbelow' : ∀ q ∈ kind.children.zip parts, Shows calls busy m.tree q.1 q.2 := fun q hq ↦
    (hbelow q hq).mono fun _ hy ↦ Or.inl hy
  rw [step_eq hresolve hnode]
  cases hfits with
  | literal l =>
    simp only [Reference.levels]
    exact .succ (.of_shallow (.pure _))
  | ident name =>
    simp only [Reference.levels]
    exact .succ (.of_shallow (.read x name))
  | unary op operand e =>
    simp only [Reference.levels]
    have hoperand := hbelow' (operand, .value e) (List.mem_singleton.mpr rfl)
    exact .succ ((hgauge.value hpoised hoperand).before fun v ↦ .pure _)
  | compare op l r left right =>
    have hl := hbelow' (l, .value left) (by simp [NodeKind.children])
    have hr := hbelow' (r, .value right) (by simp [NodeKind.children])
    simp only [Reference.levels_compare]
    refine .succ (.bind (hexec.value hready hl) (hgauge.value hpoised hl)
      fun a m₁ hlater _ _ ↦ ?_)
    exact (hgauge.value (hpoised.later hlater) (hr.later hready hlater)).before fun b ↦ .pure _
  | call name ids args _ hlength =>
    simp only [Reference.levels]
    exact .succ (gauged_call hexec hgauge hpoised hshows' hlength hbelow')
  | assign name operand e =>
    simp only [Reference.levels]
    have hoperand := hbelow' (operand, .value e) (List.mem_singleton.mpr rfl)
    exact .succ ((hgauge.value hpoised hoperand).before fun v ↦
      (Shallow.assign name v).bind fun _ ↦ Shallow.get.bind fun _ ↦ .pure v)
  | block ids items _ hlength =>
    simp only [Reference.levels]
    exact .succ (gauged_inOrder hexec hgauge items .null hpoised hlength hbelow')
  | generic _ _ _ hsource | const _ _ _ hsource | specialized _ _ _ hsource =>
    exact gauged_branches hexec hgauge hpoised hsource hshows' hnode rfl
  | noElse _ _ cond t =>
    exact gauged_branches hexec hgauge hpoised (.missing cond t span) hshows' hnode rfl
  | twoBranch _ _ _ cond t e =>
    exact gauged_branches hexec hgauge hpoised (.present cond t e span) hshows' hnode rfl

theorem gauged_inOrder_statements (items : List Expr) :
    ∀ {m : Machine} {ids : List NodeId} (last : Value), Poised operands calls busy m →
      ids.length = (Part.ofStatements items).length →
      (∀ q ∈ ids.zip (Part.ofStatements items), Shows calls busy m.tree q.1 q.2) →
      Gauged operands limit (fun g ↦ Reference.statementLevels g items m.world)
        (inOrder exec last ids m) := by
  induction items with
  | nil =>
    intro m ids last _ hlength _
    obtain rfl := List.length_eq_zero_iff.mp hlength
    simp only [Reference.statementLevels]
    exact .of_shallow (.pure last)
  | cons e rest ih =>
    intro m ids last hpoised hlength hshows
    rw [Part.ofStatements] at hlength hshows
    cases htail : e.returnTail? with
    | some t =>
      rw [htail] at hlength hshows
      obtain ⟨id, rfl⟩ := List.length_eq_one_iff.mp hlength
      -- The tail is the last statement of its block.
      exact (hgauge.tail hpoised htail (hshows (id, _) (List.mem_cons_self ..))).before fun v ↦
        .pure v
    | none =>
      rw [htail] at hlength hshows
      cases ids with
      | nil => simp at hlength
      | cons id ids =>
        have hfirst := hshows (id, .value e) (List.mem_cons_self ..)
        have hothers : ∀ q ∈ ids.zip (Part.ofStatements rest), Shows calls busy m.tree q.1 q.2 :=
          fun q hq ↦ hshows q (List.mem_cons_of_mem _ hq)
        simp only [Reference.statementLevels, htail]
        exact .bind (hexec.value hpoised.ready hfirst) (hgauge.value hpoised hfirst)
          fun v m₁ hlater _ _ ↦ ih v (hpoised.later hlater) (Nat.succ.inj hlength) fun q hq ↦
            (hothers q hq).later hpoised.ready hlater

theorem gauged_statements (hpoised : Poised operands calls busy m) {items : List Expr} {span : Span}
    (hshows : Shows calls busy m.tree id (.statements items span)) :
    Gauged operands (limit + 1) (fun g ↦ Reference.statementLevels g items m.world + 1)
      (step exec id m) := by
  obtain ⟨x, ⟨kind, span', parent⟩, parts, hresolve, hnode, _, hfits, hbelow⟩ :=
    hshows.children hpoised.ready.sound.forest
  rw [step_eq hresolve hnode]
  cases hfits with
  | statements ids _ _ hlength =>
    exact .succ (gauged_inOrder_statements hexec hgauge items .null hpoised hlength fun q hq ↦
      (hbelow q hq).mono fun _ hy ↦ Or.inl hy)

theorem gauged_tail (hpoised : Poised operands calls busy m) {e : Expr} {rest : List Expr}
    {t : Expr.ReturnTail} {restSpan : Span} (htail : e.returnTail? = some t)
    (hshows : Shows calls busy m.tree id (.tail t rest restSpan e.span)) :
    Gauged operands (limit + 1) (fun g ↦ Reference.statementLevels g (e :: rest) m.world)
      (step exec id m) := by
  obtain ⟨x, n, parts, hresolve, hnode, _, hfits, _⟩ := hshows.children hpoised.ready.sound.forest
  obtain ⟨form, hkind, hreads⟩ : ∃ form, n.kind = .cond form ∧ form.readsOperand = false := by
    obtain ⟨c, body, last, r, lastPart, ⟨hkind, _⟩ | ⟨hkind, _⟩, _⟩ := hfits.zip_of_tail
    · exact ⟨_, hkind, rfl⟩
    · exact ⟨_, hkind, rfl⟩
  rw [step_eq hresolve hnode, hkind]
  simp only [Reference.statementLevels, htail]
  exact .succ (gauged_conditional_whole hexec hgauge (gauged_takeBranch_tail hexec hgauge) hpoised
    (hshows.resolved hresolve) rfl hnode hkind hreads)

omit hexec hgauge

/-- Whatever the limit, evaluation is gauged by the levels that it needs. -/
theorem gauges_execute (operands : Bool) (calls : NodeId → Span) (limit : Nat) :
    Gauges operands calls limit (execute limit) := by
  induction limit with
  | zero =>
    have hzero {id : NodeId} {m : Machine} {needs : Forms → Nat} (hneeds : 0 < needs .most) :
        Gauged operands 0 needs (execute 0 id m) :=
      ⟨fun _ ↦ hneeds, fun hfits ↦ absurd ⟨_, m, rfl⟩ hfits⟩
    exact {
      value := fun _ _ ↦ hzero (Reference.levels_pos ..)
      statements := fun _ _ ↦ hzero (Nat.succ_pos _)
      tail := fun _ htail _ ↦ hzero (by simp only [Reference.statementLevels, htail]; omega) }
  | succ limit ih =>
    have hexec := simulates_execute calls limit
    exact {
      value := fun hpoised hshows ↦ gauged_value hexec ih hpoised hshows
      statements := fun hpoised hshows ↦ gauged_statements hexec ih hpoised hshows
      tail := fun hpoised htail hshows ↦ gauged_tail hexec ih hpoised htail hshows }

/-- A whole program, whose return tails may be recognised. -/
theorem gauged_program {options : CompilationOptions} {source : Expr} (limit : Nat)
    (hpoised : Poised operands calls busy m)
    (hshows : Shows calls busy m.tree id (.ofProgram options source)) :
    Gauged operands limit (fun g ↦ Reference.programLevels g options source m.world)
      (execute limit id m) := by
  have hgauge := gauges_execute operands calls limit
  cases source with
  | block items span =>
    rw [Part.ofProgram] at hshows
    simp only [Reference.programLevels]
    split_ifs at hshows ⊢
    · exact hgauge.statements hpoised hshows
    · exact hgauge.value hpoised hshows
  | _ => exact hgauge.value hpoised hshows

end AdaptiveTree.Eval
