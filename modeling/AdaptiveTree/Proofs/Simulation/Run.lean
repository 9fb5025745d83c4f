import AdaptiveTree.Proofs.Simulation.Conditional

/-!
Evaluation under any limit follows the reference. The statement is proved of evaluation that may
also be broken off right after a name was bound, in any machine one chooses, so what it says of
the machine at the end of an evaluation it says of every machine on the way.
-/

set_option autoImplicit false
set_option relaxedAutoImplicit false

namespace AdaptiveTree

namespace Eval

/-- Evaluates a node as `step` does, but leaves after a binding that leads to a machine to stop
in, as if the limit had been reached there. -/
def stepUntil (stop : Machine → Bool) (exec : Evaluator) (node : NodeId) : Eval Value := do
  let id ← ask (·.resolve node)
  match ← ask (·.kind id) with
  | .assign name value =>
    let v ← exec value
    assign name v
    if stop (← get) then throw (.tooDeep .origin) else return v
  | _ => step exec node

def executeUntil (stop : Machine → Bool) : Nat → Evaluator
  | 0, node => fun m ↦ .error (.tooDeep (m.spanOf node)) m
  | limit + 1, node => stepUntil stop (executeUntil stop limit) node

variable {stop : Machine → Bool} {calls : NodeId → Span} {busy : NodeId → Prop}
  {exec : Evaluator} {m : Machine} {id x : NodeId} {n : Node}

/-- What is evaluated at a live node. -/
def evaluated (stop : Machine → Bool) (exec : Evaluator) (x : NodeId) : NodeKind → Eval Value
  | .constant v => return v
  | .read name => read x name
  | .assign name value => do
    let v ← exec value
    assign name v
    if stop (← get) then throw (.tooDeep .origin) else return v
  | .sequence items => inOrder exec .null items
  | .unary op operand => do return op.apply (← exec operand)
  | .compare op left right => do
    let a ← exec left
    let b ← exec right
    return a.compareWith op b
  | .call name args => call exec x name args
  | .convert .. => do return .scalar (.logical (← convert exec x))
  | .cond form => conditional exec x form

theorem stepUntil_eq (hresolve : m.tree.resolve id = .ok x) (hnode : m.tree.node? x = some n) :
    stepUntil stop exec id m = evaluated stop exec x n.kind m := by
  unfold stepUntil
  rw [bind_eq (ask_eq hresolve), bind_eq (ask_eq (Tree.kind_eq hnode))]
  cases hkind : n.kind with
  | assign => rfl
  | constant | read | sequence | unary | compare | call | convert | cond =>
    show step exec id m = _
    unfold step
    rw [bind_eq (ask_eq hresolve), bind_eq (ask_eq (Tree.kind_eq hnode)), hkind]
    rfl

theorem stepUntil_never (exec : Evaluator) : stepUntil (fun _ ↦ false) exec = step exec := by
  funext node m
  cases hresolve : m.tree.resolve node with
  | error e =>
    have hask : ask (·.resolve node) m = .error (.raised (.brokenTree e) .origin) m := by
      rw [ask, hresolve]
    unfold stepUntil step
    rw [bind_error_eq hask, bind_error_eq hask]
  | ok x =>
    obtain ⟨n, hnode⟩ := Tree.exists_node?_of_resolve hresolve
    unfold step
    rw [stepUntil_eq hresolve hnode, bind_eq (ask_eq hresolve),
      bind_eq (ask_eq (Tree.kind_eq hnode))]
    cases n.kind <;> rfl

/-- Evaluation that is never broken off is evaluation. -/
theorem executeUntil_never (limit : Nat) : executeUntil (fun _ ↦ false) limit = execute limit := by
  induction limit with
  | zero => rfl
  | succ limit ih =>
    funext node
    rw [executeUntil, execute, ih, stepUntil_never]

/-! ### One level -/

theorem follows_inOrder_statements (hexec : Simulates calls exec) (items : List Expr) :
    ∀ {m : Machine} {ids : List NodeId} (last : Value), Ready calls busy m →
      ids.length = (Part.ofStatements items).length →
      (∀ q ∈ ids.zip (Part.ofStatements items), Shows calls busy m.tree q.1 q.2) →
      Follows calls busy (Concluded items) m (Reference.inOrder last items m.world)
        (inOrder exec last ids m) := by
  induction items with
  | nil =>
    intro m ids last hready hlength _
    obtain rfl := List.length_eq_zero_iff.mp hlength
    rw [Reference.inOrder]
    exact .ok (.refl hready.sound) (Or.inl ⟨last, rfl, rfl⟩)
  | cons e rest ih =>
    intro m ids last hready hlength hshows
    rw [Part.ofStatements] at hlength hshows
    cases htail : e.returnTail? with
    | some t =>
      rw [htail] at hlength hshows
      obtain ⟨id, rfl⟩ := List.length_eq_one_iff.mp hlength
      have hid := hshows (id, _) (List.mem_cons_self ..)
      have hsingle : inOrder exec last [id] m = exec id m := by
        have hpure : inOrder exec last [id] = exec id := by
          rw [inOrder]
          simp only [inOrder, bind_pure]
        rw [hpure]
      have hlast : Reference.inOrder last (e :: rest) = Reference.inOrder .null (e :: rest) := by
        rw [Reference.inOrder, Reference.inOrder]
      rw [hsingle, hlast]
      exact hexec.tail hready htail hid
    | none =>
      rw [htail] at hlength hshows
      cases ids with
      | nil => simp at hlength
      | cons id ids =>
        have hfirst := hshows (id, .value e) (List.mem_cons_self ..)
        have hothers : ∀ q ∈ ids.zip (Part.ofStatements rest), Shows calls busy m.tree q.1 q.2 :=
          fun q hq ↦ hshows q (List.mem_cons_of_mem _ hq)
        have hends : Expr.endsWithTail (e :: rest) = Expr.endsWithTail rest := by
          cases rest with
          | nil => simp [Expr.endsWithTail, htail]
          | cons d others => exact Expr.endsWithTail_cons_cons e d others
        have hconcluded : Concluded (e :: rest) = Concluded rest := by
          unfold Concluded
          rw [hends]
        rw [hconcluded, Reference.inOrder, inOrder]
        exact .bind (hexec.value hready hfirst) fun v m₁ hlater _ ↦
          ih v (hready.later hlater) (Nat.succ.inj hlength) fun q hq ↦
            (hothers q hq).later hready hlater

theorem follows_branches (hexec : Simulates calls exec) (hready : Ready calls busy m)
    {source cond thenBranch elseBranch : Expr} {form : Conditional}
    (hsource : source.Branches cond thenBranch elseBranch)
    (hshows : Shows calls busy m.tree x (.value source)) (hnode : m.tree.node? x = some n)
    (hkind : n.kind = .cond form) :
    Follows calls busy Same m (Reference.expr source m.world) (conditional exec x form m) := by
  have hcondition : (Part.value source).condition? = some cond := by cases hsource <;> rfl
  rw [Reference.expr_of_branches hsource]
  exact follows_conditional hexec
    (fun truth hready hshows ↦ follows_takeBranch hexec hready hsource hshows truth)
    hready hshows hcondition hnode hkind

theorem follows_value (hexec : Simulates calls exec) (hready : Ready calls busy m) {e : Expr}
    (hshows : Shows calls busy m.tree id (.value e)) :
    Follows calls busy Same m (Reference.expr e m.world) (stepUntil stop exec id m) := by
  obtain ⟨x, ⟨kind, span, parent⟩, parts, hresolve, hnode, _, hfits, hbelow⟩ :=
    hshows.children hready.sound.forest
  have hinside : ∀ y, busy y → Shows.inside busy x y := fun _ hy ↦ Or.inl hy
  have hshows' := hshows.resolved hresolve
  have hbelow' : ∀ q ∈ kind.children.zip parts, Shows calls busy m.tree q.1 q.2 := fun q hq ↦
    (hbelow q hq).mono hinside
  rw [stepUntil_eq hresolve hnode]
  cases hfits with
  | literal l =>
    rw [Reference.expr]
    exact .pure hready.sound
  | ident name =>
    rw [Reference.expr]
    exact follows_read hready hshows' name
  | unary op operand e =>
    rw [Reference.expr]
    exact .bind (hexec.value hready (hbelow' (operand, .value e) (List.mem_singleton.mpr rfl)))
      fun v m₁ hlater _ ↦ .pure hlater.sound
  | compare op l r left right =>
    have hl := hbelow' (l, .value left) (by simp [NodeKind.children])
    have hr := hbelow' (r, .value right) (by simp [NodeKind.children])
    rw [Reference.expr]
    refine .bind (hexec.value hready hl) fun a m₁ hlater _ ↦ ?_
    refine .bind (hexec.value (hready.later hlater) (hr.later hready hlater))
      fun b m₂ hlater₂ _ ↦ ?_
    exact .pure hlater₂.sound
  | call name ids args _ hlength => exact follows_call hexec hready hshows' hlength hbelow'
  | assign name operand e =>
    rw [Reference.expr]
    refine .bind (hexec.value hready (hbelow' (operand, .value e) (List.mem_singleton.mpr rfl)))
      fun v m₁ hlater _ ↦ ?_
    refine .bind (follows_assign (hready.later hlater) name v) fun _ m₂ hlater₂ _ ↦ ?_
    have hget : (get : Eval Machine) m₂ = .ok m₂ m₂ := rfl
    rw [bind_eq hget]
    cases hstop : stop m₂ with
    | true => exact .tooDeep (.refl hlater₂.sound)
    | false => exact .pure hlater₂.sound
  | block ids items _ hlength =>
    rw [Reference.expr]
    exact follows_inOrder hexec items .null hready hlength hbelow'
  | generic _ _ _ hsource | const _ _ _ hsource | specialized _ _ _ hsource =>
    exact follows_branches hexec hready hsource hshows' hnode rfl
  | noElse _ _ cond t =>
    exact follows_branches hexec hready (.missing cond t span) hshows' hnode rfl
  | twoBranch _ _ _ cond t e =>
    exact follows_branches hexec hready (.present cond t e span) hshows' hnode rfl

theorem follows_statements (hexec : Simulates calls exec) (hready : Ready calls busy m)
    {items : List Expr} {span : Span}
    (hshows : Shows calls busy m.tree id (.statements items span)) :
    Follows calls busy (Concluded items) m (Reference.inOrder .null items m.world)
      (stepUntil stop exec id m) := by
  obtain ⟨x, ⟨kind, span', parent⟩, parts, hresolve, hnode, _, hfits, hbelow⟩ :=
    hshows.children hready.sound.forest
  rw [stepUntil_eq hresolve hnode]
  cases hfits with
  | statements ids _ _ hlength =>
    exact follows_inOrder_statements hexec items .null hready hlength fun q hq ↦
      (hbelow q hq).mono fun _ hy ↦ Or.inl hy

theorem follows_tail (hexec : Simulates calls exec) (hready : Ready calls busy m) {e : Expr}
    {rest : List Expr} {t : Expr.ReturnTail} {restSpan : Span} (htail : e.returnTail? = some t)
    (hshows : Shows calls busy m.tree id (.tail t rest restSpan e.span)) :
    Follows calls busy (Concluded (e :: rest)) m
      (Reference.inOrder .null (e :: rest) m.world) (stepUntil stop exec id m) := by
  obtain ⟨x, n, parts, hresolve, hnode, _, hfits, _⟩ := hshows.children hready.sound.forest
  obtain ⟨form, hkind, _⟩ := hfits.zip_of_condition (c := t.cond) rfl
  rw [stepUntil_eq hresolve hnode, hkind, Reference.inOrder, Reference.expr_of_tail htail,
    bind_assoc]
  exact follows_conditional hexec
    (fun truth hready hshows ↦ follows_takeBranch_tail hexec hready htail hshows truth)
    hready (hshows.resolved hresolve) rfl hnode hkind

/-- Whatever the limit, evaluation follows the reference. -/
theorem simulates_executeUntil (calls : NodeId → Span) (stop : Machine → Bool) (limit : Nat) :
    Simulates calls (executeUntil stop limit) := by
  induction limit with
  | zero =>
    constructor
    · intro busy m id e hready _
      exact .tooDeep (.refl hready.sound)
    · intro busy m id items span hready _
      exact .tooDeep (.refl hready.sound)
    · intro busy m id e rest t restSpan hready _ _
      exact .tooDeep (.refl hready.sound)
  | succ limit ih =>
    constructor
    · intro busy m id e hready hshows
      exact follows_value ih hready hshows
    · intro busy m id items span hready hshows
      exact follows_statements ih hready hshows
    · intro busy m id e rest t restSpan hready htail hshows
      exact follows_tail ih hready htail hshows

theorem simulates_execute (calls : NodeId → Span) (limit : Nat) :
    Simulates calls (execute limit) := by
  rw [← executeUntil_never]
  exact simulates_executeUntil calls _ limit

end Eval

end AdaptiveTree
