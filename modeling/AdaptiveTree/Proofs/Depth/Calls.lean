import AdaptiveTree.Proofs.Depth.Gauged

/-!
The levels of children that are evaluated one after the other: the arguments of a call, the
statements of a block, the condition of a conditional. None of these adds a level of its own.
-/

set_option autoImplicit false
set_option relaxedAutoImplicit false

namespace AdaptiveTree.Eval

variable {operands : Bool} {calls : NodeId → Span} {busy : NodeId → Prop} {limit : Nat}
  {exec : Evaluator} {m : Machine} {id x : NodeId} {n : Node}

section Children

variable (hexec : Simulates calls exec) (hgauge : Gauges operands calls limit exec)

include hexec hgauge

theorem gauged_values (args : List Expr) :
    ∀ {m : Machine} {ids : List NodeId}, Poised operands calls busy m →
      ids.length = args.length →
      (∀ q ∈ ids.zip (args.map .value), Shows calls busy m.tree q.1 q.2) →
      Gauged operands limit (fun g ↦ Reference.levelsEach g args m.world) (values exec ids m) := by
  induction args with
  | nil =>
    intro m ids _ hlength _
    obtain rfl := List.length_eq_zero_iff.mp hlength
    simp only [Reference.levelsEach]
    exact .of_shallow (.pure [])
  | cons e rest ih =>
    intro m ids hpoised hlength hshows
    cases ids with
    | nil => simp at hlength
    | cons id ids =>
      have hfirst := hshows (id, .value e) (List.mem_cons_self ..)
      have hothers : ∀ q ∈ ids.zip (rest.map .value), Shows calls busy m.tree q.1 q.2 :=
        fun q hq ↦ hshows q (List.mem_cons_of_mem _ hq)
      simp only [Reference.levelsEach]
      refine .bind (hexec.value hpoised.ready hfirst) (hgauge.value hpoised hfirst)
        fun v m₁ hlater _ _ ↦ ?_
      exact (ih (hpoised.later hlater) (Nat.succ.inj hlength) fun q hq ↦
        (hothers q hq).later hpoised.ready hlater).before fun vs ↦ .pure (v :: vs)

theorem gauged_inOrder (items : List Expr) :
    ∀ {m : Machine} {ids : List NodeId} (last : Value), Poised operands calls busy m →
      ids.length = items.length →
      (∀ q ∈ ids.zip (items.map .value), Shows calls busy m.tree q.1 q.2) →
      Gauged operands limit (fun g ↦ Reference.levelsEach g items m.world)
        (inOrder exec last ids m) := by
  induction items with
  | nil =>
    intro m ids last _ hlength _
    obtain rfl := List.length_eq_zero_iff.mp hlength
    simp only [Reference.levelsEach]
    exact .of_shallow (.pure last)
  | cons e rest ih =>
    intro m ids last hpoised hlength hshows
    cases ids with
    | nil => simp at hlength
    | cons id ids =>
      have hfirst := hshows (id, .value e) (List.mem_cons_self ..)
      have hothers : ∀ q ∈ ids.zip (rest.map .value), Shows calls busy m.tree q.1 q.2 :=
        fun q hq ↦ hshows q (List.mem_cons_of_mem _ hq)
      simp only [Reference.levelsEach]
      exact .bind (hexec.value hpoised.ready hfirst) (hgauge.value hpoised hfirst)
        fun v m₁ hlater _ _ ↦ ih v (hpoised.later hlater) (Nat.succ.inj hlength) fun q hq ↦
          (hothers q hq).later hpoised.ready hlater

theorem gauged_call (hpoised : Poised operands calls busy m) {name : String} {args : List Expr}
    {span : Span} {ids : List NodeId}
    (hshows : Shows calls busy m.tree id (.value (.call name args span)))
    (hlength : ids.length = args.length)
    (hargs : ∀ q ∈ ids.zip (args.map .value), Shows calls busy m.tree q.1 q.2) :
    Gauged operands limit
      (fun g ↦ Reference.after (fun _ w ↦ Reference.levelsEach g args w)
        (Reference.lookupCallee span name m.world))
      (call exec id name ids m) := by
  refine .behind (follows_lookupCallee hpoised.ready hshows name) (.lookupCallee id name)
    fun callee m₁ hlater _ ↦ ?_
  refine (gauged_values hexec hgauge args (hpoised.later hlater) hlength fun q hq ↦
    (hargs q hq).later hpoised.ready hlater).before fun given ↦ ?_
  cases callee with
  | host f => exact .callHost id f given
  | builtin b =>
    cases b with
    | ret => exact (Shallow.ofResult id _).bind fun v m ⟨_, _, h⟩ ↦ nomatch h
    | combine | length | isNA => exact .ofResult id _

end Children

/-! ### Conditions -/

section Conditions

variable (hgauge : Gauges operands calls limit exec)

include hgauge

theorem gauged_convert (hpoised : Poised operands calls busy m) {e : Expr} {input : NodeId}
    {mode : ConvertMode} (hx : m.tree.node? x = some n) (hkind : n.kind = .convert input mode)
    (hshows : Shows calls busy m.tree x (.test e)) :
    Gauged operands limit (fun g ↦ Reference.levels g false e m.world) (convert exec x m) := by
  obtain ⟨parts, _, hfits, hbelow⟩ := hshows.children_at hpoised.ready.sound.forest hx
  rw [hkind] at hfits hbelow
  obtain rfl := hfits.parts_of_convert
  have hinput := (hbelow (input, .value e) (List.mem_singleton.mpr rfl)).outside
  unfold convert
  rw [bind_eq (ask_eq (Tree.kind_eq hx)), hkind]
  refine (hgauge.value hpoised hinput).before fun v ↦ ?_
  split
  · exact (Shallow.edit _).bind fun new ↦ .convertObserved new v
  · exact .convertObserved x v

theorem gauged_scalarLogical (hpoised : Poised operands calls busy m) {e : Expr}
    (hshows : Shows calls busy m.tree id (.test e)) :
    Gauged operands limit (fun g ↦ Reference.levels g false e m.world)
      (scalarLogical exec id m) := by
  obtain ⟨x, n, hresolve, hnode, _⟩ := hshows.exists_node?
  have hshows' := hshows.resolved hresolve
  unfold scalarLogical
  rw [bind_eq (ask_eq hresolve), bind_eq (ask_eq (Tree.kind_eq hnode))]
  cases hkind : n.kind with
  | convert input mode =>
    exact (gauged_convert hgauge hpoised hnode hkind hshows').before fun l ↦ .pure _
  | _ =>
    have hvalue := hshows'.value (Tree.resolve_of_node? hnode) hnode (by rw [hkind]; rfl)
    refine (hgauge.value hpoised hvalue).before fun v ↦ ?_
    split <;> exact .pure _

theorem gauged_presentLogical (hpoised : Poised operands calls busy m) {e : Expr}
    (hshows : Shows calls busy m.tree id (.test e)) :
    Gauged operands limit (fun g ↦ Reference.levels g false e m.world)
      (presentLogical exec id m) := by
  refine (gauged_scalarLogical hgauge hpoised hshows).before fun s ↦ ?_
  cases s <;> exact .pure _

end Conditions

end AdaptiveTree.Eval
