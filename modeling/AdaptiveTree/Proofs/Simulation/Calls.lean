import AdaptiveTree.Proofs.Simulation.Follows

/-!
Evaluation of the nodes that are no conditionals. What follows the reference for the children of
a node also does so for sequences, argument lists and calls of them.
-/

set_option autoImplicit false
set_option relaxedAutoImplicit false

namespace AdaptiveTree

/-- The statements of a program end with a recognised return tail. -/
def Expr.endsWithTail (items : List Expr) : Bool :=
  (items.getLast?.bind Expr.returnTail?).isSome

theorem Expr.endsWithTail_cons_cons (e d : Expr) (rest : List Expr) :
    endsWithTail (e :: d :: rest) = endsWithTail (d :: rest) := by
  rw [endsWithTail, List.getLast?_cons_cons]
  rfl

/-- What the statements of a program come to on the machine. A return tail that ends the program
there gives its value like any statement, and the statements behind a tail give the value of
all, which is nothing if there are none. -/
def Concluded (items : List Expr) (reference : EStateM.Result Halt World Value) (v : Value)
    (w : World) : Prop :=
  (∃ v', reference = .ok v' w ∧ v = if Expr.endsWithTail items then .null else v') ∨
    reference = .error (.returned v) w

/-- The evaluation of nested nodes follows the reference. -/
structure Simulates (calls : NodeId → Span) (exec : Evaluator) : Prop where
  value : ∀ {busy : NodeId → Prop} {m : Machine} {id : NodeId} {e : Expr},
    Ready calls busy m → Shows calls busy m.tree id (.value e) →
    Follows calls busy Same m (Reference.expr e m.world) (exec id m)
  statements : ∀ {busy : NodeId → Prop} {m : Machine} {id : NodeId} {items : List Expr}
    {span : Span}, Ready calls busy m → Shows calls busy m.tree id (.statements items span) →
    Follows calls busy (Concluded items) m (Reference.inOrder .null items m.world) (exec id m)
  tail : ∀ {busy : NodeId → Prop} {m : Machine} {id : NodeId} {e : Expr} {rest : List Expr}
    {t : Expr.ReturnTail} {restSpan : Span}, Ready calls busy m → e.returnTail? = some t →
    Shows calls busy m.tree id (.tail t rest restSpan e.span) →
    Follows calls busy (Concluded (e :: rest)) m
      (Reference.inOrder .null (e :: rest) m.world) (exec id m)

namespace Eval

variable {calls : NodeId → Span} {busy : NodeId → Prop} {exec : Evaluator} {m : Machine}
  {id : NodeId} {part : Part}

theorem follows_values (hexec : Simulates calls exec) (args : List Expr) :
    ∀ {m : Machine} {ids : List NodeId}, Ready calls busy m → ids.length = args.length →
      (∀ q ∈ ids.zip (args.map .value), Shows calls busy m.tree q.1 q.2) →
      Follows calls busy Same m (Reference.each args m.world) (values exec ids m) := by
  induction args with
  | nil =>
    intro m ids hready hlength _
    obtain rfl := List.length_eq_zero_iff.mp hlength
    exact .pure hready.sound
  | cons e rest ih =>
    intro m ids hready hlength hshows
    cases ids with
    | nil => simp at hlength
    | cons id ids =>
      have hfirst := hshows (id, .value e) (List.mem_cons_self ..)
      have hothers : ∀ q ∈ ids.zip (rest.map .value), Shows calls busy m.tree q.1 q.2 :=
        fun q hq ↦ hshows q (List.mem_cons_of_mem _ hq)
      rw [Reference.each, values]
      refine .bind (hexec.value hready hfirst) fun v m₁ hlater _ ↦ ?_
      refine .bind (ih (hready.later hlater) (Nat.succ.inj hlength) fun q hq ↦
        (hothers q hq).later hready hlater) fun vs m₂ hlater₂ _ ↦ ?_
      exact .pure hlater₂.sound

theorem follows_inOrder (hexec : Simulates calls exec) (items : List Expr) :
    ∀ {m : Machine} {ids : List NodeId} (last : Value), Ready calls busy m →
      ids.length = items.length →
      (∀ q ∈ ids.zip (items.map .value), Shows calls busy m.tree q.1 q.2) →
      Follows calls busy Same m (Reference.inOrder last items m.world)
        (inOrder exec last ids m) := by
  induction items with
  | nil =>
    intro m ids last hready hlength _
    obtain rfl := List.length_eq_zero_iff.mp hlength
    exact .pure hready.sound
  | cons e rest ih =>
    intro m ids last hready hlength hshows
    cases ids with
    | nil => simp at hlength
    | cons id ids =>
      have hfirst := hshows (id, .value e) (List.mem_cons_self ..)
      have hothers : ∀ q ∈ ids.zip (rest.map .value), Shows calls busy m.tree q.1 q.2 :=
        fun q hq ↦ hshows q (List.mem_cons_of_mem _ hq)
      rw [Reference.inOrder, inOrder]
      exact .bind (hexec.value hready hfirst) fun v m₁ hlater _ ↦
        ih v (hready.later hlater) (Nat.succ.inj hlength) fun q hq ↦
          (hothers q hq).later hready hlater

/-! ### Names and calls -/

theorem follows_fail {α : Type} (hready : Ready calls busy m)
    (hshows : Shows calls busy m.tree id part) (cause : Fault) :
    Follows calls busy Same m ((Reference.fail part.span cause : Reference.Run α) m.world)
      ((fail id cause : Eval α) m) := by
  rw [hshows.fail_eq cause]
  exact .raised (.refl hready.sound) rfl

theorem follows_ofResult {α : Type} (hready : Ready calls busy m)
    (hshows : Shows calls busy m.tree id part) (result : Except Fault α) :
    Follows calls busy Same m (Reference.ofResult part.span result m.world)
      (ofResult id result m) := by
  cases result with
  | ok a => exact .pure hready.sound
  | error cause => exact follows_fail hready hshows cause

theorem follows_read (hready : Ready calls busy m) (hshows : Shows calls busy m.tree id part)
    (name : String) :
    Follows calls busy Same m (Reference.read part.span name m.world) (read id name m) := by
  have hget : (get : Eval Machine) m = .ok m m := rfl
  have hget' : (get : Reference.Run World) m.world = .ok m.world m.world := rfl
  have hframe : m.world.frame = m.frame := rfl
  unfold read Reference.read
  rw [bind_eq hget, Reference.bind_eq hget', hframe]
  rcases m.frame.value? name with _ | v
  · exact follows_fail hready hshows _
  · exact .pure hready.sound

theorem follows_lookupCallee (hready : Ready calls busy m)
    (hshows : Shows calls busy m.tree id part) (name : String) :
    Follows calls busy Same m (Reference.lookupCallee part.span name m.world)
      (lookupCallee id name m) := by
  have hget : (get : Eval Machine) m = .ok m m := rfl
  have hget' : (get : Reference.Run World) m.world = .ok m.world m.world := rfl
  have hframe : m.world.frame = m.frame := rfl
  unfold lookupCallee Reference.lookupCallee
  rw [bind_eq hget, Reference.bind_eq hget', hframe]
  rcases m.frame.get? name with _ | ⟨v⟩ | ⟨f⟩
  · rcases Builtin.lookup? name with _ | b
    · exact follows_fail hready hshows _
    · exact .pure hready.sound
  · exact follows_fail hready hshows _
  · exact .pure hready.sound

theorem follows_callHost (hready : Ready calls busy m)
    (hshows : Shows calls busy m.tree id part) (f : Definition) (given : List Value) :
    Follows calls busy Same m (Reference.callHost part.span f given m.world)
      (callHost id f given m) := by
  let m' : Machine := { m with hostCalls := ⟨f.serial, given⟩ :: m.hostCalls }
  have hlater : Machine.Later calls busy m m' :=
    ⟨hready.sound.congr rfl rfl rfl, Relation.ReflTransGen.refl, rfl, fun _ _ hf ↦ hf⟩
  have hshows' : Shows calls busy m'.tree id part := hshows
  exact (follows_ofResult (hready.later hlater) hshows'
    (f.function.answer (m.history f.serial) given)).after hlater

theorem follows_call (hexec : Simulates calls exec) (hready : Ready calls busy m) {name : String}
    {args : List Expr} {span : Span} {ids : List NodeId}
    (hshows : Shows calls busy m.tree id (.value (.call name args span)))
    (hlength : ids.length = args.length)
    (hargs : ∀ q ∈ ids.zip (args.map .value), Shows calls busy m.tree q.1 q.2) :
    Follows calls busy Same m (Reference.expr (.call name args span) m.world)
      (call exec id name ids m) := by
  rw [Reference.expr]
  unfold call
  refine .bind (follows_lookupCallee hready hshows name) fun callee m₁ hlater _ ↦ ?_
  have hready₁ := hready.later hlater
  refine .bind (follows_values hexec args hready₁ hlength fun q hq ↦
    (hargs q hq).later hready hlater) fun given m₂ hlater₂ _ ↦ ?_
  have hready₂ := hready₁.later hlater₂
  have hshows₂ := (hshows.later hready hlater).later hready₁ hlater₂
  cases callee with
  | host f => exact follows_callHost hready₂ hshows₂ f given
  | builtin b =>
    cases b with
    | ret =>
      refine .bind (follows_ofResult hready₂ hshows₂ (Builtin.returnValue given))
        fun v m₃ hlater₃ _ ↦ ?_
      exact .returned (.refl hlater₃.sound) rfl
    | combine => exact follows_ofResult hready₂ hshows₂ (Builtin.combine.answer given)
    | length => exact follows_ofResult hready₂ hshows₂ (Builtin.length.answer given)
    | isNA => exact follows_ofResult hready₂ hshows₂ (Builtin.isNA.answer given)

theorem follows_assign (hready : Ready calls busy m) (name : String) (v : Value) :
    Follows calls busy Same m (Reference.assign name v m.world) (assign name v m) := by
  obtain ⟨m', hbind, hlater, hworld⟩ := hready.sound.bindValue name v busy
  have hassign : assign name v m = .ok () m' := by
    unfold assign
    rw [hbind]
  rw [hassign]
  exact .ok hlater (congrArg (EStateM.Result.ok ()) hworld.symm)

end Eval

end AdaptiveTree
