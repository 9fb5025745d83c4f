import AdaptiveTree.Proofs.Simulation.Run
import AdaptiveTree.Proofs.Tree.Building

/-!
What evaluation makes of a machine, whatever its tree looks like. A relation between machines that
adaptations, bindings and records keep to is kept to by everything that is built of them. Two
evaluators that agree in the machines that are met on the way have everything built of them agree.
-/

set_option autoImplicit false
set_option relaxedAutoImplicit false

namespace AdaptiveTree

/-- A relation that every single step of an evaluation keeps to, in machines that fit. -/
structure Machine.Course (fits : Machine → Prop) (leads : Machine → Machine → Prop) : Prop where
  refl : ∀ {m : Machine}, fits m → leads m m
  trans : ∀ {m m' m'' : Machine}, leads m m' → leads m' m'' → leads m m''
  keeps : ∀ {m m' : Machine}, fits m → leads m m' → fits m'
  adapts : ∀ {m : Machine} {t : Tree}, fits m → m.tree.Adapted t → leads m { m with tree := t }
  binds : ∀ {m : Machine} (name : String) (v : Value), fits m → leads m (m.bindValue name v).2
  /-- Calls of host functions and warnings. -/
  records : ∀ {m m' : Machine}, fits m → m'.tree = m.tree → m'.watch = m.watch →
    m'.frame = m.frame → leads m m'

namespace Eval

/-- The two go the same way in a machine, and it leads to the one in which they end. -/
structure Agrees {α : Type} (leads : Machine → Machine → Prop) (m : Machine) (x y : Eval α) :
    Prop where
  same : y m = x m
  leads : leads m (machineOf (x m))

variable {α β : Type} {fits : Machine → Prop} {leads : Machine → Machine → Prop}
  {exec exec' : Evaluator} {m : Machine}

theorem ask_error_eq {question : Tree → Except TreeError α} {e : TreeError}
    (h : question m.tree = .error e) :
    ask question m = .error (.raised (.brokenTree e) .origin) m := by
  rw [ask, h]

section Course

variable (hcourse : Machine.Course fits leads) (hm : fits m)

/-! ### Single steps -/

include hcourse hm

/-- The rest of a computation is met in a machine that fits. -/
theorem Agrees.bind {x y : Eval α} {f g : α → Eval β} (h : Agrees leads m x y)
    (hnext : ∀ a m', x m = .ok a m' → fits m' → Agrees leads m' (f a) (g a)) :
    Agrees leads m (x >>= f) (y >>= g) := by
  obtain ⟨hsame, hleads⟩ := h
  cases hx : x m with
  | ok a m' =>
    rw [hx] at hsame hleads
    obtain ⟨hsame', hleads'⟩ := hnext a m' hx (hcourse.keeps hm hleads)
    constructor
    · rw [bind_eq hsame, bind_eq hx, hsame']
    · rw [bind_eq hx]
      exact hcourse.trans hleads hleads'
  | error exit m' =>
    rw [hx] at hsame hleads
    constructor
    · rw [bind_error_eq hsame, bind_error_eq hx]
    · rw [bind_error_eq hx]
      exact hleads

theorem agrees_pure (a : α) : Agrees leads m (pure a) (pure a) := ⟨rfl, hcourse.refl hm⟩

theorem agrees_throw (exit : Exit) :
    Agrees leads m (throw exit : Eval α) (throw exit) := ⟨rfl, hcourse.refl hm⟩

theorem agrees_fail (node : NodeId) (cause : Fault) :
    Agrees leads m (fail node cause : Eval α) (fail node cause) := ⟨rfl, hcourse.refl hm⟩

theorem agrees_ofResult (node : NodeId) (result : Except Fault α) :
    Agrees leads m (ofResult node result) (ofResult node result) := by
  cases result with
  | ok a => exact agrees_pure hcourse hm a
  | error cause => exact agrees_fail hcourse hm node cause

/-- A question changes nothing, so what follows is met in the same machine. -/
theorem Agrees.ask {question : Tree → Except TreeError α} {f g : α → Eval β}
    (hnext : ∀ a, question m.tree = .ok a → Agrees leads m (f a) (g a)) :
    Agrees leads m (ask question >>= f) (ask question >>= g) := by
  cases h : question m.tree with
  | ok a =>
    obtain ⟨hsame, hleads⟩ := hnext a h
    have hf : (Eval.ask question >>= f) m = f a m := bind_eq (ask_eq h)
    constructor
    · rw [hf, bind_eq (ask_eq h), hsame]
    · rw [hf]
      exact hleads
  | error e =>
    have hf : (Eval.ask question >>= f) m = .error (.raised (.brokenTree e) .origin) m :=
      bind_error_eq (ask_error_eq h)
    constructor
    · rw [hf, bind_error_eq (ask_error_eq h)]
    · rw [hf]
      exact hcourse.refl hm

theorem agrees_edit {e : Edit α} (h : m.tree.Adapted (e.left m.tree)) :
    Agrees leads m (edit e) (edit e) := by
  refine ⟨rfl, ?_⟩
  have hleads := hcourse.adapts hm h
  unfold Edit.left at hleads
  unfold edit
  cases hresult : e m.tree with
  | ok a t | error err t =>
    rw [hresult] at hleads
    exact hleads

theorem agrees_assign (name : String) (v : Value) :
    Agrees leads m (assign name v) (assign name v) := by
  refine ⟨rfl, ?_⟩
  have hleads := hcourse.binds name v hm
  unfold assign
  rcases hbound : m.bindValue name v with ⟨_ | _, m'⟩ <;> rw [hbound] at hleads <;> exact hleads

theorem agrees_callHost (node : NodeId) (f : Definition) (args : List Value) :
    Agrees leads m (callHost node f args) (callHost node f args) := by
  have hleads : leads m (m.callHost f args).2 := hcourse.records hm rfl rfl rfl
  refine ⟨rfl, ?_⟩
  unfold callHost
  cases hresult : m.callHost f args with
  | mk result m' =>
    rw [hresult] at hleads
    cases result with
    | ok | error => exact hleads

theorem agrees_warn (node : NodeId) (code message : String) :
    Agrees leads m (warn node code message) (warn node code message) := by
  have hleads : leads m (m.warn node code message) := hcourse.records hm rfl rfl rfl
  exact ⟨rfl, hleads⟩

/-! ### What evaluates nothing -/

theorem agrees_get : Agrees leads m (get : Eval Machine) get := ⟨rfl, hcourse.refl hm⟩

theorem agrees_read (node : NodeId) (name : String) :
    Agrees leads m (read node name) (read node name) := by
  refine (agrees_get hcourse hm).bind hcourse hm fun now _ _ hm ↦ ?_
  rcases now.frame.value? name with _ | v
  · exact agrees_fail hcourse hm node _
  · exact agrees_pure hcourse hm v

theorem agrees_lookupCallee (node : NodeId) (name : String) :
    Agrees leads m (lookupCallee node name) (lookupCallee node name) := by
  refine (agrees_get hcourse hm).bind hcourse hm fun now _ _ hm ↦ ?_
  rcases now.frame.get? name with _ | ⟨v⟩ | ⟨f⟩
  · rcases Builtin.lookup? name with _ | b
    · exact agrees_fail hcourse hm node _
    · exact agrees_pure hcourse hm _
  · exact agrees_fail hcourse hm node _
  · exact agrees_pure hcourse hm _

theorem agrees_convertObserved (node : NodeId) (v : Value) :
    Agrees leads m (convertObserved node v) (convertObserved node v) := by
  unfold convertObserved
  rcases v.truth? with _ | ⟨truth, _ | _⟩
  · exact agrees_fail hcourse hm node _
  · exact agrees_pure hcourse hm truth
  · exact (agrees_warn hcourse hm node _ _).bind hcourse hm fun _ _ _ hm ↦
      agrees_pure hcourse hm truth

theorem agrees_comparison (cond : NodeId) :
    Agrees leads m (comparison cond) (comparison cond) := by
  refine .ask hcourse hm fun id _ ↦ .ask hcourse hm fun kind _ ↦ ?_
  cases kind with
  | compare => exact agrees_pure hcourse hm _
  | _ => exact agrees_fail hcourse hm id _

end Course

section Nested

variable (hcourse : Machine.Course fits leads)
  (hexec : ∀ id m, fits m → Agrees leads m (exec id) (exec' id))

include hcourse hexec

/-! ### Children in order -/

theorem agrees_values (ids : List NodeId) (hm : fits m) :
    Agrees leads m (values exec ids) (values exec' ids) := by
  induction ids generalizing m with
  | nil => exact agrees_pure hcourse hm []
  | cons id rest ih =>
    rw [values, values]
    exact (hexec id m hm).bind hcourse hm fun v _ _ hm ↦ (ih hm).bind hcourse hm fun vs _ _ hm ↦
      agrees_pure hcourse hm (v :: vs)

theorem agrees_inOrder (last : Value) (ids : List NodeId) (hm : fits m) :
    Agrees leads m (inOrder exec last ids) (inOrder exec' last ids) := by
  induction ids generalizing m last with
  | nil => exact agrees_pure hcourse hm last
  | cons id rest ih =>
    rw [inOrder, inOrder]
    exact (hexec id m hm).bind hcourse hm fun v _ _ hm ↦ ih v hm

theorem agrees_call (node : NodeId) (name : String) (args : List NodeId) (hm : fits m) :
    Agrees leads m (call exec node name args) (call exec' node name args) := by
  refine (agrees_lookupCallee hcourse hm node name).bind hcourse hm fun callee _ _ hm ↦ ?_
  refine (agrees_values hcourse hexec args hm).bind hcourse hm fun given _ _ hm ↦ ?_
  cases callee with
  | host f => exact agrees_callHost hcourse hm node f given
  | builtin b =>
    cases b with
    | ret =>
      exact (agrees_ofResult hcourse hm node _).bind hcourse hm fun v _ _ hm ↦
        agrees_throw hcourse hm (.returned v)
    | _ => exact agrees_ofResult hcourse hm node _

/-! ### Conditions -/

theorem agrees_convert (node : NodeId) (hm : fits m) :
    Agrees leads m (convert exec node) (convert exec' node) := by
  refine .ask hcourse hm fun kind _ ↦ ?_
  cases kind with
  | convert input mode =>
    refine (hexec input m hm).bind hcourse hm fun v m' _ hm ↦ ?_
    rcases Transition.plan? (.convert input mode) none v with _ | transition
    · exact agrees_convertObserved hcourse hm node v
    · cases transition with
      | widenConversion =>
        exact (agrees_edit hcourse hm (.widened node)).bind hcourse hm fun id _ _ hm ↦
          agrees_convertObserved hcourse hm id v
      | _ => exact agrees_convertObserved hcourse hm node v
  | _ => exact agrees_fail hcourse hm node _

theorem agrees_scalarLogical (node : NodeId) (hm : fits m) :
    Agrees leads m (scalarLogical exec node) (scalarLogical exec' node) := by
  refine .ask hcourse hm fun id _ ↦ .ask hcourse hm fun kind _ ↦ ?_
  cases kind with
  | convert =>
    exact (agrees_convert hcourse hexec id hm).bind hcourse hm fun _ _ _ hm ↦
      agrees_pure hcourse hm _
  | _ =>
    refine (hexec id m hm).bind hcourse hm fun v _ _ hm ↦ ?_
    cases v with
    | scalar s => cases s <;> exact agrees_pure hcourse hm _
    | _ => exact agrees_pure hcourse hm _

theorem agrees_presentLogical (node : NodeId) (hm : fits m) :
    Agrees leads m (presentLogical exec node) (presentLogical exec' node) := by
  refine (agrees_scalarLogical hcourse hexec node hm).bind hcourse hm fun sensed _ _ hm ↦ ?_
  cases sensed with
  | hit truth => exact agrees_pure hcourse hm _
  | miss v => exact agrees_pure hcourse hm _

/-! ### Branches -/

theorem agrees_runBody (body : Option NodeId) (hm : fits m) :
    Agrees leads m (runBody exec body) (runBody exec' body) := by
  cases body with
  | none => exact agrees_pure hcourse hm ()
  | some id =>
    exact (hexec id m hm).bind hcourse hm fun _ _ _ hm ↦ agrees_pure hcourse hm ()

theorem agrees_runTail (node : NodeId) (hm : fits m) :
    Agrees leads m (runTail exec node) (runTail exec' node) := by
  refine .ask hcourse hm fun current _ ↦ .ask hcourse hm fun kind _ ↦ ?_
  cases kind with
  | cond form =>
    cases form with
    | returnBuiltin _ _ arg _ => exact hexec arg m hm
    | returnOverridden _ _ call rest =>
      exact (hexec call m hm).bind hcourse hm fun _ m' _ hm ↦ hexec rest m' hm
    | _ => exact agrees_fail hcourse hm node _
  | _ => exact agrees_fail hcourse hm node _

theorem agrees_takeBranch (node : NodeId) (truth : Logical) (hm : fits m) :
    Agrees leads m (takeBranch exec node truth) (takeBranch exec' node truth) := by
  refine .ask hcourse hm fun id _ ↦ ?_
  cases truth.toBool? with
  | none => exact agrees_fail hcourse hm id _
  | some holds =>
    refine .ask hcourse hm fun kind _ ↦ ?_
    cases kind with
    | cond form =>
      cases form with
      | generic | twoBranch | const | specialized => exact hexec _ m hm
      | noElse _ t =>
        cases holds with
        | true => exact hexec t m hm
        | false => exact agrees_pure hcourse hm _
      | returnBuiltin _ body _ rest =>
        cases holds with
        | true =>
          exact (agrees_runBody hcourse hexec body hm).bind hcourse hm fun _ _ _ hm ↦
            agrees_runTail hcourse hexec id hm
        | false => exact hexec rest m hm
      | returnOverridden _ body call rest =>
        cases holds with
        | true =>
          exact (agrees_runBody hcourse hexec body hm).bind hcourse hm fun _ m₁ _ hm ↦
            (hexec call m₁ hm).bind hcourse hm fun _ m₂ _ hm ↦ hexec rest m₂ hm
        | false => exact hexec rest m hm
    | _ => exact agrees_fail hcourse hm id _

end Nested

end Eval

end AdaptiveTree
