import AdaptiveTree.Proofs.Fault
import AdaptiveTree.Proofs.Reference.Statements

/-!
Evaluation in two worlds. If a relation between worlds is kept by whatever evaluation does to a
world at one time, by a binding, a warning or the call of a host function, it is kept by the
evaluation of every expression, which moreover comes to the same result in both worlds.
-/

set_option autoImplicit false
set_option relaxedAutoImplicit false

namespace AdaptiveTree

/-- What a name means in two worlds: nothing, one value, or functions that belong together. -/
inductive Binding.Linked (callee : Definition → Definition → Prop) :
    Option Binding → Option Binding → Prop
  | absent : Linked callee none none
  | value (v : Value) : Linked callee (some (.value v)) (some (.value v))
  | function {f f' : Definition} (h : callee f f') :
    Linked callee (some (.function f)) (some (.function f'))

/-- The world in which a host function was called. -/
def World.called (w : World) (f : Definition) (args : List Value) : World :=
  { w with hostCalls := ⟨f.serial, args⟩ :: w.hostCalls }

/-- A relation between worlds that evaluation keeps. `callee` tells which functions belong
together, and `fault` what they and evaluation itself may raise. -/
structure Bridge (alike : World → World → Prop) (callee : Definition → Definition → Prop)
    (fault : Fault → Prop) : Prop where
  linked : ∀ {w w' : World}, alike w w' → ∀ name,
    Binding.Linked callee (w.frame.get? name) (w'.frame.get? name)
  bind : ∀ {w w' : World}, alike w w' → ∀ name v,
    alike (w.bind name (.value v)) (w'.bind name (.value v))
  warn : ∀ {w w' : World}, alike w w' → ∀ span code message,
    alike (w.warn span code message) (w'.warn span code message)
  called : ∀ {w w' : World} {f f' : Definition}, alike w w' → callee f f' → ∀ args,
    alike (w.called f args) (w'.called f' args)
  answer : ∀ {w w' : World} {f f' : Definition}, alike w w' → callee f f' → ∀ args,
    f.function.answer (w.history f.serial) args = f'.function.answer (w'.history f'.serial) args
  raises : ∀ {f f' : Definition}, callee f f' → ∀ past args cause,
    f.function.answer past args = .error cause → fault cause
  own : ∀ cause, cause.isInternal = false → fault cause

/-- Runs that end in the same way and in worlds that are alike. -/
inductive Matches {α β : Type} (alike : World → World → Prop) (fault : Fault → Prop)
    (same : α → β → Prop) :
    EStateM.Result Halt World α → EStateM.Result Halt World β → Prop
  | ok {a : α} {b : β} {w w' : World} (halike : alike w w') (hsame : same a b) :
    Matches alike fault same (.ok a w) (.ok b w')
  | raised {cause : Fault} {span : Span} {w w' : World} (halike : alike w w')
      (hfault : fault cause) :
    Matches alike fault same (.error (.raised cause span) w) (.error (.raised cause span) w')
  | returned {v : Value} {w w' : World} (halike : alike w w') :
    Matches alike fault same (.error (.returned v) w) (.error (.returned v) w')

namespace Reference

variable {alike : World → World → Prop} {callee : Definition → Definition → Prop}
  {fault : Fault → Prop} {w w' : World}

theorem matches_bind {α β γ δ : Type} {same : γ → δ → Prop} {same' : α → β → Prop}
    {x : Run γ} {y : Run δ} {f : γ → Run α} {g : δ → Run β}
    (hx : Matches alike fault same (x w) (y w'))
    (hf : ∀ a b w w', alike w w' → same a b → Matches alike fault same' (f a w) (g b w')) :
    Matches alike fault same' ((x >>= f) w) ((y >>= g) w') := by
  show Matches alike fault same' (EStateM.bind x f w) (EStateM.bind y g w')
  unfold EStateM.bind
  revert hx
  generalize x w = result
  generalize y w' = result'
  intro hx
  cases hx with
  | ok halike hsame => exact hf _ _ _ _ halike hsame
  | raised halike hfault => exact .raised halike hfault
  | returned halike => exact .returned halike

/-- Both runs go on with the same value. -/
theorem matches_then {α γ : Type} {x : Run γ} {f : γ → Run α}
    (hx : Matches alike fault Eq (x w) (x w'))
    (hf : ∀ a w w', alike w w' → Matches alike fault Eq (f a w) (f a w')) :
    Matches alike fault Eq ((x >>= f) w) ((x >>= f) w') :=
  matches_bind hx fun a _ _ _ halike hsame ↦ hsame ▸ hf a _ _ halike

/-! ### Single steps -/

/-- What is called in both worlds. -/
inductive SameCallee (callee : Definition → Definition → Prop) : Eval.Callee → Eval.Callee → Prop
  | host {f f' : Definition} (h : callee f f') : SameCallee callee (.host f) (.host f')
  | builtin (b : Builtin) : SameCallee callee (.builtin b) (.builtin b)

theorem matches_ofResult {α : Type} (span : Span) {result : Except Fault α}
    (halike : alike w w') (hfault : ∀ cause, result = .error cause → fault cause) :
    Matches alike fault Eq (ofResult span result w) (ofResult span result w') := by
  cases result with
  | ok a => exact .ok halike rfl
  | error cause => exact .raised halike (hfault cause rfl)

section

variable (hbridge : Bridge alike callee fault)

include hbridge

theorem matches_read (span : Span) (name : String) (halike : alike w w') :
    Matches alike fault Eq (read span name w) (read span name w') := by
  have hlinked := hbridge.linked halike name
  have hget (w : World) : (get : Run World) w = .ok w w := rfl
  rw [read, bind_eq (hget w), bind_eq (hget w')]
  unfold Frame.value?
  revert hlinked
  generalize w.frame.get? name = binding
  generalize w'.frame.get? name = binding'
  intro hlinked
  cases hlinked with
  | value v => exact .ok halike rfl
  | absent => exact .raised halike (hbridge.own _ rfl)
  | function => exact .raised halike (hbridge.own _ rfl)

theorem matches_lookupCallee (span : Span) (name : String) (halike : alike w w') :
    Matches alike fault (SameCallee callee) (lookupCallee span name w)
      (lookupCallee span name w') := by
  have hlinked := hbridge.linked halike name
  have hget (w : World) : (get : Run World) w = .ok w w := rfl
  rw [lookupCallee, bind_eq (hget w), bind_eq (hget w')]
  revert hlinked
  generalize w.frame.get? name = binding
  generalize w'.frame.get? name = binding'
  intro hlinked
  cases hlinked with
  | value v => exact .raised halike (hbridge.own _ rfl)
  | function h => exact .ok halike (.host h)
  | absent =>
    dsimp only
    rcases Builtin.lookup? name with _ | b
    · exact .raised halike (hbridge.own _ rfl)
    · exact .ok halike (.builtin b)

theorem matches_callHost (span : Span) {f f' : Definition} (args : List Value)
    (halike : alike w w') (hcallee : callee f f') :
    Matches alike fault Eq (callHost span f args w) (callHost span f' args w') := by
  have hcall (f : Definition) (w : World) : callHost span f args w =
      ofResult span (f.function.answer (w.history f.serial) args) (w.called f args) := rfl
  rw [hcall, hcall, ← hbridge.answer halike hcallee args]
  exact matches_ofResult span (hbridge.called halike hcallee args) fun cause hcause ↦
    hbridge.raises hcallee _ _ cause hcause

theorem matches_apply (span : Span) (given : List Value) {c c' : Eval.Callee}
    (halike : alike w w') (hcallee : SameCallee callee c c') :
    Matches alike fault Eq (apply span given c w) (apply span given c' w') := by
  cases hcallee with
  | host h => exact matches_callHost hbridge span given halike h
  | builtin b =>
    have hanswer {w w' : World} (halike : alike w w') :
        Matches alike fault Eq (ofResult span (b.answer given) w)
          (ofResult span (b.answer given) w') := by
      refine matches_ofResult span halike fun cause hcause ↦ hbridge.own cause ?_
      obtain ⟨function, message, rfl⟩ := Builtin.exists_invalidArgument hcause
      rfl
    cases b with
    | ret => exact matches_then (hanswer halike) fun v w w' halike ↦ .returned halike
    | combine | length | isNA => exact hanswer halike

theorem matches_truth (span : Span) (v : Value) (halike : alike w w') :
    Matches alike fault Eq (truth span v w) (truth span v w') := by
  unfold truth
  rcases v.truth? with _ | ⟨l, _ | length⟩
  · exact .raised halike (hbridge.own _ rfl)
  · exact .ok halike rfl
  · exact .ok (hbridge.warn halike span _ _) rfl

theorem matches_choose (span : Span) (l : Logical) {x y : Run Value}
    (hx : ∀ w w', alike w w' → Matches alike fault Eq (x w) (x w'))
    (hy : ∀ w w', alike w w' → Matches alike fault Eq (y w) (y w')) (halike : alike w w') :
    Matches alike fault Eq (choose span x y l w) (choose span x y l w') := by
  unfold choose
  rcases l.toBool? with _ | _ | _
  · exact .raised halike (hbridge.own _ rfl)
  · exact hy _ _ halike
  · exact hx _ _ halike

end

/-! ### Expressions -/

mutual

/-- Worlds that are alike stay alike, and both give the same result. -/
theorem matches_expr (hbridge : Bridge alike callee fault) :
    (e : Expr) → (w w' : World) → alike w w' →
      Matches alike fault Eq (expr e w) (expr e w')
  | .literal l _, w, w', halike => by
    rw [expr]
    exact .ok halike rfl
  | .ident name span, w, w', halike => by
    rw [expr]
    exact matches_read hbridge span name halike
  | .unary op e _, w, w', halike => by
    rw [expr]
    exact matches_then (matches_expr hbridge e w w' halike) fun v w w' halike ↦ .ok halike rfl
  | .compare op left right _, w, w', halike => by
    rw [expr]
    refine matches_then (matches_expr hbridge left w w' halike) fun a w w' halike ↦ ?_
    exact matches_then (matches_expr hbridge right w w' halike) fun b w w' halike ↦ .ok halike rfl
  | .call name args span, w, w', halike => by
    rw [expr]
    refine matches_bind (matches_lookupCallee hbridge span name halike)
      fun c c' w w' halike hcallee ↦ ?_
    refine matches_bind (matches_each hbridge args w w' halike)
      fun given given' w w' halike hgiven ↦ ?_
    rw [← hgiven]
    exact matches_apply hbridge span given halike hcallee
  | .assign name e _, w, w', halike => by
    rw [expr]
    exact matches_then (matches_expr hbridge e w w' halike) fun v w w' halike ↦
      .ok (hbridge.bind halike name v) rfl
  | .ifThen c t span, w, w', halike => by
    rw [expr]
    refine matches_then (matches_expr hbridge c w w' halike) fun v w w' halike ↦ ?_
    refine matches_then (matches_truth hbridge c.span v halike) fun l w w' halike ↦ ?_
    exact matches_choose hbridge span l (matches_expr hbridge t)
      (fun _ _ halike ↦ .ok halike rfl) halike
  | .ifElse c t e span, w, w', halike => by
    rw [expr]
    refine matches_then (matches_expr hbridge c w w' halike) fun v w w' halike ↦ ?_
    refine matches_then (matches_truth hbridge c.span v halike) fun l w w' halike ↦ ?_
    exact matches_choose hbridge span l (matches_expr hbridge t) (matches_expr hbridge e) halike
  | .block items _, w, w', halike => by
    rw [expr]
    exact matches_inOrder hbridge items .null w w' halike

theorem matches_each (hbridge : Bridge alike callee fault) :
    (items : List Expr) → (w w' : World) → alike w w' →
      Matches alike fault Eq (each items w) (each items w')
  | [], w, w', halike => by
    rw [each]
    exact .ok halike rfl
  | e :: rest, w, w', halike => by
    rw [each]
    refine matches_then (matches_expr hbridge e w w' halike) fun v w w' halike ↦ ?_
    exact matches_then (matches_each hbridge rest w w' halike) fun vs w w' halike ↦ .ok halike rfl

theorem matches_inOrder (hbridge : Bridge alike callee fault) :
    (items : List Expr) → (last : Value) → (w w' : World) → alike w w' →
      Matches alike fault Eq (inOrder last items w) (inOrder last items w')
  | [], last, w, w', halike => by
    rw [inOrder]
    exact .ok halike rfl
  | e :: rest, last, w, w', halike => by
    rw [inOrder]
    exact matches_then (matches_expr hbridge e w w' halike) fun v w w' halike ↦
      matches_inOrder hbridge rest v w w' halike

end

end Reference

end AdaptiveTree
