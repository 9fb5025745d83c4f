import AdaptiveTree.Proofs.Session.Agreement
import AdaptiveTree.Proofs.Reference.Relating

/-!
When a return tail decides what `return` means. Neither the form that the tail has when it is
entered counts, nor what `return` was bound to before, but only its binding when the body is
finished: it ends the program, or it is called and the statements behind it go on, or it is no
function.
-/

set_option autoImplicit false
set_option relaxedAutoImplicit false

namespace AdaptiveTree

namespace Reference

variable {before rest : List Expr} {e : Expr} {t : Expr.ReturnTail} {span : Span}
  {w w' w'' : World} {options : CompilationOptions}

/-- The statements in front of a return tail are evaluated, and its condition is as given. -/
def Tested (before : List Expr) (t : Expr.ReturnTail) (w : World) (l : Logical) (w' : World) :
    Prop :=
  ∃ v w₀, inOrder .null before w = .ok v w₀ ∧ test t.cond w₀ = .ok l w'

/-- The condition of a return tail held and its body is finished; its call is what comes next. -/
def AtCall (before : List Expr) (t : Expr.ReturnTail) (w w' : World) : Prop :=
  ∃ w₁, Tested before t w .yes w₁ ∧ body t.body w₁ = .ok () w'

/-! ### Programs with a return tail -/

theorem expr_of_tested (htail : e.returnTail? = some t) {l : Logical}
    (h : Tested before t w l w') : expr (.block (before ++ e :: rest) span) w =
      (choose e.span (body t.body >>= fun _ ↦ expr (.call "return" [t.arg] t.callSpan))
        (pure .null) l >>= fun v ↦ inOrder v rest) w' := by
  obtain ⟨v, w₀, hbefore, htest⟩ := h
  have hblock : expr (.block (before ++ e :: rest) span) = inOrder .null (before ++ e :: rest) := by
    rw [expr]
  rw [hblock, inOrder_append, bind_eq hbefore, inOrder, expr_of_tail htail, bind_assoc,
    bind_eq htest]

theorem expr_of_skipped (htail : e.returnTail? = some t) (h : Tested before t w .no w') :
    expr (.block (before ++ e :: rest) span) w = inOrder .null rest w' := by
  rw [expr_of_tested htail h]
  rfl

theorem expr_of_atCall (htail : e.returnTail? = some t) (h : AtCall before t w w') :
    expr (.block (before ++ e :: rest) span) w =
      (expr (.call "return" [t.arg] t.callSpan) >>= fun v ↦ inOrder v rest) w' := by
  obtain ⟨w₁, htested, hbody⟩ := h
  have hchoose : choose e.span
      (body t.body >>= fun _ ↦ expr (.call "return" [t.arg] t.callSpan)) (pure .null) .yes =
      body t.body >>= fun _ ↦ expr (.call "return" [t.arg] t.callSpan) := rfl
  rw [expr_of_tested htail htested, hchoose, bind_assoc, bind_eq hbody]

/-- Behind a return tail a program goes on as the statements there do. -/
theorem runLowered_behind (hon : options.returnTails = true) (htail : e.returnTail? = some t)
    {v : Value} (h : expr (.block (before ++ e :: rest) span) w = inOrder v rest w') :
    runLowered options (.block (before ++ e :: rest) span) w =
      runLowered options (.block rest span) w' := by
  have hends (items : List Expr) :
      options.endsWithTail (.block items span) = Expr.endsWithTail items := by
    rw [CompilationOptions.endsWithTail, hon, Bool.true_and]
  have hblock : expr (.block rest span) = inOrder .null rest := by rw [expr]
  rw [runLowered, runLowered, h, hends, hends, hblock]
  cases rest with
  | nil =>
    have hlast : Expr.endsWithTail (before ++ [e]) = true := by
      simp [Expr.endsWithTail, htail]
    rw [hlast, inOrder, inOrder]
    rfl
  | cons d others =>
    have hlast : Expr.endsWithTail (before ++ e :: d :: others) =
        Expr.endsWithTail (d :: others) := by
      simp [Expr.endsWithTail, List.getLast?_append, List.getLast?_cons]
    rw [hlast, inOrder, inOrder]

/-! ### The call -/

theorem call_of_function {f : Definition} (hbound : w.frame.get? "return" = some (.function f))
    {arg : Expr} {v u : Value} (harg : expr arg w = .ok v w')
    (hanswer : f.function.answer (w'.history f.serial) [v] = .ok u) :
    expr (.call "return" [arg] span) w = .ok u (w'.called f [v]) := by
  have hlookup : lookupCallee span "return" w = .ok (.host f) w := by
    have hget : (get : Run World) w = .ok w w := rfl
    unfold lookupCallee
    rw [bind_eq hget, hbound]
    rfl
  have heach : each [arg] w = .ok [v] w' := by
    rw [each, bind_eq harg, each, pure_bind]
    rfl
  have hcall : callHost span f [v] w' =
      ofResult span (f.function.answer (w'.history f.serial) [v]) (w'.called f [v]) := rfl
  rw [expr, bind_eq hlookup, bind_eq heach, apply, hcall, hanswer]
  rfl

theorem call_of_value {u : Value} (hbound : w.frame.get? "return" = some (.value u)) (arg : Expr) :
    expr (.call "return" [arg] span) w =
      .error (.raised (.notAFunction "return") span) w := by
  have hlookup : lookupCallee span "return" w =
      .error (.raised (.notAFunction "return") span) w := by
    have hget : (get : Run World) w = .ok w w := rfl
    unfold lookupCallee
    rw [bind_eq hget, hbound]
    rfl
  rw [expr, bind_error_eq hlookup]

/-! ### What the program comes to -/

theorem runLowered_of_unbound (htail : e.returnTail? = some t) (h : AtCall before t w w')
    (hunbound : w'.frame.get? "return" = none) {v : Value} (harg : expr t.arg w' = .ok v w'') :
    runLowered options (.block (before ++ e :: rest) span) w = (.ok v, w'') := by
  have hcontains : w'.frame.contains "return" = false := by rw [Frame.contains, hunbound]; rfl
  rw [runLowered, expr_of_atCall htail h, expr_return_bind hcontains, bind_eq harg]
  rfl

theorem runLowered_of_function (hon : options.returnTails = true)
    (htail : e.returnTail? = some t) (h : AtCall before t w w') {f : Definition}
    (hbound : w'.frame.get? "return" = some (.function f)) {v u : Value}
    (harg : expr t.arg w' = .ok v w'')
    (hanswer : f.function.answer (w''.history f.serial) [v] = .ok u) :
    runLowered options (.block (before ++ e :: rest) span) w =
      runLowered options (.block rest span) (w''.called f [v]) := by
  refine runLowered_behind hon htail (v := u) ?_
  rw [expr_of_atCall htail h, bind_eq (call_of_function hbound harg hanswer)]

theorem runLowered_of_value (htail : e.returnTail? = some t) (h : AtCall before t w w')
    {u : Value} (hbound : w'.frame.get? "return" = some (.value u)) :
    runLowered options (.block (before ++ e :: rest) span) w =
      (.error (.fault (.notAFunction "return") t.callSpan), w') := by
  rw [runLowered, expr_of_atCall htail h, bind_error_eq (call_of_value hbound t.arg)]
  rfl

end Reference

namespace Session

/-- `w` is the world in which the body of the tail is finished. With nothing behind the tail,
going on there gives nothing. -/
theorem return_decided (options : EngineOptions) (commands : List Command) (index maxDepth : Nat)
    (i : Issue) (hissue : (after options commands).issues[index]? = some i)
    (hkept : i.released = false) (hon : i.options.returnTails = true) (before rest : List Expr)
    (e : Expr) (span : Span) (hsource : i.source = .block (before ++ e :: rest) span)
    (t : Expr.ReturnTail) (htail : e.returnTail? = some t)
    (hfits : ¬ EngineError.Exceeded
      ((after options commands).engine.outcome maxDepth i.program).1) :
    let start := (after options commands).engine.machine.world
    let outcome := (after options commands).engine.outcome maxDepth i.program
    let goesOn := fun w ↦ Reference.told (Reference.runLowered i.options (.block rest span) w)
    (∀ w, Reference.AtCall before t start w →
      (w.frame.get? "return" = none → ∀ v w', Reference.expr t.arg w = .ok v w' →
        outcome = (.ok v, w')) ∧
      (∀ f, w.frame.get? "return" = some (.function f) → ∀ v w' u,
        Reference.expr t.arg w = .ok v w' →
        f.function.answer (w'.history f.serial) [v] = .ok u →
        outcome = goesOn (w'.called f [v])) ∧
      (∀ u, w.frame.get? "return" = some (.value u) →
        outcome =
          (.error (.ofFailure (.fault (.notAFunction "return") t.callSpan)), w))) ∧
    ∀ w, Reference.Tested before t start .no w → outcome = goesOn w := by
  intro start outcome goesOn
  obtain ⟨calls, hvalid⟩ := valid_after options commands
  have houtcome : outcome = Reference.told (Reference.runLowered i.options i.source start) :=
    (hvalid.outcome_eq (List.mem_of_getElem? hissue) hkept maxDepth).resolve_left hfits
  rw [hsource] at houtcome
  refine ⟨fun w hcall ↦ ⟨fun hunbound v w' harg ↦ ?_, fun f hbound v w' u harg hanswer ↦ ?_,
    fun u hbound ↦ ?_⟩, fun w htested ↦ ?_⟩
  · rw [houtcome, Reference.runLowered_of_unbound htail hcall hunbound harg]
    rfl
  · rw [houtcome, Reference.runLowered_of_function hon htail hcall hbound harg hanswer]
  · rw [houtcome, Reference.runLowered_of_value htail hcall hbound]
    rfl
  · rw [houtcome, Reference.runLowered_behind hon htail (Reference.expr_of_skipped htail htested)]

/-- The call of `return` that ends the first statement of `returnsTwo`, and its argument. -/
def tailTwo : Expr.ReturnTail :=
  ⟨.literal (.logical .yes) ⟨4, 8⟩, [.assign "x" (.literal (.int 2) ⟨17, 19⟩) ⟨12, 19⟩],
    .ident "x" ⟨28, 29⟩, ⟨21, 30⟩⟩

/-- A program that binds a variable to two and returns it, with a statement behind that. -/
def returnsTwo : Expr :=
  .block [.ifThen (.literal (.logical .yes) ⟨4, 8⟩)
    (.block [.assign "x" (.literal (.int 2) ⟨17, 19⟩) ⟨12, 19⟩,
      .call "return" [.ident "x" ⟨28, 29⟩] ⟨21, 30⟩] ⟨10, 32⟩) ⟨0, 32⟩,
    .literal (.int 3) ⟨33, 35⟩] ⟨0, 35⟩

/-- The tail is overridden, but `return` has its own meaning again when the program is run. -/
def boundMeanwhile : List Command :=
  [.lower returnsTwo, .define ⟨"return", fun _ args ↦ .ok (args.headD .null)⟩, .unset "return"]

theorem return_decided_boundMeanwhile :
    (after ⟨⟨true, true⟩, 20⟩ boundMeanwhile).engine.machine.tree.generation = 1 ∧
      ((after ⟨⟨true, true⟩, 20⟩ boundMeanwhile).engine.outcome 20 ⟨8, ""⟩).1 =
        .ok (.scalar (.int 2)) := by
  have hvalue : ((after ⟨⟨true, true⟩, 20⟩ boundMeanwhile).engine.outcome 20 ⟨8, ""⟩).1 =
      .ok (.scalar (.int 2)) := by
    decide +kernel
  have hfits : ¬ EngineError.Exceeded
      ((after ⟨⟨true, true⟩, 20⟩ boundMeanwhile).engine.outcome 20 ⟨8, ""⟩).1 := by
    rintro ⟨_, hexceeded⟩
    cases hvalue.symm.trans hexceeded
  obtain ⟨hcall, -⟩ := return_decided ⟨⟨true, true⟩, 20⟩ boundMeanwhile 0 20
    ⟨⟨8, ""⟩, returnsTwo, ⟨true, true⟩, false⟩ rfl rfl rfl [] _ _ _ rfl tailTwo rfl hfits
  obtain ⟨hunbound, -, -⟩ := hcall _ ⟨_, ⟨_, _, rfl, rfl⟩, rfl⟩
  exact ⟨by decide +kernel, congrArg Prod.fst (hunbound rfl _ _ rfl)⟩

end Session

end AdaptiveTree
