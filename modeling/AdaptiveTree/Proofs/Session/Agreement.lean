import AdaptiveTree.Proofs.Session.History

/-!
Runs against the reference. Whatever an engine went through before, a program that was not
released runs as the reference runs its source, as long as evaluations are not nested too deep
and no return tail stands at the end of the program.
-/

set_option autoImplicit false
set_option relaxedAutoImplicit false

namespace AdaptiveTree

variable {calls : NodeId → Span} {e : Engine} {issues : List Issue} {i : Issue}

/-- What a caller of the engine is told of an outcome, beside the world that it leaves. -/
def Reference.told (outcome : Except Failure Value × World) : Except EngineError Value × World :=
  (outcome.1.mapError .ofFailure, outcome.2)

/-- Evaluations were nested too deep. -/
def EngineError.Exceeded (result : Except EngineError Value) : Prop :=
  ∃ message, result = .error (.resourceExceeded message)

namespace Engine

/-- What running a program gives, beside the world that it leaves. -/
def outcome (e : Engine) (maxDepth : Nat) (program : Program) :
    Except EngineError Value × World :=
  ((e.runWith maxDepth program).1, (e.runWith maxDepth program).2.machine.world)

end Engine

theorem Valid.outcome_eq (h : Valid calls e.machine issues) (hi : i ∈ issues)
    (hkept : i.released = false) (maxDepth : Nat) :
    EngineError.Exceeded (e.outcome maxDepth i.program).1 ∨
      e.outcome maxDepth i.program =
        Reference.told (Reference.runLowered i.options i.source e.machine.world) := by
  obtain ⟨x, hx⟩ := h.present i hi hkept
  have hrun : e.outcome maxDepth i.program =
      ((e.machine.run maxDepth x).1.mapError .ofFailure, (e.machine.run maxDepth x).2.world) := by
    unfold Engine.outcome Engine.runWith
    rw [hx.resolve]
  rw [hrun]
  rcases Machine.run_eq_runLowered maxDepth h.sound (hx.shows.resolved hx.resolve) with
    ⟨limit, span, hdeep⟩ | heq
  · rw [hdeep]
    exact Or.inl ⟨_, rfl⟩
  · rw [← heq]
    exact Or.inr rfl

/-- A program that was released is not run. -/
theorem Valid.outcome_of_released (h : Valid calls e.machine issues) (hi : i ∈ issues)
    (hgone : i.released = true) (maxDepth : Nat) :
    ∃ message, e.outcome maxDepth i.program = (.error (.api message), e.machine.world) := by
  obtain ⟨_, err, herr⟩ := h.absent i hi hgone
  refine ⟨err.message, ?_⟩
  unfold Engine.outcome Engine.runWith
  rw [herr]
  rfl

namespace Session

/-- A program for which no return tail was recognised runs as its source does in the reference,
after any history and under any limit. -/
theorem outcome_eq_reference (options : EngineOptions) (commands : List Command)
    (index maxDepth : Nat) (i : Issue)
    (hissue : (after options commands).issues[index]? = some i) (hkept : i.released = false)
    (hplain : i.options.returnTails = false) :
    EngineError.Exceeded ((after options commands).engine.outcome maxDepth i.program).1 ∨
      (after options commands).engine.outcome maxDepth i.program =
        Reference.told
          (Reference.run i.source (after options commands).engine.machine.world) := by
  obtain ⟨calls, hvalid⟩ := valid_after options commands
  have hends : i.options.endsWithTail i.source = false := by
    cases i.source with
    | block items span => rw [CompilationOptions.endsWithTail, hplain, Bool.false_and]
    | _ => rfl
  rw [← Reference.runLowered_eq_run hends]
  exact hvalid.outcome_eq (List.mem_of_getElem? hissue) hkept maxDepth

/-- A program that tests a variable for equality with one. -/
def testOfOne : Expr :=
  .block [.ifElse (.compare .eq (.ident "x" ⟨4, 5⟩) (.literal (.int 1) ⟨9, 11⟩) ⟨4, 11⟩)
    (.literal (.int 2) ⟨13, 15⟩) (.literal (.int 3) ⟨21, 23⟩) ⟨0, 23⟩] ⟨0, 23⟩

/-- The test is specialised for integers and meets a truth value next. -/
def seenInteger : List Command :=
  [.lower testOfOne, .set "x" (.scalar (.int 1)), .run none 0, .set "x" (.scalar (.logical .no))]

theorem outcome_eq_reference_seenInteger :
    ((after ⟨⟨true, false⟩, 20⟩ seenInteger).engine.outcome 20 ⟨6, ""⟩).1 =
        .ok (.scalar (.int 3)) ∧
      (after ⟨⟨true, false⟩, 20⟩ seenInteger).engine.outcome 20 ⟨6, ""⟩ =
        Reference.told (Reference.run testOfOne
          (after ⟨⟨true, false⟩, 20⟩ seenInteger).engine.machine.world) := by
  have hset : ∀ (s : Session) (v : Value), (s.step (.set "x" v)).issues = s.issues := fun _ _ ↦ rfl
  have hissue : (after ⟨⟨true, false⟩, 20⟩ seenInteger).issues[0]? =
      some ⟨⟨6, ""⟩, testOfOne, ⟨true, false⟩, false⟩ := by
    simp only [after, seenInteger, List.foldl_cons, List.foldl_nil, issues_step_run, hset]
    rfl
  have hvalue : ((after ⟨⟨true, false⟩, 20⟩ seenInteger).engine.outcome 20 ⟨6, ""⟩).1 =
      .ok (.scalar (.int 3)) := by
    decide +kernel
  have houtcome := outcome_eq_reference ⟨⟨true, false⟩, 20⟩ seenInteger 0 20 _ hissue rfl rfl
  refine ⟨hvalue, houtcome.resolve_left ?_⟩
  rintro ⟨message, hexceeded⟩
  simp [hvalue] at hexceeded

end Session

end AdaptiveTree
