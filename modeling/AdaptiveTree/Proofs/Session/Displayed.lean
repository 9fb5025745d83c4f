import AdaptiveTree.Proofs.Reference.Displayed
import AdaptiveTree.Proofs.Session.Depth

/-!
The text of a value, compiled and run. The answer is the value itself, in every engine that allows
evaluations to be nested as deep as a call with a negative argument needs.
-/

set_option autoImplicit false
set_option relaxedAutoImplicit false

namespace AdaptiveTree

variable {v : Value}

/-- The text of a value is no conditional. -/
theorem Value.returnTail?_eq_none {e : Expr} (he : e.bare = v.expr.bare) :
    e.returnTail? = none := by
  cases v with
  | null =>
    obtain ⟨span, rfl⟩ := Expr.exists_literal he
    rfl
  | scalar s =>
    rcases Scalar.expr_cases he with ⟨l, span, rfl, -⟩ | ⟨l, span, span', rfl, -⟩ <;> rfl
  | _ =>
    obtain ⟨args, span, rfl, -⟩ := Expr.exists_call he
    rfl

/-- A text that is read as the expression of a value is lowered like any other program. -/
theorem Reference.runLowered_of_text {program : Expr} {w : World} (hv : v.isDisplayable = true)
    (hc : w.frame.get? "c" = none) (options : CompilationOptions)
    (hprogram : program.bare = (Expr.block [v.expr] .origin).bare) :
    runLowered options program w = (.ok v, w) := by
  have hends : options.endsWithTail program = false := by
    obtain ⟨e, span, rfl, he⟩ := Expr.exists_block hprogram
    have hlast : Expr.endsWithTail [e] = false := by
      simp [Expr.endsWithTail, Value.returnTail?_eq_none he]
    rw [CompilationOptions.endsWithTail, hlast, Bool.and_false]
  rw [runLowered_eq_run hends, run_of_value hv hc hprogram]

/-- The block, the call, a minus and the number behind it. -/
theorem Reference.programLevels_le_four {program : Expr} (f : Forms) (options : CompilationOptions)
    (w : World) (hprogram : program.bare = (Expr.block [v.expr] .origin).bare) :
    programLevels f options program w ≤ 4 := by
  obtain ⟨e, span, rfl, he⟩ := Expr.exists_block hprogram
  have hstatement := Value.depth_le he
  have hdepth : (Expr.block [e] span).depth ≤ 4 := by
    simp only [Expr.depth, Expr.depthEach]
    omega
  have htails : options.tails (.block [e] span) = 0 := by
    simp [CompilationOptions.tails, Value.returnTail?_eq_none he]
  have hlevels := programLevels_le f w options (.block [e] span)
  omega

/-- Compiling the text of a value in a new engine gives a program whose answer is the value. -/
theorem Engine.run_compile_text (options : EngineOptions) (v : Value)
    (hv : v.isDisplayable = true) :
    ∃ p e, (new options).compile v.text = (.ok p, e) ∧
      ((e.run p).1 = .ok v ∨ options.maxDepth < 4 ∧ EngineError.Exceeded (e.run p).1) := by
  obtain ⟨program, hparse, hprogram⟩ := Grammar.parse_text hv
  obtain ⟨root, _, m, hlower, hlowered⟩ := (Session.new options).exists_lowered
    (Machine.sound_empty fun _ ↦ .origin) options.compilation program
  let e : Engine := { new options with machine := m }
  let i : Issue := ⟨⟨root, v.text⟩, program, options.compilation, false⟩
  have hcompile : (new options).compile v.text = (.ok i.program, e) := by
    have hlower : (new options).lowerWith options.compilation program = (root, e) := hlower
    change (new options).compileWith options.compilation v.text = _
    unfold compileWith
    rw [hparse]
    dsimp only
    rw [hlower]
  have hafter : Session.after options [.compile none v.text] = ⟨e, [i]⟩ := by
    rw [Session.after, List.foldl_cons, List.foldl_nil, Session.step_compile_of_ok hparse]
    change (Session.new options).made options.compilation program v.text = _
    rw [Session.made, hlower]
    rfl
  have hi : i ∈ (Session.after options [.compile none v.text]).issues := by
    rw [hafter]
    exact List.mem_singleton.mpr rfl
  have hworld : e.machine.world.frame.get? "c" = none := by
    change m.world.frame.get? "c" = none
    rw [hlowered.grows.world]
    rfl
  refine ⟨i.program, e, hcompile, ?_⟩
  obtain ⟨calls, hvalid⟩ := Session.valid_after options [.compile none v.text]
  have hbounds := Session.bounds_outcome options _ hi rfl options.maxDepth
  rw [hafter] at hvalid hbounds
  rcases hvalid.outcome_eq (hafter ▸ hi) rfl options.maxDepth with hexceeded | houtcome
  · have hlevels := Reference.programLevels_le_four .most options.compilation e.machine.world
      hprogram
    exact .inr ⟨(hbounds.1 hexceeded).trans_le hlevels, hexceeded⟩
  · rw [Reference.runLowered_of_text hv hworld options.compilation hprogram] at houtcome
    exact .inl (congrArg Prod.fst houtcome)

theorem Engine.run_compile_text_negativeZero :
    (Value.doubles [.na, -.zero]).text = "c(NA, -0)" ∧
      ∃ p e, (new .standard).compile (Value.doubles [.na, -.zero]).text = (.ok p, e) ∧
        (e.run p).1 = .ok (.doubles [.na, -.zero]) := by
  obtain ⟨p, e, hcompile, hrun | ⟨hlimit, -⟩⟩ :=
    run_compile_text .standard (.doubles [.na, -.zero]) (by decide +kernel)
  · exact ⟨by decide +kernel, p, e, hcompile, hrun⟩
  · exact absurd hlimit (by decide)

end AdaptiveTree
