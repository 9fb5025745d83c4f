import AdaptiveTree.Proofs.Depth.Bounds
import AdaptiveTree.Proofs.Depth.Run
import AdaptiveTree.Proofs.Depth.Worlds
import AdaptiveTree.Proofs.Session.Operands
import AdaptiveTree.Proofs.Session.Repetition

/-!
When a run exceeds its limit. It does so if the source needs more levels in any form of its
conditionals, and it does not if the source needs no more in generic form; between these numbers
it depends on what the tree was adapted to before. Both come from the source, the options and the
bindings alone, and how far they are apart can be read off the source.
-/

set_option autoImplicit false
set_option relaxedAutoImplicit false

namespace AdaptiveTree

variable {calls : NodeId → Span} {e : Engine} {p : Program} {x : NodeId} {i : Issue}

theorem Engine.exceeded_outcome_iff (h : e.machine.tree.resolve p.root = .ok x) (maxDepth : Nat) :
    EngineError.Exceeded (e.outcome maxDepth p).1 ↔
      Eval.Overflows (Eval.execute maxDepth x e.machine) := by
  constructor
  · rintro ⟨message, hexceeded⟩
    unfold outcome runWith Machine.run at hexceeded
    rw [h] at hexceeded
    dsimp only at hexceeded
    cases hresult : Eval.execute maxDepth x e.machine with
    | ok v m' =>
      rw [hresult] at hexceeded
      cases hexceeded
    | error exit m' =>
      cases exit with
      | tooDeep span => exact ⟨span, m', rfl⟩
      | raised | returned =>
        rw [hresult] at hexceeded
        cases hexceeded
  · rintro ⟨span, m', hdeep⟩
    exact exceeded_runWith h hdeep

namespace Session

/-- The levels of the source decide whether a run exceeds its limit, but for those that the forms
of its conditionals can save. -/
theorem bounds_outcome (options : EngineOptions) (commands : List Command)
    (hi : i ∈ (after options commands).issues) (hkept : i.released = false) (maxDepth : Nat) :
    let start := (after options commands).engine.machine.world
    let exceeded := EngineError.Exceeded
      ((after options commands).engine.outcome maxDepth i.program).1
    (exceeded → maxDepth < Reference.programLevels .most i.options i.source start) ∧
      (¬ exceeded → Reference.programLevels (.least i.options.constantComparisons) i.options
        i.source start ≤ maxDepth) := by
  intro start exceeded
  obtain ⟨calls, hvalid⟩ := valid_after options commands
  obtain ⟨busy, hpoised, hshows⟩ := (plain_after options commands).exists_poised hvalid hi hkept
  obtain ⟨x, hresolve, -⟩ := hvalid.present i hi hkept
  have hgauged := Eval.gauged_program maxDepth hpoised (hshows.resolved hresolve)
  have hexceeded : exceeded ↔ _ := Engine.exceeded_outcome_iff hresolve maxDepth
  exact ⟨fun h ↦ hgauged.exceeds (hexceeded.mp h), fun h ↦ hgauged.fits (mt hexceeded.mpr h)⟩

/-- After any history, a program runs under any limit that is not below the depth of its syntax and
two levels for each of its return tails that are recognised. -/
theorem not_exceeded_of_depth (options : EngineOptions) (commands : List Command) (i : Issue)
    (hi : i ∈ (after options commands).issues) (maxDepth : Nat)
    (hdepth : i.source.depth + 2 * i.options.tails i.source ≤ maxDepth) :
    ¬ EngineError.Exceeded ((after options commands).engine.outcome maxDepth i.program).1 := by
  intro hexceeded
  cases hreleased : i.released with
  | true =>
    obtain ⟨calls, hvalid⟩ := valid_after options commands
    obtain ⟨message, houtcome⟩ := hvalid.outcome_of_released hi hreleased maxDepth
    obtain ⟨_, hresult⟩ := hexceeded
    rw [houtcome] at hresult
    cases hresult
  | false =>
    have hneeded := (bounds_outcome options commands hi hreleased maxDepth).1 hexceeded
    have hbound := Reference.programLevels_le .most
      (after options commands).engine.machine.world i.options i.source
    omega

/-- Two return tails that are never taken, with a statement behind them. -/
def skipsTwo : Expr :=
  .block [.ifThen (.literal (.logical .no) ⟨4, 9⟩)
      (.call "return" [.literal (.int 1) ⟨18, 20⟩] ⟨11, 21⟩) ⟨0, 21⟩,
    .ifThen (.literal (.logical .no) ⟨26, 31⟩)
      (.call "return" [.literal (.int 1) ⟨40, 42⟩] ⟨33, 43⟩) ⟨22, 43⟩,
    .literal (.int 2) ⟨44, 46⟩] ⟨0, 46⟩

/-- The statement behind the tails is nested deeper than the syntax is. -/
theorem not_exceeded_of_depth_skipsTwo :
    skipsTwo.depth = 4 ∧
      ((after ⟨⟨true, true⟩, 20⟩ [.lower skipsTwo]).engine.outcome 4 ⟨9, ""⟩).1 =
        .error (.resourceExceeded "Evaluation stack overflow: depth 4 exceeds maximum of 4") ∧
      ¬ EngineError.Exceeded
        ((after ⟨⟨true, true⟩, 20⟩ [.lower skipsTwo]).engine.outcome 8 ⟨9, ""⟩).1 :=
  ⟨by decide +kernel, by decide +kernel, not_exceeded_of_depth ⟨⟨true, true⟩, 20⟩ [.lower skipsTwo]
    ⟨⟨9, ""⟩, skipsTwo, ⟨true, true⟩, false⟩ (List.mem_singleton.mpr rfl) 8 (by decide +kernel)⟩

/-- Two engines hold the same program, made with the same options, and their bindings agree and
their functions answer alike; how the program and others were run before may differ. What exceeds
the limit in the one exceeds it in the other as well, up to the levels that tests of equality with
a constant and return tails can save. -/
theorem exceeded_of_alike (options options' : EngineOptions) (commands commands' : List Command)
    (i i' : Issue) (hi : i ∈ (after options commands).issues)
    (hi' : i' ∈ (after options' commands').issues) (hkept : i.released = false)
    (hkept' : i'.released = false) (hsource : i'.source = i.source)
    (hoptions : i'.options = i.options)
    (halike : (after options commands).engine.machine.world.Alike
      (after options' commands').engine.machine.world) (maxDepth : Nat) :
    let exceeded := fun limit ↦ EngineError.Exceeded
      ((after options commands).engine.outcome limit i.program).1
    let exceeded' := fun limit ↦ EngineError.Exceeded
      ((after options' commands').engine.outcome limit i'.program).1
    (exceeded (maxDepth + i.options.savings i.source) → exceeded' maxDepth) ∧
      (i.options.savings i.source = 0 → (exceeded maxDepth ↔ exceeded' maxDepth)) := by
  intro exceeded exceeded'
  have hbridge := halike.bridge (numbered_after options commands).apart
    (numbered_after options' commands').apart
  have hsame (g : Forms) : Reference.programLevels g i.options i.source
      (after options commands).engine.machine.world =
      Reference.programLevels g i'.options i'.source
        (after options' commands').engine.machine.world := by
    rw [hsource, hoptions]
    exact Reference.programLevels_eq hbridge i.options i.source halike.parallel
  have hclose := Reference.programLevels_most_le i.options i.source
    (after options commands).engine.machine.world
  have hmost := hsame .most
  have hleast := hsame (.least i.options.constantComparisons)
  have hforth (limit limit' : Nat) (hle : limit' + i.options.savings i.source ≤ limit)
      (h : exceeded limit) : exceeded' limit' := by
    by_contra hfits
    have hneeded := (bounds_outcome options commands hi hkept limit).1 h
    have henough := (bounds_outcome options' commands' hi' hkept' limit').2 hfits
    rw [hoptions] at henough hleast hmost
    omega
  have hback (limit : Nat) (hzero : i.options.savings i.source = 0) (h : exceeded' limit) :
      exceeded limit := by
    by_contra hfits
    have hneeded := (bounds_outcome options' commands' hi' hkept' limit).1 h
    have henough := (bounds_outcome options commands hi hkept limit).2 hfits
    omega
  exact ⟨hforth _ maxDepth (Nat.le_refl _), fun hzero ↦
    ⟨hforth maxDepth maxDepth (by omega), hback maxDepth hzero⟩⟩

theorem alike_of_value {w w' : World} {name : String} {v : Value}
    (h : w.frame = ⟨[(name, .value v)]⟩) (h' : w'.frame = ⟨[(name, .value v)]⟩) : w.Alike w' := by
  intro other
  rw [h, h']
  by_cases hname : other = name
  · have hbound : (Frame.mk [(name, .value v)]).get? other = some (.value v) := by
      simp [Frame.get?, hname]
    rw [hbound]
    exact .value v
  · have hnone : (Frame.mk [(name, .value v)]).get? other = none := by
      simp [Frame.get?, hname]
    rw [hnone]
    exact .absent

/-- The test of `testOfOne` was specialised for integers and then given up. -/
def testGivenUp : List Command :=
  [.lower testOfOne, .set "x" (.scalar (.int 1)), .run none 0, .set "x" (.scalar (.logical .no)),
    .run none 0, .set "x" (.scalar (.int 1))]

/-- Three levels are enough for the program as it was made, but not for what it has become. -/
theorem exceeded_of_alike_testGivenUp :
    ((after ⟨⟨true, false⟩, 20⟩ [.lower testOfOne, .set "x" (.scalar (.int 1))]).engine.outcome 3
        ⟨6, ""⟩).1 = .ok (.scalar (.int 2)) ∧
      EngineError.Exceeded
        ((after ⟨⟨true, false⟩, 20⟩ testGivenUp).engine.outcome 3 ⟨6, ""⟩).1 ∧
      EngineError.Exceeded
        ((after ⟨⟨true, false⟩, 20⟩ [.lower testOfOne, .set "x" (.scalar (.int 1))]).engine.outcome
          2 ⟨6, ""⟩).1 := by
  have hexceeded : EngineError.Exceeded
      ((after ⟨⟨true, false⟩, 20⟩ testGivenUp).engine.outcome 3 ⟨6, ""⟩).1 :=
    ⟨"Evaluation stack overflow: depth 3 exceeds maximum of 3", by decide +kernel⟩
  have hgivenUp : (after ⟨⟨true, false⟩, 20⟩ testGivenUp).engine.machine.frame =
      ⟨[("x", .value (.scalar (.int 1)))]⟩ :=
    Frame.eq_of_value? (by decide +kernel) (by decide +kernel)
  have hset : ∀ (s : Session) (v : Value), (s.step (.set "x" v)).issues = s.issues := fun _ _ ↦ rfl
  have hissues : (after ⟨⟨true, false⟩, 20⟩ testGivenUp).issues =
      [⟨⟨6, ""⟩, testOfOne, ⟨true, false⟩, false⟩] := by
    simp only [after, testGivenUp, List.foldl_cons, List.foldl_nil, issues_step_run, hset]
    rfl
  have hboth := exceeded_of_alike ⟨⟨true, false⟩, 20⟩ ⟨⟨true, false⟩, 20⟩ testGivenUp
    [.lower testOfOne, .set "x" (.scalar (.int 1))] ⟨⟨6, ""⟩, testOfOne, ⟨true, false⟩, false⟩
    ⟨⟨6, ""⟩, testOfOne, ⟨true, false⟩, false⟩ (hissues ▸ List.mem_singleton.mpr rfl)
    (List.mem_singleton.mpr rfl) rfl rfl rfl rfl (alike_of_value hgivenUp rfl) 2
  exact ⟨by decide +kernel, hexceeded, hboth.1 hexceeded⟩

end Session

end AdaptiveTree
