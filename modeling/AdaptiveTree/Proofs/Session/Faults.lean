import AdaptiveTree.Proofs.Reference.Relating
import AdaptiveTree.Proofs.Session.Agreement

/-!
Runs never meet an inconsistency. If the host functions raise no internal fault, no program that
was not released ends with one, after any history and under any limit, and names can always be
bound from outside.
-/

set_option autoImplicit false
set_option relaxedAutoImplicit false

namespace AdaptiveTree

/-- The functions that names are bound to raise no internal fault. -/
def Frame.Polite (f : Frame) : Prop :=
  ∀ name d, f.get? name = some (.function d) → d.function.Polite

namespace Frame

variable {f : Frame} {name : String}

theorem Polite.insert_value (h : f.Polite) (v : Value) : (f.insert name (.value v)).Polite := by
  intro other d hd
  rw [get?_insert] at hd
  split_ifs at hd
  · simp at hd
  · exact h other d hd

theorem Polite.insert_function (h : f.Polite) {d : Definition} (hd : d.function.Polite) :
    (f.insert name (.function d)).Polite := by
  intro other d' hd'
  rw [get?_insert] at hd'
  split_ifs at hd'
  · obtain rfl := Binding.function.inj (Option.some.inj hd')
    exact hd
  · exact h other d' hd'

end Frame

namespace Reference

/-- Evaluation where all functions are polite, beside itself. -/
theorem bridge_polite : Bridge (fun w w' ↦ w = w' ∧ w.frame.Polite)
    (fun f f' ↦ f = f' ∧ f.function.Polite) (fun cause ↦ cause.isInternal = false) where
  linked := by
    rintro w _ ⟨rfl, hpolite⟩ name
    rcases hbinding : w.frame.get? name with _ | ⟨v⟩ | ⟨f⟩
    · exact .absent
    · exact .value v
    · exact .function ⟨rfl, hpolite name f hbinding⟩
  bind := by
    rintro w _ ⟨rfl, hpolite⟩ name v
    exact ⟨rfl, hpolite.insert_value v⟩
  warn := by
    rintro w _ ⟨rfl, hpolite⟩ span code message
    exact ⟨rfl, hpolite⟩
  called := by
    rintro w _ f _ ⟨rfl, hpolite⟩ ⟨rfl, _⟩ args
    exact ⟨rfl, hpolite⟩
  answer := by
    rintro w _ f _ ⟨rfl, _⟩ ⟨rfl, _⟩ args
    rfl
  raises := by
    rintro f _ ⟨rfl, hpolite⟩ past args cause hraises
    exact hpolite past args cause hraises
  own := fun _ hcause ↦ hcause

/-- A program raises no internal fault where no function does. -/
theorem isInternal_eq_false {options : CompilationOptions} {program : Expr} {w w' : World}
    (hpolite : w.frame.Polite) {cause : Fault} {span : Span}
    (h : runLowered options program w = (.error (.fault cause span), w')) :
    cause.isInternal = false := by
  have hmatches := matches_expr bridge_polite program w w ⟨rfl, hpolite⟩
  unfold runLowered at h
  revert hmatches h
  generalize expr program w = result
  intro h hmatches
  cases hmatches with
  | ok | returned => simp [Halt.outcome] at h
  | raised _ hfault =>
    obtain ⟨⟨rfl, rfl⟩, rfl⟩ := by simpa [Halt.outcome] using h
    exact hfault

end Reference

/-- An error for which the program that was run is to blame. -/
structure EngineError.OfProgram (error : EngineError) : Prop where
  not_api : ∀ message, error ≠ .api message
  fault : ∀ cause span, error = .ofFailure (.fault cause span) → cause.isInternal = false
  code : ∀ d ∈ error.diagnostics, d.code ≠ some "R999"

theorem EngineError.ofProgram_of_failure {failure : Failure}
    (h : ∀ cause span, failure = .fault cause span → cause.isInternal = false) :
    (EngineError.ofFailure failure).OfProgram := by
  cases failure with
  | fault cause span =>
    have hown := h cause span rfl
    have hcode : cause.code ≠ "R999" := fun hcode ↦ by
      rw [Fault.code_eq_iff, hown] at hcode
      cases hcode
    refine ⟨fun message heq ↦ (nomatch heq), fun cause' span' heq ↦ ?_, fun d hd ↦ ?_⟩
    · have hsame : some cause.code = some cause'.code :=
        congrArg Diagnostic.code (EngineError.runtime.inj heq)
      rw [Bool.eq_false_iff, Ne, ← Fault.code_eq_iff, ← Option.some.inj hsame]
      exact hcode
    · rw [List.mem_singleton.mp hd]
      exact fun heq ↦ hcode (Option.some.inj heq)
  | tooDeep limit span =>
    exact ⟨fun message heq ↦ (nomatch heq), fun cause' span' heq ↦ (nomatch heq),
      fun d hd ↦ nomatch hd⟩

variable {calls : NodeId → Span} {e : Engine} {issues : List Issue} {i : Issue}

theorem Valid.ofProgram (h : Valid calls e.machine issues) (hpolite : e.machine.frame.Polite)
    (hi : i ∈ issues) (hkept : i.released = false) (maxDepth : Nat) {error : EngineError}
    (hfails : (e.runWith maxDepth i.program).1 = .error error) : error.OfProgram := by
  obtain ⟨x, hx⟩ := h.present i hi hkept
  have hrun : (e.runWith maxDepth i.program).1 =
      (e.machine.run maxDepth x).1.mapError .ofFailure := by
    unfold Engine.runWith
    rw [hx.resolve]
  rw [hrun] at hfails
  have hoverflow := Machine.run_eq_runLowered maxDepth h.sound (hx.shows.resolved hx.resolve)
  cases hresult : (e.machine.run maxDepth x).1 with
  | ok v =>
    rw [hresult] at hfails
    cases hfails
  | error failure =>
    rw [hresult] at hfails hoverflow
    obtain rfl := Except.error.inj hfails
    refine EngineError.ofProgram_of_failure fun cause span hfault ↦ ?_
    subst hfault
    rcases hoverflow with ⟨limit, place, hdeep⟩ | heq
    · simp at hdeep
    · exact Reference.isInternal_eq_false hpolite heq.symm

namespace Session

theorem polite_step {s : Session} (h : Valid calls s.engine.machine s.issues)
    (hpolite : s.engine.machine.frame.Polite) (c : Command)
    (hdefine : ∀ f, c = .define f → f.Polite) : (s.step c).engine.machine.frame.Polite := by
  rcases step_functions h c with ⟨_, hfunctions⟩ | ⟨f, hc, _, hfunctions⟩
  · exact fun name d hd ↦ hpolite name d (hfunctions name d hd)
  · exact fun name d hd ↦
      hpolite.insert_function (hdefine f hc) name d (hfunctions name d hd)

/-- Assumes: only polite functions were defined. -/
theorem polite_after (options : EngineOptions) (commands : List Command)
    (hdefine : ∀ f, .define f ∈ commands → f.Polite) :
    (after options commands).engine.machine.frame.Polite := by
  refine after_induction (motive := fun s ↦ s.engine.machine.frame.Polite) options commands ?_
    fun s c calls hvalid hc hpolite ↦ ?_
  · intro name d hd
    cases hd
  · exact polite_step hvalid hpolite c fun f hf ↦ hdefine f (hf ▸ hc)

/-- No run is stopped by the tree, and no binding from outside fails. Assumes: only functions
that raise no internal fault were defined. -/
theorem errors_ofProgram (options : EngineOptions) (commands : List Command)
    (hdefine : ∀ f, .define f ∈ commands → f.Polite) :
    (∀ (index : Nat) (i : Issue) (maxDepth : Option Nat) (error : EngineError),
      (after options commands).issues[index]? = some i → i.released = false →
      (after options commands).answer? maxDepth index = some (.error error) → error.OfProgram) ∧
    (∀ name v, ((after options commands).engine.set name v).1 = .ok ()) ∧
    ∀ f, ((after options commands).engine.define f).1 = .ok () := by
  obtain ⟨calls, hvalid⟩ := valid_after options commands
  refine ⟨fun index i maxDepth error hissue hkept hanswer ↦ ?_, fun name v ↦ ?_, fun f ↦ ?_⟩
  · have hran : (after options commands).answer? maxDepth index =
        some ((after options commands).engine.runWith
          (maxDepth.getD (after options commands).engine.options.maxDepth) i.program).1 := by
      rw [answer?, ran, hissue]
      rfl
    exact hvalid.ofProgram (polite_after options commands hdefine) (List.mem_of_getElem? hissue)
      hkept _ (Option.some.inj (hran.symm.trans hanswer))
  · obtain ⟨m', hbind, _⟩ := hvalid.sound.bindValue name v (fun _ ↦ False)
    unfold Engine.set
    rw [hbind]
    rfl
  · have hdefined : Machine.Sound calls { (after options commands).engine.machine with
        defined := (after options commands).engine.machine.defined + 1 } :=
      hvalid.sound.congr rfl rfl rfl
    obtain ⟨m', hbind, _⟩ := hdefined.bind f.name
      (.function ⟨(after options commands).engine.machine.defined, f⟩) (fun _ ↦ False)
    unfold Engine.define Machine.bindFunction
    rw [hbind]
    rfl

/-- A host function that refuses every question. -/
def refusing : HostFunction := ⟨"f", fun _ _ ↦ .error (.hostCall "f" "refused")⟩

/-- A program that asks a function for its condition. -/
def testOfCall : Expr :=
  .block [.ifThen (.call "f" [] ⟨4, 7⟩) (.literal (.int 1) ⟨9, 11⟩) ⟨0, 11⟩] ⟨0, 11⟩

theorem errors_ofProgram_refused :
    (after ⟨⟨true, true⟩, 20⟩ [.define refusing, .lower testOfCall]).answer? none 0 =
        some (.error (.runtime ⟨.error, "error in f: refused", ⟨4, 7⟩, none, some "R007"⟩)) ∧
      EngineError.OfProgram
        (.runtime ⟨.error, "error in f: refused", ⟨4, 7⟩, none, some "R007"⟩) := by
  have hissue : (after ⟨⟨true, true⟩, 20⟩ [.define refusing, .lower testOfCall]).issues[0]? =
      some ⟨⟨3, ""⟩, testOfCall, ⟨true, true⟩, false⟩ := rfl
  have hanswer : (after ⟨⟨true, true⟩, 20⟩ [.define refusing, .lower testOfCall]).answer? none 0 =
      some (.error (.runtime ⟨.error, "error in f: refused", ⟨4, 7⟩, none, some "R007"⟩)) := by
    decide +kernel
  refine ⟨hanswer, (errors_ofProgram _ _ fun f hf ↦ ?_).1 0 _ none _ hissue rfl hanswer⟩
  obtain rfl : f = refusing := by simpa using hf
  rintro past args cause ⟨⟩
  rfl

end Session

end AdaptiveTree
