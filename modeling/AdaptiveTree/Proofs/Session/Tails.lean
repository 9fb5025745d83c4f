import AdaptiveTree.Proofs.Session.Agreement

/-!
Engines that differ in the recognition of return tails. After the same commands they are in the
same world, and they answer every run alike, with one exception: a program that ends with a
return tail, and goes on behind it, gives nothing where the tail is recognised.
-/

set_option autoImplicit false
set_option relaxedAutoImplicit false

namespace AdaptiveTree

/-- The same engine options, with return tails recognised or not. -/
def EngineOptions.recognizing (options : EngineOptions) (tails : Bool) : EngineOptions :=
  { options with compilation := { options.compilation with returnTails := tails } }

/-- Entries of one source; only the first may have a return tail that the other one has not. -/
structure Issue.Twin (i i' : Issue) : Prop where
  source : i.source = i'.source
  released : i.released = i'.released
  tails : i'.options.returnTails = true → i.options.returnTails = true

/-- The same answer, up to the node that an error outside of any evaluation names. -/
inductive SameAnswer :
    Option (Except EngineError Value) → Option (Except EngineError Value) → Prop
  | same (answer : Option (Except EngineError Value)) : SameAnswer answer answer
  | api (message message' : String) :
    SameAnswer (some (.error (.api message))) (some (.error (.api message')))

namespace Session

def world (s : Session) : World := s.engine.machine.world

/-- A command runs a program that is nested too deep. -/
def Exceeds (s : Session) : Command → Prop
  | .run maxDepth index => ∃ message, s.answer? maxDepth index =
      some (.error (.resourceExceeded message))
  | _ => False

/-- No command of a history runs a program that is nested too deep. -/
def Fits (s : Session) : List Command → Prop
  | [] => True
  | c :: rest => ¬ s.Exceeds c ∧ (s.step c).Fits rest

/-- A program of both sessions goes on behind a return tail at its end and has a value then; only
the first session has recognised the tail. -/
def Loses (s s' : Session) (index : Nat) (v : Value) : Prop :=
  ∃ i i' w, s.issues[index]? = some i ∧ s'.issues[index]? = some i' ∧ i.released = false ∧
    i.options.endsWithTail i.source = true ∧ i'.options.endsWithTail i'.source = false ∧
    Reference.expr i.source s.world = .ok v w

/-- Sessions that the same commands have led to. -/
structure Paired (s s' : Session) : Prop where
  world : s.world = s'.world
  defined : s.engine.machine.defined = s'.engine.machine.defined
  tails : s'.engine.options.compilation.returnTails = true →
    s.engine.options.compilation.returnTails = true
  issues : List.Forall₂ Issue.Twin s.issues s'.issues

theorem fits_append (s : Session) (commands others : List Command) :
    s.Fits (commands ++ others) ↔ s.Fits commands ∧ (commands.foldl step s).Fits others := by
  induction commands generalizing s with
  | nil => simp [Fits]
  | cons c rest ih => simp [Fits, ih, and_assoc]

/-! ### One command -/

theorem options_step (s : Session) (c : Command) :
    (s.step c).engine.options = s.engine.options := by
  cases c with
  | compile options? source =>
    cases hparse : Grammar.parse source with
    | error failure => rw [step_compile_of_error hparse]
    | ok program =>
      rw [step_compile_of_ok hparse]
      rfl
  | run maxDepth index =>
    cases hissue : s.issues[index]? with
    | none => rw [step_run_of_none hissue]
    | some i =>
      rw [step_run_of_some hissue]
      show (s.engine.runWith _ i.program).2.options = s.engine.options
      unfold Engine.runWith
      cases s.engine.machine.tree.resolve i.program.root <;> rfl
  | release index =>
    cases hissue : s.issues[index]? with
    | none => rw [step_release_of_none hissue]
    | some i =>
      rw [step_release_of_some hissue]
      rfl
  | lower | set | define | unset | takeWarnings | takeSplices => rfl

variable {calls calls' : NodeId → Span} {s s' : Session} {i : Issue} {index : Nat}
  {maxDepth : Option Nat}

theorem answer?_of_some (hissue : s.issues[index]? = some i) : s.answer? maxDepth index =
    some (s.engine.outcome (maxDepth.getD s.engine.options.maxDepth) i.program).1 := by
  rw [answer?, ran, hissue]
  rfl

theorem world_run_of_some (hissue : s.issues[index]? = some i) :
    (s.step (.run maxDepth index)).world =
      (s.engine.outcome (maxDepth.getD s.engine.options.maxDepth) i.program).2 := by
  rw [step_run_of_some hissue]
  rfl

/-- Running a program changes the world as the reference does, whatever it recognised. -/
theorem world_run (h : Valid calls s.engine.machine s.issues) (hissue : s.issues[index]? = some i)
    (hfits : ¬ s.Exceeds (.run maxDepth index)) : (s.step (.run maxDepth index)).world =
      if i.released then s.world else (Reference.run i.source s.world).2 := by
  have hi := List.mem_of_getElem? hissue
  rw [world_run_of_some hissue]
  cases hreleased : i.released with
  | true =>
    obtain ⟨message, hgone⟩ := h.outcome_of_released hi hreleased _
    rw [hgone]
    rfl
  | false =>
    rcases h.outcome_eq hi hreleased (maxDepth.getD s.engine.options.maxDepth) with hdeep | heq
    · obtain ⟨message, hdeep⟩ := hdeep
      exact absurd ⟨message, (answer?_of_some hissue).trans (congrArg some hdeep)⟩ hfits
    · rw [heq]
      exact Reference.runLowered_snd i.options i.source s.world

theorem defined_run (h : Valid calls s.engine.machine s.issues) :
    (s.step (.run maxDepth index)).engine.machine.defined = s.engine.machine.defined := by
  cases hissue : s.issues[index]? with
  | none => rw [step_run_of_none hissue]
  | some i =>
    have hi := List.mem_of_getElem? hissue
    rw [step_run_of_some hissue]
    exact (h.later_runWith hi _).defined

theorem made_same (h : s.engine.machine.Sound calls) (options : CompilationOptions)
    (program : Expr) (source : String) : (s.made options program source).world = s.world ∧
      (s.made options program source).engine.machine.defined = s.engine.machine.defined := by
  obtain ⟨root, calls', m', hlower, hgrows, _⟩ := s.exists_lowered h options program
  rw [made, hlower]
  exact ⟨hgrows.world, hgrows.defined⟩

namespace Paired

theorem getElem? (h : Paired s s') (index : Nat) :
    (s.issues[index]? = none ∧ s'.issues[index]? = none) ∨
      ∃ i i', s.issues[index]? = some i ∧ s'.issues[index]? = some i' ∧ i.Twin i' := by
  have hissues := h.issues
  revert hissues index
  generalize s.issues = issues, s'.issues = issues'
  intro index hissues
  induction hissues generalizing index with
  | nil => exact Or.inl ⟨rfl, rfl⟩
  | @cons i i' _ _ htwin _ ih =>
    cases index with
    | zero => exact Or.inr ⟨i, i', rfl, rfl, htwin⟩
    | succ index => exact ih index

theorem made (h : Paired s s') (hsound : s.engine.machine.Sound calls)
    (hsound' : s'.engine.machine.Sound calls') {options options' : CompilationOptions}
    (htails : options'.returnTails = true → options.returnTails = true) (program : Expr)
    (source : String) :
    Paired (s.made options program source) (s'.made options' program source) := by
  obtain ⟨hworld, hdefined⟩ := made_same hsound options program source
  obtain ⟨hworld', hdefined'⟩ := made_same hsound' options' program source
  refine ⟨?_, ?_, h.tails, ?_⟩
  · rw [hworld, hworld', h.world]
  · rw [hdefined, hdefined', h.defined]
  · refine List.rel_append h.issues (.cons ⟨rfl, rfl, htails⟩ .nil)

theorem bind (h : Paired s s') (hsound : s.engine.machine.Sound calls)
    (hsound' : s'.engine.machine.Sound calls') (name : String) (binding : Binding) :
    Paired { s with engine := { s.engine with machine := (s.engine.machine.bind name binding).2 } }
      { s' with
        engine := { s'.engine with machine := (s'.engine.machine.bind name binding).2 } } := by
  obtain ⟨m, hbind, hlater, hworld⟩ := hsound.bind name binding (fun _ ↦ False)
  obtain ⟨m', hbind', hlater', hworld'⟩ := hsound'.bind name binding (fun _ ↦ False)
  rw [hbind, hbind']
  refine ⟨?_, ?_, h.tails, h.issues⟩
  · exact hworld.trans ((congrArg (·.bind name binding) h.world).trans hworld'.symm)
  · exact hlater.defined.trans (h.defined.trans hlater'.defined.symm)

/-- Both sessions run a program, unless it was released. -/
theorem run (h : Paired s s') (hvalid : Valid calls s.engine.machine s.issues)
    (hvalid' : Valid calls' s'.engine.machine s'.issues) (maxDepth : Option Nat) (index : Nat)
    (hfits : ¬ s.Exceeds (.run maxDepth index)) (hfits' : ¬ s'.Exceeds (.run maxDepth index)) :
    Paired (s.step (.run maxDepth index)) (s'.step (.run maxDepth index)) := by
  rcases h.getElem? index with ⟨hnone, hnone'⟩ | ⟨i, i', hissue, hissue', htwin⟩
  · rw [step_run_of_none hnone, step_run_of_none hnone']
    exact h
  · constructor
    · rw [world_run hvalid hissue hfits, world_run hvalid' hissue' hfits', htwin.source,
        htwin.released, h.world]
    · rw [defined_run hvalid, defined_run hvalid', h.defined]
    · rw [options_step, options_step]
      exact h.tails
    · rw [issues_step_run, issues_step_run]
      exact h.issues

/-- Both sessions define a host function, under the same serial number. -/
theorem define (h : Paired s s') (hsound : s.engine.machine.Sound calls)
    (hsound' : s'.engine.machine.Sound calls') (f : HostFunction) :
    Paired (s.step (.define f)) (s'.step (.define f)) := by
  have hbumped : Paired
      { s with engine := { s.engine with
        machine := { s.engine.machine with defined := s.engine.machine.defined + 1 } } }
      { s' with engine := { s'.engine with
        machine := { s'.engine.machine with defined := s'.engine.machine.defined + 1 } } } :=
    ⟨h.world, congrArg (· + 1) h.defined, h.tails, h.issues⟩
  have hbound := hbumped.bind (hsound.congr rfl rfl rfl) (hsound'.congr rfl rfl rfl) f.name
    (.function ⟨s.engine.machine.defined, f⟩)
  have hserial : s'.step (.define f) = { s' with engine := { s'.engine with
      machine := ({ s'.engine.machine with defined := s'.engine.machine.defined + 1 }.bind f.name
        (.function ⟨s.engine.machine.defined, f⟩)).2 } } := by
    rw [h.defined]
    rfl
  rw [hserial]
  exact hbound

theorem releaseAt {issues issues' : List Issue} (h : List.Forall₂ Issue.Twin issues issues')
    (index : Nat) :
    List.Forall₂ Issue.Twin (Issue.releaseAt index issues) (Issue.releaseAt index issues') := by
  induction h generalizing index with
  | nil => cases index <;> exact .nil
  | cons htwin hrest ih =>
    cases index with
    | zero => exact .cons ⟨htwin.source, rfl, htwin.tails⟩ hrest
    | succ index => exact .cons htwin (ih index)

theorem release (h : Paired s s') (index : Nat) :
    Paired (s.step (.release index)) (s'.step (.release index)) := by
  rcases h.getElem? index with ⟨hnone, hnone'⟩ | ⟨i, i', hissue, hissue', _⟩
  · rw [step_release_of_none hnone, step_release_of_none hnone']
    exact h
  · rw [step_release_of_some hissue, step_release_of_some hissue']
    exact ⟨h.world, h.defined, h.tails, releaseAt h.issues index⟩

theorem step (h : Paired s s') (hvalid : Valid calls s.engine.machine s.issues)
    (hvalid' : Valid calls' s'.engine.machine s'.issues) (c : Command) (hfits : ¬ s.Exceeds c)
    (hfits' : ¬ s'.Exceeds c) : Paired (s.step c) (s'.step c) := by
  cases c with
  | compile options? source =>
    cases hparse : Grammar.parse source with
    | error failure =>
      rw [step_compile_of_error hparse, step_compile_of_error hparse]
      exact h
    | ok program =>
      rw [step_compile_of_ok hparse, step_compile_of_ok hparse]
      refine h.made hvalid.sound hvalid'.sound ?_ program source
      cases options? with
      | none => exact h.tails
      | some options => exact id
  | lower program => exact h.made hvalid.sound hvalid'.sound h.tails program ""
  | run maxDepth index => exact h.run hvalid hvalid' maxDepth index hfits hfits'
  | set name v => exact h.bind hvalid.sound hvalid'.sound name (.value v)
  | define f => exact h.define hvalid.sound hvalid'.sound f
  | unset name =>
    have hworld := congrArg (fun w : World ↦ { w with frame := w.frame.erase name }) h.world
    exact ⟨hworld, h.defined, h.tails, h.issues⟩
  | release index => exact h.release index
  | takeWarnings =>
    have hworld := congrArg (fun w : World ↦ { w with warnings := #[] }) h.world
    exact ⟨hworld, h.defined, h.tails, h.issues⟩
  | takeSplices => exact ⟨h.world, h.defined, h.tails, h.issues⟩

/-- Any number of commands, none of which runs a program too deep. -/
theorem foldl (commands : List Command) : ∀ {s s' : Session} {calls calls' : NodeId → Span},
    Paired s s' → Valid calls s.engine.machine s.issues →
    Valid calls' s'.engine.machine s'.issues → s.Fits commands → s'.Fits commands →
    Paired (commands.foldl Session.step s) (commands.foldl Session.step s') := by
  induction commands with
  | nil =>
    intro s s' calls calls' h _ _ _ _
    exact h
  | cons c rest ih =>
    rintro s s' calls calls' h hvalid hvalid' ⟨hfits, hrest⟩ ⟨hfits', hrest'⟩
    obtain ⟨later, hlater⟩ := valid_step hvalid c
    obtain ⟨later', hlater'⟩ := valid_step hvalid' c
    exact ih (h.step hvalid hvalid' c hfits hfits') hlater hlater' hrest hrest'

end Paired

/-! ### Answers -/

theorem answer?_of_kept (h : Valid calls s.engine.machine s.issues)
    (hissue : s.issues[index]? = some i) (hkept : i.released = false)
    (hfits : ¬ s.Exceeds (.run maxDepth index)) : s.answer? maxDepth index =
      some (Reference.told (Reference.runLowered i.options i.source s.world)).1 := by
  rw [answer?_of_some hissue]
  rcases h.outcome_eq (List.mem_of_getElem? hissue) hkept
    (maxDepth.getD s.engine.options.maxDepth) with hdeep | heq
  · obtain ⟨message, hdeep⟩ := hdeep
    exact absurd ⟨message, (answer?_of_some hissue).trans (congrArg some hdeep)⟩ hfits
  · rw [heq]
    rfl

theorem endsWithTail_of_twin {i' : Issue} (h : i.Twin i')
    (hends : i'.options.endsWithTail i'.source = true) :
    i.options.endsWithTail i.source = true := by
  rw [h.source]
  cases hsource : i'.source with
  | block items span =>
    rw [hsource, CompilationOptions.endsWithTail, Bool.and_eq_true] at hends
    rw [CompilationOptions.endsWithTail, h.tails hends.1, hends.2]
    rfl
  | _ =>
    rw [hsource] at hends
    cases hends

namespace Paired

/-- A value that only the second session gives. -/
theorem answers_of_loses (h : Paired s s') (hvalid : Valid calls s.engine.machine s.issues)
    (hvalid' : Valid calls' s'.engine.machine s'.issues)
    (hfits : ¬ s.Exceeds (.run maxDepth index)) (hfits' : ¬ s'.Exceeds (.run maxDepth index))
    {v : Value} (hloses : s.Loses s' index v) : s.answer? maxDepth index = some (.ok .null) ∧
      s'.answer? maxDepth index = some (.ok v) := by
  obtain ⟨i, i', w, hissue, hissue', hkept, hends, hends', href⟩ := hloses
  have htwin : i.Twin i' := by
    rcases h.getElem? index with ⟨hnone, _⟩ | ⟨j, j', hj, hj', htwin⟩
    · simp [hnone] at hissue
    · obtain rfl := Option.some.inj (hissue.symm.trans hj)
      obtain rfl := Option.some.inj (hissue'.symm.trans hj')
      exact htwin
  have href' : Reference.expr i'.source s'.world = .ok v w := by
    rw [← htwin.source, ← h.world]
    exact href
  rw [answer?_of_kept hvalid hissue hkept hfits,
    answer?_of_kept hvalid' hissue' (htwin.released ▸ hkept) hfits', Reference.runLowered,
    Reference.runLowered, href, href', hends, hends']
  exact ⟨rfl, rfl⟩

/-- Any other answer is given by both sessions. -/
theorem sameAnswer (h : Paired s s') (hvalid : Valid calls s.engine.machine s.issues)
    (hvalid' : Valid calls' s'.engine.machine s'.issues)
    (hfits : ¬ s.Exceeds (.run maxDepth index)) (hfits' : ¬ s'.Exceeds (.run maxDepth index))
    (hkeeps : ∀ v, s.Loses s' index v → v = .null) :
    SameAnswer (s.answer? maxDepth index) (s'.answer? maxDepth index) := by
  rcases h.getElem? index with ⟨hnone, hnone'⟩ | ⟨i, i', hissue, hissue', htwin⟩
  · have hanswer : s.answer? maxDepth index = none := by rw [answer?, ran, hnone]; rfl
    have hanswer' : s'.answer? maxDepth index = none := by rw [answer?, ran, hnone']; rfl
    rw [hanswer, hanswer']
    exact .same none
  · cases hreleased : i.released with
    | true =>
      obtain ⟨message, hgone⟩ :=
        hvalid.outcome_of_released (List.mem_of_getElem? hissue) hreleased
          (maxDepth.getD s.engine.options.maxDepth)
      obtain ⟨message', hgone'⟩ :=
        hvalid'.outcome_of_released (List.mem_of_getElem? hissue') (htwin.released ▸ hreleased)
          (maxDepth.getD s'.engine.options.maxDepth)
      rw [answer?_of_some hissue, answer?_of_some hissue', hgone, hgone']
      exact .api message message'
    | false =>
      rw [answer?_of_kept hvalid hissue hreleased hfits,
        answer?_of_kept hvalid' hissue' (htwin.released ▸ hreleased) hfits', ← h.world,
        Reference.runLowered, Reference.runLowered, ← htwin.source]
      cases href : Reference.expr i.source s.world with
      | error halt w => exact .same _
      | ok v w =>
        have hends' := endsWithTail_of_twin htwin
        rw [← htwin.source] at hends'
        cases hon : i.options.endsWithTail i.source with
        | false =>
          have hoff : i'.options.endsWithTail i.source = false := by
            refine Bool.eq_false_iff.mpr fun hon' ↦ ?_
            rw [hends' hon'] at hon
            simp at hon
          rw [hoff]
          exact .same _
        | true =>
          cases hoff : i'.options.endsWithTail i.source with
          | true => exact .same _
          | false =>
            have hnull := hkeeps v ⟨i, i', w, hissue, hissue', hreleased, hon,
              htwin.source ▸ hoff, href⟩
            rw [hnull]
            exact .same _

end Paired

/-- Recognising return tails changes nothing but the value of programs that go on behind a return
tail at their end. Assumes: no run in either engine is nested too deep. -/
theorem sameAnswer_iff_not_loses (options : EngineOptions) (commands : List Command)
    (maxDepth : Option Nat) (index : Nat)
    (hfits : (new (options.recognizing true)).Fits (commands ++ [.run maxDepth index]))
    (hfits' : (new (options.recognizing false)).Fits (commands ++ [.run maxDepth index])) :
    let s := after (options.recognizing true) commands
    let s' := after (options.recognizing false) commands
    s.world = s'.world ∧
      (s.step (.run maxDepth index)).world = (s'.step (.run maxDepth index)).world ∧
      (SameAnswer (s.answer? maxDepth index) (s'.answer? maxDepth index) ↔
        ¬ ∃ v, s.Loses s' index v ∧ v ≠ .null) ∧
      ∀ v, s.Loses s' index v →
        s.answer? maxDepth index = some (.ok .null) ∧ s'.answer? maxDepth index = some (.ok v) := by
  intro s s'
  obtain ⟨hbefore, hlast, _⟩ := (fits_append _ _ _).mp hfits
  obtain ⟨hbefore', hlast', _⟩ := (fits_append _ _ _).mp hfits'
  obtain ⟨calls, hvalid⟩ := valid_after (options.recognizing true) commands
  obtain ⟨calls', hvalid'⟩ := valid_after (options.recognizing false) commands
  have hnew : Paired (new (options.recognizing true)) (new (options.recognizing false)) :=
    ⟨rfl, rfl, fun _ ↦ rfl, .nil⟩
  have hpaired : Paired s s' := hnew.foldl commands (.new fun _ ↦ .origin) (.new fun _ ↦ .origin)
    hbefore hbefore'
  refine ⟨hpaired.world, (hpaired.run hvalid hvalid' maxDepth index hlast hlast').world, ?_,
    fun v hloses ↦ hpaired.answers_of_loses hvalid hvalid' hlast hlast' hloses⟩
  constructor
  · rintro hsame ⟨v, hloses, hv⟩
    obtain ⟨hnull, hvalue⟩ := hpaired.answers_of_loses hvalid hvalid' hlast hlast' hloses
    rw [hnull, hvalue] at hsame
    cases hsame
    exact hv rfl
  · intro hnone
    refine hpaired.sameAnswer hvalid hvalid' hlast hlast' fun v hloses ↦ ?_
    by_contra hv
    exact hnone ⟨v, hloses, hv⟩

/-- A program whose only statement is a return tail that always returns one. -/
def returnsOne : Expr :=
  .block [.ifThen (.literal (.logical .yes) ⟨4, 8⟩)
    (.call "return" [.literal (.int 1) ⟨17, 19⟩] ⟨10, 20⟩) ⟨0, 20⟩] ⟨0, 20⟩

/-- A function that gives back its first argument takes the place of `return`. -/
def returnGivesBack : List Command :=
  [.define ⟨"return", fun _ args ↦ .ok (args.headD .null)⟩, .lower returnsOne]

/-- The call gives one, which is lost where the tail is recognised. -/
theorem sameAnswer_iff_not_loses_returnGivesBack :
    ¬ SameAnswer ((after ⟨⟨true, true⟩, 20⟩ returnGivesBack).answer? none 0)
      ((after ⟨⟨true, false⟩, 20⟩ returnGivesBack).answer? none 0) := by
  have hanswer : (after ⟨⟨true, true⟩, 20⟩ returnGivesBack).answer? none 0 =
      some (.ok .null) := by
    decide +kernel
  have hanswer' : (after ⟨⟨true, false⟩, 20⟩ returnGivesBack).answer? none 0 =
      some (.ok (.scalar (.int 1))) := by
    decide +kernel
  have hfits : (new ⟨⟨true, true⟩, 20⟩).Fits (returnGivesBack ++ [.run none 0]) := by
    refine (fits_append _ _ _).mpr ⟨⟨id, id, trivial⟩, ?_, trivial⟩
    rintro ⟨_, hdeep⟩
    cases hanswer.symm.trans hdeep
  have hfits' : (new ⟨⟨true, false⟩, 20⟩).Fits (returnGivesBack ++ [.run none 0]) := by
    refine (fits_append _ _ _).mpr ⟨⟨id, id, trivial⟩, ?_, trivial⟩
    rintro ⟨_, hdeep⟩
    cases hanswer'.symm.trans hdeep
  have hloses : (after ⟨⟨true, true⟩, 20⟩ returnGivesBack).Loses
      (after ⟨⟨true, false⟩, 20⟩ returnGivesBack) 0 (.scalar (.int 1)) :=
    ⟨_, _, _, rfl, rfl, rfl, rfl, rfl, rfl⟩
  intro hsame
  obtain ⟨_, _, hiff, _⟩ :=
    sameAnswer_iff_not_loses ⟨⟨true, true⟩, 20⟩ returnGivesBack none 0 hfits hfits'
  refine hiff.mp hsame ⟨_, hloses, ?_⟩
  simp

end Session

end AdaptiveTree
