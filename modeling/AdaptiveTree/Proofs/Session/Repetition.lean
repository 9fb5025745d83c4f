import AdaptiveTree.Proofs.Repetition.Statements
import AdaptiveTree.Proofs.Session.Agreement

/-!
One run is enough to adapt. After any history, run a program, put the bindings and the host
functions back to what they were, and run it again: the second run leaves the tree as it is. What
the first one did to the bindings does not matter, nor whether it came to a value or to an error.
-/

set_option autoImplicit false
set_option relaxedAutoImplicit false

namespace AdaptiveTree

/-- The command binds a name or removes a binding. -/
def Command.binds : Command → Bool
  | .set .. | .define _ | .unset _ => true
  | _ => false

/-- A frame with one binding, to a value. -/
theorem Frame.eq_of_value? {f : Frame} {name : String} {v : Value} (hsize : f.size = 1)
    (hvalue : f.value? name = some v) : f = ⟨[(name, .value v)]⟩ := by
  obtain ⟨bindings⟩ := f
  obtain ⟨⟨key, binding⟩, rfl⟩ := List.length_eq_one_iff.mp hsize
  have hname : name = key := by
    by_contra hne
    have hkey : (name == key) = false := by simpa using hne
    simp [value?, get?, List.lookup_cons, hkey] at hvalue
  subst hname
  cases binding with
  | value u => simpa [value?, get?] using hvalue
  | function f => simp [value?, get?] at hvalue

/-! ### Worlds that are put back -/

namespace World

/-- The same names are bound to the same values, and to functions that answer in the same way from
now on. -/
def Alike (w w' : World) : Prop :=
  ∀ name, Binding.Linked (fun f f' ↦ ∀ later args,
    f.function.answer (later ++ w.history f.serial) args =
      f'.function.answer (later ++ w'.history f'.serial) args)
    (w.frame.get? name) (w'.frame.get? name)

/-- No two names are bound to the same definition. -/
def Apart (w : World) : Prop :=
  ∀ a b f g, w.frame.get? a = some (.function f) → w.frame.get? b = some (.function g) →
    f.serial = g.serial → a = b

/-- Functions that one name is bound to, each in its world. -/
def Namesakes (base base' : World) (f f' : Definition) : Prop :=
  ∃ name, base.frame.get? name = some (.function f) ∧
    base'.frame.get? name = some (.function f')

/-- Two worlds after the same evaluation, begun in `base` and in `base'`. -/
structure Parallel (base base' w w' : World) : Prop where
  linked : ∀ name, Binding.Linked (base.Namesakes base') (w.frame.get? name) (w'.frame.get? name)
  called : ∀ f f', base.Namesakes base' f f' → ∃ later,
    w.history f.serial = later ++ base.history f.serial ∧
      w'.history f'.serial = later ++ base'.history f'.serial

variable {base base' w w' : World}

theorem history_called (w : World) (f : Definition) (args : List Value) (serial : Nat) :
    (w.called f args).history serial =
      if f.serial = serial then args :: w.history serial else w.history serial := by
  unfold called history
  dsimp only
  by_cases h : f.serial = serial <;> simp [h]

theorem Namesakes.serial_iff (hapart : base.Apart) (hapart' : base'.Apart)
    {f f' g g' : Definition} (hf : base.Namesakes base' f f') (hg : base.Namesakes base' g g') :
    f.serial = g.serial ↔ f'.serial = g'.serial := by
  obtain ⟨a, hf, hf'⟩ := hf
  obtain ⟨b, hg, hg'⟩ := hg
  constructor
  · intro heq
    obtain rfl := hapart a b f g hf hg heq
    obtain rfl := Binding.function.inj (Option.some.inj (hf'.symm.trans hg'))
    rfl
  · intro heq
    obtain rfl := hapart' a b f' g' hf' hg' heq
    obtain rfl := Binding.function.inj (Option.some.inj (hf.symm.trans hg))
    rfl

theorem Alike.parallel (h : Alike base base') : Parallel base base' base base' where
  linked := fun name ↦ by
    have hname : ∀ f f', base.frame.get? name = some (.function f) →
      base'.frame.get? name = some (.function f') → base.Namesakes base' f f' :=
        fun f f' hf hf' ↦ ⟨name, hf, hf'⟩
    have hlinked := h name
    revert hname hlinked
    generalize base.frame.get? name = binding
    generalize base'.frame.get? name = binding'
    intro hname hlinked
    cases hlinked with
    | absent => exact .absent
    | value v => exact .value v
    | function _ => exact .function (hname _ _ rfl rfl)
  called := fun _ _ _ ↦ ⟨[], rfl, rfl⟩

/-- Functions of one name answer in the same way, whatever they were called with since. -/
theorem Alike.answer_eq (h : Alike base base') {f f' : Definition}
    (hnamed : base.Namesakes base' f f') (later : List (List Value)) (args : List Value) :
    f.function.answer (later ++ base.history f.serial) args =
      f'.function.answer (later ++ base'.history f'.serial) args := by
  obtain ⟨name, hf, hf'⟩ := hnamed
  have hlinked := h name
  rw [hf, hf'] at hlinked
  cases hlinked with
  | function hanswer => exact hanswer later args

theorem Parallel.bind (h : Parallel base base' w w') (name : String) (v : Value) :
    Parallel base base' (w.bind name (.value v)) (w'.bind name (.value v)) where
  linked := fun other ↦ by
    show Binding.Linked _ ((w.frame.insert name _).get? other) ((w'.frame.insert name _).get? other)
    rw [Frame.get?_insert, Frame.get?_insert]
    split_ifs
    · exact .value v
    · exact h.linked other
  called := h.called

/-- A call is entered for the one function in both worlds, and for no other one. -/
theorem Parallel.call (h : Parallel base base' w w') (hapart : base.Apart)
    (hapart' : base'.Apart) {f f' : Definition} (hf : base.Namesakes base' f f')
    (args : List Value) : Parallel base base' (w.called f args) (w'.called f' args) where
  linked := h.linked
  called := fun g g' hg ↦ by
    obtain ⟨later, hlater, hlater'⟩ := h.called g g' hg
    rw [history_called, history_called, hlater, hlater']
    have hserial := hf.serial_iff hapart hapart' hg
    by_cases heq : f.serial = g.serial
    · rw [if_pos heq, if_pos (hserial.mp heq)]
      exact ⟨args :: later, rfl, rfl⟩
    · rw [if_neg heq, if_neg (mt hserial.mpr heq)]
      exact ⟨later, rfl, rfl⟩

/-- Evaluation keeps two worlds parallel. -/
theorem Alike.bridge (h : Alike base base') (hapart : base.Apart) (hapart' : base'.Apart) :
    Bridge (Parallel base base') (base.Namesakes base') fun _ ↦ True where
  linked := fun hparallel ↦ hparallel.linked
  bind := fun hparallel name v ↦ hparallel.bind name v
  warn := fun hparallel _ _ _ ↦ ⟨hparallel.linked, hparallel.called⟩
  called := fun hparallel hnamed args ↦ hparallel.call hapart hapart' hnamed args
  answer := fun {w w' f f'} hparallel hnamed args ↦ by
    obtain ⟨later, hlater, hlater'⟩ := hparallel.called f f' hnamed
    rw [hlater, hlater']
    exact h.answer_eq hnamed later args
  raises := fun _ _ _ _ _ ↦ trivial
  own := fun _ _ ↦ trivial

end World

/-! ### Definitions and their names -/

/-- Every definition was made before, and is bound to one name only. -/
structure Machine.Numbered (m : Machine) : Prop where
  bounded : ∀ name f, m.frame.get? name = some (.function f) → f.serial < m.defined
  apart : m.world.Apart

namespace Session

variable {s s' : Session} {calls : NodeId → Span}

theorem numbered_step (hvalid : Valid calls s.engine.machine s.issues)
    (h : s.engine.machine.Numbered) (c : Command) : (s.step c).engine.machine.Numbered := by
  rcases step_functions hvalid c with ⟨hdefined, hold⟩ | ⟨f, -, hdefined, hbound⟩
  · refine ⟨fun name g hg ↦ ?_, fun a b g g' hg hg' heq ↦ ?_⟩
    · rw [hdefined]
      exact h.bounded name g (hold name g hg)
    · exact h.apart a b g g' (hold a g hg) (hold b g' hg') heq
  · -- A binding is the new one, whose number nobody had, or an old one.
    have hcases : ∀ name g, (s.step c).engine.machine.frame.get? name = some (.function g) →
        name = f.name ∧ g.serial = s.engine.machine.defined ∨
          s.engine.machine.frame.get? name = some (.function g) := by
      intro name g hg
      have hnew := hbound name g hg
      rw [Frame.get?_insert] at hnew
      split_ifs at hnew with hname
      · obtain rfl := Binding.function.inj (Option.some.inj hnew)
        exact Or.inl ⟨hname, rfl⟩
      · exact Or.inr hnew
    refine ⟨fun name g hg ↦ ?_, fun a b g g' hg hg' heq ↦ ?_⟩
    · rw [hdefined]
      rcases hcases name g hg with ⟨_, hserial⟩ | hold
      · exact hserial ▸ Nat.lt_succ_self _
      · exact Nat.lt_succ_of_lt (h.bounded name g hold)
    · rcases hcases a g hg with ⟨rfl, hserial⟩ | hold <;>
        rcases hcases b g' hg' with ⟨rfl, hserial'⟩ | hold'
      · rfl
      · exact absurd (heq ▸ hserial) (Nat.ne_of_lt (h.bounded b g' hold'))
      · exact absurd (heq.trans hserial') (Nat.ne_of_lt (h.bounded a g hold))
      · exact h.apart a b g g' hold hold' heq

theorem numbered_after (options : EngineOptions) (commands : List Command) :
    (after options commands).engine.machine.Numbered := by
  refine after_induction options commands ⟨?_, ?_⟩ fun s c calls hvalid _ h ↦
    numbered_step hvalid h c
  · exact fun _ _ hf ↦ nomatch hf
  · exact fun _ _ _ _ hf ↦ nomatch hf

/-! ### Putting the bindings back -/

/-- What binding names makes of a session. -/
structure Rebound (calls : NodeId → Span) (s s' : Session) : Prop where
  sound : s'.engine.machine.Sound calls
  adapts : Tree.Adapts calls (fun _ ↦ True) s.engine.machine.tree s'.engine.machine.tree
  options : s'.engine.options = s.engine.options
  issues : s'.issues = s.issues

theorem rebound_step (h : s.engine.machine.Sound calls) {c : Command} (hc : c.binds = true) :
    s.Rebound calls (s.step c) := by
  cases c with
  | set name v =>
    obtain ⟨m', hbind, hlater, _⟩ := h.bindValue name v (fun _ ↦ True)
    have hstep : s.step (.set name v) = ⟨{ s.engine with machine := m' }, s.issues⟩ := by
      simp only [step, Engine.set, hbind]
    rw [hstep]
    exact ⟨hlater.sound, hlater.adapts, rfl, rfl⟩
  | define f =>
    have hdefined : Machine.Sound calls
        { s.engine.machine with defined := s.engine.machine.defined + 1 } :=
      h.congr rfl rfl rfl
    obtain ⟨m', hbind, hlater, _⟩ :=
      hdefined.bind f.name (.function ⟨s.engine.machine.defined, f⟩) (fun _ ↦ True)
    have hstep : s.step (.define f) = ⟨{ s.engine with machine := m' }, s.issues⟩ := by
      simp only [step, Engine.define, Machine.bindFunction, hbind]
    rw [hstep]
    exact ⟨hlater.sound, hlater.adapts, rfl, rfl⟩
  | unset name => exact ⟨h.unbind name, Relation.ReflTransGen.refl, rfl, rfl⟩
  | _ => cases hc

theorem rebound_foldl (restore : List Command) :
    ∀ s : Session, s.engine.machine.Sound calls → (∀ c ∈ restore, c.binds = true) →
      s.Rebound calls (restore.foldl step s) := by
  induction restore with
  | nil => exact fun s h _ ↦ ⟨h, Relation.ReflTransGen.refl, rfl, rfl⟩
  | cons c rest ih =>
    intro s h hbinds
    have hfirst := rebound_step h (hbinds c (List.mem_cons_self ..))
    have hrest := ih (s.step c) hfirst.sound fun d hd ↦ hbinds d (List.mem_cons_of_mem _ hd)
    exact ⟨hrest.sound, hfirst.adapts.trans hrest.adapts, hrest.options.trans hfirst.options,
      hrest.issues.trans hfirst.issues⟩

end Session

/-! ### Running again -/

namespace Engine

variable {e : Engine} {p : Program} {x : NodeId}

theorem machine_runWith (h : e.machine.tree.resolve p.root = .ok x) (maxDepth : Nat) :
    (e.runWith maxDepth p).2.machine = machineOf (Eval.execute maxDepth x e.machine) := by
  unfold runWith Machine.run
  rw [h]
  dsimp only
  cases Eval.execute maxDepth x e.machine <;> rfl

theorem exceeded_runWith (h : e.machine.tree.resolve p.root = .ok x) {maxDepth : Nat}
    {span : Span} {m' : Machine}
    (hdeep : Eval.execute maxDepth x e.machine = .error (.tooDeep span) m') :
    EngineError.Exceeded (e.runWith maxDepth p).1 := by
  unfold runWith Machine.run
  rw [h]
  dsimp only
  rw [hdeep]
  exact ⟨_, rfl⟩

end Engine

namespace Session

variable {s s' : Session} {calls : NodeId → Span}

/-- A program that was released is not run. -/
theorem machine_runWith_of_released {e : Engine} {issues : List Issue} {i : Issue}
    (h : Valid calls e.machine issues) (hi : i ∈ issues) (hgone : i.released = true)
    (maxDepth : Nat) : (e.runWith maxDepth i.program).2.machine = e.machine := by
  obtain ⟨_, err, herr⟩ := h.absent i hi hgone
  unfold Engine.runWith
  rw [herr]

/-- What is known of a program that was run holds in the machine in which the bindings were put
back, whatever return tails were overridden there. -/
theorem Rebound.tree_runWith {i : Issue} {maxDepth : Nat}
    (h : Rebound calls ⟨(s.engine.runWith maxDepth i.program).2, s.issues⟩ s')
    (hvalid : Valid calls s.engine.machine s.issues) (hi : i ∈ s.issues)
    (hanswer : ¬ EngineError.Exceeded (s.engine.runWith maxDepth i.program).1)
    (hapart : s.engine.machine.world.Apart) (hapart' : s'.engine.machine.world.Apart)
    (halike : s.engine.machine.world.Alike s'.engine.machine.world) :
    (s'.engine.runWith maxDepth i.program).2.machine.tree = s'.engine.machine.tree := by
  have hforest := hvalid.sound.forest
  have hlater := hvalid.later_runWith hi maxDepth
  have hadapts : Tree.Adapts calls (fun _ ↦ False) s.engine.machine.tree s'.engine.machine.tree :=
    hlater.adapts.trans (h.adapts.mono fun _ hb ↦ hb.elim)
  have hvalid' : Valid calls s'.engine.machine s.issues :=
    hvalid.carry (hadapts.carries hforest) h.sound
  cases hreleased : i.released with
  | true => rw [machine_runWith_of_released hvalid' hi hreleased]
  | false =>
    obtain ⟨x, hresolve, -, hshows⟩ := hvalid.present i hi hreleased
    obtain ⟨x', hresolve', -⟩ := hvalid'.present i hi hreleased
    have hshows' := hshows.resolved hresolve
    have hx' := ((hadapts.evolves hforest).persists.resolve_eq h.sound.forest.ascending
      hresolve).symm.trans hresolve'
    have hfinished := finished_of_execute (halike.bridge hapart hapart') maxDepth hvalid.sound
      i.options hshows' fun span m' hdeep ↦ hanswer (Engine.exceeded_runWith hresolve hdeep)
    rw [← Engine.machine_runWith hresolve] at hfinished
    rw [Engine.machine_runWith hresolve',
      Eval.tree_execute_congr ((Tree.resolve_resolved hx').trans hx'.symm) maxDepth]
    exact hfinished maxDepth _ h.sound (hshows'.adapts hforest (fun _ hb ↦ hb.elim) hadapts)
      h.adapts halike.parallel

theorem sound_step_run (h : Valid calls s.engine.machine s.issues) (maxDepth : Option Nat)
    (index : Nat) : (s.step (.run maxDepth index)).engine.machine.Sound calls := by
  cases hissue : s.issues[index]? with
  | none =>
    rw [step_run_of_none hissue]
    exact h.sound
  | some i =>
    rw [step_run_of_some hissue]
    exact (h.later_runWith (List.mem_of_getElem? hissue) _).sound

theorem Rebound.tree_step_run {maxDepth : Option Nat} {index : Nat}
    (h : Rebound calls (s.step (.run maxDepth index)) s')
    (hvalid : Valid calls s.engine.machine s.issues)
    (hanswer : ∀ answer, s.answer? maxDepth index = some answer → ¬ EngineError.Exceeded answer)
    (hapart : s.engine.machine.world.Apart) (hapart' : s'.engine.machine.world.Apart)
    (halike : s.engine.machine.world.Alike s'.engine.machine.world) :
    (s'.step (.run maxDepth index)).engine.machine.tree = s'.engine.machine.tree := by
  have hissues := h.issues.trans (issues_step_run s maxDepth index)
  cases hissue : s.issues[index]? with
  | none => rw [step_run_of_none (hissues ▸ hissue)]
  | some i =>
    rw [step_run_of_some hissue] at h
    have hoptions : s'.engine.options = s.engine.options := by
      rw [h.options, Engine.runWith_snd]
    rw [step_run_of_some (hissues ▸ hissue), hoptions]
    refine h.tree_runWith hvalid (List.mem_of_getElem? hissue) (hanswer _ ?_) hapart hapart' halike
    simp only [answer?, ran, hissue, Option.map_some]

/-- After any history, a program is run under a limit that it keeps to, and the bindings and the
host functions are put back. Running it again under that limit changes nothing of the tree, neither
a slot or a link nor the number of splices. -/
theorem tree_run_again (options : EngineOptions) (commands restore : List Command)
    (maxDepth : Option Nat) (index : Nat)
    (hanswer : ∀ answer, (after options commands).answer? maxDepth index = some answer →
      ¬ EngineError.Exceeded answer)
    (hrestore : ∀ c ∈ restore, c.binds = true)
    (halike : (after options commands).engine.machine.world.Alike
      (after options (commands ++ .run maxDepth index :: restore)).engine.machine.world) :
    (after options (commands ++ .run maxDepth index :: restore ++
        [.run maxDepth index])).engine.machine.tree =
      (after options (commands ++ .run maxDepth index :: restore)).engine.machine.tree := by
  obtain ⟨calls, hvalid⟩ := valid_after options commands
  have hapart := (numbered_after options commands).apart
  have hapart' := (numbered_after options (commands ++ .run maxDepth index :: restore)).apart
  have hrestored : after options (commands ++ .run maxDepth index :: restore) =
      restore.foldl step ((after options commands).step (.run maxDepth index)) := by
    rw [after, List.foldl_append, List.foldl_cons, after]
  have hagain : after options (commands ++ .run maxDepth index :: restore ++
      [.run maxDepth index]) =
      (after options (commands ++ .run maxDepth index :: restore)).step (.run maxDepth index) := by
    rw [after, List.foldl_append, ← after, List.foldl_cons, List.foldl_nil]
  rw [hagain]
  rw [hrestored] at halike hapart' ⊢
  exact (rebound_foldl restore _ (sound_step_run hvalid maxDepth index) hrestore).tree_step_run
    hvalid hanswer hapart hapart' halike

/-- A program that tests a variable for equality with one and changes it if it is. -/
def testThenBind : Expr :=
  .block [.ifElse (.compare .eq (.ident "x" ⟨4, 5⟩) (.literal (.int 1) ⟨9, 11⟩) ⟨4, 11⟩)
    (.assign "x" (.literal (.int 2) ⟨18, 20⟩) ⟨13, 20⟩) (.literal (.int 3) ⟨26, 28⟩) ⟨0, 28⟩]
    ⟨0, 28⟩

/-- The variable is one, as it is put back to later. -/
def boundToOne : List Command := [.lower testThenBind, .set "x" (.scalar (.int 1))]

/-- The first run specialises the test and changes the variable, which is put back. -/
theorem tree_run_again_boundToOne :
    (after ⟨⟨true, false⟩, 20⟩ boundToOne).answer? none 0 = some (.ok (.scalar (.int 2))) ∧
      (after ⟨⟨true, false⟩, 20⟩
        (boundToOne ++ [.run none 0])).engine.machine.tree.generation = 1 ∧
      (after ⟨⟨true, false⟩, 20⟩ (boundToOne ++ .run none 0 :: [.set "x" (.scalar (.int 1))] ++
          [.run none 0])).engine.machine.tree =
        (after ⟨⟨true, false⟩, 20⟩
          (boundToOne ++ .run none 0 :: [.set "x" (.scalar (.int 1))])).engine.machine.tree := by
  have hanswer : (after ⟨⟨true, false⟩, 20⟩ boundToOne).answer? none 0 =
      some (.ok (.scalar (.int 2))) := by
    decide +kernel
  have hbefore : (after ⟨⟨true, false⟩, 20⟩ boundToOne).engine.machine.frame =
      ⟨[("x", .value (.scalar (.int 1)))]⟩ :=
    Frame.eq_of_value? (by decide +kernel) (by decide +kernel)
  have hafter : (after ⟨⟨true, false⟩, 20⟩
      (boundToOne ++ .run none 0 :: [.set "x" (.scalar (.int 1))])).engine.machine.frame =
      ⟨[("x", .value (.scalar (.int 1)))]⟩ :=
    Frame.eq_of_value? (by decide +kernel) (by decide +kernel)
  refine ⟨hanswer, by decide +kernel, ?_⟩
  refine tree_run_again ⟨⟨true, false⟩, 20⟩ boundToOne [.set "x" (.scalar (.int 1))] none 0 ?_ ?_ ?_
  · rintro answer hsome ⟨message, hexceeded⟩
    rw [hanswer, hexceeded] at hsome
    simp at hsome
  · simp [Command.binds]
  · intro name
    show Binding.Linked _ (Frame.get? _ name) (Frame.get? _ name)
    rw [Machine.world, Machine.world, hbefore, hafter]
    by_cases hname : name = "x"
    · rw [hname]
      exact .value _
    · have hnone : (Frame.mk [("x", .value (.scalar (.int 1)))]).get? name = none := by
        simp [Frame.get?, hname]
      rw [hnone]
      exact .absent

end Session

end AdaptiveTree
