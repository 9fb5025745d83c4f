import AdaptiveTree.Proofs.Session.Valid

/-!
Every history of an engine leaves it valid. What a command may do to a session is said once; from
it follows what a command keeps, and by induction what any number of them keep in any order.
-/

set_option autoImplicit false
set_option relaxedAutoImplicit false

namespace AdaptiveTree

variable {calls : NodeId → Span} {e : Engine} {m m' : Machine} {issues : List Issue}

theorem Machine.sound_empty (calls : NodeId → Span) : Machine.empty.Sound calls := by
  refine .of_nobody .empty List.nodup_nil (fun _ ↦ rfl) fun x ↦ ?_
  rintro ⟨n, hn, _⟩
  cases hn

/-- Lowering a program in a sound machine. -/
theorem Session.exists_lowered (s : Session) (h : s.engine.machine.Sound calls)
    (options : CompilationOptions) (program : Expr) : ∃ root calls' m',
      s.engine.lowerWith options program = (root, { s.engine with machine := m' }) ∧
      Lowered calls s.engine.machine calls' m' [root] [.ofProgram options program] := by
  obtain ⟨root, calls', m', hrun, hlowered⟩ :=
    Lower.lowers_program options program calls s.engine.machine h
  refine ⟨root, calls', m', ?_, hlowered⟩
  simp only [Engine.lowerWith, StateT.run, hrun]

/-- Running changes nothing but the machine. -/
theorem Engine.runWith_snd (e : Engine) (maxDepth : Nat) (p : Program) :
    (e.runWith maxDepth p).2 = { e with machine := (e.runWith maxDepth p).2.machine } := by
  unfold runWith
  split <;> rfl

namespace Valid

theorem new (calls : NodeId → Span) : Valid calls Machine.empty [] where
  sound := Machine.sound_empty calls
  present := fun _ h ↦ nomatch h
  absent := fun _ h ↦ nomatch h
  apart := fun a b i j x hi ↦ by simp at hi

theorem later (h : Valid calls m issues) (hlater : Machine.Later calls (fun _ ↦ False) m m') :
    Valid calls m' issues :=
  h.carry (hlater.adapts.carries h.sound.forest) hlater.sound

/-- Lowering a program and entering it. -/
theorem lowered (h : Valid calls m issues) {calls' : NodeId → Span} {i : Issue}
    (hkept : i.released = false)
    (hlowered : Lowered calls m calls' m' [i.program.root] [.ofProgram i.options i.source]) :
    Valid calls' m' (issues ++ [i]) := by
  obtain ⟨hgrows, hroots, _, _⟩ := hlowered
  have hroot : m'.tree.IsRoot i.program.root := hroots.isRoot _ (List.mem_singleton.mpr rfl)
  have hpresent : i.Present calls' m'.tree i.program.root := by
    obtain ⟨n, hn, _⟩ := id hroot
    exact ⟨Tree.resolve_of_node? hn, hroot,
      hroots.shows (i.program.root, _) (List.mem_singleton.mpr rfl)⟩
  refine (h.carry hgrows.carries hgrows.sound).enter hkept hpresent fun j hj heq ↦ ?_
  cases hreleased : j.released with
  | false =>
    obtain ⟨x, hx⟩ := h.present j hj hreleased
    rw [hgrows.resolve_eq hx.resolve] at heq
    have hlt : i.program.root < m.tree.slots.size := Except.ok.inj heq ▸ hx.isRoot.lt_size
    exact Nat.lt_irrefl _ (Nat.lt_of_lt_of_le hlt
      (hroots.fresh _ (List.mem_singleton.mpr rfl)))
  | true =>
    obtain ⟨hbounded, err, herr⟩ := h.absent j hj hreleased
    rw [hgrows.persists.resolve_eq_error h.sound.forest.ascending hgrows.sound.forest.ascending
      hbounded herr] at heq
    simp at heq

/-- Running any program, also one that was released, is evaluation. -/
theorem later_runWith (h : Valid calls e.machine issues) {i : Issue} (hi : i ∈ issues)
    (maxDepth : Nat) :
    Machine.Later calls (fun _ ↦ False) e.machine (e.runWith maxDepth i.program).2.machine := by
  unfold Engine.runWith
  cases hreleased : i.released with
  | true =>
    obtain ⟨_, err, herr⟩ := h.absent i hi hreleased
    rw [herr]
    exact .refl h.sound
  | false =>
    obtain ⟨x, hx⟩ := h.present i hi hreleased
    rw [hx.resolve]
    exact Machine.later_run maxDepth h.sound (hx.shows.resolved hx.resolve)

/-- The log of a tree matters to nothing but itself. -/
theorem takeSplices (h : Valid calls e.machine issues) :
    Valid calls e.takeSplices.2.machine issues := by
  obtain ⟨hascending, howned, hdistinct, hlayered⟩ := h.sound.forest
  obtain ⟨_, hkeys, hothers, hnodup, howners, hcallback, hunbound⟩ := h.sound
  have hforest : e.takeSplices.2.machine.tree.Forest := ⟨hascending, howned, hdistinct, hlayered⟩
  have hpersists : Tree.Persists e.machine.tree e.takeSplices.2.machine.tree :=
    ⟨fun hid ↦ hid, fun hid ↦ hid⟩
  have hresolve : ∀ id, e.takeSplices.2.machine.tree.resolve id = e.machine.tree.resolve id :=
    Tree.resolve_congr rfl
  have hcarries : Tree.Carries calls calls e.machine.tree e.takeSplices.2.machine.tree := by
    refine .of_kept hpersists hforest.ascending (Nat.le_refl _) (fun _ hx ↦ hx) fun id part hshows ↦
      hshows.congr (fun _ hb ↦ absurd hb Tree.not_occupied_nobody)
        (fun id _ hx _ ↦ (hresolve id).trans hx) (fun _ n hn _ ↦ ⟨n, hn, rfl, rfl⟩) fun _ _ _ ↦ rfl
  exact h.carry hcarries ⟨hforest, hkeys, hothers, hnodup, howners, hcallback, hunbound⟩

theorem release (h : Valid calls e.machine issues) {index : Nat} {i : Issue} {x : NodeId}
    (hi : issues[index]? = some i) (hpresent : i.Present calls e.machine.tree x) :
    Valid calls (e.release i.program).machine (Issue.releaseAt index issues) := by
  rw [Engine.release_of_resolve hpresent.resolve]
  refine h.discard hi hpresent
    (h.sound.prune (h.sound.forest.discard hpresent.isRoot) fun y ↦ ?_) rfl
  exact ((Tree.discarded_discard e.machine.tree x).slot y).imp_right And.left

end Valid

/-! ### What a command does -/

namespace Session

/-- The session after a command that evaluates or binds a value, binds a function, makes a
program, releases one that is present, or takes the splices. -/
inductive Moves (calls : NodeId → Span) (s : Session) (c : Command) : Session → Prop
  | evaluates {m' : Machine}
      (hlater : Machine.Later calls (fun _ ↦ False) s.engine.machine m') :
      Moves calls s c ⟨{ s.engine with machine := m' }, s.issues⟩
  | defines {f : HostFunction} {m' : Machine} (hc : c = .define f)
      (hlater : Machine.Later calls (fun _ ↦ False)
        { s.engine.machine with
          frame := s.engine.machine.frame.insert f.name (.function ⟨s.engine.machine.defined, f⟩)
          defined := s.engine.machine.defined + 1 } m') :
      Moves calls s c ⟨{ s.engine with machine := m' }, s.issues⟩
  | makes {calls' : NodeId → Span} {m' : Machine} {i : Issue} (hkept : i.released = false)
      (hlowered : Lowered calls s.engine.machine calls' m' [i.program.root]
        [.ofProgram i.options i.source]) :
      Moves calls s c ⟨{ s.engine with machine := m' }, s.issues ++ [i]⟩
  | releases {index : Nat} {i : Issue} {x : NodeId} (hi : s.issues[index]? = some i)
      (hpresent : i.Present calls s.engine.machine.tree x) :
      Moves calls s c ⟨s.engine.release i.program, Issue.releaseAt index s.issues⟩
  | takes (hc : c = .takeSplices) : Moves calls s c ⟨s.engine.takeSplices.2, s.issues⟩

variable {s s' : Session} {c : Command}

theorem moves_made (h : s.engine.machine.Sound calls) (options : CompilationOptions)
    (program : Expr) (source : String) : s.Moves calls c (s.made options program source) := by
  obtain ⟨root, calls', m', hlower, hlowered⟩ := s.exists_lowered h options program
  rw [made, hlower]
  exact .makes (i := ⟨⟨root, source⟩, program, options, false⟩) rfl hlowered

/-- A machine that only differs in what neither tree, watch nor functions depend on. -/
theorem moves_sound (m' : Machine) (hsound : m'.Sound calls)
    (htree : m'.tree = s.engine.machine.tree) (hdefined : m'.defined = s.engine.machine.defined)
    (hfunctions : ∀ name f, m'.frame.get? name = some (.function f) →
      s.engine.machine.frame.get? name = some (.function f)) :
    s.Moves calls c ⟨{ s.engine with machine := m' }, s.issues⟩ := by
  refine .evaluates ⟨hsound, ?_, hdefined, hfunctions⟩
  rw [htree]
  exact Relation.ReflTransGen.refl

theorem moves_self (h : s.engine.machine.Sound calls) : s.Moves calls c s :=
  .evaluates (.refl h)

theorem step_moves (h : Valid calls s.engine.machine s.issues) (c : Command) :
    s.Moves calls c (s.step c) := by
  cases c with
  | compile options? source =>
    cases hparse : Grammar.parse source with
    | error failure =>
      rw [step_compile_of_error hparse]
      exact moves_self h.sound
    | ok program =>
      rw [step_compile_of_ok hparse]
      exact moves_made h.sound _ program source
  | lower program => exact moves_made h.sound _ program ""
  | run maxDepth index =>
    cases hissue : s.issues[index]? with
    | none =>
      rw [step_run_of_none hissue]
      exact moves_self h.sound
    | some i =>
      rw [step_run_of_some hissue, Engine.runWith_snd]
      exact .evaluates (h.later_runWith (List.mem_of_getElem? hissue)
        (maxDepth.getD s.engine.options.maxDepth))
  | set name v =>
    obtain ⟨m', hbind, hlater, _⟩ := h.sound.bindValue name v (fun _ ↦ False)
    have hstep : s.step (.set name v) = ⟨{ s.engine with machine := m' }, s.issues⟩ := by
      simp only [step, Engine.set, hbind]
    rw [hstep]
    exact .evaluates hlater
  | define f =>
    have hdefined : Machine.Sound calls
        { s.engine.machine with defined := s.engine.machine.defined + 1 } :=
      h.sound.congr rfl rfl rfl
    obtain ⟨m', hbind, hlater, _⟩ :=
      hdefined.bind f.name (.function ⟨s.engine.machine.defined, f⟩) (fun _ ↦ False)
    have hstep : s.step (.define f) = ⟨{ s.engine with machine := m' }, s.issues⟩ := by
      simp only [step, Engine.define, Machine.bindFunction, hbind]
    rw [hstep]
    exact .defines rfl hlater
  | unset name =>
    refine moves_sound _ (h.sound.unbind name) rfl rfl fun other f hf ↦ ?_
    have herased : (s.engine.machine.frame.erase name).get? other = some (.function f) := hf
    rw [Frame.get?_erase] at herased
    split_ifs at herased
    exact herased
  | release index =>
    cases hissue : s.issues[index]? with
    | none =>
      rw [step_release_of_none hissue]
      exact moves_self h.sound
    | some i =>
      rw [step_release_of_some hissue]
      have hi := List.mem_of_getElem? hissue
      cases hreleased : i.released with
      | false =>
        obtain ⟨x, hpresent⟩ := h.present i hi hreleased
        exact .releases hissue hpresent
      | true =>
        obtain ⟨_, err, herr⟩ := h.absent i hi hreleased
        have hmachine := Engine.release_of_error (e := s.engine) herr
        rw [Valid.releaseAt_of_released hissue hreleased]
        refine moves_sound (s.engine.release i.program).machine ?_ ?_ ?_ ?_
        · rw [hmachine]
          exact h.sound.prune h.sound.forest fun _ ↦ Or.inl rfl
        · rw [hmachine]
        · rw [hmachine]
        · rw [hmachine]
          exact fun _ _ hf ↦ hf
  | takeWarnings => exact moves_sound _ (h.sound.congr rfl rfl rfl) rfl rfl fun _ _ hf ↦ hf
  | takeSplices => exact .takes rfl

/-! ### Histories -/

theorem Moves.valid (hmoves : s.Moves calls c s') (h : Valid calls s.engine.machine s.issues) :
    ∃ calls', Valid calls' s'.engine.machine s'.issues := by
  cases hmoves with
  | evaluates hlater => exact ⟨calls, h.later hlater⟩
  | defines _ hlater =>
    exact ⟨calls, h.carry (hlater.adapts.carries h.sound.forest) hlater.sound⟩
  | makes hkept hlowered => exact ⟨_, h.lowered hkept hlowered⟩
  | releases hi hpresent => exact ⟨calls, h.release hi hpresent⟩
  | takes => exact ⟨calls, h.takeSplices⟩

theorem valid_step (h : Valid calls s.engine.machine s.issues) (c : Command) :
    ∃ calls', Valid calls' (s.step c).engine.machine (s.step c).issues :=
  (step_moves h c).valid h

/-- Every history leaves a valid machine. -/
theorem valid_after (options : EngineOptions) (commands : List Command) :
    ∃ calls, Valid calls (after options commands).engine.machine
      (after options commands).issues := by
  have hfold : ∀ (commands : List Command) (s : Session),
      (∃ calls, Valid calls s.engine.machine s.issues) →
        ∃ calls, Valid calls (commands.foldl step s).engine.machine
          (commands.foldl step s).issues := by
    intro commands
    induction commands with
    | nil => exact fun _ h ↦ h
    | cons c rest ih =>
      rintro s ⟨calls, h⟩
      exact ih (s.step c) (valid_step h c)
  exact hfold commands (new options) ⟨fun _ ↦ .origin, .new _⟩

/-- What a new session has and every command keeps, every session has. -/
theorem after_induction {motive : Session → Prop} (options : EngineOptions)
    (commands : List Command) (hnew : motive (new options))
    (hstep : ∀ s c calls, Valid calls s.engine.machine s.issues → c ∈ commands → motive s →
      motive (s.step c)) : motive (after options commands) := by
  refine (List.foldlRecOn commands step
    (motive := fun s ↦ (∃ calls, Valid calls s.engine.machine s.issues) ∧ motive s)
    ⟨⟨fun _ ↦ .origin, .new _⟩, hnew⟩ ?_).2
  rintro s ⟨⟨calls, hvalid⟩, hs⟩ c hc
  exact ⟨valid_step hvalid c, hstep s c calls hvalid hc hs⟩

/-- Only a definition binds a name to a function, to a new one. -/
theorem step_functions (h : Valid calls s.engine.machine s.issues) (c : Command) :
    ((s.step c).engine.machine.defined = s.engine.machine.defined ∧
      ∀ name f, (s.step c).engine.machine.frame.get? name = some (.function f) →
        s.engine.machine.frame.get? name = some (.function f)) ∨
    ∃ f, c = .define f ∧ (s.step c).engine.machine.defined = s.engine.machine.defined + 1 ∧
      ∀ name g, (s.step c).engine.machine.frame.get? name = some (.function g) →
        (s.engine.machine.frame.insert f.name
          (.function ⟨s.engine.machine.defined, f⟩)).get? name = some (.function g) := by
  have hmoves := step_moves h c
  revert hmoves
  generalize s.step c = s'
  intro hmoves
  cases hmoves with
  | evaluates hlater => exact Or.inl ⟨hlater.defined, hlater.functions⟩
  | @defines f _ hc hlater => exact Or.inr ⟨f, hc, hlater.defined, hlater.functions⟩
  | @makes _ m' _ _ hlowered =>
    refine Or.inl ⟨hlowered.grows.defined, fun name f hf ↦ ?_⟩
    have hframe : m'.frame = s.engine.machine.frame := congrArg World.frame hlowered.grows.world
    rw [← hframe]
    exact hf
  | releases | takes => exact Or.inl ⟨rfl, fun _ _ hf ↦ hf⟩

/-! ### The middle of a run -/

/-- The machine in which a run is broken off, right after the first binding that leads to a
machine to stop in. -/
def interrupted (s : Session) (stop : Machine → Bool) (maxDepth index : Nat) : Machine :=
  match s.issues[index]? with
  | some i =>
    match s.engine.machine.tree.resolve i.program.root with
    | .ok root => machineOf (Eval.executeUntil stop maxDepth root s.engine.machine)
    | .error _ => s.engine.machine
  | none => s.engine.machine

theorem valid_interrupted {s : Session} (h : Valid calls s.engine.machine s.issues)
    (stop : Machine → Bool) (maxDepth index : Nat) :
    Valid calls (s.interrupted stop maxDepth index) s.issues := by
  unfold interrupted
  rcases hissue : s.issues[index]? with _ | i
  · exact h
  · have hi := List.mem_of_getElem? hissue
    dsimp only
    cases hreleased : i.released with
    | true =>
      obtain ⟨_, err, herr⟩ := h.absent i hi hreleased
      rw [herr]
      exact h
    | false =>
      obtain ⟨x, hx⟩ := h.present i hi hreleased
      rw [hx.resolve]
      exact h.later (Machine.later_executeUntil stop maxDepth h.sound
        (hx.shows.resolved hx.resolve))

end Session

end AdaptiveTree
