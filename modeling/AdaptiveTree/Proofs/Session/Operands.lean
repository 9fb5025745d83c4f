import AdaptiveTree.Proofs.Depth.Gauged
import AdaptiveTree.Proofs.Lowering.Operands
import AdaptiveTree.Proofs.Session.History
import AdaptiveTree.Proofs.Tree.Footprint

/-!
Programs that were made without tests of equality with a constant. Whatever else is in the engine
and whatever is done with it, no conditional of theirs reads an operand instead of its condition.
-/

set_option autoImplicit false
set_option relaxedAutoImplicit false

namespace AdaptiveTree

namespace Tree

variable {calls : NodeId → Span} {busy : NodeId → Prop} {t t' : Tree} {id x x' c : NodeId}
  {part : Part}

/-- No conditional at a node or below it reads an operand. -/
def WholeBelow (t : Tree) (x : NodeId) : Prop := ∀ y, t.Reaches x y → ¬ t.ReadsOperand y

theorem WholeBelow.child (h : t.WholeBelow x) (hnames : t.Names x c) : t.WholeBelow c :=
  fun y hreach ↦ h y (Relation.ReflTransGen.head hnames hreach)

theorem live_of_not_wholeBelow (h : ¬ t.WholeBelow x) : ∃ n, t.node? x = some n := by
  obtain ⟨y, hy⟩ := not_forall.mp h
  obtain ⟨hreach, hreads⟩ := Classical.not_imp.mp hy
  obtain ⟨n, hn, -⟩ := not_not.mp hreads
  rcases Relation.ReflTransGen.cases_head hreach with rfl | ⟨_, ⟨m, hm, _⟩, _⟩
  · exact ⟨n, hn⟩
  · exact ⟨m, hm⟩

/-- Everything that reads an operand is among the nodes to be avoided. -/
theorem ReadsOperand.occupied (h : t.ReadsOperand x) :
    t.Occupied (fun y ↦ ¬ t.WholeBelow y) x := by
  have hreads := h
  obtain ⟨n, hn, -⟩ := hreads
  exact .of_live hn fun hwhole ↦ hwhole x Relation.ReflTransGen.refl h

theorem WholeBelow.shows (hwhole : t.WholeBelow x) (hforest : t.Forest)
    (hresolve : t.resolve id = .ok x) (h : Shows calls (fun _ ↦ False) t id part) :
    Shows calls (fun y ↦ ¬ t.WholeBelow y) t id part := by
  refine (h.avoid hforest (fun y ↦ ¬ t.WholeBelow y) (fun y hy ↦ live_of_not_wholeBelow hy)
    (fun y c hnames hc hy ↦ hc (hy.child hnames)) fun y hy ↦ ?_).mono fun _ hy ↦ Or.inr hy
  obtain rfl := Except.ok.inj (hresolve.symm.trans hy)
  exact not_not_intro hwhole

theorem WholeBelow.adapts (hwhole : t.WholeBelow x) (hforest : t.Forest)
    (hresolve : t.resolve id = .ok x) (h : Shows calls (fun _ ↦ False) t id part)
    (hadapts : Adapts calls busy t t') (hresolve' : t'.resolve id = .ok x') :
    t'.WholeBelow x' := by
  have hevolves := hadapts.evolves hforest
  have hshows := (hwhole.shows hforest hresolve h).adapts hforest
    (fun y hy ↦ (live_of_not_wholeBelow hy).elim fun _ hn ↦ lt_size_of_node? hn) hadapts
  intro y hreach hreads
  obtain ⟨part', hy⟩ := hshows.exists_below hresolve' hreach
  have hoccupied := (hadapts.inherited hforest).occupied hevolves.persists
    hevolves.forest.ascending (fun _ hx ↦ hx.occupied) y hreads
  obtain ⟨n, hn, -⟩ := hreads
  exact hy.not_occupied hn hoccupied

theorem Intact.wholeBelow (h : Intact t t' x) (hforest : t.Forest) {n : Node}
    (hx : t.node? x = some n) (hwhole : t.WholeBelow x) : t'.WholeBelow x := by
  rintro y hreach ⟨n', hn', hreads⟩
  obtain ⟨hreach', k, hk⟩ := h.reaches_of hforest (kind?_eq_some_iff.mpr ⟨n, hx, rfl⟩) hreach
  obtain ⟨m, hm, hkind⟩ := kind?_eq_some_iff.mp hk
  have hsame := (h y k hreach' hk).symm.trans (kind?_eq_some_iff.mpr ⟨n', hn', rfl⟩)
  refine hwhole y hreach' ⟨m, hm, ?_⟩
  rw [hkind, Option.some.inj hsame]
  exact hreads

theorem Discarded.wholeBelow {ids : List NodeId} (h : Discarded t ids t')
    (hwhole : t.WholeBelow x) : t'.WholeBelow x := by
  rintro y hreach ⟨n, hn, hreads⟩
  refine hwhole y (h.reaches hreach) ⟨n, ?_, hreads⟩
  rcases h.node?_eq_none_or y with hnone | heq
  · simp [hnone] at hn
  · exact heq.symm.trans hn

end Tree

/-- What the program leads to reads no operand instead of a condition. -/
def Issue.Whole (t : Tree) (i : Issue) : Prop :=
  ∀ x, t.resolve i.program.root = .ok x → t.WholeBelow x

namespace Session

variable {s s' : Session} {c : Command} {calls : NodeId → Span} {i : Issue}

/-- No program that was made without tests of equality with a constant has one. -/
def Plain (s : Session) : Prop :=
  ∀ i ∈ s.issues, i.released = false → i.options.constantComparisons = false →
    i.Whole s.engine.machine.tree

theorem whole_moves (hvalid : Valid calls s.engine.machine s.issues)
    (hmoves : s.Moves calls c s') (hi : i ∈ s.issues) (hkept : i.released = false)
    (hwhole : i.Whole s.engine.machine.tree) : i.Whole s'.engine.machine.tree := by
  have hforest := hvalid.sound.forest
  obtain ⟨x, hresolve, hroot, hshows⟩ := hvalid.present i hi hkept
  have hx := hwhole x hresolve
  intro x' hx'
  cases hmoves with
  | evaluates hlater | defines _ hlater =>
    exact hx.adapts hforest hresolve hshows hlater.adapts hx'
  | makes _ hlowered =>
    obtain ⟨n, hn, -⟩ := hroot
    have hgrows := hlowered.grows
    obtain rfl := Except.ok.inj ((hgrows.resolve_eq hresolve).symm.trans hx')
    refine Tree.Intact.wholeBelow (fun y k _ hk ↦ ?_) hforest hn hx
    obtain ⟨m, hm, hkind⟩ := Tree.kind?_eq_some_iff.mp hk
    exact Tree.kind?_eq_some_iff.mpr
      ⟨m, (hgrows.node?_eq (Tree.lt_size_of_node? hm)).trans hm, hkind⟩
  | @releases _ j r _ hpresent =>
    have hdiscarded := Tree.discarded_discard s.engine.machine.tree r
    have htree : (s.engine.release j.program).machine.tree = s.engine.machine.tree.discard r := by
      rw [Engine.release_of_resolve hpresent.resolve]
    rw [htree] at hx' ⊢
    rw [(Tree.persists_discard hforest hpresent.isRoot).resolve_eq
      (hforest.discard hpresent.isRoot).ascending hresolve] at hx'
    -- What the program led to is still there, or it was discarded.
    obtain ⟨n, hn, -⟩ := hroot
    rcases hdiscarded.slot x with heq | ⟨hgone, -⟩
    · have hlive : (s.engine.machine.tree.discard r).node? x = some n := by
        rw [Tree.node?, heq]
        exact hn
      obtain rfl := Except.ok.inj ((Tree.resolve_of_node? hlive).symm.trans hx')
      exact hdiscarded.wholeBelow hx
    · cases (Tree.resolve_of_discarded hgone).symm.trans hx'
  | takes =>
    have hsame : ∀ id, s.engine.takeSplices.2.machine.tree.resolve id =
        s.engine.machine.tree.resolve id := Tree.resolve_congr rfl
    exact hwhole x' ((hsame _).symm.trans hx')

/-- What lowering makes hangs below the new root alone. -/
theorem whole_lowered {m m' : Machine} {calls' : NodeId → Span} {root : NodeId} {part : Part}
    (hlowered : Lowered calls m calls' m' [root] [part]) (hforest : m.tree.Forest)
    (hadds : ∀ y, m'.tree.ReadsOperand y → m.tree.ReadsOperand y) : m'.tree.WholeBelow root := by
  intro y hreach hreads
  have hgrows := hlowered.grows
  have hforest' := hgrows.sound.forest
  obtain ⟨n, hn, -⟩ := hadds y hreads
  obtain ⟨r, hr, hold⟩ := hforest.exists_root hn
  have hnew : m'.tree.IsRoot root := hlowered.roots.isRoot root (List.mem_singleton.mpr rfl)
  have hle : m.tree.slots.size ≤ root := hlowered.roots.fresh root (List.mem_singleton.mpr rfl)
  have hne : r ≠ root := Nat.ne_of_lt (Nat.lt_of_lt_of_le hr.lt_size hle)
  have hreach' : m'.tree.Reaches r y := hold.lift id fun a b hnames ↦ by
    obtain ⟨k, hk, hb⟩ := hnames
    exact ⟨k, (hgrows.node?_eq (Tree.lt_size_of_node? hk)).trans hk, hb⟩
  rcases hforest'.comparable hreach' hreach with hab | hba
  · exact Tree.not_reaches_root hforest' hnew hne.symm hab
  · exact Tree.not_reaches_root hforest' (hgrows.isRoot hr) hne hba

theorem Plain.made (h : s.Plain) (hvalid : Valid calls s.engine.machine s.issues)
    (options : CompilationOptions) (program : Expr) (source : String) :
    (s.made options program source).Plain := by
  intro i hi hkept hoff
  obtain ⟨root, calls', m', hrun, hlowered⟩ :=
    Lower.lowers_program options program calls s.engine.machine hvalid.sound
  have hmade : s.made options program source =
      s.enter { s.engine with machine := m' } ⟨root, source⟩ program options := by
    simp only [Session.made, Engine.lowerWith, StateT.run, hrun]
  rw [hmade] at hi ⊢
  rcases List.mem_append.mp hi with hi | hi
  · have hmoves : s.Moves calls .takeWarnings (s.made options program source) :=
      moves_made hvalid.sound options program source
    rw [hmade] at hmoves
    exact whole_moves hvalid hmoves hi hkept (h i hi hkept hoff)
  · obtain rfl := List.mem_singleton.mp hi
    have hadds := Lower.addsNoOperand_program hoff program s.engine.machine
    rw [hrun] at hadds
    intro x hx
    obtain ⟨n, hn, -⟩ := hlowered.roots.isRoot root (List.mem_singleton.mpr rfl)
    obtain rfl := Except.ok.inj ((Tree.resolve_of_node? hn).symm.trans hx)
    exact whole_lowered hlowered hvalid.sound.forest hadds

theorem Plain.step (h : s.Plain) (hvalid : Valid calls s.engine.machine s.issues) (c : Command) :
    (s.step c).Plain := by
  have hkeep (hissues : ∀ i ∈ (s.step c).issues, i.released = false → i ∈ s.issues) :
      (s.step c).Plain := fun i hi hkept hoff ↦ by
    have hold := hissues i hi hkept
    exact whole_moves hvalid (step_moves hvalid c) hold hkept (h i hold hkept hoff)
  cases c with
  | compile options? source =>
    cases hparse : Grammar.parse source with
    | error failure =>
      rw [step_compile_of_error hparse]
      exact h
    | ok program =>
      rw [step_compile_of_ok hparse]
      exact h.made hvalid _ program source
  | lower program => exact h.made hvalid _ program ""
  | run maxDepth index =>
    refine hkeep fun i hi _ ↦ ?_
    rwa [issues_step_run] at hi
  | release index =>
    refine hkeep fun i hi hkept ↦ ?_
    cases hissue : s.issues[index]? with
    | none => rwa [step_release_of_none hissue] at hi
    | some j =>
      rw [step_release_of_some hissue] at hi
      obtain ⟨a, ha⟩ := List.mem_iff_getElem?.mp hi
      obtain ⟨i', hi', rfl⟩ := Valid.getElem?_releaseAt ha
      split_ifs at hkept ⊢
      exact List.mem_of_getElem? hi'
  | set | define | unset | takeWarnings | takeSplices => exact hkeep fun i hi _ ↦ hi

theorem plain_after (options : EngineOptions) (commands : List Command) :
    (after options commands).Plain :=
  after_induction options commands (fun _ hi ↦ nomatch hi) fun _ c _ hvalid _ h ↦ h.step hvalid c

/-- A program that was not released can be run, avoiding all conditionals that read an operand
if it was made without them. -/
theorem Plain.exists_poised (h : s.Plain) (hvalid : Valid calls s.engine.machine s.issues)
    (hi : i ∈ s.issues) (hkept : i.released = false) :
    ∃ busy, Poised i.options.constantComparisons calls busy s.engine.machine ∧
      Shows calls busy s.engine.machine.tree i.program.root (.ofProgram i.options i.source) := by
  obtain ⟨x, hresolve, -, hshows⟩ := hvalid.present i hi hkept
  cases hoff : i.options.constantComparisons with
  | true => exact ⟨_, ⟨hvalid.sound.ready, fun h ↦ nomatch h⟩, hshows⟩
  | false =>
    have hwhole := h i hi hkept hoff x hresolve
    refine ⟨_, ⟨⟨hvalid.sound, fun y hy ↦ ?_⟩, fun _ y hy ↦ hy.occupied⟩,
      hwhole.shows hvalid.sound.forest hresolve hshows⟩
    obtain ⟨n, hn⟩ := Tree.live_of_not_wholeBelow hy
    exact Tree.lt_size_of_node? hn

end Session

end AdaptiveTree
