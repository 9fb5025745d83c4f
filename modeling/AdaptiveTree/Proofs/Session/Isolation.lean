import AdaptiveTree.Proofs.Session.Ownership
import AdaptiveTree.Proofs.Simulation.Rounds
import AdaptiveTree.Proofs.Repetition.Confinement
import AdaptiveTree.Proofs.Tree.Overriding

/-!
Programs beside each other. Running one touches no slot of another's tree, except that its return
tails are overridden by the run that binds `return`. Releasing one discards its own tree with the
subscriptions held there and nothing else, and its root never leads anywhere again.
-/

set_option autoImplicit false
set_option relaxedAutoImplicit false

namespace AdaptiveTree

variable {calls : NodeId → Span} {m m' : Machine} {x y root : NodeId} {limit : Nat}

/-! ### Waiting for `return` -/

namespace Machine

/-- Who waits for `return` goes on waiting until it is bound, and then it stays bound. -/
structure Waits (m m' : Machine) : Prop where
  bound : m.frame.contains "return" = true → m'.frame.contains "return" = true
  owners : m'.frame.contains "return" = true ∨ m'.watch.owners = m.watch.owners

theorem Waits.bindValue (m : Machine) (name : String) (v : Value) :
    Waits m (m.bindValue name v).2 := by
  have hframe : (m.bindValue name v).2.frame = m.frame.insert name (.value v) := by
    unfold Machine.bindValue Machine.bind Machine.notify
    dsimp only
    split_ifs <;> rfl
  have hcontains : (m.bindValue name v).2.frame.contains "return" =
      ("return" = name || m.frame.contains "return") := by
    rw [hframe, Frame.contains_insert]
  constructor
  · intro hbound
    rw [hcontains, hbound, Bool.or_true]
  · by_cases hname : "return" = name
    · exact Or.inl (by rw [hcontains, decide_eq_true hname, Bool.true_or])
    · refine Or.inr ?_
      unfold Machine.bindValue Machine.bind Machine.notify
      dsimp only
      split_ifs
      · obtain ⟨w', hnotify, hsubs, _⟩ := m.watch.notify_eq name m.tree
        rw [hnotify]
        show List.map Subscription.owner (w'.subscribers "return") = _
        rw [hsubs, if_neg hname]
        rfl
      · rfl

theorem course_waits : Course (fun _ ↦ True) Waits where
  refl := fun _ ↦ ⟨id, Or.inr rfl⟩
  trans := fun h h' ↦ by
    refine ⟨fun hbound ↦ h'.bound (h.bound hbound), ?_⟩
    rcases h.owners with hbound | hsame
    · exact Or.inl (h'.bound hbound)
    · exact h'.owners.imp_right fun hsame' ↦ hsame'.trans hsame
  keeps := fun _ _ ↦ trivial
  adapts := fun _ _ ↦ ⟨id, Or.inr rfl⟩
  binds := fun name v _ ↦ .bindValue _ name v
  records := fun {m m'} _ _ hwatch hframe ↦
    ⟨fun hbound ↦ by rw [hframe]; exact hbound, Or.inr (by rw [hwatch])⟩

/-- A run in which `return` is not bound overrides nothing. -/
theorem Sound.isBuiltinTail_of_waits (h : m.Sound calls) (h' : m'.Sound calls) (hwaits : Waits m m')
    (hbound : m'.frame.contains "return" = true → m.frame.contains "return" = true)
    (htail : m.tree.IsBuiltinTail x) : m'.tree.IsBuiltinTail x := by
  rcases hwaits.owners with hnow | hsame
  · exact absurd htail (h.unbound (hbound hnow) x)
  · rw [← h'.mem_owners, hsame, h.mem_owners]
    exact htail

/-! ### Running -/

/-- A run adapts nothing outside the tree of its program, apart from return tails. -/
theorem later_run_outside (limit : Nat) {source : Expr} {options : CompilationOptions}
    (h : m.Sound calls)
    (hshows : Shows calls (fun _ ↦ False) m.tree root (.ofProgram options source))
    (hroot : m.tree.resolve root = .ok x) :
    Later calls (m.tree.Outside x) m (m.run limit root).2 := by
  have hsimulates := Eval.simulates_execute calls limit
  have hready := h.ready_outside x
  have hconfined := hshows.confined h.forest hroot
  rw [run_eq]
  cases source with
  | block items span =>
    rw [Part.ofProgram] at hconfined
    split_ifs at hconfined
    · exact (hsimulates.statements hready hconfined).later
    · exact (hsimulates.value hready hconfined).later
  | _ => exact (hsimulates.value hready hconfined).later

/-- Whatever hangs below another root counts as being evaluated meanwhile. -/
theorem Sound.outside (h : m.Sound calls) (hx : m.tree.IsRoot x) (hy : m.tree.IsRoot y)
    (hne : y ≠ x) {i : NodeId} (hi : m.tree.Reaches y i) : m.tree.Outside x i := by
  obtain ⟨n, hn⟩ := Tree.live_of_reaches h.forest hy hi
  exact ⟨⟨n.kind, Tree.kind?_eq_some_iff.mpr ⟨n, hn, rfl⟩⟩, fun hreach ↦
    hne (Tree.root_unique h.forest hy hx hi hreach)⟩

/-- The subscription of a return tail knows the place of its call. -/
theorem Sound.exists_subscription (h : m.Sound calls) (htail : m.tree.IsBuiltinTail x) :
    ∃ sub ∈ m.watch.subscribers "return", sub.owner = x ∧
      sub.callback = fun _ ↦ Edit.overrideReturn x (calls x) := by
  obtain ⟨sub, hsub, rfl⟩ := List.mem_map.mp ((h.mem_owners x).mpr htail)
  exact ⟨sub, hsub, rfl, h.callback sub hsub⟩

/-- What a run of one program does to another one, whose root number leads to `y`. -/
structure Spares (m m' : Machine) (root y : NodeId) : Prop where
  /-- Links and discarded slots are final, wherever they are. -/
  dead : ∀ (i : NodeId) (slot : Slot), m.tree.slots[i]? = some slot → slot.node? = none →
    m'.tree.slots[i]? = some slot
  /-- No slot is touched unless the run binds `return`, and even then not if the tree has no
  return tails. -/
  untouched : ((m'.frame.contains "return" = true → m.frame.contains "return" = true) ∨
      ∀ i, Relation.ReflTransGen m.tree.Holds y i → ¬ m.tree.IsBuiltinTail i) →
    ∀ i, Relation.ReflTransGen m.tree.Holds y i → m'.tree.slots[i]? = m.tree.slots[i]?
  /-- With `return` bound the return tails are overridden, by calls at the places that their
  subscriptions held, and all else is as it was. -/
  overridden : m'.frame.contains "return" = true →
    ∃ calls call, Tree.Overridden calls call m.tree m'.tree y ∧
      (∀ i, m.tree.IsBuiltinTail i → ∃ sub ∈ m.watch.subscribers "return", sub.owner = i ∧
        sub.callback = fun _ ↦ Edit.overrideReturn i (calls i)) ∧
      m'.tree.resolve root = .ok (m.tree.place call y)
  /-- Once `return` is bound no return tails are left anywhere. -/
  settled : m'.frame.contains "return" = true → ∀ i, ¬ m'.tree.IsBuiltinTail i

/-- What is outside the tree of a program is spared by its run. -/
theorem Sound.spares (h : m.Sound calls) (hlater : Later calls (m.tree.Outside x) m m')
    (hwaits : Waits m m') (hx : m.tree.IsRoot x) (hy : m.tree.IsRoot y) (hne : y ≠ x)
    (hroot : m.tree.resolve root = .ok y) : Spares m m' root y := by
  have hevolves := hlater.adapts.evolves h.forest
  have hbusy : ∀ i, m.tree.Reaches y i → m.tree.Outside x i := fun i hi ↦
    h.outside hx hy hne hi
  constructor
  · rintro i (_ | _ | _) hslot hdead
    · cases hdead
    · exact hevolves.persists.retired hslot
    · exact hevolves.persists.discarded hslot
  · rw [Tree.holds_eq_names]
    refine fun hcalm ↦ hlater.adapts.untouched h.forest hy hbusy fun i hi htail ↦ ?_
    rcases hcalm with hbound | hplain
    · exact h.isBuiltinTail_of_waits hlater.sound hwaits hbound htail
    · exact absurd htail (hplain i hi)
  · intro hbound
    obtain ⟨call, hoverridden⟩ :=
      hlater.adapts.overridden h.forest hy hbusy (hlater.sound.unbound hbound)
    refine ⟨calls, call, hoverridden, fun i htail ↦ h.exists_subscription htail, ?_⟩
    obtain ⟨n, hn, _⟩ := hy
    rw [hevolves.persists.resolve_eq hevolves.forest.ascending hroot]
    exact hoverridden.resolve_eq hevolves.forest.ascending .refl hn
  · exact hlater.sound.unbound

end Machine

namespace Session

variable {s : Session} {a b index : Nat} {p q : Issue}

/-- Running the program `a` spares the program `b`. -/
theorem spares_run (hvalid : Valid calls s.engine.machine s.issues) (maxDepth : Option Nat)
    (hne : a ≠ b) (hx : s.Leads a x) (hy : s.Leads b y) (hq : s.issues[b]? = some q) :
    Machine.Spares s.engine.machine (s.step (.run maxDepth a)).engine.machine q.program.root y := by
  have hrootx := hx.isRoot hvalid
  have hrooty := hy.isRoot hvalid
  obtain ⟨p, hp, hkept, hresolve⟩ := hx
  obtain ⟨q', hq', _, hresolve'⟩ := hy
  obtain rfl := Option.some.inj (hq.symm.trans hq')
  have hyx : y ≠ x := by
    rintro rfl
    exact hne (hvalid.apart a b p q y hp hq hresolve hresolve')
  obtain ⟨_, hpresent⟩ := hvalid.present p (List.mem_of_getElem? hp) hkept
  have hmachine : (s.step (.run maxDepth a)).engine.machine =
      (s.engine.machine.run (maxDepth.getD s.engine.options.maxDepth) x).2 := by
    rw [step_run_of_some hp]
    unfold Engine.runWith
    rw [hresolve]
  rw [hmachine]
  refine hvalid.sound.spares ?_ ?_ hrootx hrooty hyx hresolve'
  · refine Machine.later_run_outside _ hvalid.sound (hpresent.shows.resolved hresolve) ?_
    obtain ⟨n, hn, _⟩ := hrootx
    exact Tree.resolve_of_node? hn
  · rw [Machine.run_eq]
    exact Machine.course_waits.leads_execute trivial _ x

/-! ### Releasing -/

open scoped Classical in
/-- The session after the program with the tree below `x` was released: that tree is discarded
with the subscriptions held there, and nothing else is changed. -/
structure Exact (s s' : Session) (x : NodeId) : Prop where
  discarded : ∀ i, Relation.ReflTransGen s.engine.machine.tree.Holds x i →
    s.engine.machine.tree.isLive i = true ∧
      s'.engine.machine.tree.slots[i]? = some .discarded
  /-- Links are among what is kept. -/
  kept : ∀ i, ¬ Relation.ReflTransGen s.engine.machine.tree.Holds x i →
    s'.engine.machine.tree.slots[i]? = s.engine.machine.tree.slots[i]?
  subscribers : ∀ name, s'.engine.machine.watch.subscribers name =
    (s.engine.machine.watch.subscribers name).filter fun sub ↦
      ¬ Relation.ReflTransGen s.engine.machine.tree.Holds x sub.owner
  history : s'.engine.machine.tree.generation = s.engine.machine.tree.generation ∧
    s'.engine.machine.tree.log = s.engine.machine.tree.log
  others : s'.engine.machine = { s.engine.machine with
    tree := s'.engine.machine.tree
    watch := s'.engine.machine.watch }

open scoped Classical in
theorem exact_release (hvalid : Valid calls s.engine.machine s.issues) (hx : s.Leads a x) :
    s.Exact (s.step (.release a)) x := by
  have hforest := hvalid.sound.forest
  have hroot := hx.isRoot hvalid
  obtain ⟨p, hp, _, hresolve⟩ := hx
  have hmachine : (s.step (.release a)).engine.machine = { s.engine.machine with
      tree := s.engine.machine.tree.discard x
      watch := s.engine.machine.watch.prune (s.engine.machine.tree.discard x) } := by
    rw [step_release_of_some hp]
    exact Engine.release_of_resolve hresolve
  constructor
  · intro i hi
    rw [Tree.holds_eq_names] at hi
    obtain ⟨n, hn⟩ := Tree.live_of_reaches hforest hroot hi
    refine ⟨Tree.isLive_iff.mpr ⟨n, hn⟩, ?_⟩
    have hgone := Tree.node?_discard_of_reaches hi
    rw [hmachine]
    rcases (Tree.discarded_discard s.engine.machine.tree x).slot i with heq | ⟨hslot, _⟩
    · rw [Tree.node?, heq] at hgone
      exact absurd (hn.symm.trans hgone) (Option.some_ne_none n)
    · exact hslot
  · intro i hi
    rw [Tree.holds_eq_names] at hi
    rw [hmachine]
    exact Tree.slots_discard_of_not_reaches hi
  · intro name
    rw [hmachine]
    by_cases hname : name = "return"
    · subst hname
      refine (Watch.subscribers_prune hvalid.sound.keys _).trans ?_
      refine List.filter_congr fun sub hsub ↦ ?_
      have htail : s.engine.machine.tree.IsBuiltinTail sub.owner :=
        (hvalid.sound.mem_owners sub.owner).mp (List.mem_map_of_mem hsub)
      have howner := Machine.hasOwner_iff
        (fun y ↦ ((Tree.discarded_discard s.engine.machine.tree x).slot y).imp_right And.left) htail
      rw [Bool.eq_iff_iff, howner, decide_eq_true_iff, Tree.holds_eq_names]
      obtain ⟨n, hn, hkind⟩ := htail
      constructor
      · rintro ⟨n', hn', _⟩
        exact (Tree.node?_discard_eq_some_iff.mp hn').2
      · intro hnot
        exact ⟨n, Tree.node?_discard_eq_some_iff.mpr ⟨hn, hnot⟩, hkind⟩
    · rw [hvalid.sound.others name hname]
      refine (Watch.subscribers_prune hvalid.sound.keys _).trans ?_
      rw [hvalid.sound.others name hname]
      rfl
  · rw [hmachine]
    exact (Tree.discarded_discard s.engine.machine.tree x).history
  · rw [hmachine]

/-! ### Ever after -/

/-- A program that was released stays released. -/
theorem released_step (hvalid : Valid calls s.engine.machine s.issues)
    (hp : s.issues[index]? = some p) (hreleased : p.released = true) (c : Command) :
    (s.step c).issues[index]? = some p := by
  have hmoves := step_moves hvalid c
  generalize s.step c = s' at hmoves
  cases hmoves with
  | evaluates | defines | takes => exact hp
  | makes => exact (List.getElem?_append_left (List.getElem?_eq_some_iff.mp hp).1).trans hp
  | @releases other i x hi hpresent =>
    show (Issue.releaseAt other s.issues)[index]? = some p
    by_cases hother : other = index
    · subst hother
      rw [Valid.releaseAt_of_released hp hreleased, hp]
    · rw [Issue.releaseAt, List.getElem?_modify_ne _ _ hother, hp]

/-- Nothing leads from the root of a program that was released, whatever is done. -/
theorem gone_foldl (hvalid : Valid calls s.engine.machine s.issues)
    (hp : s.issues[index]? = some p) (hreleased : p.released = true) (more : List Command) :
    ∃ e, (more.foldl step s).engine.machine.tree.resolve p.program.root = .error e := by
  suffices hkept : (∃ calls, Valid calls (more.foldl step s).engine.machine
      (more.foldl step s).issues) ∧ (more.foldl step s).issues[index]? = some p by
    obtain ⟨⟨_, hvalid'⟩, hp'⟩ := hkept
    exact (hvalid'.absent p (List.mem_of_getElem? hp') hreleased).resolve
  refine List.foldlRecOn more step
    (motive := fun s ↦ (∃ calls, Valid calls s.engine.machine s.issues) ∧ s.issues[index]? = some p)
    ⟨⟨calls, hvalid⟩, hp⟩ ?_
  rintro s' ⟨⟨_, hvalid'⟩, hp'⟩ c _
  exact ⟨valid_step hvalid' c, released_step hvalid' hp' hreleased c⟩

/-- How two programs that were not released stand to each other. -/
structure Isolates (s : Session) (a b : Nat) (p q : Issue) : Prop where
  leads : ∃ x y, s.Leads a x ∧ s.Leads b y
  /-- No node is below the roots of both. -/
  apart : ∀ x y i, s.Leads a x → s.Leads b y →
    Relation.ReflTransGen s.engine.machine.tree.Holds x i →
    ¬ Relation.ReflTransGen s.engine.machine.tree.Holds y i
  spares : ∀ maxDepth y, s.Leads b y → Machine.Spares s.engine.machine
    (s.step (.run maxDepth a)).engine.machine q.program.root y
  exact : ∀ x, s.Leads a x → s.Exact (s.step (.release a)) x
  gone : ∀ more : List Command, ∃ e,
    (more.foldl step (s.step (.release a))).engine.machine.tree.resolve p.program.root = .error e

/-- After every history running one program spares the others, and releasing it removes it
exactly and for good. -/
theorem isolated_after (options : EngineOptions) (commands : List Command) (a b : Nat)
    (p q : Issue) (hne : a ≠ b) (hp : (after options commands).issues[a]? = some p)
    (hq : (after options commands).issues[b]? = some q) (hkept : p.released = false)
    (hkept' : q.released = false) : (after options commands).Isolates a b p q := by
  obtain ⟨calls, hvalid⟩ := valid_after options commands
  generalize after options commands = s at hp hq hvalid
  obtain ⟨x, hx⟩ := hvalid.present p (List.mem_of_getElem? hp) hkept
  obtain ⟨y, hy⟩ := hvalid.present q (List.mem_of_getElem? hq) hkept'
  have hleads : s.Leads a x := ⟨p, hp, hkept, hx.resolve⟩
  have hleads' : s.Leads b y := ⟨q, hq, hkept', hy.resolve⟩
  have hforest := hvalid.sound.forest
  constructor
  · exact ⟨x, y, hleads, hleads'⟩
  · intro x y i hx hy hxi hyi
    rw [Tree.holds_eq_names] at hxi hyi
    obtain rfl := Tree.root_unique hforest (hx.isRoot hvalid) (hy.isRoot hvalid) hxi hyi
    obtain ⟨p', hp', _, hresolve⟩ := hx
    obtain ⟨q', hq', _, hresolve'⟩ := hy
    exact hne (hvalid.apart a b p' q' x hp' hq' hresolve hresolve')
  · exact fun maxDepth y hy ↦ spares_run hvalid maxDepth hne hleads hy hq
  · exact fun x hx ↦ exact_release hvalid hx
  · obtain ⟨_, hvalid'⟩ := valid_step hvalid (.release a)
    have hreleased : (s.step (.release a)).issues[a]? = some { p with released := true } := by
      rw [step_release_of_some hp]
      show (Issue.releaseAt a s.issues)[a]? = _
      rw [Issue.releaseAt, List.getElem?_modify_eq, hp]
      rfl
    exact fun more ↦ gone_foldl hvalid' hreleased rfl more

/-- A program that binds `return`. -/
def bindsReturn : Expr :=
  .block [.assign "return" (.literal (.int 1) ⟨10, 11⟩) ⟨0, 11⟩] ⟨0, 11⟩

/-- A program with a return tail. -/
def returnsNull : Expr :=
  .block [.ifThen (.literal (.logical .yes) ⟨4, 8⟩)
    (.block [.call "return" [.literal .null ⟨19, 23⟩] ⟨12, 24⟩] ⟨10, 26⟩) ⟨0, 26⟩] ⟨0, 26⟩

/-- The run of the first program overrides the tail of the second one. -/
theorem isolated_after_bindsReturn :
    ((after ⟨⟨true, true⟩, 20⟩ [.lower bindsReturn, .lower returnsNull]).step
        (.run none 0)).engine.machine.frame.contains "return" = true ∧
      (after ⟨⟨true, true⟩, 20⟩ [.lower bindsReturn, .lower returnsNull]).Isolates 0 1
        ⟨⟨2, ""⟩, bindsReturn, ⟨true, true⟩, false⟩ ⟨⟨7, ""⟩, returnsNull, ⟨true, true⟩, false⟩ :=
  ⟨by decide +kernel, isolated_after ⟨⟨true, true⟩, 20⟩ [.lower bindsReturn, .lower returnsNull] 0 1
    ⟨⟨2, ""⟩, bindsReturn, ⟨true, true⟩, false⟩ ⟨⟨7, ""⟩, returnsNull, ⟨true, true⟩, false⟩
    (by decide) rfl rfl rfl rfl⟩

end Session

end AdaptiveTree
