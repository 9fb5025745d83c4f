import AdaptiveTree.Proofs.Machine.Watch
import AdaptiveTree.Proofs.Reference.Basic
import AdaptiveTree.Proofs.Tree.Installing

/-!
Machines whose tree, watch and bindings agree. The tree is a forest, exactly its builtin return
tails wait for `return`, each to be overridden, and there are none once `return` is bound.
Binding any name keeps this: whoever waits is overridden before anything else happens.
-/

set_option autoImplicit false
set_option relaxedAutoImplicit false

namespace AdaptiveTree

namespace Frame

variable {f : Frame} {name other : String} {binding : Binding}

theorem get?_erase : (f.erase name).get? other = if other = name then none else f.get? other := by
  obtain ⟨bindings⟩ := f
  unfold erase get?
  dsimp only
  induction bindings with
  | nil => simp
  | cons b rest ih =>
    obtain ⟨key, value⟩ := b
    by_cases hkey : key = name
    · subst hkey
      rw [List.filter_cons_of_neg (by simp), ih]
      split_ifs with h
      · rfl
      · have hne : (other == key) = false := by simpa using h
        rw [List.lookup_cons, hne]
    · rw [List.filter_cons_of_pos (by simpa using hkey), List.lookup_cons, List.lookup_cons, ih]
      split_ifs with h
      · subst h
        have hne : (other == key) = false := by simpa using Ne.symm hkey
        rw [hne]
      · rfl

theorem get?_insert :
    (f.insert name binding).get? other = if other = name then some binding else f.get? other := by
  have herase : (f.erase name).get? other = if other = name then none else f.get? other :=
    get?_erase
  show List.lookup other ((name, binding) :: (f.erase name).bindings) = _
  rw [List.lookup_cons]
  by_cases h : other = name
  · simp [h]
  · have hne : (other == name) = false := by simpa using h
    rw [hne, if_neg h]
    exact herase.trans (if_neg h)

theorem contains_insert :
    (f.insert name binding).contains other = (other = name || f.contains other) := by
  unfold contains
  rw [get?_insert]
  split_ifs with h <;> simp [h]

theorem contains_erase : (f.erase name).contains other = (other ≠ name && f.contains other) := by
  unfold contains
  rw [get?_erase]
  split_ifs with h <;> simp [h]

end Frame

namespace Watch

/-- The nodes that wait for `return`, in the order in which they were lowered. -/
def owners (w : Watch) : List NodeId := (w.subscribers "return").map Subscription.owner

end Watch

namespace Machine

/-- `calls` gives the place in the source of the call that a return tail stands for. -/
structure Sound (calls : NodeId → Span) (m : Machine) : Prop where
  forest : m.tree.Forest
  keys : (m.watch.entries.map Prod.fst).Nodup
  others : ∀ name, name ≠ "return" → m.watch.subscribers name = []
  distinct : m.watch.owners.Nodup
  mem_owners : ∀ x, x ∈ m.watch.owners ↔ m.tree.IsBuiltinTail x
  callback : ∀ s ∈ m.watch.subscribers "return",
    s.callback = fun _ ↦ Edit.overrideReturn s.owner (calls s.owner)
  unbound : m.frame.contains "return" → ∀ x, ¬ m.tree.IsBuiltinTail x

/-- What evaluation makes of a machine: a sound one, whose tree was adapted where nothing was
being evaluated. Evaluation binds no functions. -/
structure Later (calls : NodeId → Span) (busy : NodeId → Prop) (m m' : Machine) : Prop where
  sound : m'.Sound calls
  adapts : Tree.Adapts calls busy m.tree m'.tree
  defined : m'.defined = m.defined
  functions : ∀ name f, m'.frame.get? name = some (.function f) →
    m.frame.get? name = some (.function f)

variable {calls : NodeId → Span} {busy busy' : NodeId → Prop} {m m' m'' : Machine}

namespace Later

theorem refl (h : m.Sound calls) : Later calls busy m m :=
  ⟨h, Relation.ReflTransGen.refl, rfl, fun _ _ hf ↦ hf⟩

theorem trans (h : Later calls busy m m') (h' : Later calls busy m' m'') :
    Later calls busy m m'' :=
  ⟨h'.sound, h.adapts.trans h'.adapts, h'.defined.trans h.defined,
    fun name f hf ↦ h.functions name f (h'.functions name f hf)⟩

theorem mono (h : Later calls busy m m') (hbusy : ∀ x, busy' x → busy x) :
    Later calls busy' m m' :=
  ⟨h.sound, h.adapts.mono hbusy, h.defined, h.functions⟩

/-- Nobody has to know what was being evaluated. -/
theorem unconfined (h : Later calls busy m m') : Later calls (fun _ ↦ False) m m' :=
  h.mono fun _ hb ↦ hb.elim

end Later

/-! ### Telling the subscribers -/

/-- Overriding the return tails that wait, one after the other. -/
theorem foldl_deliver (calls : NodeId → Span) (busy : NodeId → Prop) (name : String)
    (subs : List Subscription) : ∀ t : Tree, t.Forest →
      (subs.map Subscription.owner).Nodup →
      (∀ x ∈ subs.map Subscription.owner, t.IsBuiltinTail x) →
      (∀ s ∈ subs, s.callback = fun _ ↦ Edit.overrideReturn s.owner (calls s.owner)) →
      ∃ t', subs.foldl (Watch.deliver name) (t, none) = (t', none) ∧
        Tree.Adapts calls busy t t' ∧
        ∀ x, t'.IsBuiltinTail x ↔ t.IsBuiltinTail x ∧ x ∉ subs.map Subscription.owner := by
  induction subs with
  | nil =>
    intro t _ _ _ _
    exact ⟨t, rfl, Relation.ReflTransGen.refl, by simp⟩
  | cons s rest ih =>
    intro t hforest hnodup htails hcallback
    obtain ⟨hnot, hrest⟩ := List.nodup_cons.mp hnodup
    have htail := htails s.owner (List.mem_cons_self ..)
    obtain ⟨n, hn, hbuiltin⟩ := id htail
    obtain ⟨c, body, arg, r, hkind⟩ := NodeKind.isBuiltinTail_eq_true_iff.mp hbuiltin
    obtain ⟨t₁, call, hedit, hreplaced, hrecast⟩ :=
      Edit.overrideReturn_builtin (calls s.owner) hforest hn hkind
    have hstep : Tree.Adaptation calls busy t t₁ :=
      .replace hreplaced hrecast (fun _ ↦ htail) (by simp [hkind])
    have htails₁ : ∀ x, t₁.IsBuiltinTail x ↔ t.IsBuiltinTail x ∧ x ≠ s.owner := fun x ↦
      hreplaced.isBuiltinTail_iff hrecast
    have hdeliver : Watch.deliver name (t, none) s = (t₁, none) := by
      have hcall : s.callback name t = .ok () t₁ := by
        rw [hcallback s (List.mem_cons_self ..)]
        exact hedit
      unfold Watch.deliver
      rw [hcall]
    obtain ⟨t', hfold, hadapts, hleft⟩ := ih t₁ (hstep.evolves hforest).forest hrest
      (fun x hx ↦ (htails₁ x).mpr
        ⟨htails x (List.mem_cons_of_mem _ hx), fun heq ↦ hnot (heq ▸ hx)⟩)
      (fun s' hs' ↦ hcallback s' (List.mem_cons_of_mem _ hs'))
    refine ⟨t', ?_, (Tree.Adapts.single hstep).trans hadapts, fun x ↦ ?_⟩
    · rw [List.foldl_cons, hdeliver, hfold]
    · rw [hleft, htails₁, List.map_cons, List.mem_cons, not_or, and_assoc]

namespace Sound

/-- Without return tails nobody has to wait. -/
theorem of_nobody (hforest : m.tree.Forest) (hkeys : (m.watch.entries.map Prod.fst).Nodup)
    (hsubs : ∀ name, m.watch.subscribers name = []) (hnone : ∀ x, ¬ m.tree.IsBuiltinTail x) :
    m.Sound calls := by
  have howners : m.watch.owners = [] := by rw [Watch.owners, hsubs, List.map_nil]
  refine ⟨hforest, hkeys, fun name _ ↦ hsubs name, ?_, fun x ↦ ?_, fun s hs ↦ ?_, fun _ ↦ hnone⟩
  · rw [howners]
    exact List.nodup_nil
  · simp [howners, hnone x]
  · rw [hsubs] at hs
    simp at hs

/-- Only who waits matters of the watch, and only whether `return` is bound of the bindings. -/
theorem congr_subscribers (h : m.Sound calls) (htree : m'.tree = m.tree)
    (hkeys : (m'.watch.entries.map Prod.fst).Nodup)
    (hsubs : ∀ name, m'.watch.subscribers name = m.watch.subscribers name)
    (hframe : m'.frame.contains "return" → m.frame.contains "return") : m'.Sound calls := by
  have howners : m'.watch.owners = m.watch.owners := by rw [Watch.owners, Watch.owners, hsubs]
  constructor
  · rw [htree]; exact h.forest
  · exact hkeys
  · intro name hname
    rw [hsubs, h.others name hname]
  · rw [howners]; exact h.distinct
  · rw [howners, htree]; exact h.mem_owners
  · rw [hsubs]; exact h.callback
  · rw [htree]
    exact fun hbound ↦ h.unbound (hframe hbound)

/-- Telling that `return` is bound leaves no return tail. -/
theorem notify_return (h : m.Sound calls) (frame : Frame) (busy : NodeId → Prop) :
    ∃ m', ({ m with frame := frame } : Machine).notify "return" = (.ok (), m') ∧
      Later calls busy { m with frame := frame } m' ∧
      m'.world = { m.world with frame := frame } := by
  obtain ⟨w', hnotify, hsubs, hkeys⟩ := m.watch.notify_eq "return" m.tree
  obtain ⟨t', hfold, hadapts, hleft⟩ := foldl_deliver calls busy "return"
    (m.watch.subscribers "return") m.tree h.forest h.distinct
    (fun x hx ↦ (h.mem_owners x).mp hx) h.callback
  have hnone : ∀ x, ¬ t'.IsBuiltinTail x := fun x hx ↦
    ((hleft x).mp hx).2 ((h.mem_owners x).mpr ((hleft x).mp hx).1)
  have hnobody : ∀ name, w'.subscribers name = [] := by
    intro name
    rw [hsubs]
    split_ifs with heq
    · rfl
    · exact h.others name heq
  have hsound : ({ m with frame := frame, watch := w', tree := t' } : Machine).Sound calls :=
    of_nobody (hadapts.evolves h.forest).forest (hkeys h.keys) hnobody hnone
  refine ⟨_, ?_, ⟨hsound, hadapts, rfl, fun _ _ hf ↦ hf⟩, rfl⟩
  unfold Machine.notify
  rw [hnotify, hfold]
  rfl

/-- Telling that another name is bound tells nobody. -/
theorem notify_other (h : m.Sound calls) (frame : Frame) {name : String} (hname : name ≠ "return")
    (hframe : frame.contains "return" → m.frame.contains "return") (busy : NodeId → Prop) :
    ∃ m', ({ m with frame := frame } : Machine).notify name = (.ok (), m') ∧
      Later calls busy { m with frame := frame } m' ∧
      m'.world = { m.world with frame := frame } := by
  obtain ⟨w', hnotify, hsubs, hkeys⟩ := m.watch.notify_eq name m.tree
  have hnobody := h.others name hname
  have hsame : ∀ other, w'.subscribers other = m.watch.subscribers other := by
    intro other
    rw [hsubs]
    split_ifs with heq
    · rw [heq, hnobody]
    · rfl
  have hsound : ({ m with frame := frame, watch := w' } : Machine).Sound calls :=
    h.congr_subscribers rfl (hkeys h.keys) hsame hframe
  refine ⟨_, ?_, ⟨hsound, Relation.ReflTransGen.refl, rfl, fun _ _ hf ↦ hf⟩, rfl⟩
  unfold Machine.notify
  rw [hnotify, hnobody]
  rfl

/-- Telling of a name, on a machine that would be sound if `return` were not bound. -/
theorem notify (h : m.Sound calls) (frame : Frame) (name : String)
    (hframe : frame.contains "return" → name = "return" ∨ m.frame.contains "return")
    (busy : NodeId → Prop) :
    ∃ m', ({ m with frame := frame } : Machine).notify name = (.ok (), m') ∧
      Later calls busy { m with frame := frame } m' ∧
      m'.world = { m.world with frame := frame } := by
  by_cases hname : name = "return"
  · rw [hname]
    exact h.notify_return frame busy
  · exact h.notify_other frame hname (fun hbound ↦ (hframe hbound).resolve_left hname) busy

/-- Binding never fails, and whoever waited for `return` is overridden afterwards. -/
theorem bind (h : m.Sound calls) (name : String) (binding : Binding) (busy : NodeId → Prop) :
    ∃ m', m.bind name binding = (.ok (), m') ∧
      Later calls busy { m with frame := m.frame.insert name binding } m' ∧
      m'.world = m.world.bind name binding := by
  have hframe : (m.frame.insert name binding).contains "return" →
      name = "return" ∨ m.frame.contains "return" := by
    rw [Frame.contains_insert]
    intro hbound
    rcases (Bool.or_eq_true _ _).mp hbound with heq | hold
    · exact Or.inl (of_decide_eq_true heq).symm
    · exact Or.inr hold
  unfold Machine.bind
  dsimp only
  split_ifs with hbuiltin
  · exact h.notify _ name hframe busy
  · have hname : name ≠ "return" := by
      rintro rfl
      exact hbuiltin (by decide)
    have hsound : ({ m with frame := m.frame.insert name binding } : Machine).Sound calls :=
      h.congr_subscribers rfl h.keys (fun _ ↦ rfl) fun hbound ↦ (hframe hbound).resolve_left hname
    exact ⟨_, rfl, .refl hsound, rfl⟩

theorem bindValue (h : m.Sound calls) (name : String) (v : Value) (busy : NodeId → Prop) :
    ∃ m', m.bindValue name v = (.ok (), m') ∧ Later calls busy m m' ∧
      m'.world = m.world.bind name (.value v) := by
  obtain ⟨m', hbind, hlater, hworld⟩ := h.bind name (.value v) busy
  refine ⟨m', hbind, ⟨hlater.sound, hlater.adapts, hlater.defined, fun other f hf ↦ ?_⟩, hworld⟩
  have hbound := hlater.functions other f hf
  rw [Frame.get?_insert] at hbound
  split_ifs at hbound
  · simp at hbound
  · exact hbound

theorem unbind (h : m.Sound calls) (name : String) : (m.unbind name).Sound calls := by
  refine h.congr_subscribers rfl h.keys (fun _ ↦ rfl) fun hbound ↦ ?_
  have hbound' : (m.frame.erase name).contains "return" := hbound
  rw [Frame.contains_erase] at hbound'
  exact ((Bool.and_eq_true _ _).mp hbound').2

/-- An adaptation that leaves the return tails alone needs nothing of the watch. -/
theorem adapt (h : m.Sound calls) {t' : Tree} (hstep : Tree.Adaptation calls busy m.tree t')
    (htails : ∀ x, t'.IsBuiltinTail x ↔ m.tree.IsBuiltinTail x) :
    Later calls busy m { m with tree := t' } where
  sound := ⟨(hstep.evolves h.forest).forest, h.keys, h.others, h.distinct,
    fun x ↦ (h.mem_owners x).trans (htails x).symm, h.callback,
    fun hbound x hx ↦ h.unbound hbound x ((htails x).mp hx)⟩
  adapts := .single hstep
  defined := rfl
  functions := fun _ _ hf ↦ hf

/-- What is not part of the tree, of the watch or of the bindings does not matter. -/
theorem congr (h : m.Sound calls) (htree : m'.tree = m.tree) (hwatch : m'.watch = m.watch)
    (hframe : m'.frame = m.frame) : m'.Sound calls := by
  refine h.congr_subscribers htree ?_ (fun name ↦ ?_) ?_
  · rw [hwatch]
    exact h.keys
  · rw [hwatch]
  · rw [hframe]
    exact id

end Sound

end Machine

end AdaptiveTree
