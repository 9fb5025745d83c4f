import AdaptiveTree.Proofs.Tree.Evolution
import AdaptiveTree.Adaptation

/-!
What the single edits of a splice do, and what `replaceSelf` does with a freshly allocated node
that has taken over the children of another: it succeeds, and as every child of the node that
is replaced has been adopted, nothing is left to discard.
-/

set_option autoImplicit false
set_option relaxedAutoImplicit false

namespace AdaptiveTree

namespace Edit

variable {t t' : Tree} {id old new p c : NodeId} {n m : Node}

/-! ### One operation at a time -/

theorem bind_eq {α β : Type} {x : Edit α} {f : α → Edit β} {a : α} (h : x t = .ok a t') :
    (x >>= f) t = f a t' := by
  show EStateM.bind x f t = f a t'
  rw [EStateM.bind, h]

theorem ask_eq {α : Type} {question : Tree → Except TreeError α} {a : α}
    (h : question t = .ok a) : ask question t = .ok a t := by
  rw [ask, h]

theorem modifyNode_eq (f : Node → Node) (h : t.node? id = some n) :
    modifyNode id f t = .ok () (t.modifyLive id f) := by
  unfold modifyNode
  rw [bind_eq (ask_eq (Tree.node_eq h))]
  rfl

theorem writeChild_eq (h : t.node? p = some n) (hmem : old ∈ n.kind.children) :
    writeChild p old new t =
      .ok () (t.modifyLive p fun n ↦ { n with kind := n.kind.replaceChild old new }) := by
  unfold writeChild
  rw [bind_eq (ask_eq (Tree.kind_eq h)), if_pos hmem]
  exact modifyNode_eq _ h

theorem record_eq (hold : t.node? old = some n) (hnew : t.node? new = some m)
    (reason : String) : ∃ t', record old new reason t = .ok (t.generation + 1) t' ∧
      t'.slots = t.slots ∧ t'.generation = t.generation + 1 ∧
      t'.log = t.log.push ⟨t.generation + 1, old, new, n.kind.name, m.kind.name, reason⟩ := by
  unfold record
  rw [bind_eq (ask_eq (Tree.kind_eq hold)), bind_eq (ask_eq (Tree.kind_eq hnew))]
  exact ⟨_, rfl, rfl, rfl, rfl⟩

theorem discardOrphan_eq (h : t.parent? c ≠ some p) : discardOrphan p t c = t := by
  unfold discardOrphan
  rcases hparent : t.parent c with e | q
  · rfl
  · rcases q with _ | q
    · rfl
    · obtain ⟨k, hk, hq⟩ := Tree.parent_eq_ok hparent
      have hne : q ≠ p := fun hqp ↦ h (((Tree.parent?_eq hk).trans hq).trans (congrArg some hqp))
      exact if_neg hne

theorem foldl_discardOrphan_eq {orphans : List NodeId}
    (h : ∀ c ∈ orphans, t.parent? c ≠ some p) : orphans.foldl (discardOrphan p) t = t := by
  induction orphans with
  | nil => rfl
  | cons c rest ih =>
    rw [List.foldl_cons, discardOrphan_eq (h c (List.mem_cons_self ..))]
    exact ih fun d hd ↦ h d (List.mem_cons_of_mem c hd)

/-- Assumes: no child of the node regards it as its parent any more. -/
theorem retire_eq (hold : t.node? old = some n) (hnew : t.node? new = some m)
    (horphans : ∀ c ∈ n.kind.children, t.parent? c ≠ some old) (reason : String) :
    ∃ t', retire old new reason t = .ok () t' ∧ t'.generation = t.generation + 1 ∧
      t'.slots = t.slots.setIfInBounds old (.retired ⟨new, t.generation + 1⟩) ∧
      t'.log = t.log.push ⟨t.generation + 1, old, new, n.kind.name, m.kind.name, reason⟩ := by
  obtain ⟨t₁, hrecord, hslots, hgeneration, hlog⟩ := record_eq hold hnew reason
  have hold₁ : t₁.node? old = some n := by rw [Tree.node?, hslots]; exact hold
  unfold retire
  rw [bind_eq hrecord, bind_eq (ask_eq (Tree.node_eq hold₁))]
  refine ⟨_, rfl, ?_⟩
  dsimp only
  rw [foldl_discardOrphan_eq]
  · exact ⟨hgeneration, by rw [hslots], hlog⟩
  · intro c hc hparent
    obtain ⟨k, hk, hp⟩ := Tree.parent?_eq_some_iff.mp hparent
    have hslot := Tree.node?_eq_some_iff.mp hk
    by_cases hco : old = c
    · subst hco
      have hlt : old < t₁.slots.size := Tree.lt_size_of_node? hold₁
      simp [hlt] at hslot
    · simp only [Array.getElem?_setIfInBounds_ne hco, hslots] at hslot
      exact horphans c hc (Tree.parent?_eq_some_iff.mpr ⟨k, Tree.node?_eq_some_iff.mpr hslot, hp⟩)

/-! ### Taking the place of a node -/

/-- A fresh node `new` that has taken over the children of `old` and can take its place. -/
structure Succeeds (t : Tree) (old new : NodeId) (n m : Node) : Prop where
  node : t.node? old = some n
  node_new : t.node? new = some m
  root : m.parent = none
  ne : old ≠ new
  parent : ∀ p, n.parent = some p → p ≠ old ∧ p ≠ new ∧
    ∃ k, t.node? p = some k ∧ old ∈ k.kind.children
  orphans : ∀ c ∈ n.kind.children, t.parent? c ≠ some old

/-- The parent of a replaced node afterwards, and any other node as it was. -/
def relink (n : Node) (old new i : NodeId) (k : Node) : Node :=
  { k with kind := if n.parent = some i then k.kind.replaceChild old new else k.kind }

/-- What `replaceSelf` leaves. -/
structure TookPlace (t : Tree) (old new : NodeId) (n m : Node) (t' : Tree) : Prop where
  size : t'.slots.size = t.slots.size
  generation : t'.generation = t.generation + 1
  log : ∃ reason, t'.log = t.log.push
    ⟨t.generation + 1, old, new, n.kind.name, m.kind.name, reason⟩
  slot_old : t'.slots[old]? = some (.retired ⟨new, t.generation + 1⟩)
  slot_new : t'.slots[new]? = some (.live { m with parent := n.parent })
  slot_other : ∀ i, i ≠ old → i ≠ new →
    t'.slots[i]? = t.slots[i]?.map (Slot.mapNode (relink n old new i))

theorem mapNode_relink_of_ne {i : NodeId} (hi : n.parent ≠ some i) :
    Slot.mapNode (relink n old new i) = fun s ↦ s := by
  funext s
  cases s with
  | live k => simp [Slot.mapNode, relink, hi]
  | retired | discarded => rfl

theorem replaceSelf_root (h : Succeeds t old new n m) (hroot : n.parent = none)
    (reason : String) :
    ∃ t', replaceSelf old new reason t = .ok new t' ∧ TookPlace t old new n m t' := by
  obtain ⟨t', hretire, hgeneration, hslots, hlog⟩ :=
    retire_eq h.node h.node_new h.orphans reason
  have hlt : old < t.slots.size := Tree.lt_size_of_node? h.node
  refine ⟨t', ?_, ⟨by simp [hslots], hgeneration, ⟨reason, hlog⟩, by simp [hslots, hlt], ?_, ?_⟩⟩
  · unfold replaceSelf
    rw [bind_eq (ask_eq ((Tree.parent_eq h.node).trans (congrArg Except.ok hroot)))]
    show (ask _ >>= _) t = _
    rw [bind_eq (ask_eq (Tree.node_eq h.node_new)), bind_eq hretire]
    rfl
  · rw [hslots, Array.getElem?_setIfInBounds_ne h.ne, Tree.node?_eq_some_iff.mp h.node_new, hroot,
      ← h.root]
  · intro i hi _
    rw [hslots, Array.getElem?_setIfInBounds_ne (Ne.symm hi),
      mapNode_relink_of_ne (by rw [hroot]; exact Option.some_ne_none i |>.symm)]
    simp

/-- The tree in which `p` names `new` instead of `old` and `new` knows it. -/
def hung (t : Tree) (p old new : NodeId) : Tree :=
  (t.modifyLive p fun n ↦ { n with kind := n.kind.replaceChild old new }).modifyLive new
    fun n ↦ { n with parent := some p }

theorem history_hung : (hung t p old new).generation = t.generation ∧
    (hung t p old new).log = t.log := by
  obtain ⟨hgeneration, hlog⟩ := Tree.history_modifyLive t p
    fun n ↦ { n with kind := n.kind.replaceChild old new }
  obtain ⟨hgeneration', hlog'⟩ := Tree.history_modifyLive
    (t.modifyLive p fun n ↦ { n with kind := n.kind.replaceChild old new }) new
    fun n ↦ { n with parent := some p }
  exact ⟨hgeneration'.trans hgeneration, hlog'.trans hlog⟩

theorem slots_hung_new (old : NodeId) (hpn : p ≠ new) (hnew : t.node? new = some m) :
    (hung t p old new).slots[new]? = some (.live { m with parent := some p }) := by
  rw [hung, Tree.slots_modifyLive, if_pos rfl, Tree.slots_modifyLive, if_neg (Ne.symm hpn),
    Tree.node?_eq_some_iff.mp hnew]
  rfl

theorem slots_hung_other (hparent : n.parent = some p) {i : NodeId} (hi : i ≠ new) :
    (hung t p old new).slots[i]? = t.slots[i]?.map (Slot.mapNode (relink n old new i)) := by
  rw [hung, Tree.slots_modifyLive, if_neg hi, Tree.slots_modifyLive]
  split_ifs with hip
  · subst hip
    congr 2
    funext k
    simp [relink, hparent]
  · have hne : n.parent ≠ some i := by
      rw [hparent]
      exact fun heq ↦ hip (Option.some.inj heq).symm
    rw [mapNode_relink_of_ne hne]
    simp

/-- What was put into the tree for another node does not make it a parent. -/
theorem parent?_hung_ne (hparent : n.parent = some p) (hpo : p ≠ old) (hpn : p ≠ new)
    (hnew : t.node? new = some m) (hc : t.parent? c ≠ some old) :
    (hung t p old new).parent? c ≠ some old := by
  intro hp
  obtain ⟨k', hk', hp'⟩ := Tree.parent?_eq_some_iff.mp hp
  have hslot := Tree.node?_eq_some_iff.mp hk'
  by_cases hcn : c = new
  · subst hcn
    rw [slots_hung_new old hpn hnew] at hslot
    obtain rfl := Slot.live.inj (Option.some.inj hslot)
    exact hpo (Option.some.inj hp')
  · rw [slots_hung_other hparent hcn] at hslot
    obtain ⟨s, hs, hmap⟩ := Option.map_eq_some_iff.mp hslot
    cases s with
    | live k =>
      obtain rfl := Slot.live.inj hmap
      exact hc (Tree.parent?_eq_some_iff.mpr ⟨k, Tree.node?_eq_some_iff.mpr hs, hp'⟩)
    | retired | discarded => cases hmap

theorem replaceSelf_child (h : Succeeds t old new n m) (hparent : n.parent = some p)
    (reason : String) :
    ∃ t', replaceSelf old new reason t = .ok new t' ∧ TookPlace t old new n m t' := by
  obtain ⟨hpo, hpn, k, hk, hmem⟩ := h.parent p hparent
  have hnew : (t.modifyLive p fun n ↦ { n with kind := n.kind.replaceChild old new }).node? new =
      some m := by
    rw [Tree.node?, Tree.slots_modifyLive, if_neg (Ne.symm hpn)]
    exact h.node_new
  have hold : (hung t p old new).node? old = some n := by
    rw [Tree.node?, slots_hung_other hparent h.ne, mapNode_relink_of_ne]
    · rw [Option.map_id']
      exact h.node
    · rw [hparent]
      exact fun heq ↦ hpo (Option.some.inj heq)
  have hhung := slots_hung_new old hpn h.node_new
  obtain ⟨t', hretire, hgeneration, hslots, hlog⟩ :=
    retire_eq hold (Tree.node?_eq_some_iff.mpr hhung)
      (fun c hc ↦ parent?_hung_ne hparent hpo hpn h.node_new (h.orphans c hc)) reason
  rw [history_hung.1] at hgeneration hslots hlog
  rw [history_hung.2] at hlog
  have hlt : old < (hung t p old new).slots.size := Tree.lt_size_of_node? hold
  refine ⟨t', ?_, ⟨by simp [hslots, hung], hgeneration, ⟨reason, hlog⟩, by simp [hslots, hlt],
    ?_, ?_⟩⟩
  · unfold replaceSelf
    rw [bind_eq (ask_eq ((Tree.parent_eq h.node).trans (congrArg Except.ok hparent)))]
    show replaceChild p old new reason t = _
    unfold replaceChild
    rw [bind_eq (ask_eq (Tree.node_eq h.node_new)), bind_eq (ask_eq (Tree.node_eq h.node)),
      bind_eq (writeChild_eq hk hmem), bind_eq (modifyNode_eq _ hnew)]
    exact bind_eq hretire
  · rw [hslots, Array.getElem?_setIfInBounds_ne h.ne, hhung, hparent]
  · intro i hio hin
    rw [hslots, Array.getElem?_setIfInBounds_ne (Ne.symm hio), slots_hung_other hparent hin]

theorem replaceSelf_eq (h : Succeeds t old new n m) (reason : String) :
    ∃ t', replaceSelf old new reason t = .ok new t' ∧ TookPlace t old new n m t' := by
  rcases hparent : n.parent with _ | p
  · exact replaceSelf_root h hparent reason
  · exact replaceSelf_child h hparent reason

/-! ### Allocating a replacement -/

/-- The tree with a replacement allocated over the children of another node, after the node that
is added below it. -/
def grown (t : Tree) (kind : NodeKind) (span : Span) : Option (NodeKind × Span) → Tree
  | none => t.alloc kind span
  | some (k, s) => (t.alloc k s).alloc kind span

/-- A node that was there before, with its new parent. -/
def regrouped (new fresh : NodeId) (kind : NodeKind) (extra : Option (NodeKind × Span))
    (i : NodeId) (k : Node) : Node :=
  { k with
    parent := if i ∈ kind.children then some new
      else if i ∈ Tree.below extra then some fresh else k.parent }

variable {kind : NodeKind} {span : Span} {extra : Option (NodeKind × Span)}

/-- What `grown` leaves. -/
structure Grown (t : Tree) (kind : NodeKind) (span : Span) (extra : Option (NodeKind × Span))
    (u : Tree) : Prop where
  size : u.slots.size = t.replacement extra + 1
  generation : u.generation = t.generation
  log : u.log = t.log
  slot_new : u.slots[t.replacement extra]? = some (.live ⟨kind, span, none⟩)
  slot_extra : ∀ k s, extra = some (k, s) →
    u.slots[t.nextId]? = some (.live ⟨k, s, some (t.replacement extra)⟩)
  slot_other : ∀ i, i < t.slots.size → u.slots[i]? =
    t.slots[i]?.map (Slot.mapNode (regrouped (t.replacement extra) t.nextId kind extra i))

theorem grown_none (hchildren : ∀ c ∈ kind.children, c < t.slots.size) :
    Grown t kind span none (grown t kind span none) where
  size := t.size_alloc kind span
  generation := t.generation_alloc kind span
  log := t.log_alloc kind span
  slot_new := by
    rw [grown, t.slots_alloc kind span hchildren]
    exact if_pos rfl
  slot_extra := fun _ _ h ↦ nomatch h
  slot_other := fun i hi ↦ by
    have hne : i ≠ t.nextId := Nat.ne_of_lt hi
    rw [grown, t.slots_alloc kind span hchildren, if_neg hne]
    split_ifs with hmem
    · congr 2
      funext k
      simp [regrouped, Tree.adopted, hmem, Tree.replacement]
    · rcases t.slots[i]? with _ | k | _ | _ <;> simp [Slot.mapNode, regrouped, hmem, Tree.below]

theorem grown_some {k : NodeKind} {s : Span} (hbelow : ∀ c ∈ k.children, c < t.slots.size)
    (hchildren : ∀ c ∈ kind.children, c < t.slots.size + 1) (hfresh : t.nextId ∈ kind.children) :
    Grown t kind span (some (k, s)) (grown t kind span (some (k, s))) := by
  have hchildren' : ∀ c ∈ kind.children, c < (t.alloc k s).slots.size := by
    rw [t.size_alloc k s]
    exact hchildren
  have hnext : (t.alloc k s).nextId = t.nextId + 1 := t.size_alloc k s
  have hslots := (t.alloc k s).slots_alloc kind span hchildren'
  rw [hnext] at hslots
  constructor
  · rw [grown, Tree.size_alloc, Tree.size_alloc]
    rfl
  · rw [grown, Tree.generation_alloc, Tree.generation_alloc]
  · rw [grown, Tree.log_alloc, Tree.log_alloc]
  · rw [grown, hslots]
    exact if_pos rfl
  · rintro _ _ ⟨⟩
    rw [grown, hslots, if_neg (Nat.ne_of_lt (Nat.lt_succ_self _)), if_pos hfresh,
      t.slots_alloc k s hbelow, if_pos rfl]
    rfl
  · intro i hi
    have hne : i ≠ t.nextId := Nat.ne_of_lt hi
    have hne' : i ≠ t.nextId + 1 := Nat.ne_of_lt (Nat.lt_succ_of_lt hi)
    rw [grown, hslots, if_neg hne', t.slots_alloc k s hbelow, if_neg hne]
    rcases t.slots[i]? with _ | m | _ | _
    · simp
    · by_cases hmem : i ∈ kind.children <;> by_cases hk : i ∈ k.children <;>
        simp [Slot.mapNode, regrouped, Tree.adopted, hmem, hk, Tree.below, Tree.replacement]
    · simp [Slot.mapNode]
    · simp [Slot.mapNode]

theorem grown_eq (hforest : t.Forest) (hold : t.node? old = some n)
    (hgroups : Tree.Regroups t.nextId n.kind.children kind.children extra) :
    Grown t kind span extra (grown t kind span extra) := by
  have hbefore : ∀ c ∈ n.kind.children, c < t.slots.size := fun c hc ↦
    hforest.child_lt_size hold hc
  rcases extra with _ | ⟨k, s⟩
  · refine grown_none fun c hc ↦ ?_
    rcases hgroups.mem_after c hc with hmem | ⟨hsome, _⟩
    · exact hbefore c hmem
    · simp at hsome
  · refine grown_some (fun c hc ↦ hbefore c (hgroups.mem_below c hc)) (fun c hc ↦ ?_)
      (hgroups.fresh_mem rfl)
    rcases hgroups.mem_after c hc with hmem | ⟨_, rfl⟩
    · exact Nat.lt_succ_of_lt (hbefore c hmem)
    · exact Nat.lt_succ_self _

/-- Assumes: a replacement that takes over the children of the node replaced. -/
theorem succeeds_grown (hforest : t.Forest) (hold : t.node? old = some n)
    (hgroups : Tree.Regroups t.nextId n.kind.children kind.children extra) :
    Succeeds (grown t kind n.span extra) old (t.replacement extra) n ⟨kind, n.span, none⟩ := by
  have hgrown : Grown t kind n.span extra (grown t kind n.span extra) :=
    grown_eq hforest hold hgroups
  have hother : ∀ i k, t.node? i = some k → (grown t kind n.span extra).node? i =
      some (regrouped (t.replacement extra) t.nextId kind extra i k) := by
    intro i k hi
    rw [Tree.node?, hgrown.slot_other i (Tree.lt_size_of_node? hi), Tree.node?_eq_some_iff.mp hi]
    rfl
  have hlt : old < t.slots.size := Tree.lt_size_of_node? hold
  have hself : old ∉ n.kind.children := fun hmem ↦
    hforest.loopless old ((Tree.names_iff hold).mpr hmem)
  constructor
  · have hafter : old ∉ kind.children := fun hmem ↦
      hself (Tree.Replaced.regroups_lt hgroups hmem hlt)
    have hbelow : old ∉ Tree.below extra := fun hmem ↦ hself (hgroups.mem_below old hmem)
    rw [hother old n hold]
    simp [regrouped, hafter, hbelow]
  · exact Tree.node?_eq_some_iff.mpr hgrown.slot_new
  · rfl
  · exact Nat.ne_of_lt (Tree.Replaced.lt_replacement t extra hlt)
  · intro p hp
    obtain ⟨k, hk, hmem⟩ := hforest.exists_parent hold hp
    refine ⟨?_, Nat.ne_of_lt (Tree.Replaced.lt_replacement t extra (Tree.lt_size_of_node? hk)),
      _, hother p k hk, hmem⟩
    rintro rfl
    exact hforest.parent_ne hold hp
  · intro c hc hparent
    obtain ⟨k, hk, _⟩ := hforest.exists_child hold hc
    rw [Tree.parent?_eq (hother c k hk)] at hparent
    unfold regrouped at hparent
    dsimp only at hparent
    split_ifs at hparent with hafter hbelow
    · exact Nat.ne_of_lt (Tree.Replaced.lt_replacement t extra hlt) (Option.some.inj hparent).symm
    · exact Nat.ne_of_lt hlt (Option.some.inj hparent).symm
    · rcases hgroups.covers c hc with hmem | hmem
      · exact hafter hmem
      · exact hbelow hmem

/-- Assumes: a replacement that takes over the children of the node replaced. -/
theorem replaceSelf_grown (hforest : t.Forest) (hold : t.node? old = some n)
    (hgroups : Tree.Regroups t.nextId n.kind.children kind.children extra) (reason : String) :
    ∃ t', replaceSelf old (t.replacement extra) reason (grown t kind n.span extra) =
      .ok (t.replacement extra) t' ∧ Tree.Replaced t old n kind extra t' := by
  have hgrown : Grown t kind n.span extra (grown t kind n.span extra) :=
    grown_eq hforest hold hgroups
  obtain ⟨t', hreplace, htook⟩ := replaceSelf_eq (succeeds_grown hforest hold hgroups) reason
  obtain ⟨reason', hlog⟩ := htook.log
  rw [hgrown.generation, hgrown.log] at hlog
  refine ⟨t', hreplace, hold, htook.size.trans hgrown.size,
    htook.generation.trans (congrArg (· + 1) hgrown.generation), ⟨reason', hlog⟩, ?_,
    htook.slot_new, ?_, ?_⟩
  · rw [htook.slot_old, hgrown.generation]
  · intro k s hextra
    have hne : n.parent ≠ some t.nextId := by
      intro hp
      obtain ⟨m, hm, _⟩ := hforest.exists_parent hold hp
      exact Nat.lt_irrefl _ (Tree.lt_size_of_node? hm)
    rw [htook.slot_other t.nextId (Nat.ne_of_gt (Tree.lt_size_of_node? hold))
      (Tree.Replaced.nextId_ne t (by rw [hextra]; rfl)), mapNode_relink_of_ne hne,
      hgrown.slot_extra k s hextra]
    rfl
  · intro i hi hne
    rw [htook.slot_other i hne (Nat.ne_of_lt (Tree.Replaced.lt_replacement t extra hi)),
      hgrown.slot_other i hi]
    rcases t.slots[i]? with _ | k | _ | _
    · rfl
    · rfl
    · rfl
    · rfl

end Edit

end AdaptiveTree
