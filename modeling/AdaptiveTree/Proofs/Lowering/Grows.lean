import AdaptiveTree.Proofs.Machine.Sound
import AdaptiveTree.Proofs.Reading.Shows
import AdaptiveTree.Proofs.Tree.Sites

/-!
A machine that grows: nodes are added behind those there were, and what was there is not touched.
Fresh roots that show parts of a source become one root that shows the whole when a node that
fits is allocated over them.
-/

set_option autoImplicit false
set_option relaxedAutoImplicit false

namespace AdaptiveTree

open Machine (Sound)

/-- The second machine is the first one with more nodes. -/
structure Grows (calls calls' : NodeId → Span) (m m' : Machine) : Prop where
  sound : m'.Sound calls'
  size_le : m.tree.slots.size ≤ m'.tree.slots.size
  /-- Growing is no splice. -/
  history : m'.tree.generation = m.tree.generation ∧ m'.tree.log = m.tree.log
  slots : ∀ i, i < m.tree.slots.size → m'.tree.slots[i]? = m.tree.slots[i]?
  calls_eq : ∀ i, i < m.tree.slots.size → calls' i = calls i
  world : m'.world = m.world
  defined : m'.defined = m.defined

namespace Grows

variable {calls calls' calls'' : NodeId → Span} {m m' m'' : Machine} {x : NodeId} {n : Node}

theorem refl (h : m.Sound calls) : Grows calls calls m m :=
  ⟨h, Nat.le_refl _, ⟨rfl, rfl⟩, fun _ _ ↦ rfl, fun _ _ ↦ rfl, rfl, rfl⟩

theorem trans (h : Grows calls calls' m m') (h' : Grows calls' calls'' m' m'') :
    Grows calls calls'' m m'' where
  sound := h'.sound
  size_le := Nat.le_trans h.size_le h'.size_le
  history := ⟨h'.history.1.trans h.history.1, h'.history.2.trans h.history.2⟩
  slots := fun i hi ↦ (h'.slots i (Nat.lt_of_lt_of_le hi h.size_le)).trans (h.slots i hi)
  calls_eq := fun i hi ↦ (h'.calls_eq i (Nat.lt_of_lt_of_le hi h.size_le)).trans (h.calls_eq i hi)
  world := h'.world.trans h.world
  defined := h'.defined.trans h.defined

theorem node?_eq (h : Grows calls calls' m m') (hx : x < m.tree.slots.size) :
    m'.tree.node? x = m.tree.node? x := by
  rw [Tree.node?, Tree.node?, h.slots x hx]

/-- The sites are those there were and those that came with the new nodes. -/
theorem sitesFrom_eq (h : Grows calls calls' m m') {start : Nat}
    (hstart : start ≤ m.tree.slots.size) :
    m'.tree.sitesFrom start = m.tree.sitesFrom start ++ m'.tree.sitesFrom m.tree.slots.size := by
  refine Tree.sitesFrom_of_grown h.size_le (fun x hx ↦ ?_) hstart
  rw [Tree.site?, Tree.site?, Tree.kind?, h.node?_eq hx]
  rfl

theorem persists (h : Grows calls calls' m m') : Tree.Persists m.tree m'.tree where
  retired := fun hid ↦ (h.slots _ (Array.getElem?_eq_some_iff.mp hid).1).trans hid
  discarded := fun hid ↦ (h.slots _ (Array.getElem?_eq_some_iff.mp hid).1).trans hid

theorem isRoot (h : Grows calls calls' m m') (hx : m.tree.IsRoot x) : m'.tree.IsRoot x := by
  obtain ⟨n, hn, hparent⟩ := hx
  exact ⟨n, (h.node?_eq (Tree.lt_size_of_node? hn)).trans hn, hparent⟩

theorem resolve_eq (h : Grows calls calls' m m') {id : NodeId}
    (hresolve : m.tree.resolve id = .ok x) : m'.tree.resolve id = .ok x := by
  obtain ⟨n, hn⟩ := Tree.exists_node?_of_resolve hresolve
  rw [h.persists.resolve_eq h.sound.forest.ascending hresolve]
  exact Tree.resolve_of_node? ((h.node?_eq (Tree.lt_size_of_node? hn)).trans hn)

end Grows

theorem Shows.grows {calls calls' : NodeId → Span} {m m' : Machine}
    {id : NodeId} {part : Part} (h : Shows calls (fun _ ↦ False) m.tree id part)
    (hgrows : Grows calls calls' m m') : Shows calls' (fun _ ↦ False) m'.tree id part :=
  h.congr (fun _ hx ↦ absurd hx Tree.not_occupied_nobody)
    (fun _ _ hresolve _ ↦ hgrows.resolve_eq hresolve)
    (fun _ n hn _ ↦ ⟨n, (hgrows.node?_eq (Tree.lt_size_of_node? hn)).trans hn, rfl, rfl⟩)
    fun x _ hn ↦ hgrows.calls_eq x (Tree.lt_size_of_node? hn)

/-! ### Fresh roots -/

/-- Different roots, none of them older than `start`, that show the parts listed. -/
structure Roots (calls : NodeId → Span) (start : Nat) (t : Tree) (ids : List NodeId)
    (parts : List Part) : Prop where
  length_eq : ids.length = parts.length
  nodup : ids.Nodup
  fresh : ∀ id ∈ ids, start ≤ id
  isRoot : ∀ id ∈ ids, t.IsRoot id
  shows : ∀ q ∈ ids.zip parts, Shows calls (fun _ ↦ False) t q.1 q.2

namespace Roots

variable {calls calls' : NodeId → Span} {start start' : Nat} {m m' : Machine} {t : Tree}
  {ids others : List NodeId} {parts otherParts : List Part}

theorem nil : Roots calls start t [] [] :=
  ⟨rfl, List.nodup_nil, fun _ h ↦ (nomatch h), fun _ h ↦ (nomatch h), fun _ h ↦ nomatch h⟩

theorem grows (h : Roots calls start m.tree ids parts) (hgrows : Grows calls calls' m m') :
    Roots calls' start m'.tree ids parts :=
  ⟨h.length_eq, h.nodup, h.fresh, fun id hid ↦ hgrows.isRoot (h.isRoot id hid),
    fun q hq ↦ (h.shows q hq).grows hgrows⟩

theorem weaken (h : Roots calls start t ids parts) (hstart : start' ≤ start) :
    Roots calls start' t ids parts :=
  ⟨h.length_eq, h.nodup, fun id hid ↦ Nat.le_trans hstart (h.fresh id hid), h.isRoot, h.shows⟩

theorem lt_size (h : Roots calls start t ids parts) {id : NodeId} (hid : id ∈ ids) :
    id < t.slots.size :=
  (h.isRoot id hid).lt_size

theorem append (h : Roots calls start t ids parts) (h' : Roots calls start t others otherParts)
    (hdisjoint : ∀ id ∈ ids, id ∉ others) :
    Roots calls start t (ids ++ others) (parts ++ otherParts) where
  length_eq := by rw [List.length_append, List.length_append, h.length_eq, h'.length_eq]
  nodup := List.nodup_append.mpr ⟨h.nodup, h'.nodup, fun a ha b hb heq ↦
    hdisjoint a ha (heq ▸ hb)⟩
  fresh := fun id hid ↦ (List.mem_append.mp hid).elim (h.fresh id) (h'.fresh id)
  isRoot := fun id hid ↦ (List.mem_append.mp hid).elim (h.isRoot id) (h'.isRoot id)
  shows := fun q hq ↦ by
    rw [List.zip_append h.length_eq, List.mem_append] at hq
    exact hq.elim (h.shows q) (h'.shows q)

theorem rotate {id : NodeId} {part : Part}
    (h : Roots calls start t (id :: ids) (part :: parts)) :
    Roots calls start t (ids ++ [id]) (parts ++ [part]) := by
  have hlength : ids.length = parts.length := Nat.succ.inj h.length_eq
  have hperm : ∀ x, x ∈ ids ++ [id] → x ∈ id :: ids := by
    intro x hx
    rw [List.mem_append, List.mem_singleton] at hx
    exact List.mem_cons.mpr hx.symm
  refine ⟨?_, List.nodup_append_comm.mp h.nodup, fun x hx ↦ h.fresh x (hperm x hx),
    fun x hx ↦ h.isRoot x (hperm x hx), fun q hq ↦ h.shows q ?_⟩
  · rw [List.length_append, List.length_append, hlength]
    rfl
  · rw [List.zip_append hlength, List.mem_append, List.zip_cons_cons, List.zip_nil_left,
      List.mem_singleton] at hq
    exact List.mem_cons.mpr hq.symm

theorem test {id : NodeId} {e : Expr} (h : Roots calls start t (id :: ids) (.value e :: parts)) :
    Roots calls start t (id :: ids) (.test e :: parts) := by
  refine ⟨h.length_eq, h.nodup, h.fresh, h.isRoot, fun q hq ↦ ?_⟩
  rcases List.mem_cons.mp hq with rfl | hq
  · exact (h.shows (id, .value e) (List.mem_cons_self ..)).test
  · exact h.shows q (List.mem_cons_of_mem _ hq)

/-- Roots lowered one after the other. -/
theorem extend (h : Roots calls start m.tree ids parts) (hgrows : Grows calls calls' m m')
    (hstart : start ≤ m.tree.slots.size)
    (h' : Roots calls' m.tree.slots.size m'.tree others otherParts) :
    Roots calls' start m'.tree (ids ++ others) (parts ++ otherParts) :=
  (h.grows hgrows).append (h'.weaken hstart) fun id hid hother ↦
    Nat.lt_irrefl _ (Nat.lt_of_lt_of_le (h.lt_size hid) (h'.fresh id hother))

end Roots

/-! ### Allocating over roots -/

section Alloc

variable {calls calls' : NodeId → Span} {m : Machine} {kind : NodeKind} {span : Span}
  {start : Nat} {part : Part} {parts : List Part}

theorem persists_alloc {t : Tree} (hchildren : ∀ c ∈ kind.children, t.IsRoot c) :
    Tree.Persists t (t.alloc kind span) := by
  have hdead {id : NodeId} {s : Slot} (hs : t.slots[id]? = some s) (hnone : s.node? = none) :
      (t.alloc kind span).slots[id]? = some s := by
    have hne : id ≠ t.nextId := Nat.ne_of_lt (Array.getElem?_eq_some_iff.mp hs).1
    have hnot : id ∉ kind.children := by
      intro hmem
      obtain ⟨n, hn, _⟩ := hchildren id hmem
      rw [Tree.node?_eq_some_iff.mp hn] at hs
      obtain rfl := Option.some.inj hs
      cases hnone
    rw [t.slots_alloc kind span (fun c hc ↦ (hchildren c hc).lt_size), if_neg hne, if_neg hnot, hs]
  exact ⟨fun hid ↦ hdead hid rfl, fun hid ↦ hdead hid rfl⟩

/-- Every live node stays as it is but for its parent. -/
theorem exists_node?_alloc {t : Tree} (span : Span)
    (hchildren : ∀ c ∈ kind.children, t.IsRoot c) {x : NodeId} {n : Node}
    (hx : t.node? x = some n) :
    ∃ n', (t.alloc kind span).node? x = some n' ∧ n'.kind = n.kind ∧ n'.span = n.span := by
  have hne : x ≠ t.nextId := Nat.ne_of_lt (Tree.lt_size_of_node? hx)
  rw [t.node?_alloc kind span fun c hc ↦ (hchildren c hc).lt_size, if_neg hne, hx]
  split_ifs
  · exact ⟨_, rfl, rfl, rfl⟩
  · exact ⟨n, rfl, rfl, rfl⟩

theorem Shows.alloc {t : Tree} {id : NodeId} {p : Part}
    (h : Shows calls (fun _ ↦ False) t id p) (hforest : t.Forest)
    (hchildren : ∀ c ∈ kind.children, t.IsRoot c) (hnodup : kind.children.Nodup)
    (hcalls : ∀ x, x < t.slots.size → calls' x = calls x) :
    Shows calls' (fun _ ↦ False) (t.alloc kind span) id p := by
  have hforest' : (t.alloc kind span).Forest := hforest.alloc hchildren hnodup
  refine h.congr (fun _ hx ↦ absurd hx Tree.not_occupied_nobody) (fun id x hresolve _ ↦ ?_)
    (fun _ _ hn _ ↦ exists_node?_alloc span hchildren hn)
    fun x _ hn ↦ hcalls x (Tree.lt_size_of_node? hn)
  obtain ⟨n, hn⟩ := Tree.exists_node?_of_resolve hresolve
  obtain ⟨n', hn', _⟩ := exists_node?_alloc span hchildren hn
  rw [(persists_alloc hchildren).resolve_eq hforest'.ascending hresolve]
  exact Tree.resolve_of_node? hn'

theorem isBuiltinTail_alloc {t : Tree} (hchildren : ∀ c ∈ kind.children, t.IsRoot c)
    (x : NodeId) : (t.alloc kind span).IsBuiltinTail x ↔
      (x = t.nextId ∧ kind.isBuiltinTail = true) ∨ t.IsBuiltinTail x := by
  unfold Tree.IsBuiltinTail
  rw [t.node?_alloc kind span fun c hc ↦ (hchildren c hc).lt_size]
  by_cases hx : x = t.nextId
  · subst hx
    simp [Tree.node?_nextId]
  · by_cases hmem : x ∈ kind.children
    · rcases t.node? x with _ | n <;> simp [hx, hmem, Tree.adopted]
    · simp [hx, hmem]

/-- The new node is a root that shows what it fits, over roots that show its parts. -/
theorem Roots.alloc {t : Tree} (h : Roots calls start t kind.children parts) (hforest : t.Forest)
    (hstart : start ≤ t.slots.size) (hcalls : ∀ x, x < t.slots.size → calls' x = calls x)
    (hfits : Fits calls' t.nextId kind span part parts) :
    Roots calls' start (t.alloc kind span) [t.nextId] [part] := by
  have hnew : (t.alloc kind span).node? t.nextId = some ⟨kind, span, none⟩ := by
    rw [t.node?_alloc kind span (fun c hc ↦ h.lt_size hc), if_pos rfl]
  refine ⟨rfl, List.nodup_singleton _, ?_, ?_, ?_⟩
  · intro id hid
    rw [List.mem_singleton.mp hid]
    exact hstart
  · intro id hid
    rw [List.mem_singleton.mp hid]
    exact ⟨_, hnew, rfl⟩
  · intro q hq
    obtain rfl : q = (t.nextId, part) := by simpa using hq
    exact .intro (Tree.resolve_of_node? hnew) hnew Tree.not_occupied_nobody hfits fun q hq ↦
      (h.shows q hq).alloc hforest h.isRoot h.nodup hcalls

/-- Allocating over fresh roots leaves alone what was there before them. -/
theorem slots_alloc_of_lt {t : Tree} (h : Roots calls start t kind.children parts)
    (hstart : start ≤ t.slots.size) {i : NodeId} (hi : i < start) :
    (t.alloc kind span).slots[i]? = t.slots[i]? := by
  have hne : i ≠ t.nextId := Nat.ne_of_lt (Nat.lt_of_lt_of_le hi hstart)
  have hnot : i ∉ kind.children := fun hmem ↦
    Nat.lt_irrefl _ (Nat.lt_of_lt_of_le hi (h.fresh i hmem))
  rw [t.slots_alloc kind span (fun c hc ↦ h.lt_size hc), if_neg hne, if_neg hnot]

end Alloc

end AdaptiveTree
