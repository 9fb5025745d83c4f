import AdaptiveTree.Proofs.Node
import AdaptiveTree.Tree.Basic

/-!
What the edits of a tree do to its slots. `node?` looks up a live node and is the view in
which all further statements about trees are made. Changing a node, adopting children and
allocating are each described by the slot that stands at a number afterwards.
-/

set_option autoImplicit false
set_option relaxedAutoImplicit false

namespace AdaptiveTree

namespace Slot

def node? : Slot → Option Node
  | live n => some n
  | _ => none

def link? : Slot → Option Forward
  | retired link => some link
  | _ => none

/-- Changes the node of a live slot. -/
def mapNode (f : Node → Node) : Slot → Slot
  | live n => live (f n)
  | s => s

@[simp] theorem node?_mapNode (f : Node → Node) (s : Slot) :
    (s.mapNode f).node? = s.node?.map f := by
  cases s <;> rfl

@[simp] theorem link?_mapNode (f : Node → Node) (s : Slot) : (s.mapNode f).link? = s.link? := by
  cases s <;> rfl

theorem mapNode_of_node?_eq_none {s : Slot} (h : s.node? = none) (f : Node → Node) :
    s.mapNode f = s := by
  cases s with
  | live n => cases h
  | retired | discarded => rfl

end Slot

namespace Tree

variable {t : Tree} {id : NodeId} {n : Node}

/-- The live node of a number. -/
def node? (t : Tree) (id : NodeId) : Option Node := t.slots[id]?.bind Slot.node?

theorem node?_eq_some_iff : t.node? id = some n ↔ t.slots[id]? = some (.live n) := by
  unfold node?
  rcases h : t.slots[id]? with _ | _ | _ | _ <;> simp [Slot.node?]

theorem forwarded?_eq (t : Tree) (id : NodeId) :
    t.forwarded? id = t.slots[id]?.bind Slot.link? := by
  unfold forwarded?
  rcases t.slots[id]? with _ | _ | _ | _ <;> rfl

theorem forwarded?_eq_some_iff {link : Forward} :
    t.forwarded? id = some link ↔ t.slots[id]? = some (.retired link) := by
  rw [forwarded?_eq]
  rcases h : t.slots[id]? with _ | _ | _ | _ <;> simp [Slot.link?]

theorem lt_size_of_node? (h : t.node? id = some n) : id < t.slots.size :=
  (Array.getElem?_eq_some_iff.mp (node?_eq_some_iff.mp h)).1

theorem node?_nextId (t : Tree) : t.node? t.nextId = none := by
  simp [node?, nextId]

/-! ### Questions about a live node -/

theorem node_eq (h : t.node? id = some n) : t.node id = .ok n := by
  simp [node, node?_eq_some_iff.mp h]

theorem kind_eq (h : t.node? id = some n) : t.kind id = .ok n.kind := by
  simp [kind, node_eq h, Except.map]

theorem span_eq (h : t.node? id = some n) : t.span id = .ok n.span := by
  simp [span, node_eq h, Except.map]

theorem parent_eq (h : t.node? id = some n) : t.parent id = .ok n.parent := by
  simp [parent, node_eq h, Except.map]

/-- Only live nodes can be asked about. -/
theorem map_node_eq_ok {α : Type} {f : Node → α} {a : α} (h : (t.node id).map f = .ok a) :
    ∃ n, t.node? id = some n ∧ f n = a := by
  unfold node at h
  rcases hslot : t.slots[id]? with _ | m | _ | _ <;> rw [hslot] at h
  · cases h
  · exact ⟨m, node?_eq_some_iff.mpr hslot, Except.ok.inj h⟩
  · cases h
  · cases h

theorem kind_eq_ok {k : NodeKind} (h : t.kind id = .ok k) :
    ∃ n, t.node? id = some n ∧ n.kind = k :=
  map_node_eq_ok h

theorem parent_eq_ok {p : Option NodeId} (h : t.parent id = .ok p) :
    ∃ n, t.node? id = some n ∧ n.parent = p :=
  map_node_eq_ok h

theorem isLive_iff : t.isLive id = true ↔ ∃ n, t.node? id = some n := by
  unfold isLive node?
  rcases t.slots[id]? with _ | _ | _ | _ <;> simp [Slot.node?]

theorem childrenAt_eq (h : t.node? id = some n) : t.childrenAt id = n.kind.children := by
  rw [childrenAt, node?_eq_some_iff.mp h]

/-! ### Changing nodes -/

@[simp] theorem size_modifyLive (t : Tree) (id : NodeId) (f : Node → Node) :
    (t.modifyLive id f).slots.size = t.slots.size := by
  unfold modifyLive
  split <;> simp

theorem history_modifyLive (t : Tree) (id : NodeId) (f : Node → Node) :
    (t.modifyLive id f).generation = t.generation ∧ (t.modifyLive id f).log = t.log := by
  unfold modifyLive
  split <;> exact ⟨rfl, rfl⟩

theorem slots_modifyLive (t : Tree) (id : NodeId) (f : Node → Node) (i : NodeId) :
    (t.modifyLive id f).slots[i]? =
      if i = id then t.slots[i]?.map (Slot.mapNode f) else t.slots[i]? := by
  unfold modifyLive
  split_ifs with hi
  · subst hi
    rcases h : t.slots[i]? with _ | m | _ | _
    · simp [h]
    · simp [Slot.mapNode, (Array.getElem?_eq_some_iff.mp h).1]
    · simp [h, Slot.mapNode]
    · simp [h, Slot.mapNode]
  · split
    · exact Array.getElem?_setIfInBounds_ne (Ne.symm hi)
    · rfl

/-- The parent that adopting some children gives to a node. -/
def adopted (parent : NodeId) (n : Node) : Node := { n with parent := some parent }

theorem size_foldl_adopt (parent : NodeId) (children : List NodeId) :
    ∀ t : Tree, (children.foldl (fun t' c ↦ t'.adopt parent c) t).slots.size = t.slots.size := by
  induction children with
  | nil => intro t; rfl
  | cons c rest ih => intro t; exact (ih _).trans (size_modifyLive t c _)

theorem slots_foldl_adopt (parent : NodeId) (children : List NodeId) (i : NodeId) :
    ∀ t : Tree, (children.foldl (fun t' c ↦ t'.adopt parent c) t).slots[i]? =
      if i ∈ children then t.slots[i]?.map (Slot.mapNode (adopted parent)) else t.slots[i]? := by
  induction children with
  | nil => intro t; simp
  | cons c rest ih =>
    intro t
    have hadopt : (t.adopt parent c).slots[i]? =
        if i = c then t.slots[i]?.map (Slot.mapNode (adopted parent)) else t.slots[i]? :=
      slots_modifyLive t c _ i
    have htwice : t.slots[i]?.map (Slot.mapNode (adopted parent) ∘ Slot.mapNode (adopted parent)) =
        t.slots[i]?.map (Slot.mapNode (adopted parent)) := by
      rcases t.slots[i]? with _ | _ | _ | _ <;> rfl
    rw [List.foldl_cons, ih, hadopt]
    by_cases hc : i = c
    · subst hc
      by_cases hrest : i ∈ rest <;> simp [hrest, htwice]
    · by_cases hrest : i ∈ rest <;> simp [hc, hrest]

/-! ### Allocating -/

variable (t) (kind : NodeKind) (span : Span)

@[simp] theorem size_alloc : (t.alloc kind span).slots.size = t.slots.size + 1 := by
  rw [alloc, size_foldl_adopt, Array.size_push]

/-- What is counted and logged depends on the splices only. -/
theorem history_alloc : (t.alloc kind span).generation = t.generation ∧
    (t.alloc kind span).log = t.log := by
  have hfold (children : List NodeId) : ∀ u : Tree,
      (children.foldl (fun t' c ↦ t'.adopt t.nextId c) u).generation = u.generation ∧
        (children.foldl (fun t' c ↦ t'.adopt t.nextId c) u).log = u.log := by
    induction children with
    | nil => intro u; exact ⟨rfl, rfl⟩
    | cons c rest ih =>
      intro u
      obtain ⟨hgeneration, hlog⟩ := ih (u.adopt t.nextId c)
      obtain ⟨hgeneration', hlog'⟩ := history_modifyLive u c (adopted t.nextId)
      exact ⟨hgeneration.trans hgeneration', hlog.trans hlog'⟩
  exact hfold _ _

@[simp] theorem generation_alloc : (t.alloc kind span).generation = t.generation :=
  (history_alloc t kind span).1

@[simp] theorem log_alloc : (t.alloc kind span).log = t.log := (history_alloc t kind span).2

/-- Every slot below the new one stays, except that the children have the new node as their
parent. Assumes: children that were allocated before. -/
theorem slots_alloc (hchildren : ∀ c ∈ kind.children, c < t.slots.size) (i : NodeId) :
    (t.alloc kind span).slots[i]? =
      if i = t.nextId then some (.live ⟨kind, span, none⟩)
      else if i ∈ kind.children then t.slots[i]?.map (Slot.mapNode (adopted t.nextId))
      else t.slots[i]? := by
  rw [alloc, slots_foldl_adopt]
  simp only [Array.getElem?_push]
  by_cases hi : i = t.slots.size
  · subst hi
    have hnot : t.slots.size ∉ kind.children := fun hmem ↦ Nat.lt_irrefl _ (hchildren _ hmem)
    simp [hnot, nextId]
  · simp [hi, nextId]

theorem node?_alloc (hchildren : ∀ c ∈ kind.children, c < t.slots.size) (i : NodeId) :
    (t.alloc kind span).node? i =
      if i = t.nextId then some ⟨kind, span, none⟩
      else if i ∈ kind.children then (t.node? i).map (adopted t.nextId)
      else t.node? i := by
  unfold node?
  rw [slots_alloc t kind span hchildren]
  split_ifs with hnew hchild
  · rfl
  · rcases t.slots[i]? with _ | s <;> simp
  · rfl

theorem forwarded?_alloc (hchildren : ∀ c ∈ kind.children, c < t.slots.size) (i : NodeId) :
    (t.alloc kind span).forwarded? i = t.forwarded? i := by
  rw [forwarded?_eq, forwarded?_eq, slots_alloc t kind span hchildren]
  split_ifs with hnew hchild
  · simp [hnew, nextId, Slot.link?]
  · rcases t.slots[i]? with _ | s <;> simp
  · rfl

end Tree

end AdaptiveTree
