import AdaptiveTree.Proofs.Tree.Links
import Mathlib.Logic.Relation

/-!
Well-formed trees. In a forest a node is the parent of exactly the nodes that it names as
children, names each of them once, and lies above them; links lead upwards. Allocating a node
over live roots keeps a forest.
-/

set_option autoImplicit false
set_option relaxedAutoImplicit false

namespace AdaptiveTree.Tree

variable {t t' : Tree} {x c : NodeId} {n : Node}

/-- A live node names a child. -/
def Names (t : Tree) (x c : NodeId) : Prop := ∃ n, t.node? x = some n ∧ c ∈ n.kind.children

/-- The parent of a live node. -/
def parent? (t : Tree) (c : NodeId) : Option NodeId := (t.node? c).bind Node.parent

theorem parent?_eq_some_iff : t.parent? c = some x ↔ ∃ n, t.node? c = some n ∧ n.parent = some x :=
  Option.bind_eq_some_iff

theorem names_iff (h : t.node? x = some n) : t.Names x c ↔ c ∈ n.kind.children := by
  constructor
  · rintro ⟨m, hm, hc⟩
    obtain rfl := Option.some.inj (h.symm.trans hm)
    exact hc
  · intro hc
    exact ⟨n, h, hc⟩

theorem mem_childrenAt_iff : c ∈ t.childrenAt x ↔ t.Names x c := by
  unfold childrenAt Names node?
  rcases t.slots[x]? with _ | _ | _ | _ <;> simp [Slot.node?]

theorem parent?_eq (h : t.node? x = some n) : t.parent? x = n.parent := by
  rw [parent?, h, Option.bind_some]

theorem danglingLinks_eq_nil_iff :
    t.danglingLinks = [] ↔ ∀ x c, t.Names x c → ∃ m, t.node? c = some m := by
  unfold danglingLinks
  simp only [List.flatMap_eq_nil_iff, List.map_eq_nil_iff, List.filter_eq_nil_iff,
    mem_childrenAt_iff, Bool.not_eq_true', Bool.not_eq_false, isLive_iff]
  constructor
  · rintro h x c ⟨n, hn, hc⟩
    exact h x (List.mem_range.mpr (lt_size_of_node? hn)) c ⟨n, hn, hc⟩
  · exact fun h x _ c hc ↦ h x c hc

structure Forest (t : Tree) : Prop where
  ascending : t.Ascending
  /-- Parents and children know each other. -/
  owned : ∀ x c, t.Names x c ↔ t.parent? c = some x
  distinct : ∀ x n, t.node? x = some n → n.kind.children.Nodup
  /-- The nodes lie in layers, children deeper than their parents. -/
  layered : ∃ depth : NodeId → Nat, ∀ x c, t.Names x c → depth x < depth c

namespace Forest

theorem empty : Forest Tree.empty where
  ascending := fun id link h ↦ by simp [forwarded?_eq, Tree.empty] at h
  owned := fun x c ↦ by simp [Names, parent?, node?, Tree.empty]
  distinct := fun x n h ↦ by simp [node?, Tree.empty] at h
  layered := ⟨fun _ ↦ 0, fun x c h ↦ by simp [Names, node?, Tree.empty] at h⟩

/-- No node hangs below itself. -/
theorem acyclic (h : t.Forest) (x : NodeId) : ¬ Relation.TransGen t.Names x x := by
  obtain ⟨depth, hdepth⟩ := h.layered
  intro hcycle
  have hdeeper : Relation.TransGen (· < ·) (depth x) (depth x) := hcycle.lift depth hdepth
  rw [Relation.transGen_eq_self] at hdeeper
  exact Nat.lt_irrefl _ hdeeper

theorem danglingLinks_eq_nil (h : t.Forest) : t.danglingLinks = [] := by
  refine danglingLinks_eq_nil_iff.mpr fun x c hnames ↦ ?_
  obtain ⟨m, hm, _⟩ := parent?_eq_some_iff.mp ((h.owned x c).mp hnames)
  exact ⟨m, hm⟩

theorem loopless (h : t.Forest) (x : NodeId) : ¬ t.Names x x := fun hx ↦
  h.acyclic x (Relation.TransGen.single hx)

/-- The children of a live node are live. -/
theorem exists_child (h : t.Forest) (hn : t.node? x = some n) (hc : c ∈ n.kind.children) :
    ∃ m, t.node? c = some m ∧ m.parent = some x :=
  parent?_eq_some_iff.mp ((h.owned x c).mp ((names_iff hn).mpr hc))

theorem exists_parent (h : t.Forest) {p : NodeId} (hn : t.node? x = some n)
    (hp : n.parent = some p) : ∃ m, t.node? p = some m ∧ x ∈ m.kind.children :=
  (h.owned p x).mpr ((parent?_eq hn).trans hp)

theorem child_lt_size (h : t.Forest) (hn : t.node? x = some n) (hc : c ∈ n.kind.children) :
    c < t.slots.size := by
  obtain ⟨m, hm, _⟩ := h.exists_child hn hc
  exact lt_size_of_node? hm

theorem child_ne (h : t.Forest) (hn : t.node? x = some n) (hc : c ∈ n.kind.children) : c ≠ x := by
  rintro rfl
  exact h.loopless c ((names_iff hn).mpr hc)

theorem parent_ne (h : t.Forest) (hn : t.node? x = some n) : n.parent ≠ some x := fun hp ↦
  h.loopless x ((h.owned x x).mpr ((parent?_eq hn).trans hp))

end Forest

/-- A live node without a parent. -/
def IsRoot (t : Tree) (x : NodeId) : Prop := ∃ n, t.node? x = some n ∧ n.parent = none

section Alloc

variable {kind : NodeKind} {span : Span}

theorem IsRoot.exists_node? (h : t.IsRoot c) : ∃ n, t.node? c = some n := by
  obtain ⟨n, hn, _⟩ := h
  exact ⟨n, hn⟩

theorem IsRoot.lt_size (h : t.IsRoot c) : c < t.slots.size := by
  obtain ⟨n, hn⟩ := h.exists_node?
  exact lt_size_of_node? hn

theorem names_alloc (hsize : ∀ c ∈ kind.children, c < t.slots.size) :
    (t.alloc kind span).Names x c ↔ x = t.nextId ∧ c ∈ kind.children ∨ t.Names x c := by
  unfold Names
  rw [node?_alloc t kind span hsize]
  by_cases hx : x = t.nextId
  · subst hx
    simp [node?_nextId]
  · by_cases hmem : x ∈ kind.children
    · rcases t.node? x with _ | m <;> simp [hx, hmem, adopted]
    · simp [hx, hmem]

theorem parent?_alloc (hlive : ∀ c ∈ kind.children, ∃ n, t.node? c = some n) :
    (t.alloc kind span).parent? c =
      if c ∈ kind.children then some t.nextId else t.parent? c := by
  have hsize : ∀ c ∈ kind.children, c < t.slots.size := fun c hc ↦ by
    obtain ⟨n, hn⟩ := hlive c hc
    exact lt_size_of_node? hn
  unfold parent?
  rw [node?_alloc t kind span hsize]
  by_cases hc : c = t.nextId
  · subst hc
    have hnot : t.nextId ∉ kind.children := fun hmem ↦ Nat.lt_irrefl _ (hsize _ hmem)
    simp [hnot, node?_nextId]
  · by_cases hmem : c ∈ kind.children
    · obtain ⟨m, hm⟩ := hlive c hmem
      simp [hc, hmem, hm, adopted]
    · simp [hc, hmem]

/-- The roots are the new node and those that it did not adopt. -/
theorem isRoot_of_alloc (hchildren : ∀ c ∈ kind.children, t.IsRoot c)
    (hc : (t.alloc kind span).IsRoot c) : c = t.nextId ∨ t.IsRoot c ∧ c ∉ kind.children := by
  obtain ⟨n, hn, hparent⟩ := hc
  rw [node?_alloc t kind span fun c hc ↦ (hchildren c hc).lt_size] at hn
  split_ifs at hn with hnew hmem
  · exact Or.inl hnew
  · obtain ⟨m, _, rfl⟩ := Option.map_eq_some_iff.mp hn
    simp [adopted] at hparent
  · exact Or.inr ⟨⟨n, hn, hparent⟩, hmem⟩

/-- Assumes: different live roots as children. -/
theorem Forest.alloc (h : t.Forest) (hchildren : ∀ c ∈ kind.children, t.IsRoot c)
    (hnodup : kind.children.Nodup) : (t.alloc kind span).Forest where
  ascending := fun id link hlink ↦ by
    rw [forwarded?_alloc t kind span fun c hc ↦ (hchildren c hc).lt_size] at hlink
    obtain ⟨hup, hbound⟩ := h.ascending id link hlink
    exact ⟨hup, by rw [size_alloc]; exact Nat.lt_succ_of_lt hbound⟩
  owned := fun x c ↦ by
    rw [names_alloc fun c hc ↦ (hchildren c hc).lt_size,
      parent?_alloc fun c hc ↦ (hchildren c hc).exists_node?, h.owned]
    by_cases hmem : c ∈ kind.children
    · obtain ⟨m, hm, hroot⟩ := hchildren c hmem
      have hnone : t.parent? c = none := (parent?_eq hm).trans hroot
      simp [hmem, hnone, eq_comm]
    · simp [hmem]
  distinct := fun x n hn ↦ by
    rw [node?_alloc t kind span fun c hc ↦ (hchildren c hc).lt_size] at hn
    split_ifs at hn with hnew hmem
    · obtain rfl := Option.some.inj hn
      exact hnodup
    · obtain ⟨m, hm, rfl⟩ := Option.map_eq_some_iff.mp hn
      exact h.distinct x m hm
    · exact h.distinct x n hn
  layered := by
    obtain ⟨depth, hdepth⟩ := h.layered
    refine ⟨fun i ↦ if i = t.nextId then 0 else depth i + 1, fun x c hnames ↦ ?_⟩
    rcases (names_alloc fun c hc ↦ (hchildren c hc).lt_size).mp hnames with ⟨rfl, hmem⟩ | hold
    · have hc : c ≠ t.nextId := Nat.ne_of_lt (hchildren c hmem).lt_size
      simp [hc]
    · have hx : x ≠ t.nextId := by
        rintro rfl
        obtain ⟨n, hn, _⟩ := hold
        simp [node?_nextId] at hn
      have hc : c ≠ t.nextId := by
        rintro rfl
        obtain ⟨n, hn, hmem⟩ := hold
        exact Nat.lt_irrefl _ (h.child_lt_size hn hmem)
      simpa [hx, hc] using hdepth x c hold

end Alloc

end AdaptiveTree.Tree
