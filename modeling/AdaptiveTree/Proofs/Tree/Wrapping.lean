import AdaptiveTree.Proofs.Tree.Replacement

/-!
Putting a conversion step between a node and one of its children. No node is retired by it: the
child stays live below the step, and the node only names the step where it named the child.
-/

set_option autoImplicit false
set_option relaxedAutoImplicit false

namespace AdaptiveTree.Tree

/-- A conversion step now stands between the live node `p`, which is `n`, and its child `c`,
which is `child`. -/
structure Wrapped (t : Tree) (p c : NodeId) (n child : Node) (mode : ConvertMode)
    (t' : Tree) : Prop where
  node : t.node? p = some n
  node_child : t.node? c = some child
  mem : c ∈ n.kind.children
  size : t'.slots.size = t.slots.size + 1
  generation : t'.generation = t.generation + 1
  log : ∃ reason, t'.log = t.log.push ⟨t.generation + 1, c, t.nextId, child.kind.name,
    (NodeKind.convert c mode).name, reason⟩
  slot_parent : t'.slots[p]? =
    some (.live { n with kind := n.kind.replaceChild c t.nextId })
  slot_child : t'.slots[c]? = some (.live (adopted t.nextId child))
  slot_new : t'.slots[t.nextId]? = some (.live ⟨.convert c mode, child.span, some p⟩)
  slot_other : ∀ i, i < t.slots.size → i ≠ p → i ≠ c → t'.slots[i]? = t.slots[i]?

namespace Wrapped

variable {t t' : Tree} {p c x d i : NodeId} {n child : Node} {mode : ConvertMode}

theorem node?_parent (h : Wrapped t p c n child mode t') :
    t'.node? p = some { n with kind := n.kind.replaceChild c t.nextId } :=
  node?_eq_some_iff.mpr h.slot_parent

theorem node?_child (h : Wrapped t p c n child mode t') :
    t'.node? c = some (adopted t.nextId child) :=
  node?_eq_some_iff.mpr h.slot_child

theorem node?_new (h : Wrapped t p c n child mode t') :
    t'.node? t.nextId = some ⟨.convert c mode, child.span, some p⟩ :=
  node?_eq_some_iff.mpr h.slot_new

theorem node?_other (h : Wrapped t p c n child mode t') (hlt : i < t.slots.size) (hp : i ≠ p)
    (hc : i ≠ c) : t'.node? i = t.node? i := by
  rw [Tree.node?, Tree.node?, h.slot_other i hlt hp hc]

/-- The live nodes afterwards are the step, the parent, the child and the others. -/
theorem cases_node? (h : Wrapped t p c n child mode t') {m' : Node} (hi : t'.node? i = some m') :
    (i = t.nextId ∧ m' = ⟨.convert c mode, child.span, some p⟩) ∨
      (i = p ∧ m' = { n with kind := n.kind.replaceChild c t.nextId }) ∨
      (i = c ∧ m' = adopted t.nextId child) ∨ i ≠ p ∧ i ≠ c ∧ t.node? i = some m' := by
  by_cases hnew : i = t.nextId
  · subst hnew
    exact Or.inl ⟨rfl, Option.some.inj (hi.symm.trans h.node?_new)⟩
  · have hbound : i < t'.slots.size := lt_size_of_node? hi
    rw [h.size] at hbound
    have hlt : i < t.slots.size := Nat.lt_of_le_of_ne (Nat.le_of_lt_succ hbound) hnew
    by_cases hp : i = p
    · subst hp
      exact Or.inr (Or.inl ⟨rfl, Option.some.inj (hi.symm.trans h.node?_parent)⟩)
    · by_cases hc : i = c
      · subst hc
        exact Or.inr (Or.inr (Or.inl ⟨rfl, Option.some.inj (hi.symm.trans h.node?_child)⟩))
      · exact Or.inr (Or.inr (Or.inr ⟨hp, hc, (h.node?_other hlt hp hc).symm.trans hi⟩))

theorem child_ne (h : Wrapped t p c n child mode t') (hforest : t.Forest) : c ≠ p :=
  hforest.child_ne h.node h.mem

theorem names_iff (h : Wrapped t p c n child mode t') (hforest : t.Forest) :
    t'.Names x d ↔ (x = t.nextId ∧ d = c) ∨ (x = p ∧ d = t.nextId) ∨ t.Names x d ∧ d ≠ c := by
  have hmem : ∀ d, d ∈ (n.kind.replaceChild c t.nextId).children ↔
      d ∈ n.kind.children ∧ d ≠ c ∨ d = t.nextId := by
    intro d
    rw [NodeKind.children_replaceChild, Replaced.mem_replace (hforest.distinct p n h.node)]
    simp [h.mem]
  have hunique : ∀ x, t.Names x c → x = p := by
    intro x hx
    have hp := (hforest.owned p c).mp ((Tree.names_iff h.node).mpr h.mem)
    exact Option.some.inj (((hforest.owned x c).mp hx).symm.trans hp)
  constructor
  · rintro ⟨m', hm', hd⟩
    rcases h.cases_node? hm' with ⟨rfl, rfl⟩ | ⟨rfl, rfl⟩ | ⟨rfl, rfl⟩ | ⟨hp, _, hm⟩
    · exact Or.inl ⟨rfl, by simpa [NodeKind.children] using hd⟩
    · rcases (hmem d).mp hd with ⟨hd, hne⟩ | rfl
      · exact Or.inr (Or.inr ⟨(Tree.names_iff h.node).mpr hd, hne⟩)
      · exact Or.inr (Or.inl ⟨rfl, rfl⟩)
    · have hnames : t.Names x d := (Tree.names_iff h.node_child).mpr hd
      exact Or.inr (Or.inr ⟨hnames, fun hdc ↦ hforest.loopless x (hdc ▸ hnames)⟩)
    · have hnames : t.Names x d := (Tree.names_iff hm).mpr hd
      exact Or.inr (Or.inr ⟨hnames, fun hdc ↦ hp (hunique x (hdc ▸ hnames))⟩)
  · rintro (⟨rfl, rfl⟩ | ⟨rfl, rfl⟩ | ⟨⟨m, hm, hd⟩, hne⟩)
    · exact ⟨_, h.node?_new, List.mem_singleton.mpr rfl⟩
    · exact ⟨_, h.node?_parent, (hmem _).mpr (Or.inr rfl)⟩
    · by_cases hp : x = p
      · subst hp
        obtain rfl := Option.some.inj (hm.symm.trans h.node)
        exact ⟨_, h.node?_parent, (hmem d).mpr (Or.inl ⟨hd, hne⟩)⟩
      · by_cases hc : x = c
        · subst hc
          obtain rfl := Option.some.inj (hm.symm.trans h.node_child)
          exact ⟨_, h.node?_child, hd⟩
        · exact ⟨m, (h.node?_other (lt_size_of_node? hm) hp hc).trans hm, hd⟩

theorem parent?_eq (h : Wrapped t p c n child mode t') (hforest : t.Forest) :
    t'.parent? d = if d = t.nextId then some p else if d = c then some t.nextId
      else t.parent? d := by
  have hpc : p ≠ c := (h.child_ne hforest).symm
  split_ifs with hnew hc
  · subst hnew
    exact Tree.parent?_eq h.node?_new
  · subst hc
    exact Tree.parent?_eq h.node?_child
  · by_cases hp : d = p
    · subst hp
      rw [Tree.parent?_eq h.node?_parent, Tree.parent?_eq h.node]
    · by_cases hlt : d < t.slots.size
      · rw [Tree.parent?, Tree.parent?, h.node?_other hlt hp hc]
      · have hnone : t.node? d = none := by
          rcases hd : t.node? d with _ | m
          · rfl
          · exact absurd (lt_size_of_node? hd) hlt
        have hnone' : t'.node? d = none := by
          rcases hd : t'.node? d with _ | m
          · rfl
          · have hbound := lt_size_of_node? hd
            rw [h.size] at hbound
            exact absurd (Nat.lt_of_le_of_ne (Nat.le_of_lt_succ hbound) hnew) hlt
        rw [Tree.parent?, Tree.parent?, hnone, hnone']

/-- Doubled depths leave room for the step. -/
theorem layered (h : Wrapped t p c n child mode t') (hforest : t.Forest) :
    ∃ depth : NodeId → Nat, ∀ x d, t'.Names x d → depth x < depth d := by
  obtain ⟨depth, hdepth⟩ := hforest.layered
  let deeper (i : NodeId) : Nat := if i = t.nextId then 2 * depth p + 1 else 2 * depth i
  have hnew : deeper t.nextId = 2 * depth p + 1 := if_pos rfl
  have hbefore : ∀ i, i < t.slots.size → deeper i = 2 * depth i := fun i hi ↦
    if_neg (Nat.ne_of_lt hi)
  refine ⟨deeper, fun x d hnames ↦ ?_⟩
  rcases (h.names_iff hforest).mp hnames with ⟨rfl, rfl⟩ | ⟨rfl, rfl⟩ | ⟨hnames, _⟩
  · have := hdepth p d ((Tree.names_iff h.node).mpr h.mem)
    rw [hnew, hbefore d (lt_size_of_node? h.node_child)]
    omega
  · rw [hnew, hbefore x (lt_size_of_node? h.node)]
    exact Nat.lt_succ_self _
  · have := hdepth x d hnames
    obtain ⟨m, hm, hd⟩ := hnames
    rw [hbefore x (lt_size_of_node? hm), hbefore d (hforest.child_lt_size hm hd)]
    omega

theorem forest (h : Wrapped t p c n child mode t') (hforest : t.Forest) : t'.Forest where
  ascending := fun id link hlink ↦ by
    have hslot := forwarded?_eq_some_iff.mp hlink
    have hbound : id < t'.slots.size := (Array.getElem?_eq_some_iff.mp hslot).1
    rw [h.size] at hbound
    have hp : id ≠ p := by rintro rfl; rw [h.slot_parent] at hslot; simp at hslot
    have hc : id ≠ c := by rintro rfl; rw [h.slot_child] at hslot; simp at hslot
    have hnew : id ≠ t.nextId := by rintro rfl; rw [h.slot_new] at hslot; simp at hslot
    have hlt : id < t.slots.size := Nat.lt_of_le_of_ne (Nat.le_of_lt_succ hbound) hnew
    rw [h.slot_other id hlt hp hc] at hslot
    obtain ⟨hup, htarget⟩ := hforest.ascending id link (forwarded?_eq_some_iff.mpr hslot)
    exact ⟨hup, by rw [h.size]; exact Nat.lt_succ_of_lt htarget⟩
  owned := fun x d ↦ by
    have hnew : ¬ t.Names x t.nextId := by
      rintro ⟨m, hm, hmem⟩
      exact Nat.lt_irrefl _ (hforest.child_lt_size hm hmem)
    have hne : c ≠ t.nextId := Nat.ne_of_lt (lt_size_of_node? h.node_child)
    rw [h.names_iff hforest, h.parent?_eq hforest, hforest.owned]
    rw [hforest.owned] at hnew
    split_ifs with hd hc
    · subst hd
      simp [hnew, hne.symm, eq_comm]
    · subst hc
      simp [hne, eq_comm]
    · simp [hd, hc]
  distinct := fun x m' hx ↦ by
    rcases h.cases_node? hx with ⟨_, rfl⟩ | ⟨rfl, rfl⟩ | ⟨rfl, rfl⟩ | ⟨_, _, hm⟩
    · exact List.nodup_singleton c
    · have hnew : t.nextId ∉ n.kind.children := fun hmem ↦
        Nat.lt_irrefl _ (hforest.child_lt_size h.node hmem)
      rw [NodeKind.children_replaceChild]
      exact Replaced.nodup_replace (hforest.distinct x n h.node) hnew
    · exact hforest.distinct x child h.node_child
    · exact hforest.distinct x m' hm
  layered := h.layered hforest

end Wrapped

end AdaptiveTree.Tree
