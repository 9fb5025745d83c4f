import AdaptiveTree.Proofs.Session.History

/-!
The nodes of an engine as its programs own them. After every history the live nodes form a
forest, read off the slots alone, with one tree for each program that was not released: a node
has its one parent or is the root of one program, and no node is left over or shared.
-/

set_option autoImplicit false
set_option relaxedAutoImplicit false

namespace AdaptiveTree

namespace Tree

variable {t : Tree} {x c : NodeId} {n : Node}

/-! ### What the slots say -/

/-- A parent names its child once, and nobody else does. -/
theorem Forest.count_childrenAt (h : t.Forest) {p : NodeId} (hc : t.node? c = some n)
    (hp : n.parent = some p) :
    (t.childrenAt p).count c = 1 ∧ ∀ q, q ≠ p → c ∉ t.childrenAt q := by
  obtain ⟨m, hm, hmem⟩ := h.exists_parent hc hp
  refine ⟨?_, fun q hq hcq ↦ hq ?_⟩
  · rw [childrenAt_eq hm]
    exact List.count_eq_one_of_mem (h.distinct p m hm) hmem
  · have hparent := (h.owned q c).mp (mem_childrenAt_iff.mp hcq)
    exact Option.some.inj (hparent.symm.trans ((parent?_eq hc).trans hp))

theorem Forest.not_mem_childrenAt (h : t.Forest) (hc : t.node? c = some n)
    (hp : n.parent = none) (q : NodeId) : c ∉ t.childrenAt q := by
  intro hcq
  have hparent := (h.owned q c).mp (mem_childrenAt_iff.mp hcq)
  rw [parent?_eq hc, hp] at hparent
  simp at hparent

/-- A live node names another one as its child. -/
def Holds (t : Tree) (x c : NodeId) : Prop := c ∈ t.childrenAt x

theorem holds_eq_names (t : Tree) : t.Holds = t.Names := by
  funext x c
  exact propext mem_childrenAt_iff

end Tree

/-! ### Programs and their trees -/

namespace Session

variable {s s' : Session} {c : Command} {calls : NodeId → Span}

/-- Every root belongs to a program that was not released. -/
def Covered (s : Session) : Prop :=
  ∀ x, s.engine.machine.tree.IsRoot x → ∃ i ∈ s.issues, i.released = false ∧
    s.engine.machine.tree.resolve i.program.root = .ok x

theorem Covered.adapts {m' : Machine} (h : s.Covered) (hforest : s.engine.machine.tree.Forest)
    {busy : NodeId → Prop} (hadapts : Tree.Adapts calls busy s.engine.machine.tree m'.tree) :
    Covered ⟨{ s.engine with machine := m' }, s.issues⟩ := by
  have hevolves := hadapts.evolves hforest
  intro x' hx'
  obtain ⟨x, hx, hresolve'⟩ := hevolves.rooted x' hx'
  obtain ⟨i, hi, hkept, hresolve⟩ := h x hx
  exact ⟨i, hi, hkept,
    (hevolves.persists.resolve_eq hevolves.forest.ascending hresolve).trans hresolve'⟩

theorem Covered.moves (h : s.Covered) (hvalid : Valid calls s.engine.machine s.issues)
    (hmoves : s.Moves calls c s') : s'.Covered := by
  have hforest := hvalid.sound.forest
  cases hmoves with
  | evaluates hlater => exact h.adapts hforest hlater.adapts
  | defines _ hlater => exact h.adapts hforest hlater.adapts
  | @makes _ m' i hkept hlowered =>
    intro x hx
    rcases hlowered.rooted x hx with hold | hnew
    · obtain ⟨j, hj, hkept', hresolve⟩ := h x hold
      exact ⟨j, List.mem_append_left _ hj, hkept', hlowered.grows.resolve_eq hresolve⟩
    · rw [List.mem_singleton] at hnew
      subst hnew
      obtain ⟨n, hn, _⟩ := hx
      exact ⟨i, List.mem_append_right _ (List.mem_singleton.mpr rfl), hkept,
        Tree.resolve_of_node? hn⟩
  | @releases index i x hi hpresent =>
    have hmachine := Engine.release_of_resolve (e := s.engine) hpresent.resolve
    intro y hy
    rw [hmachine] at hy ⊢
    obtain ⟨n, hn, hnone⟩ := hy
    obtain ⟨hy, hnot⟩ := Tree.node?_discard_eq_some_iff.mp hn
    obtain ⟨j, hj, hkept, hresolve⟩ := h y ⟨n, hy, hnone⟩
    obtain ⟨a, ha⟩ := List.mem_iff_getElem?.mp hj
    have hne : index ≠ a := by
      rintro rfl
      obtain rfl := Option.some.inj (hi.symm.trans ha)
      obtain rfl := Except.ok.inj (hpresent.resolve.symm.trans hresolve)
      exact hnot Relation.ReflTransGen.refl
    have ha' : (Issue.releaseAt index s.issues)[a]? = some j := by
      rw [Issue.releaseAt, List.getElem?_modify_ne _ _ hne, ha]
    exact ⟨j, List.mem_of_getElem? ha', hkept,
      Tree.resolve_discard hforest hpresent.isRoot hresolve hnot⟩
  | takes =>
    intro x hx
    obtain ⟨i, hi, hkept, hresolve⟩ := h x hx
    have hsame : ∀ id, s.engine.takeSplices.2.machine.tree.resolve id =
      s.engine.machine.tree.resolve id := Tree.resolve_congr rfl
    exact ⟨i, hi, hkept, (hsame _).trans hresolve⟩

theorem covered_after (options : EngineOptions) (commands : List Command) :
    (after options commands).Covered := by
  refine after_induction options commands ?_ fun s c calls hvalid _ h ↦
    h.moves hvalid (step_moves hvalid c)
  rintro x ⟨n, hn, _⟩
  cases hn

/-- The program of a number was not released, and its root has become a node. -/
def Leads (s : Session) (index : Nat) (x : NodeId) : Prop :=
  ∃ i, s.issues[index]? = some i ∧ i.released = false ∧
    s.engine.machine.tree.resolve i.program.root = .ok x

/-- The live nodes form a forest with one tree for each program that was not released. -/
structure Forested (s : Session) : Prop where
  linked : s.engine.machine.tree.danglingLinks = []
  child : ∀ c p, s.engine.machine.tree.parent c = .ok (some p) →
    s.engine.machine.tree.isLive p = true ∧
      (s.engine.machine.tree.childrenAt p).count c = 1 ∧
      ∀ q, q ≠ p → c ∉ s.engine.machine.tree.childrenAt q
  root : ∀ c, s.engine.machine.tree.parent c = .ok none →
    (∀ q, c ∉ s.engine.machine.tree.childrenAt q) ∧ ∃! index, s.Leads index c
  acyclic : ∀ c, ¬ Relation.TransGen s.engine.machine.tree.Holds c c
  owned : ∀ c, s.engine.machine.tree.isLive c = true →
    ∃! index, ∃ x, s.Leads index x ∧ Relation.ReflTransGen s.engine.machine.tree.Holds x c
  present : ∀ (index : Nat) (i : Issue), s.issues[index]? = some i → i.released = false →
    ∃ x, s.Leads index x ∧ s.engine.machine.tree.parent x = .ok none

theorem Leads.isRoot (hvalid : Valid calls s.engine.machine s.issues) {index : Nat} {x : NodeId}
    (h : s.Leads index x) : s.engine.machine.tree.IsRoot x := by
  obtain ⟨i, hi, hkept, hresolve⟩ := h
  obtain ⟨y, hy⟩ := hvalid.present i (List.mem_of_getElem? hi) hkept
  obtain rfl := Except.ok.inj (hy.resolve.symm.trans hresolve)
  exact hy.isRoot

/-- A root belongs to exactly one program. -/
theorem Covered.existsUnique_leads (h : s.Covered)
    (hvalid : Valid calls s.engine.machine s.issues) {x : NodeId}
    (hx : s.engine.machine.tree.IsRoot x) : ∃! index, s.Leads index x := by
  obtain ⟨i, hi, hkept, hresolve⟩ := h x hx
  obtain ⟨index, hindex⟩ := List.mem_iff_getElem?.mp hi
  refine ⟨index, ⟨i, hindex, hkept, hresolve⟩, ?_⟩
  rintro other ⟨j, hj, _, hresolve'⟩
  exact hvalid.apart other index j i x hj hindex hresolve' hresolve

theorem Covered.forested (h : s.Covered) (hvalid : Valid calls s.engine.machine s.issues) :
    s.Forested := by
  have hforest := hvalid.sound.forest
  constructor
  · exact hforest.danglingLinks_eq_nil
  · intro c p hparent
    obtain ⟨n, hn, hp⟩ := Tree.parent_eq_ok hparent
    obtain ⟨m, hm, _⟩ := hforest.exists_parent hn hp
    exact ⟨Tree.isLive_iff.mpr ⟨m, hm⟩, hforest.count_childrenAt hn hp⟩
  · intro c hparent
    obtain ⟨n, hn, hp⟩ := Tree.parent_eq_ok hparent
    exact ⟨hforest.not_mem_childrenAt hn hp, h.existsUnique_leads hvalid ⟨n, hn, hp⟩⟩
  · rw [Tree.holds_eq_names]
    exact hforest.acyclic
  · intro c hlive
    rw [Tree.holds_eq_names]
    obtain ⟨n, hn⟩ := Tree.isLive_iff.mp hlive
    obtain ⟨x, hx, hreach⟩ := hforest.exists_root hn
    obtain ⟨index, hleads, hunique⟩ := h.existsUnique_leads hvalid hx
    refine ⟨index, ⟨x, hleads, hreach⟩, ?_⟩
    rintro other ⟨y, hother, hreach'⟩
    obtain rfl := Tree.root_unique hforest hx (hother.isRoot hvalid) hreach hreach'
    exact hunique other hother
  · intro index i hi hkept
    obtain ⟨x, hx⟩ := hvalid.present i (List.mem_of_getElem? hi) hkept
    obtain ⟨n, hn, hnone⟩ := hx.isRoot
    exact ⟨x, ⟨i, hi, hkept, hx.resolve⟩, (Tree.parent_eq hn).trans (congrArg Except.ok hnone)⟩

/-- No history leaks a node, shares one between programs or leaves a link to nowhere. -/
theorem forested_after (options : EngineOptions) (commands : List Command) :
    (after options commands).Forested := by
  obtain ⟨calls, hvalid⟩ := valid_after options commands
  exact (covered_after options commands).forested hvalid

end Session

end AdaptiveTree
