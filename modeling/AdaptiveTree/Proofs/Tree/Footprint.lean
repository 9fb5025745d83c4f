import AdaptiveTree.Proofs.Tree.Discarding
import AdaptiveTree.Proofs.Tree.Evolution
import AdaptiveTree.Proofs.Tree.Sites

/-!
What adaptations leave alone. Below a node where everything is being evaluated nothing changes,
so what is done below one child of a node cannot be noticed below another one.
-/

set_option autoImplicit false
set_option relaxedAutoImplicit false

namespace AdaptiveTree.Tree

variable {calls : NodeId → Span} {busy : NodeId → Prop} {t t' t'' : Tree} {x y c d : NodeId}
  {k : NodeKind}

theorem names_iff_kind? : t.Names x c ↔ ∃ k, t.kind? x = some k ∧ c ∈ k.children := by
  constructor
  · rintro ⟨n, hn, hc⟩
    exact ⟨n.kind, kind?_eq_some_iff.mpr ⟨n, hn, rfl⟩, hc⟩
  · rintro ⟨k, hk, hc⟩
    obtain ⟨n, hn, rfl⟩ := kind?_eq_some_iff.mp hk
    exact ⟨n, hn, hc⟩

theorem resolve_of_kind? (h : t.kind? x = some k) : t.resolve x = .ok x := by
  obtain ⟨n, hn, _⟩ := kind?_eq_some_iff.mp h
  exact resolve_of_node? hn

/-! ### Apart from each other -/

namespace Forest

/-- Of two nodes above a third one hangs below the other. -/
theorem comparable (h : t.Forest) {a b : NodeId} (ha : t.Reaches a y) (hb : t.Reaches b y) :
    t.Reaches a b ∨ t.Reaches b a := by
  induction ha with
  | refl => exact Or.inr hb
  | @tail z y hz hnames ih =>
    rcases Relation.ReflTransGen.cases_tail hb with rfl | ⟨z', hz', hnames'⟩
    · exact Or.inl (hz.tail hnames)
    · have hparent := (h.owned z y).mp hnames
      have hparent' := (h.owned z' y).mp hnames'
      obtain rfl := Option.some.inj (hparent.symm.trans hparent')
      exact ih hz'

theorem not_reaches_parent (h : t.Forest) (hnames : t.Names x c) : ¬ t.Reaches c x := fun hreach ↦
  h.acyclic x (Relation.TransGen.head' hnames hreach)

/-- What hangs below one child does not hang below another one. -/
theorem not_reaches_sibling (h : t.Forest) (hc : t.Names x c) (hd : t.Names x d) (hne : c ≠ d)
    (hreach : t.Reaches c y) : ¬ t.Reaches d y := by
  have hapart {a b : NodeId} (ha : t.Names x a) (hb : t.Names x b) (hne : a ≠ b) :
      ¬ t.Reaches a b := by
    intro hab
    rcases Relation.ReflTransGen.cases_tail hab with rfl | ⟨z, hz, hnames⟩
    · exact hne rfl
    · have hparent := (h.owned z b).mp hnames
      obtain rfl := Option.some.inj (hparent.symm.trans ((h.owned x b).mp hb))
      exact h.not_reaches_parent ha hz
  intro hreach'
  rcases h.comparable hreach hreach' with hab | hba
  · exact hapart hc hd hne hab
  · exact hapart hd hc hne.symm hba

end Forest

/-! ### Left alone -/

/-- A node and all below it are of the same kinds in another tree. -/
def Intact (t t' : Tree) (x : NodeId) : Prop :=
  ∀ y k, t.Reaches x y → t.kind? y = some k → t'.kind? y = some k

namespace Intact

theorem kind?_eq (h : Intact t t' x) (hx : t.kind? x = some k) : t'.kind? x = some k :=
  h x k Relation.ReflTransGen.refl hx

theorem below (h : Intact t t' x) (hreach : t.Reaches x y) : Intact t t' y :=
  fun z k hz hk ↦ h z k (hreach.trans hz) hk

theorem reaches (h : Intact t t' x) (hreach : t.Reaches x y) : t'.Reaches x y := by
  induction hreach with
  | refl => exact Relation.ReflTransGen.refl
  | @tail z y hz hnames ih =>
    obtain ⟨k, hk, hmem⟩ := names_iff_kind?.mp hnames
    exact ih.tail (names_iff_kind?.mpr ⟨k, h z k hz hk, hmem⟩)

/-- Nothing new hangs below a live node that is left alone. -/
theorem reaches_of (h : Intact t t' x) (hforest : t.Forest) (hx : t.kind? x = some k)
    (hreach : t'.Reaches x y) : t.Reaches x y ∧ ∃ k, t.kind? y = some k := by
  induction hreach with
  | refl => exact ⟨Relation.ReflTransGen.refl, k, hx⟩
  | @tail z y _ hnames ih =>
    obtain ⟨hz, k, hk⟩ := ih
    obtain ⟨k', hk', hmem⟩ := names_iff_kind?.mp hnames
    obtain rfl := Option.some.inj ((h z k hz hk).symm.trans hk')
    obtain ⟨n, hn, rfl⟩ := kind?_eq_some_iff.mp hk
    obtain ⟨m, hm, _⟩ := hforest.exists_child hn hmem
    exact ⟨hz.tail ((names_iff hn).mpr hmem), m.kind, kind?_eq_some_iff.mpr ⟨m, hm, rfl⟩⟩

theorem refl (t : Tree) (x : NodeId) : Intact t t x := fun _ _ _ hk ↦ hk

theorem trans (h : Intact t t' x) (h' : Intact t' t'' x) : Intact t t'' x :=
  fun y k hreach hk ↦ h' y k (h.reaches hreach) (h y k hreach hk)

end Intact

theorem Replaced.intact {old : NodeId} {n : Node} {kind : NodeKind}
    {extra : Option (NodeKind × Span)} (h : Replaced t old n kind extra t') (hforest : t.Forest)
    (hold : ¬ t.Reaches x old) : Intact t t' x := by
  intro y k hreach hy
  obtain ⟨m, hm, rfl⟩ := kind?_eq_some_iff.mp hy
  have hne : y ≠ old := fun heq ↦ hold (heq ▸ hreach)
  have hparent : n.parent ≠ some y := fun hp ↦
    hold (hreach.tail ((hforest.owned y old).mpr ((parent?_eq h.node).trans hp)))
  exact kind?_eq_some_iff.mpr ⟨_, h.node?_other hm hne, if_neg hparent⟩

theorem Wrapped.intact {p : NodeId} {n child : Node} {mode : ConvertMode}
    (h : Wrapped t p c n child mode t') (hforest : t.Forest) (hp : ¬ t.Reaches x p) :
    Intact t t' x := by
  intro y k hreach hy
  obtain ⟨m, hm, rfl⟩ := kind?_eq_some_iff.mp hy
  obtain ⟨m', hm', _, hkind, _⟩ := h.exists_node? hforest hm
  rw [if_neg fun heq : y = p ↦ hp (heq ▸ hreach)] at hkind
  exact kind?_eq_some_iff.mpr ⟨m', hm', hkind⟩

/-- Everything below a node is being evaluated, and there is no return tail. -/
def Guarded (busy : NodeId → Prop) (t : Tree) (x : NodeId) : Prop :=
  ∀ y k, t.Reaches x y → t.kind? y = some k → busy y ∧ k.isBuiltinTail = false

theorem Adaptation.intact (h : Adaptation calls busy t t') (hforest : t.Forest)
    (hguarded : t.Guarded busy x) : Intact t t' x := by
  cases h with
  | @replace old m kind extra hreplaced hrecast hidle =>
    refine hreplaced.intact hforest fun hold ↦ ?_
    obtain ⟨hbusy, hplain⟩ := hguarded old m.kind hold
      (kind?_eq_some_iff.mpr ⟨m, hreplaced.node, rfl⟩)
    rw [(isBuiltinTail_iff hreplaced.node).mp (hidle (.of_live hreplaced.node hbusy))] at hplain
    cases hplain
  | @wrap p m _ _ _ hwrapped _ _ _ hidle =>
    refine hwrapped.intact hforest fun hp ↦ hidle (.of_live hwrapped.node ?_)
    exact (hguarded p m.kind hp (kind?_eq_some_iff.mpr ⟨m, hwrapped.node, rfl⟩)).1

/-- What is guarded stays as it is, whatever is adapted elsewhere. -/
theorem Adapts.intact (h : Adapts calls busy t t') (hforest : t.Forest) (hx : t.kind? x = some k)
    (hguarded : t.Guarded busy x) : Intact t t' x := by
  induction h with
  | refl => exact .refl t x
  | tail hsteps hstep ih =>
    refine ih.trans (hstep.intact (evolves hsteps hforest).forest fun y k' hreach hy ↦ ?_)
    obtain ⟨hreach', k₀, hk₀⟩ := ih.reaches_of hforest hx hreach
    obtain rfl := Option.some.inj ((ih y k₀ hreach' hk₀).symm.trans hy)
    exact hguarded y k₀ hreach' hk₀

/-! ### Sparing -/

/-- What was found out about a node still holds: it was left alone, and if there was no return
tail that `return` could override there is none. -/
structure Spares (t t' : Tree) (x : NodeId) : Prop where
  intact : Intact t t' x
  settled : (∀ y, ¬ t.IsBuiltinTail y) → ∀ y, ¬ t'.IsBuiltinTail y

theorem Adaptation.isBuiltinTail_of (h : Adaptation calls busy t t') (hforest : t.Forest)
    (hy : t'.IsBuiltinTail y) : t.IsBuiltinTail y := by
  cases h with
  | replace hreplaced hrecast => exact ((hreplaced.isBuiltinTail_iff hrecast).mp hy).1
  | wrap hwrapped => exact (hwrapped.isBuiltinTail_iff hforest).mp hy

theorem Adapts.isBuiltinTail_of (h : Adapts calls busy t t') (hforest : t.Forest)
    (hy : t'.IsBuiltinTail y) : t.IsBuiltinTail y := by
  induction h with
  | refl => exact hy
  | tail hsteps hstep ih => exact ih (hstep.isBuiltinTail_of (evolves hsteps hforest).forest hy)

theorem Adapts.spares (h : Adapts calls busy t t') (hforest : t.Forest) (hx : t.kind? x = some k)
    (hguarded : t.Guarded busy x) : Spares t t' x :=
  ⟨h.intact hforest hx hguarded, fun hnone y hy ↦ hnone y (h.isBuiltinTail_of hforest hy)⟩

namespace Spares

theorem refl (t : Tree) (x : NodeId) : Spares t t x := ⟨.refl t x, fun h ↦ h⟩

theorem trans (h : Spares t t' x) (h' : Spares t' t'' x) : Spares t t'' x :=
  ⟨h.intact.trans h'.intact, fun hnone ↦ h'.settled (h.settled hnone)⟩

theorem below (h : Spares t t' x) (hreach : t.Reaches x y) : Spares t t' y :=
  ⟨h.intact.below hreach, h.settled⟩

theorem child (h : Spares t t' x) (hx : t.kind? x = some k) (hc : c ∈ k.children) :
    Spares t t' c :=
  h.below (Relation.ReflTransGen.single (names_iff_kind?.mpr ⟨k, hx, hc⟩))

end Spares

end AdaptiveTree.Tree
