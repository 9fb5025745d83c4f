import AdaptiveTree.Proofs.Tree.Following

/-!
Several trees in one forest. An adaptation below one root does not touch a slot below another
one. Where all nodes below a root are being evaluated nothing is touched, as long as its return
tails stay.
-/

set_option autoImplicit false
set_option relaxedAutoImplicit false

namespace AdaptiveTree.Tree

variable {calls : NodeId → Span} {busy : NodeId → Prop} {t t' t'' : Tree} {x old i : NodeId}
  {n : Node} {kind : NodeKind} {extra : Option (NodeKind × Span)}

/-! ### Trees that are not touched -/

/-- Every slot of the tree below a node is as it was. -/
def Untouched (t t' : Tree) (x : NodeId) : Prop :=
  ∀ i, t.Reaches x i → t'.slots[i]? = t.slots[i]?

namespace Untouched

theorem refl (t : Tree) (x : NodeId) : Untouched t t x := fun _ _ ↦ rfl

theorem node?_eq (h : Untouched t t' x) (hi : t.Reaches x i) : t'.node? i = t.node? i := by
  rw [node?, node?, h i hi]

theorem reaches (h : Untouched t t' x) (hi : t.Reaches x i) : t'.Reaches x i := by
  induction hi with
  | refl => exact .refl
  | tail hz hnames ih =>
    obtain ⟨n, hn, hc⟩ := hnames
    exact ih.tail ⟨n, (h.node?_eq hz).trans hn, hc⟩

theorem reaches_of (h : Untouched t t' x) (hi : t'.Reaches x i) : t.Reaches x i := by
  induction hi with
  | refl => exact .refl
  | tail _ hnames ih =>
    obtain ⟨n, hn, hc⟩ := hnames
    exact ih.tail ⟨n, (h.node?_eq ih).symm.trans hn, hc⟩

theorem trans (h : Untouched t t' x) (h' : Untouched t' t'' x) : Untouched t t'' x :=
  fun i hi ↦ (h' i (h.reaches hi)).trans (h i hi)

end Untouched

theorem Replaced.untouched (h : Replaced t old n kind extra t') (hforest : t.Forest)
    (hgroups : Regroups t.nextId n.kind.children kind.children extra) (hroot : t.IsRoot x)
    (hold : ¬ t.Reaches x old) : Untouched t t' x := by
  intro i hi
  obtain ⟨m, hm⟩ := live_of_reaches hforest hroot hi
  have hne : i ≠ old := fun heq ↦ hold (heq ▸ hi)
  have hchild : i ∉ n.kind.children := fun hc ↦
    hold (reaches_of_names hforest hroot ((Tree.names_iff h.node).mpr hc) hi)
  have hparent : n.parent ≠ some i := fun hp ↦
    hold (hi.tail ((hforest.owned i old).mpr ((parent?_eq h.node).trans hp)))
  have hafter : i ∉ kind.children := fun hc ↦
    hchild (regroups_lt hgroups hc (lt_size_of_node? hm))
  have hbelow : i ∉ below extra := fun hc ↦ hchild (hgroups.mem_below i hc)
  rw [h.slot_other i (lt_size_of_node? hm) hne, node?_eq_some_iff.mp hm]
  simp [Slot.mapNode, refit, hparent, hafter, hbelow]

theorem Wrapped.untouched {p c : NodeId} {child : Node} {mode : ConvertMode}
    (h : Wrapped t p c n child mode t') (hforest : t.Forest) (hroot : t.IsRoot x)
    (hp : ¬ t.Reaches x p) : Untouched t t' x := by
  intro i hi
  obtain ⟨m, hm⟩ := live_of_reaches hforest hroot hi
  have hne : i ≠ p := fun heq ↦ hp (heq ▸ hi)
  have hchild : i ≠ c := by
    rintro rfl
    exact hp (reaches_of_names hforest hroot ((Tree.names_iff h.node).mpr h.mem) hi)
  exact h.slot_other i (lt_size_of_node? hm) hne hchild

/-! ### Any number of adaptations -/

/-- While all nodes below a root are being evaluated only return tails can be replaced there, so
a tree whose tails are still there was not touched. -/
theorem Adapts.untouched (h : Adapts calls busy t t') (hforest : t.Forest) (hroot : t.IsRoot x)
    (hbusy : ∀ i, t.Reaches x i → busy i)
    (htails : ∀ i, t.Reaches x i → t.IsBuiltinTail i → t'.IsBuiltinTail i) :
    Untouched t t' x := by
  induction h with
  | refl => exact .refl t x
  | @tail t₁ t₂ hsteps hstep ih =>
    have hforest₁ := (Adapts.evolves hsteps hforest).forest
    have huntouched := ih fun i hi htail ↦ hstep.isBuiltinTail_of hforest₁ (htails i hi htail)
    have hroot₁ : t₁.IsRoot x := by
      obtain ⟨n, hn, hnone⟩ := hroot
      exact ⟨n, (huntouched.node?_eq .refl).trans hn, hnone⟩
    refine huntouched.trans ?_
    cases hstep with
    | @replace old n kind extra hreplaced hrecast hidle =>
      refine hreplaced.untouched hforest₁ (hrecast.regroups_of_forest hforest₁ hreplaced.node)
        hroot₁ fun hold ↦ ?_
      have hold' := huntouched.reaches_of hold
      have htail := Adapts.isBuiltinTail_of hsteps hforest
        (hidle (.of_live hreplaced.node (hbusy old hold')))
      obtain ⟨_, hne⟩ := (hreplaced.isBuiltinTail_iff hrecast).mp (htails old hold' htail)
      exact hne rfl
    | wrap hwrapped _ _ _ hidle =>
      exact hwrapped.untouched hforest₁ hroot₁ fun hp ↦
        hidle (.of_live hwrapped.node (hbusy _ (huntouched.reaches_of hp)))

end AdaptiveTree.Tree
