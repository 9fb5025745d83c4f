import AdaptiveTree.Proofs.Tree.Discarding

/-!
Trees judged by their child slots alone, whatever the nodes record as their parents. In a
well-formed tree the nodes above a node form one line: of two nodes above it one is above the
other.
-/

set_option autoImplicit false
set_option relaxedAutoImplicit false

namespace AdaptiveTree.Tree

variable {t : Tree} {old x y c d i : NodeId}

/-- Nobody is named twice, every child is live, and no node hangs below itself. -/
structure WellFormed (t : Tree) : Prop where
  named_once : ∀ x y c, t.Names x c → t.Names y c → x = y
  distinct : ∀ x, (t.childrenAt x).Nodup
  linked : t.danglingLinks = []
  acyclic : ∀ x, ¬ Relation.TransGen t.Names x x

theorem Forest.wellFormed (h : t.Forest) : t.WellFormed where
  named_once := fun x y c hx hy ↦
    Option.some.inj (((h.owned x c).mp hx).symm.trans ((h.owned y c).mp hy))
  distinct := fun x ↦ by
    unfold childrenAt
    split
    · next n hn => exact h.distinct x n (node?_eq_some_iff.mpr hn)
    · exact List.nodup_nil
  linked := h.danglingLinks_eq_nil
  acyclic := h.acyclic

namespace WellFormed

variable (h : t.WellFormed)

include h

theorem exists_node? (hnames : t.Names x c) : ∃ m, t.node? c = some m :=
  danglingLinks_eq_nil_iff.mp h.linked x c hnames

theorem live_of_reaches (hx : ∃ n, t.node? x = some n) (hreach : t.Reaches x i) :
    ∃ n, t.node? i = some n := by
  rcases Relation.ReflTransGen.cases_tail hreach with rfl | ⟨y, _, hnames⟩
  · exact hx
  · exact h.exists_node? hnames

/-- A child does not lead back to its parent. -/
theorem not_reaches_of_names (hnames : t.Names x c) : ¬ t.Reaches c x := fun hreach ↦
  h.acyclic x (Relation.TransGen.head' hnames hreach)

theorem reaches_antisymm (hxy : t.Reaches x y) (hyx : t.Reaches y x) : x = y := by
  rcases Relation.ReflTransGen.cases_head hxy with heq | ⟨c, hnames, hreach⟩
  · exact heq
  · exact absurd (hreach.trans hyx) (h.not_reaches_of_names hnames)

/-- Whoever is above a child is above its parent. -/
theorem reaches_of_names (hreach : t.Reaches x c) (hne : x ≠ c) (hnames : t.Names y c) :
    t.Reaches x y := by
  rcases Relation.ReflTransGen.cases_tail hreach with heq | ⟨z, hz, hzc⟩
  · exact absurd heq.symm hne
  · rwa [h.named_once y z c hnames hzc]

theorem reaches_total (hx : t.Reaches x i) (hy : t.Reaches y i) :
    t.Reaches x y ∨ t.Reaches y x := by
  have hunique : Relator.RightUnique (Function.swap t.Names) := fun c x y hx hy ↦
    h.named_once x y c hx hy
  rcases Relation.ReflTransGen.total_of_right_unique hunique
    (Relation.reflTransGen_swap.mpr hx) (Relation.reflTransGen_swap.mpr hy) with hup | hup
  · exact Or.inr (Relation.reflTransGen_swap.mp hup)
  · exact Or.inl (Relation.reflTransGen_swap.mp hup)

/-- The trees below two children of one node do not meet. -/
theorem siblings_eq (hc : t.Names x c) (hd : t.Names x d) (hci : t.Reaches c i)
    (hdi : t.Reaches d i) : c = d := by
  have habove : ∀ a b, t.Names x a → t.Names x b → t.Reaches a b → a = b := by
    intro a b ha hb hreach
    by_contra hne
    exact h.not_reaches_of_names ha (h.reaches_of_names hreach hne hb)
  rcases h.reaches_total hci hdi with hcd | hdc
  · exact habove c d hc hd hcd
  · exact (habove d c hd hc hdc).symm

end WellFormed

end AdaptiveTree.Tree
