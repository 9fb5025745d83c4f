import AdaptiveTree.Proofs.Simulation.Run
import AdaptiveTree.Proofs.Tree.Following

/-!
Evaluating an expression adapts nothing but what hangs below its node, apart from return tails
that are overridden. Expressions have no return tails, so whatever else was evaluated before
stays as it was left.
-/

set_option autoImplicit false
set_option relaxedAutoImplicit false

namespace AdaptiveTree

open Machine (Later Sound)

variable {calls : NodeId → Span} {busy : NodeId → Prop} {t t' : Tree} {m : Machine}
  {id x y c d : NodeId} {k : NodeKind} {e : Expr} {part : Part}

/-! ### Expressions have no return tails -/

namespace Part

/-- The parts that are evaluated for the value of an expression. -/
def isExpr : Part → Bool
  | value _ | test _ => true
  | _ => false

end Part

theorem Fits.isExpr_of_mem {id : NodeId} {kind : NodeKind} {span : Span} {parts : List Part}
    (h : Fits calls id kind span part parts) (hexpr : part.isExpr = true) {p : Part}
    (hp : p ∈ parts) : p.isExpr = true := by
  induction h with
  | call | block =>
    obtain ⟨e, _, rfl⟩ := List.mem_map.mp hp
    rfl
  | statements | builtin | overridden => cases hexpr
  | plain _ ih => exact ih rfl hp
  | literal | ident => cases hp
  | unary | assign | convert =>
    rw [List.mem_singleton.mp hp]
    rfl
  | compare | noElse =>
    rcases List.mem_pair.mp hp with rfl | rfl <;> rfl
  | generic | twoBranch | const | specialized =>
    simp only [List.mem_cons, List.not_mem_nil, or_false] at hp
    rcases hp with rfl | rfl | rfl <;> rfl

theorem Fits.isTail_eq_false {id : NodeId} {kind : NodeKind} {span : Span} {parts : List Part}
    (h : Fits calls id kind span part parts) (hexpr : part.isExpr = true) :
    kind.isTail = false := by
  induction h with
  | builtin | overridden => cases hexpr
  | plain _ ih => exact ih rfl
  | _ => rfl

namespace Shows

/-- Below an expression there are only expressions. -/
theorem isTail_eq_false (h : Shows calls busy t id part) (hexpr : part.isExpr = true)
    (hresolve : t.resolve id = .ok x) (hreach : t.Reaches x y) (hy : t.kind? y = some k) :
    k.isTail = false := by
  have hbelow : ∃ part, part.isExpr = true ∧ Shows calls busy t y part := by
    clear hy
    induction hreach with
    | refl => exact ⟨part, hexpr, h.resolved hresolve⟩
    | @tail y z _ hnames ih =>
      obtain ⟨part', hexpr', hshows⟩ := ih
      obtain ⟨n, hn, hz⟩ := hnames
      cases hshows with
      | intro hresolve' hnode _ hfits hbelow =>
        obtain rfl := Except.ok.inj ((Tree.resolve_of_node? hn).symm.trans hresolve')
        obtain rfl := Option.some.inj (hn.symm.trans hnode)
        obtain ⟨p, hp⟩ := exists_zip hfits.length_eq hz
        exact ⟨p, hfits.isExpr_of_mem hexpr' (List.of_mem_zip hp).2, hbelow _ hp⟩
  obtain ⟨part', hexpr', hshows⟩ := hbelow
  obtain ⟨n, hn, rfl⟩ := Tree.kind?_eq_some_iff.mp hy
  cases hshows with
  | intro hresolve' hnode _ hfits _ =>
    obtain rfl := Except.ok.inj ((Tree.resolve_of_node? hn).symm.trans hresolve')
    obtain rfl := Option.some.inj (hn.symm.trans hnode)
    exact hfits.isTail_eq_false hexpr'

end Shows

/-! ### Confinement -/

/-- The live nodes that do not hang below a node. -/
def Tree.Outside (t : Tree) (x : NodeId) : NodeId → Prop := fun y ↦
  (∃ k, t.kind? y = some k) ∧ ¬ t.Reaches x y

theorem Shows.confined (h : Shows calls busy t id part) (hforest : t.Forest)
    (hresolve : t.resolve id = .ok x) : Shows calls (t.Outside x) t id part := by
  refine (h.avoid hforest (t.Outside x) ?_ ?_ ?_).mono fun _ hy ↦ Or.inr hy
  · rintro y ⟨⟨k, hk⟩, _⟩
    obtain ⟨n, hn, _⟩ := Tree.kind?_eq_some_iff.mp hk
    exact ⟨n, hn⟩
  · rintro y d hnames ⟨_, hout⟩
    obtain ⟨k, hk, _⟩ := Tree.names_iff_kind?.mp hnames
    exact ⟨⟨k, hk⟩, fun hreach ↦ hout (hreach.tail hnames)⟩
  · rintro y hy ⟨_, hout⟩
    obtain rfl := Except.ok.inj (hresolve.symm.trans hy)
    exact hout Relation.ReflTransGen.refl

theorem Machine.Sound.ready_outside (h : m.Sound calls) (x : NodeId) :
    Ready calls (m.tree.Outside x) m where
  sound := h
  bounded := by
    rintro y ⟨⟨k, hk⟩, _⟩
    obtain ⟨n, hn, _⟩ := Tree.kind?_eq_some_iff.mp hk
    exact Tree.lt_size_of_node? hn

/-- Nothing below a node that shows an expression changes while all of it is being evaluated. -/
theorem Tree.Adapts.spares_of_shows (h : Tree.Adapts calls busy t t') (hforest : t.Forest)
    {busy' : NodeId → Prop} (hshows : Shows calls busy' t d part) (hexpr : part.isExpr = true)
    (hd : t.kind? d = some k) (hbusy : ∀ y k, t.Reaches d y → t.kind? y = some k → busy y) :
    Tree.Spares t t' d :=
  h.spares hforest hd fun y k hreach hy ↦ ⟨hbusy y k hreach hy, NodeKind.isBuiltinTail_of_isTail
    (hshows.isTail_eq_false hexpr (Tree.resolve_of_kind? hd) hreach hy)⟩


end AdaptiveTree
