import AdaptiveTree.Proofs.Tree.Wrapping
import Mathlib.Logic.Relation

/-!
The changes that a tree goes through while programs run: one adaptation after the other, at
nodes that are not being evaluated, except that a return tail may be overridden at any time.
Whatever their number, a live node goes on as one live node at the same place in the source,
and different nodes go on as different ones.
-/

set_option autoImplicit false
set_option relaxedAutoImplicit false

namespace AdaptiveTree.Tree

variable {t t' t'' : Tree} {x y : NodeId} {m n : Node}

/-! ### One adaptation -/

/-- A conditional that ends the program by itself as long as `return` has its own meaning. -/
def IsBuiltinTail (t : Tree) (x : NodeId) : Prop :=
  ∃ n, t.node? x = some n ∧ n.kind.isBuiltinTail = true

def IsCompare (t : Tree) (x : NodeId) : Prop := ∃ n, t.node? x = some n ∧ n.kind.isCompare = true

/-- A node that is being evaluated, or what one has become. -/
def Occupied (busy : NodeId → Prop) (t : Tree) (x : NodeId) : Prop :=
  ∃ y, busy y ∧ t.resolve y = .ok x

/-- `calls` gives the place in the source of the call that a return tail stands for, and `busy`
holds the nodes that are being evaluated. A comparison only gives logical values, so a step above
one is made for these and never widened. -/
inductive Adaptation (calls : NodeId → Span) (busy : NodeId → Prop) (t t' : Tree) : Prop
  | replace {old : NodeId} {n : Node} {kind : NodeKind} {extra : Option (NodeKind × Span)}
      (hreplaced : Replaced t old n kind extra t')
      (hrecast : Recast (calls old) n.span t.nextId n.kind kind extra)
      (hidle : t.Occupied busy old → t.IsBuiltinTail old)
      (hwidens : ∀ input mode, n.kind = .convert input mode →
        mode ≠ .generic ∧ ¬ t.IsCompare input)
  | wrap {p : NodeId} {n child : Node} {mode : ConvertMode} {form : Conditional}
      (hwrapped : Wrapped t p form.cond n child mode t') (hform : n.kind = .cond form)
      (hreads : form.readsOperand = false) (hplain : child.kind.isConversion = false)
      (hidle : ¬ t.Occupied busy p) (hmode : child.kind.isCompare = true → mode = .logical)

/-- Any number of adaptations. -/
def Adapts (calls : NodeId → Span) (busy : NodeId → Prop) : Tree → Tree → Prop :=
  Relation.ReflTransGen (Adaptation calls busy)

theorem not_occupied_nobody : ¬ t.Occupied (fun _ ↦ False) x := fun ⟨_, hbusy, _⟩ ↦ hbusy

theorem Occupied.of_live {busy : NodeId → Prop} (hx : t.node? x = some n) (hbusy : busy x) :
    t.Occupied busy x :=
  ⟨x, hbusy, resolve_of_node? hx⟩

theorem Occupied.mono {busy busy' : NodeId → Prop} (h : t.Occupied busy' x)
    (hbusy : ∀ y, busy' y → busy y) : t.Occupied busy x := by
  obtain ⟨y, hy, hresolve⟩ := h
  exact ⟨y, hbusy y hy, hresolve⟩

/-! ### Return tails -/

theorem isBuiltinTail_iff (hx : t.node? x = some n) :
    t.IsBuiltinTail x ↔ n.kind.isBuiltinTail = true := by
  constructor
  · rintro ⟨m, hm, htail⟩
    obtain rfl := Option.some.inj (hx.symm.trans hm)
    exact htail
  · intro htail
    exact ⟨n, hx, htail⟩

/-- The return tails that are left after a replacement are those there were but for the node
replaced. -/
theorem Replaced.isBuiltinTail_iff {old : NodeId} {kind : NodeKind}
    {extra : Option (NodeKind × Span)} {callSpan : Span}
    (h : Replaced t old n kind extra t')
    (hrecast : Recast callSpan n.span t.nextId n.kind kind extra) :
    t'.IsBuiltinTail x ↔ t.IsBuiltinTail x ∧ x ≠ old := by
  have hrefit (i : NodeId) (m : Node) :
      (refit n old (t.replacement extra) t.nextId kind extra i m).kind.isBuiltinTail =
        m.kind.isBuiltinTail := by
    unfold refit
    dsimp only
    split_ifs
    · exact NodeKind.isBuiltinTail_replaceChild _ _ _
    · rfl
  constructor
  · rintro ⟨m', hm', htail⟩
    rcases h.cases_node? hm' with ⟨rfl, rfl⟩ | ⟨k, s, rfl, rfl, rfl⟩ | ⟨m, hm, hne, rfl⟩
    · cases htail.symm.trans hrecast.isBuiltinTail_eq_false.1
    · cases htail.symm.trans (hrecast.isBuiltinTail_eq_false.2 k s rfl)
    · exact ⟨⟨m, hm, (hrefit x m).symm.trans htail⟩, hne⟩
  · rintro ⟨⟨m, hm, htail⟩, hne⟩
    exact ⟨_, h.node?_other hm hne, (hrefit x m).trans htail⟩

/-! ### What stays -/

structure Evolves (t t' : Tree) : Prop where
  forest : t'.Forest
  persists : Persists t t'
  size_le : t.slots.size ≤ t'.slots.size
  /-- A live node leads to a live node, at the root or not as before. -/
  lives : ∀ x n, t.node? x = some n → ∃ x' n', t'.resolve x = .ok x' ∧ t'.node? x' = some n' ∧
    n'.span = n.span ∧ (n'.parent = none ↔ n.parent = none)
  /-- Different live nodes lead to different nodes. -/
  apart : ∀ x y m n x', t.node? x = some m → t.node? y = some n → t'.resolve x = .ok x' →
    t'.resolve y = .ok x' → x = y
  /-- No root comes about but in the place of one. -/
  rooted : ∀ x', t'.IsRoot x' → ∃ x, t.IsRoot x ∧ t'.resolve x = .ok x'

namespace Evolves

theorem refl (h : t.Forest) : Evolves t t where
  forest := h
  persists := .refl t
  size_le := Nat.le_refl _
  lives := fun x n hx ↦ ⟨x, n, resolve_of_node? hx, hx, rfl, Iff.rfl⟩
  apart := fun x y m n x' hx hy hx' hy' ↦ by
    rw [resolve_of_node? hx] at hx'
    rw [resolve_of_node? hy] at hy'
    exact (Except.ok.inj hx').trans (Except.ok.inj hy').symm
  rooted := fun x hx ↦ ⟨x, hx, by
    obtain ⟨n, hn, _⟩ := hx
    exact resolve_of_node? hn⟩

theorem trans (h : Evolves t t') (h' : Evolves t' t'') : Evolves t t'' where
  forest := h'.forest
  persists := h.persists.trans h'.persists
  size_le := Nat.le_trans h.size_le h'.size_le
  lives := fun x n hx ↦ by
    obtain ⟨x', n', hresolve, hx', hspan, hparent⟩ := h.lives x n hx
    obtain ⟨x'', n'', hresolve', hx'', hspan', hparent'⟩ := h'.lives x' n' hx'
    refine ⟨x'', n'', ?_, hx'', hspan'.trans hspan, hparent'.trans hparent⟩
    rw [h'.persists.resolve_eq h'.forest.ascending hresolve, hresolve']
  apart := fun x y m n z hx hy hxz hyz ↦ by
    obtain ⟨x', nx', hresolvex, hx', _⟩ := h.lives x m hx
    obtain ⟨y', ny', hresolvey, hy', _⟩ := h.lives y n hy
    rw [h'.persists.resolve_eq h'.forest.ascending hresolvex] at hxz
    rw [h'.persists.resolve_eq h'.forest.ascending hresolvey] at hyz
    obtain rfl := h'.apart x' y' nx' ny' z hx' hy' hxz hyz
    exact h.apart x y m n x' hx hy hresolvex hresolvey
  rooted := fun x'' hx'' ↦ by
    obtain ⟨x', hx', hresolve'⟩ := h'.rooted x'' hx''
    obtain ⟨x, hx, hresolve⟩ := h.rooted x' hx'
    exact ⟨x, hx, (h'.persists.resolve_eq h'.forest.ascending hresolve).trans hresolve'⟩

/-- Assumes: only nodes that were there before are busy. -/
theorem occupied {busy : NodeId → Prop} {x' : NodeId} (h : Evolves t t') (hforest : t.Forest)
    (hbusy : ∀ y, busy y → y < t.slots.size) (hx' : t'.Occupied busy x') :
    ∃ x n, t.node? x = some n ∧ t.Occupied busy x ∧ t'.resolve x = .ok x' := by
  obtain ⟨y, hy, hresolve'⟩ := hx'
  cases hresolve : t.resolve y with
  | error e =>
    rw [h.persists.resolve_eq_error hforest.ascending h.forest.ascending (hbusy y hy) hresolve]
      at hresolve'
    cases hresolve'
  | ok x =>
    obtain ⟨n, hn⟩ := exists_node?_of_resolve hresolve
    rw [h.persists.resolve_eq h.forest.ascending hresolve] at hresolve'
    exact ⟨x, n, hn, ⟨y, hy, hresolve⟩, hresolve'⟩

/-- What becomes of a node that is not occupied is not occupied either. -/
theorem not_occupied {busy : NodeId → Prop} {x' : NodeId} (h : Evolves t t') (hforest : t.Forest)
    (hbusy : ∀ y, busy y → y < t.slots.size) (hx : t.node? x = some n)
    (hidle : ¬ t.Occupied busy x) (hresolve : t'.resolve x = .ok x') : ¬ t'.Occupied busy x' := by
  intro hx'
  obtain ⟨y, m, hy, hoccupied, hresolve'⟩ := h.occupied hforest hbusy hx'
  obtain rfl := h.apart x y n m x' hx hy hresolve hresolve'
  exact hidle hoccupied

end Evolves

namespace Replaced

variable {old : NodeId} {kind : NodeKind} {extra : Option (NodeKind × Span)}

theorem resolve_old (h : Replaced t old n kind extra t') (hascending : t'.Ascending) :
    t'.resolve old = .ok (t.replacement extra) := by
  rw [resolve_of_retired hascending h.slot_old]
  exact resolve_of_node? h.node?_new

theorem resolve_other (h : Replaced t old n kind extra t') (hx : t.node? x = some m)
    (hne : x ≠ old) : t'.resolve x = .ok x :=
  resolve_of_node? (h.node?_other hx hne)

theorem slot_dead (h : Replaced t old n kind extra t') {s : Slot} (hs : t.slots[x]? = some s)
    (hdead : s.node? = none) : t'.slots[x]? = some s := by
  have hne : x ≠ old := by
    rintro rfl
    rw [node?_eq_some_iff.mp h.node] at hs
    obtain rfl := Option.some.inj hs
    cases hdead
  rw [h.slot_other x (Array.getElem?_eq_some_iff.mp hs).1 hne, hs, Option.map_some,
    Slot.mapNode_of_node?_eq_none hdead]

theorem persists (h : Replaced t old n kind extra t') : Persists t t' :=
  ⟨fun hid ↦ h.slot_dead hid rfl, fun hid ↦ h.slot_dead hid rfl⟩

theorem size_lt (h : Replaced t old n kind extra t') : t.slots.size < t'.slots.size := by
  rw [h.size]
  unfold replacement nextId
  split_ifs
  · exact Nat.lt_succ_of_lt (Nat.lt_succ_self _)
  · exact Nat.lt_succ_self _

/-- A node other than the one replaced keeps its being a root: only children of the node
replaced get another parent. -/
theorem parent_refit (h : Replaced t old n kind extra t') (hforest : t.Forest)
    (hgroups : Regroups t.nextId n.kind.children kind.children extra)
    (hx : t.node? x = some m) :
    (refit n old (t.replacement extra) t.nextId kind extra x m).parent = none ↔
      m.parent = none := by
  have hchild : x ∈ n.kind.children → m.parent ≠ none := by
    intro hc hnone
    obtain ⟨m', hm', hp⟩ := hforest.exists_child h.node hc
    obtain rfl := Option.some.inj (hx.symm.trans hm')
    simp [hnone] at hp
  unfold refit
  dsimp only
  split_ifs with hafter hbelow
  · exact ⟨by simp, fun hnone ↦
      absurd hnone (hchild (regroups_lt hgroups hafter (lt_size_of_node? hx)))⟩
  · exact ⟨by simp, fun hnone ↦
      absurd hnone (hchild (hgroups.mem_below x hbelow))⟩
  · exact Iff.rfl

theorem evolves (h : Replaced t old n kind extra t') (hforest : t.Forest)
    (hgroups : Regroups t.nextId n.kind.children kind.children extra) : Evolves t t' where
  forest := h.forest hforest hgroups
  persists := h.persists
  size_le := Nat.le_of_lt h.size_lt
  lives := fun x m hx ↦ by
    by_cases hne : x = old
    · subst hne
      obtain rfl := Option.some.inj (hx.symm.trans h.node)
      exact ⟨_, _, h.resolve_old (h.forest hforest hgroups).ascending, h.node?_new, rfl, Iff.rfl⟩
    · exact ⟨x, _, h.resolve_other hx hne, h.node?_other hx hne, rfl,
        h.parent_refit hforest hgroups hx⟩
  apart := fun x y mx my x' hx hy hx' hy' ↦ by
    have hold := h.resolve_old (h.forest hforest hgroups).ascending
    have hfresh : ∀ z m, t.node? z = some m → z ≠ t.replacement extra := fun z m hz ↦
      Nat.ne_of_lt (lt_replacement t extra (lt_size_of_node? hz))
    by_cases hxo : x = old
    · by_cases hyo : y = old
      · exact hxo.trans hyo.symm
      · rw [hxo, hold] at hx'
        rw [h.resolve_other hy hyo] at hy'
        exact absurd ((Except.ok.inj hy').trans (Except.ok.inj hx').symm) (hfresh y my hy)
    · rw [h.resolve_other hx hxo] at hx'
      by_cases hyo : y = old
      · rw [hyo, hold] at hy'
        exact absurd ((Except.ok.inj hx').trans (Except.ok.inj hy').symm) (hfresh x mx hx)
      · rw [h.resolve_other hy hyo] at hy'
        exact (Except.ok.inj hx').trans (Except.ok.inj hy').symm
  rooted := fun x' ↦ by
    rintro ⟨m', hm', hnone⟩
    rcases h.cases_node? hm' with ⟨rfl, rfl⟩ | ⟨k, s, _, _, rfl⟩ | ⟨m, hm, hne, rfl⟩
    · exact ⟨old, ⟨n, h.node, hnone⟩, h.resolve_old (h.forest hforest hgroups).ascending⟩
    · simp at hnone
    · exact ⟨x', ⟨m, hm, (h.parent_refit hforest hgroups hm).mp hnone⟩, resolve_of_node? hm'⟩

/-- The node added below the replacement is nobody's successor. -/
theorem not_occupied_extra {busy : NodeId → Prop} (h : Replaced t old n kind extra t')
    (hforest : t.Forest) (hgroups : Regroups t.nextId n.kind.children kind.children extra)
    (hbusy : ∀ y, busy y → y < t.slots.size) (hextra : extra.isSome) :
    ¬ t'.Occupied busy t.nextId := by
  intro hoccupied
  have hevolves := h.evolves hforest hgroups
  obtain ⟨y, m, hy, _, hresolve⟩ := hevolves.occupied hforest hbusy hoccupied
  by_cases hne : y = old
  · rw [hne, h.resolve_old hevolves.forest.ascending] at hresolve
    exact nextId_ne t hextra (Except.ok.inj hresolve).symm
  · rw [h.resolve_other hy hne] at hresolve
    exact Nat.ne_of_lt (lt_size_of_node? hy) (Except.ok.inj hresolve)

end Replaced

namespace Wrapped

variable {p c : NodeId} {child : Node} {mode : ConvertMode}

theorem slot_dead (h : Wrapped t p c n child mode t') {s : Slot} (hs : t.slots[x]? = some s)
    (hdead : s.node? = none) : t'.slots[x]? = some s := by
  have hnot : ∀ z m, t.node? z = some m → x ≠ z := by
    rintro z m hz rfl
    rw [node?_eq_some_iff.mp hz] at hs
    obtain rfl := Option.some.inj hs
    cases hdead
  rw [h.slot_other x (Array.getElem?_eq_some_iff.mp hs).1 (hnot p n h.node)
    (hnot c child h.node_child), hs]

theorem persists (h : Wrapped t p c n child mode t') : Persists t t' :=
  ⟨fun hid ↦ h.slot_dead hid rfl, fun hid ↦ h.slot_dead hid rfl⟩

/-- A live node stays live as it is, but for its parent and the child that the step stands
above. -/
theorem exists_node? (h : Wrapped t p c n child mode t') (hforest : t.Forest)
    (hx : t.node? x = some m) : ∃ m', t'.node? x = some m' ∧ m'.span = m.span ∧
      m'.kind = (if x = p then m.kind.replaceChild c t.nextId else m.kind) ∧
      (m'.parent = none ↔ m.parent = none) := by
  by_cases hp : x = p
  · subst hp
    obtain rfl := Option.some.inj (hx.symm.trans h.node)
    exact ⟨_, h.node?_parent, rfl, (if_pos rfl).symm, Iff.rfl⟩
  · by_cases hc : x = c
    · subst hc
      obtain rfl := Option.some.inj (hx.symm.trans h.node_child)
      obtain ⟨m', hm', hparent⟩ := hforest.exists_child h.node h.mem
      obtain rfl := Option.some.inj (hx.symm.trans hm')
      refine ⟨_, h.node?_child, rfl, (if_neg hp).symm, ?_⟩
      simp [adopted, hparent]
    · exact ⟨m, (h.node?_other (lt_size_of_node? hx) hp hc).trans hx, rfl, (if_neg hp).symm,
        Iff.rfl⟩

theorem evolves (h : Wrapped t p c n child mode t') (hforest : t.Forest) : Evolves t t' where
  forest := h.forest hforest
  persists := h.persists
  size_le := by rw [h.size]; exact Nat.le_succ _
  lives := fun x m hx ↦ by
    obtain ⟨m', hm', hspan, _, hparent⟩ := h.exists_node? hforest hx
    exact ⟨x, m', resolve_of_node? hm', hm', hspan, hparent⟩
  apart := fun x y mx my x' hx hy hx' hy' ↦ by
    obtain ⟨mx', hmx', _⟩ := h.exists_node? hforest hx
    obtain ⟨my', hmy', _⟩ := h.exists_node? hforest hy
    rw [resolve_of_node? hmx'] at hx'
    rw [resolve_of_node? hmy'] at hy'
    exact (Except.ok.inj hx').trans (Except.ok.inj hy').symm
  rooted := fun x' ↦ by
    rintro ⟨m', hm', hnone⟩
    refine ⟨x', ?_, resolve_of_node? hm'⟩
    rcases h.cases_node? hm' with ⟨_, rfl⟩ | ⟨rfl, rfl⟩ | ⟨_, rfl⟩ | ⟨_, _, hm⟩
    · simp at hnone
    · exact ⟨n, h.node, hnone⟩
    · simp [adopted] at hnone
    · exact ⟨m', hm, hnone⟩

theorem not_occupied_new {busy : NodeId → Prop} (h : Wrapped t p c n child mode t')
    (hforest : t.Forest) (hbusy : ∀ y, busy y → y < t.slots.size) :
    ¬ t'.Occupied busy t.nextId := by
  intro hoccupied
  obtain ⟨y, m, hy, _, hresolve⟩ := (h.evolves hforest).occupied hforest hbusy hoccupied
  obtain ⟨m', hm', _⟩ := h.exists_node? hforest hy
  rw [resolve_of_node? hm'] at hresolve
  exact Nat.ne_of_lt (lt_size_of_node? hy) (Except.ok.inj hresolve)

end Wrapped

theorem Wrapped.isBuiltinTail_iff {p c : NodeId} {child : Node} {mode : ConvertMode}
    (h : Wrapped t p c n child mode t') (hforest : t.Forest) :
    t'.IsBuiltinTail x ↔ t.IsBuiltinTail x := by
  constructor
  · rintro ⟨m', hm', htail⟩
    rcases h.cases_node? hm' with ⟨rfl, rfl⟩ | ⟨rfl, rfl⟩ | ⟨rfl, rfl⟩ | ⟨_, _, hm⟩
    · cases htail
    · exact ⟨n, h.node, (NodeKind.isBuiltinTail_replaceChild _ _ _).symm.trans htail⟩
    · exact ⟨child, h.node_child, htail⟩
    · exact ⟨m', hm, htail⟩
  · rintro ⟨m, hm, htail⟩
    obtain ⟨m', hm', _, hkind, _⟩ := h.exists_node? hforest hm
    refine ⟨m', hm', ?_⟩
    rw [hkind]
    split_ifs
    · exact (NodeKind.isBuiltinTail_replaceChild _ _ _).trans htail
    · exact htail

variable {calls : NodeId → Span} {busy busy' : NodeId → Prop}

theorem Recast.regroups_of_forest {callSpan span : Span} {old : NodeId} {kind : NodeKind}
    {extra : Option (NodeKind × Span)} (h : Recast callSpan span t.nextId n.kind kind extra)
    (hforest : t.Forest) (hold : t.node? old = some n) :
    Regroups t.nextId n.kind.children kind.children extra :=
  h.regroups (hforest.distinct old n hold) fun hmem ↦
    Nat.lt_irrefl _ (hforest.child_lt_size hold hmem)

theorem Adaptation.evolves (h : Adaptation calls busy t t') (hforest : t.Forest) :
    Evolves t t' := by
  cases h with
  | replace hreplaced hrecast =>
    exact hreplaced.evolves hforest (hrecast.regroups_of_forest hforest hreplaced.node)
  | wrap hwrapped => exact hwrapped.evolves hforest

theorem Adaptation.mono (h : Adaptation calls busy t t') (hbusy : ∀ x, busy' x → busy x) :
    Adaptation calls busy' t t' := by
  cases h with
  | replace hreplaced hrecast hidle hwidens =>
    exact .replace hreplaced hrecast (fun hold ↦ hidle (hold.mono hbusy)) hwidens
  | wrap hwrapped hform hreads hplain hidle hmode =>
    exact .wrap hwrapped hform hreads hplain (fun hp ↦ hidle (hp.mono hbusy)) hmode

/-- A node has the same shape and place in another tree. -/
def KeepsShape (t' : Tree) (x : NodeId) (n : Node) : Prop :=
  ∃ n', t'.node? x = some n' ∧ n'.kind.shape = n.kind.shape ∧ n'.span = n.span

theorem Replaced.keepsShape {old : NodeId} {kind : NodeKind} {extra : Option (NodeKind × Span)}
    (h : Replaced t old m kind extra t') (hx : t.node? x = some n) (hne : x ≠ old) :
    t'.KeepsShape x n :=
  ⟨_, h.node?_other hx hne, shape_refit .., rfl⟩

theorem Wrapped.keepsShape {p c : NodeId} {child : Node} {mode : ConvertMode}
    (h : Wrapped t p c m child mode t') (hforest : t.Forest) (hx : t.node? x = some n) :
    t'.KeepsShape x n := by
  obtain ⟨n', hx', hspan, hkind, _⟩ := h.exists_node? hforest hx
  refine ⟨n', hx', ?_, hspan⟩
  rw [hkind]
  split_ifs
  · exact NodeKind.shape_replaceChild _ _ _
  · rfl

theorem Adaptation.kept (h : Adaptation calls busy t t') (hforest : t.Forest)
    (hx : t.node? x = some n) (hbusy : busy x)
    (hplain : ∀ form, n.kind = .cond form → form.isTail = false) : t'.KeepsShape x n := by
  cases h with
  | @replace old _ _ _ hreplaced hrecast hidle =>
    refine hreplaced.keepsShape hx ?_
    rintro rfl
    obtain ⟨m, hm, htail⟩ := hidle (.of_live hx hbusy)
    obtain rfl := Option.some.inj (hx.symm.trans hm)
    obtain ⟨c, body, arg, rest, hkind⟩ := NodeKind.isBuiltinTail_eq_true_iff.mp htail
    cases hplain _ hkind
  | wrap hwrapped => exact hwrapped.keepsShape hforest hx

/-- A number that leads to a conditional whose form reads its condition as a whole. -/
def ReadsWhole (t : Tree) (id : NodeId) : Prop :=
  ∃ x n form, t.resolve id = .ok x ∧ t.node? x = some n ∧ n.kind = .cond form ∧
    form.readsOperand = false

theorem KeepsShape.readsWhole {id : NodeId} {form : Conditional} (h : t'.KeepsShape x n)
    (hresolve : t'.resolve id = t'.resolve x) (hkind : n.kind = .cond form)
    (hreads : form.readsOperand = false) : t'.ReadsWhole id := by
  obtain ⟨n', hx', hshape, _⟩ := h
  obtain ⟨form', hform', hsame⟩ := NodeKind.eq_cond_of_shape (hkind ▸ hshape)
  exact ⟨x, n', form', hresolve.trans (resolve_of_node? hx'), hx', hform',
    (hsame _ Conditional.readsOperand_withChildren).trans hreads⟩

theorem Adaptation.readsWhole (h : Adaptation calls busy t t') (hforest : t.Forest)
    (hx : t.ReadsWhole x) : t'.ReadsWhole x := by
  have hevolves := h.evolves hforest
  obtain ⟨y, m, form, hresolve, hy, hform, hreads⟩ := hx
  have hresolve' : t'.resolve x = t'.resolve y :=
    hevolves.persists.resolve_eq hevolves.forest.ascending hresolve
  cases h with
  | @replace old n kind extra hreplaced hrecast =>
    by_cases hne : y = old
    · subst hne
      obtain rfl := Option.some.inj (hy.symm.trans hreplaced.node)
      obtain ⟨form', hform', hreads'⟩ := hrecast.exists_form hform hreads
      exact ⟨_, _, form', hresolve'.trans (hreplaced.resolve_old hevolves.forest.ascending),
        hreplaced.node?_new, hform', hreads'⟩
    · exact (hreplaced.keepsShape hy hne).readsWhole hresolve' hform hreads
  | wrap hwrapped => exact (hwrapped.keepsShape hforest hy).readsWhole hresolve' hform hreads

namespace Adapts

theorem evolves (h : Adapts calls busy t t') (hforest : t.Forest) : Evolves t t' := by
  induction h with
  | refl => exact .refl hforest
  | tail _ hstep ih => exact ih.trans (hstep.evolves ih.forest)

theorem single (h : Adaptation calls busy t t') : Adapts calls busy t t' :=
  Relation.ReflTransGen.single h

theorem trans (h : Adapts calls busy t t') (h' : Adapts calls busy t' t'') :
    Adapts calls busy t t'' :=
  Relation.ReflTransGen.trans h h'

/-- With fewer nodes being evaluated more may change. -/
theorem mono (h : Adapts calls busy t t') (hbusy : ∀ x, busy' x → busy x) :
    Adapts calls busy' t t' := by
  induction h with
  | refl => exact Relation.ReflTransGen.refl
  | tail _ hstep ih => exact ih.tail (hstep.mono hbusy)

/-- A node that is being evaluated stays as it is, if it is no return tail. -/
theorem kept (h : Adapts calls busy t t') (hforest : t.Forest) (hx : t.node? x = some n)
    (hbusy : busy x) (hplain : ∀ form, n.kind = .cond form → form.isTail = false) :
    t'.KeepsShape x n := by
  induction h with
  | refl => exact ⟨n, hx, rfl, rfl⟩
  | tail hsteps hstep ih =>
    obtain ⟨n', hx', hshape, hspan⟩ := ih
    have hplain' : ∀ form, n'.kind = .cond form → form.isTail = false := by
      intro form hform
      obtain ⟨form', hform', hsame⟩ := NodeKind.eq_cond_of_shape (hform ▸ hshape.symm)
      exact (hsame _ Conditional.isTail_withChildren).symm.trans (hplain form' hform')
    obtain ⟨n'', hx'', hshape', hspan'⟩ :=
      hstep.kept (evolves hsteps hforest).forest hx' hbusy hplain'
    exact ⟨n'', hx'', hshape'.trans hshape, hspan'.trans hspan⟩

/-- What reads its condition as a whole never stops to do so. -/
theorem readsWhole (h : Adapts calls busy t t') (hforest : t.Forest) (hx : t.ReadsWhole x) :
    t'.ReadsWhole x := by
  induction h with
  | refl => exact hx
  | tail hsteps hstep ih => exact hstep.readsWhole (evolves hsteps hforest).forest ih

end Adapts

end AdaptiveTree.Tree
