import AdaptiveTree.Proofs.Tree.Forest
import Mathlib.Logic.Relation

/-!
Discarding a node with everything below it. The search below the node goes on for as many levels
as there are live nodes, which is enough to reach them all on any tree. In a forest a discarded
root takes exactly its own tree along, and what is left is a forest.
-/

set_option autoImplicit false
set_option relaxedAutoImplicit false

namespace AdaptiveTree.Tree

variable {t t' t'' : Tree} {x c i : NodeId} {n : Node}

/-- A node hangs below another one, or is that node. -/
def Reaches (t : Tree) : NodeId → NodeId → Prop := Relation.ReflTransGen t.Names

/-- Assumes: each step on the way is one in the other tree. -/
theorem reaches_of_steps
    (hstep : ∀ x y, t.Reaches c x → t'.Reaches c x → t.Names x y → t'.Names x y)
    (hreach : t.Reaches c i) : t'.Reaches c i := by
  induction hreach with
  | refl => exact .refl
  | tail hx hnames ih => exact ih.tail (hstep _ _ hx ih hnames)

/-- Every live node hangs below a root. -/
theorem Forest.exists_root (h : t.Forest) (hx : t.node? x = some n) :
    ∃ r, t.IsRoot r ∧ t.Reaches r x := by
  obtain ⟨depth, hdepth⟩ := h.layered
  induction hlevel : depth x using Nat.strongRecOn generalizing x n with
  | ind level ih =>
    rcases hparent : n.parent with _ | p
    · exact ⟨x, ⟨n, hx, hparent⟩, Relation.ReflTransGen.refl⟩
    · obtain ⟨m, hm, hmem⟩ := h.exists_parent hx hparent
      have hnames := (names_iff hm).mpr hmem
      obtain ⟨r, hr, hreach⟩ := ih (depth p) (hlevel ▸ hdepth p x hnames) hm rfl
      exact ⟨r, hr, hreach.tail hnames⟩

/-- The nodes listed were discarded with everything below them. -/
structure Discarded (t : Tree) (ids : List NodeId) (t' : Tree) : Prop where
  size_eq : t'.slots.size = t.slots.size
  /-- No splice is counted or logged. -/
  history : t'.generation = t.generation ∧ t'.log = t.log
  count_le : t'.liveCount ≤ t.liveCount
  slot : ∀ i, t'.slots[i]? = t.slots[i]? ∨
    t'.slots[i]? = some .discarded ∧ ∃ id ∈ ids, t.Reaches id i
  gone : ∀ id ∈ ids, t'.node? id = none
  /-- What was discarded took its children along. -/
  closed : ∀ x c, t.Names x c → t'.node? x = none → t'.node? c = none

namespace Discarded

theorem node?_eq_none_or {ids : List NodeId} (h : Discarded t ids t') (i : NodeId) :
    t'.node? i = none ∨ t'.node? i = t.node? i := by
  unfold node?
  rcases h.slot i with heq | ⟨heq, _⟩
  · exact Or.inr (by rw [heq])
  · exact Or.inl (by rw [heq]; rfl)

theorem names {ids : List NodeId} (h : Discarded t ids t') (hnames : t'.Names x c) :
    t.Names x c := by
  obtain ⟨n, hn, hc⟩ := hnames
  rcases h.node?_eq_none_or x with hnone | heq
  · simp [hnone] at hn
  · exact ⟨n, heq.symm.trans hn, hc⟩

theorem reaches {ids : List NodeId} (h : Discarded t ids t') (hreach : t'.Reaches x i) :
    t.Reaches x i :=
  hreach.lift id fun _ _ hnames ↦ h.names hnames

theorem nil (t : Tree) : Discarded t [] t where
  size_eq := rfl
  history := ⟨rfl, rfl⟩
  count_le := Nat.le_refl _
  slot := fun _ ↦ Or.inl rfl
  gone := fun _ h ↦ nomatch h
  closed := fun x c hnames hx ↦ by
    obtain ⟨n, hn, _⟩ := hnames
    simp [hx] at hn

/-- One discarded after the other. -/
theorem cons {id : NodeId} {ids : List NodeId} (h : Discarded t [id] t')
    (h' : Discarded t' ids t'') : Discarded t (id :: ids) t'' where
  size_eq := h'.size_eq.trans h.size_eq
  history := ⟨h'.history.1.trans h.history.1, h'.history.2.trans h.history.2⟩
  count_le := Nat.le_trans h'.count_le h.count_le
  slot := fun i ↦ by
    rcases h'.slot i with heq' | ⟨hgone, y, hy, hreach⟩
    · rw [heq']
      rcases h.slot i with heq | ⟨hgone, y, hy, hreach⟩
      · exact Or.inl heq
      · rw [List.mem_singleton.mp hy] at hreach
        exact Or.inr ⟨hgone, id, List.mem_cons_self, hreach⟩
    · exact Or.inr ⟨hgone, y, List.mem_cons_of_mem _ hy, h.reaches hreach⟩
  gone := fun x hx ↦ by
    rcases List.mem_cons.mp hx with rfl | hx
    · have hnone := h.gone x (List.mem_singleton.mpr rfl)
      rcases h'.node?_eq_none_or x with hnone' | heq
      · exact hnone'
      · rw [heq, hnone]
    · exact h'.gone x hx
  closed := fun x c hnames hx ↦ by
    by_cases hlive : t'.node? x = none
    · have hc := h.closed x c hnames hlive
      rcases h'.node?_eq_none_or c with hnone | heq
      · exact hnone
      · rw [heq, hc]
    · obtain ⟨n, hn, hc⟩ := hnames
      rcases h.node?_eq_none_or x with hnone | heq
      · exact absurd hnone hlive
      · exact h'.closed x c ⟨n, heq.trans hn, hc⟩ hx

/-- Only discarding a live node changes anything. -/
theorem of_dead (h : t.node? x = none) : Discarded t [x] t where
  size_eq := rfl
  history := ⟨rfl, rfl⟩
  count_le := Nat.le_refl _
  slot := fun _ ↦ Or.inl rfl
  gone := fun y hy ↦ by rw [List.mem_singleton.mp hy, h]
  closed := (nil t).closed

end Discarded

/-! ### The search -/

/-- The tree with one node discarded, but not yet what hangs below it. -/
def cut (t : Tree) (id : NodeId) : Tree :=
  { t with slots := t.slots.setIfInBounds id .discarded }

theorem slots_cut (h : t.node? x = some n) (i : NodeId) :
    (t.cut x).slots[i]? = if i = x then some .discarded else t.slots[i]? := by
  have hlt : x < t.slots.size := lt_size_of_node? h
  unfold cut
  rw [Array.getElem?_setIfInBounds]
  split_ifs with hx hlt' hi <;> first | rfl | grind

theorem node?_cut (h : t.node? x = some n) (i : NodeId) :
    (t.cut x).node? i = if i = x then none else t.node? i := by
  unfold node?
  rw [slots_cut h]
  split_ifs <;> rfl

theorem names_cut_iff (h : t.node? x = some n) {a b : NodeId} :
    (t.cut x).Names a b ↔ a ≠ x ∧ t.Names a b := by
  unfold Names
  rw [node?_cut h]
  split_ifs with ha <;> simp [ha]

theorem parent?_cut (h : t.node? x = some n) (hne : i ≠ x) :
    (t.cut x).parent? i = t.parent? i := by
  rw [parent?, parent?, node?_cut h, if_neg hne]

theorem liveCount_cut (h : t.node? x = some n) : (t.cut x).liveCount < t.liveCount := by
  have hlt : x < t.slots.size := lt_size_of_node? h
  have hslot : t.slots[x] = .live n := by
    have hget := node?_eq_some_iff.mp h
    rw [Array.getElem?_eq_getElem hlt] at hget
    exact Option.some.inj hget
  have hpos : 0 < t.liveCount := by
    refine Array.countP_pos_iff.mpr ⟨t.slots[x], Array.getElem_mem hlt, ?_⟩
    rw [hslot]
  have hset : (t.cut x).slots = t.slots.set x .discarded hlt := by
    rw [cut, Array.setIfInBounds_def, dif_pos hlt]
  have hcount : (t.cut x).liveCount = t.liveCount - 1 := by
    unfold liveCount
    rw [hset, Array.countP_set hlt, hslot]
    simp
  omega

theorem node?_eq_none_of_liveCount (h : t.liveCount ≤ 0) : t.node? x = none := by
  by_contra hlive
  obtain ⟨n, hn⟩ := Option.ne_none_iff_exists'.mp hlive
  exact Nat.not_lt_zero _ (Nat.lt_of_lt_of_le (liveCount_cut hn) h)

theorem discardWithin_of_live {depth : Nat} (h : t.node? x = some n) :
    discardWithin (depth + 1) t x = n.kind.children.foldl (discardWithin depth) (t.cut x) := by
  rw [discardWithin, node?_eq_some_iff.mp h]
  rfl

theorem discardWithin_of_dead {depth : Nat} (h : t.node? x = none) :
    discardWithin depth t x = t := by
  cases depth with
  | zero => rfl
  | succ depth =>
    rw [discardWithin]
    split
    · next m hm => cases h.symm.trans (node?_eq_some_iff.mpr hm)
    · rfl

theorem foldl_discardWithin {depth : Nat}
    (hone : ∀ (t : Tree) (x : NodeId), t.liveCount ≤ depth →
      Discarded t [x] (discardWithin depth t x)) (ids : List NodeId) :
    ∀ t : Tree, t.liveCount ≤ depth → Discarded t ids (ids.foldl (discardWithin depth) t) := by
  induction ids with
  | nil =>
    intro t _
    exact .nil t
  | cons id rest ih =>
    intro t hcount
    have hfirst := hone t id hcount
    exact hfirst.cons (ih _ (Nat.le_trans hfirst.count_le hcount))

/-- Cutting a node off and discarding its children discards the node. -/
theorem Discarded.of_cut (hx : t.node? x = some n)
    (h : Discarded (t.cut x) n.kind.children t') : Discarded t [x] t' := by
  have hcut : (t.cut x).node? x = none := by rw [node?_cut hx, if_pos rfl]
  have hnames : ∀ a b, (t.cut x).Names a b → t.Names a b := fun a b hab ↦
    ((names_cut_iff hx).mp hab).2
  constructor
  · rw [h.size_eq, cut, Array.size_setIfInBounds]
  · exact h.history
  · exact Nat.le_trans h.count_le (Nat.le_of_lt (liveCount_cut hx))
  · intro i
    rcases h.slot i with heq | ⟨hgone, c, hc, hreach⟩
    · rw [heq, slots_cut hx]
      split_ifs with hi
      · exact Or.inr ⟨rfl, x, List.mem_singleton.mpr rfl, hi ▸ Relation.ReflTransGen.refl⟩
      · exact Or.inl rfl
    · have hbelow : t.Reaches c i := hreach.lift id hnames
      exact Or.inr ⟨hgone, x, List.mem_singleton.mpr rfl, hbelow.head ((names_iff hx).mpr hc)⟩
  · intro y hy
    rw [List.mem_singleton.mp hy]
    rcases h.node?_eq_none_or x with hnone | heq
    · exact hnone
    · rw [heq, hcut]
  · intro a c hc ha
    by_cases hax : a = x
    · subst hax
      exact h.gone c ((names_iff hx).mp hc)
    · exact h.closed a c ((names_cut_iff hx).mpr ⟨hax, hc⟩) ha

theorem discarded_discardWithin (depth : Nat) : ∀ (t : Tree) (x : NodeId), t.liveCount ≤ depth →
    Discarded t [x] (discardWithin depth t x) := by
  induction depth with
  | zero =>
    intro t x hcount
    exact .of_dead (node?_eq_none_of_liveCount hcount)
  | succ depth ih =>
    intro t x hcount
    rcases hx : t.node? x with _ | n
    · rw [discardWithin_of_dead hx]
      exact .of_dead hx
    · rw [discardWithin_of_live hx]
      have hless := Nat.le_of_lt_succ (Nat.lt_of_lt_of_le (liveCount_cut hx) hcount)
      exact .of_cut hx (foldl_discardWithin ih _ _ hless)

theorem discarded_discard (t : Tree) (x : NodeId) : Discarded t [x] (t.discard x) :=
  discarded_discardWithin _ t x Array.countP_le_size

/-- Two bounds that are large enough come to the same. -/
theorem discardWithin_eq_discardWithin (depth : Nat) : ∀ (depth' : Nat) (t : Tree) (x : NodeId),
    t.liveCount ≤ depth → t.liveCount ≤ depth' →
      discardWithin depth t x = discardWithin depth' t x := by
  induction depth with
  | zero =>
    intro depth' t x hcount _
    have hdead := node?_eq_none_of_liveCount (x := x) hcount
    rw [discardWithin_of_dead hdead, discardWithin_of_dead hdead]
  | succ depth ih =>
    intro depth' t x hcount hcount'
    rcases hx : t.node? x with _ | n
    · rw [discardWithin_of_dead hx, discardWithin_of_dead hx]
    have hless := liveCount_cut hx
    obtain ⟨depth', rfl⟩ := Nat.exists_eq_succ_of_ne_zero (Nat.ne_zero_of_lt
      (Nat.lt_of_lt_of_le hless hcount'))
    rw [discardWithin_of_live hx, discardWithin_of_live hx]
    have hfold : ∀ (ids : List NodeId) (t : Tree), t.liveCount ≤ depth → t.liveCount ≤ depth' →
        ids.foldl (discardWithin depth) t = ids.foldl (discardWithin depth') t := by
      intro ids
      induction ids with
      | nil => exact fun _ _ _ ↦ rfl
      | cons id rest ih' =>
        intro t h h'
        have hafter := (discarded_discardWithin depth t id h).count_le
        rw [List.foldl_cons, List.foldl_cons, ← ih depth' t id h h']
        exact ih' _ (Nat.le_trans hafter h) (Nat.le_trans hafter h')
    exact hfold _ _ (Nat.le_of_lt_succ (Nat.lt_of_lt_of_le hless hcount))
      (Nat.le_of_lt_succ (Nat.lt_of_lt_of_le hless hcount'))

theorem discardWithin_eq_discard {depth : Nat} (h : t.slots.size ≤ depth) :
    discardWithin depth t x = t.discard x :=
  discardWithin_eq_discardWithin depth _ t x (Nat.le_trans Array.countP_le_size h)
    Array.countP_le_size

/-! ### Discarding a root -/

/-- No root hangs below another node. -/
theorem not_reaches_root (hforest : t.Forest) (hc : t.IsRoot c) (hne : c ≠ x) :
    ¬ t.Reaches x c := by
  intro hreach
  rcases Relation.ReflTransGen.cases_tail hreach with heq | ⟨z, _, hnames⟩
  · exact hne heq
  · obtain ⟨n, hn, hnone⟩ := hc
    have hparent := (hforest.owned z c).mp hnames
    rw [parent?_eq hn, hnone] at hparent
    simp at hparent

section Root

variable (hforest : t.Forest) (hroot : t.IsRoot x)

include hforest hroot

/-- Above a node of the discarded tree there are only nodes of that tree. -/
theorem reaches_of_names (hnames : t.Names i c) (hreach : t.Reaches x c) : t.Reaches x i := by
  have hparent := (hforest.owned i c).mp hnames
  rcases Relation.ReflTransGen.cases_tail hreach with rfl | ⟨y, hy, hyc⟩
  · obtain ⟨n, hn, hnone⟩ := hroot
    rw [parent?_eq hn, hnone] at hparent
    simp at hparent
  · rw [(hforest.owned y c).mp hyc] at hparent
    rw [← Option.some.inj hparent]
    exact hy

/-- No node hangs below two roots. -/
theorem root_unique {r : NodeId} (hr : t.IsRoot r) (hreach : t.Reaches x i)
    (hreach' : t.Reaches r i) : x = r := by
  induction hreach with
  | refl =>
    by_contra hne
    exact not_reaches_root hforest hroot hne hreach'
  | tail _ hnames ih => exact ih (reaches_of_names hforest hr hnames hreach')

theorem live_of_reaches (hreach : t.Reaches x i) : ∃ n, t.node? i = some n := by
  rcases Relation.ReflTransGen.cases_tail hreach with rfl | ⟨y, hy, n, hn, hc⟩
  · obtain ⟨n, hn, _⟩ := hroot
    exact ⟨n, hn⟩
  · obtain ⟨m, hm, _⟩ := hforest.exists_child hn hc
    exact ⟨m, hm⟩

omit hforest hroot in
theorem node?_discard_of_reaches (hreach : t.Reaches x i) : (t.discard x).node? i = none := by
  have h := discarded_discard t x
  induction hreach with
  | refl => exact h.gone x (List.mem_singleton.mpr rfl)
  | tail _ hnames ih => exact h.closed _ _ hnames ih

omit hforest hroot in
theorem slots_discard_of_not_reaches (hnot : ¬ t.Reaches x i) :
    (t.discard x).slots[i]? = t.slots[i]? := by
  rcases (discarded_discard t x).slot i with heq | ⟨_, y, hy, hreach⟩
  · exact heq
  · rw [List.mem_singleton.mp hy] at hreach
    exact absurd hreach hnot

omit hforest hroot in
theorem node?_discard_eq_some_iff :
    (t.discard x).node? i = some n ↔ t.node? i = some n ∧ ¬ t.Reaches x i := by
  constructor
  · intro h
    have hnot : ¬ t.Reaches x i := by
      intro hreach
      rw [node?_discard_of_reaches hreach] at h
      simp at h
    rw [node?, slots_discard_of_not_reaches hnot] at h
    exact ⟨h, hnot⟩
  · rintro ⟨h, hnot⟩
    rw [node?, slots_discard_of_not_reaches hnot]
    exact h

theorem slots_discard_of_dead {s : Slot} (hs : t.slots[i]? = some s) (hnone : s.node? = none) :
    (t.discard x).slots[i]? = some s := by
  have hnot : ¬ t.Reaches x i := by
    intro hreach
    obtain ⟨n, hn⟩ := live_of_reaches hforest hroot hreach
    rw [node?_eq_some_iff.mp hn] at hs
    obtain rfl := Option.some.inj hs
    cases hnone
  rw [slots_discard_of_not_reaches hnot, hs]

theorem persists_discard : Persists t (t.discard x) :=
  ⟨fun h ↦ slots_discard_of_dead hforest hroot h rfl,
    fun h ↦ slots_discard_of_dead hforest hroot h rfl⟩

theorem Forest.discard : (t.discard x).Forest where
  ascending := fun id link hlink ↦ by
    have hslot := forwarded?_eq_some_iff.mp hlink
    rcases (discarded_discard t x).slot id with heq | ⟨hgone, _⟩
    · rw [(discarded_discard t x).size_eq]
      exact hforest.ascending id link (forwarded?_eq_some_iff.mpr (heq.symm.trans hslot))
    · simp [hgone] at hslot
  owned := fun a c ↦ by
    have hnot : t.Names a c → (¬ t.Reaches x a ↔ ¬ t.Reaches x c) := fun hnames ↦
      not_congr ⟨fun hreach ↦ hreach.tail hnames, reaches_of_names hforest hroot hnames⟩
    rw [parent?_eq_some_iff]
    constructor
    · rintro ⟨n, hn, hc⟩
      obtain ⟨hlive, ha⟩ := node?_discard_eq_some_iff.mp hn
      obtain ⟨m, hm, hparent⟩ := hforest.exists_child hlive hc
      have hc' := (hnot ((names_iff hlive).mpr hc)).mp ha
      exact ⟨m, node?_discard_eq_some_iff.mpr ⟨hm, hc'⟩, hparent⟩
    · rintro ⟨m, hm, hparent⟩
      obtain ⟨hlive, hc⟩ := node?_discard_eq_some_iff.mp hm
      obtain ⟨n, hn, hmem⟩ := hforest.exists_parent hlive hparent
      have ha := (hnot ((names_iff hn).mpr hmem)).mpr hc
      exact ⟨n, node?_discard_eq_some_iff.mpr ⟨hn, ha⟩, hmem⟩
  distinct := fun a n hn ↦ hforest.distinct a n (node?_discard_eq_some_iff.mp hn).1
  layered := by
    obtain ⟨depth, hdepth⟩ := hforest.layered
    exact ⟨depth, fun a c hnames ↦ hdepth a c ((discarded_discard t x).names hnames)⟩

end Root

end AdaptiveTree.Tree
