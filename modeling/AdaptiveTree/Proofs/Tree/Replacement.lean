import AdaptiveTree.Proofs.Tree.Forest
import AdaptiveTree.Transition
import Mathlib.Data.List.Basic

/-!
Replacing a node by a recast form of itself, which takes over its children and its place. One
node may be added below the new form. The edit is described by the slots that it leaves, and
it keeps a forest a forest.
-/

set_option autoImplicit false
set_option relaxedAutoImplicit false

namespace AdaptiveTree.Tree

/-! ### What may become of a node -/

/-- The form that takes the place of another, and the one node that may be added below it under
the number `fresh`: the missing branch of a conditional, or the call of a return tail. -/
inductive Recast (callSpan span : Span) (fresh : NodeId) :
    NodeKind → NodeKind → Option (NodeKind × Span) → Prop
  | addElse (c b : NodeId) : Recast callSpan span fresh (.cond (.noElse c b))
      (.cond (.generic c b fresh)) (some (.constant .null, span))
  | relax (c b e : NodeId) : Recast callSpan span fresh (.cond (.twoBranch c b e))
      (.cond (.generic c b e)) none
  | dropConstant (c b e : NodeId) (k : Scalar) :
      Recast callSpan span fresh (.cond (.const c b e k)) (.cond (.generic c b e)) none
  | dropComparator (c b e : NodeId) (k : Comparator) :
      Recast callSpan span fresh (.cond (.specialized c b e k)) (.cond (.generic c b e)) none
  | specialize (c b e : NodeId) {k : Scalar} {v : Value} {comparator : Comparator}
      (h : Comparator.forShapes? v k = some comparator) :
      Recast callSpan span fresh (.cond (.const c b e k))
        (.cond (.specialized c b e comparator)) none
  | widen (input : NodeId) (mode : ConvertMode) :
      Recast callSpan span fresh (.convert input mode) (.convert input .generic) none
  | override (c : NodeId) (body : Option NodeId) (arg rest : NodeId) :
      Recast callSpan span fresh (.cond (.returnBuiltin c body arg rest))
        (.cond (.returnOverridden c body fresh rest)) (some (.call "return" [arg], callSpan))

/-- The children of the node that is added below a replacement. -/
def below : Option (NodeKind × Span) → List NodeId
  | some (kind, _) => kind.children
  | none => []

/-- How a replacement takes over the children of what it replaces: it names them itself, or the
node added below it does. -/
structure Regroups (fresh : NodeId) (before after : List NodeId)
    (extra : Option (NodeKind × Span)) : Prop where
  nodup : after.Nodup
  nodup_below : (below extra).Nodup
  disjoint : ∀ c ∈ after, c ∉ below extra
  mem_after : ∀ c ∈ after, c ∈ before ∨ extra.isSome ∧ c = fresh
  mem_below : ∀ c ∈ below extra, c ∈ before
  covers : ∀ c ∈ before, c ∈ after ∨ c ∈ below extra
  fresh_mem : extra.isSome → fresh ∈ after

theorem Regroups.same {fresh : NodeId} {children : List NodeId} (h : children.Nodup) :
    Regroups fresh children children none where
  nodup := h
  nodup_below := List.nodup_nil
  disjoint := fun _ _ hc ↦ nomatch hc
  mem_after := fun _ hc ↦ Or.inl hc
  mem_below := fun _ hc ↦ nomatch hc
  covers := fun _ hc ↦ Or.inl hc
  fresh_mem := fun h ↦ nomatch h

/-- Assumes: different children, all of them older than the fresh number. -/
theorem Recast.regroups {callSpan span : Span} {fresh : NodeId} {before after : NodeKind}
    {extra : Option (NodeKind × Span)} (h : Recast callSpan span fresh before after extra)
    (hnodup : before.children.Nodup) (hfresh : fresh ∉ before.children) :
    Regroups fresh before.children after.children extra := by
  cases h with
  | relax | dropConstant | dropComparator | specialize | widen => exact Regroups.same hnodup
  | addElse c b =>
    simp only [NodeKind.children, Conditional.children] at hnodup hfresh ⊢
    constructor <;> grind [below, NodeKind.children]
  | override c body arg rest =>
    cases body with
    | none =>
      simp only [NodeKind.children, Conditional.children, Option.toList_none] at hnodup hfresh ⊢
      constructor <;> grind [below, NodeKind.children]
    | some body =>
      simp only [NodeKind.children, Conditional.children, Option.toList_some] at hnodup hfresh ⊢
      constructor <;> grind [below, NodeKind.children]

/-- No return tail comes about by recasting. -/
theorem Recast.isBuiltinTail_eq_false {callSpan span : Span} {fresh : NodeId}
    {before after : NodeKind} {extra : Option (NodeKind × Span)}
    (h : Recast callSpan span fresh before after extra) :
    after.isBuiltinTail = false ∧ ∀ k s, extra = some (k, s) → k.isBuiltinTail = false := by
  cases h with
  | addElse | override => exact ⟨rfl, by rintro _ _ ⟨⟩; rfl⟩
  | relax | dropConstant | dropComparator | specialize | widen =>
    exact ⟨rfl, by simp⟩

/-- A form that reads its condition as a whole becomes another one that does. -/
theorem Recast.exists_form {callSpan span : Span} {fresh : NodeId} {before after : NodeKind}
    {extra : Option (NodeKind × Span)} (h : Recast callSpan span fresh before after extra)
    {form : Conditional} (hform : before = .cond form) (hreads : form.readsOperand = false) :
    ∃ form', after = .cond form' ∧ form'.readsOperand = false := by
  cases h with
  | dropConstant | dropComparator | specialize =>
    obtain rfl := NodeKind.cond.inj hform
    simp [Conditional.readsOperand] at hreads
  | widen => simp at hform
  | addElse | relax | override => exact ⟨_, rfl, rfl⟩

/-! ### Replacing a node -/

/-- The number that a replacement gets: the last one allocated for it. -/
def replacement (t : Tree) (extra : Option (NodeKind × Span)) : NodeId :=
  if extra.isSome then t.nextId + 1 else t.nextId

/-- What becomes of another node when `new` takes the place of `old`. -/
def refit (n : Node) (old new fresh : NodeId) (kind : NodeKind)
    (extra : Option (NodeKind × Span)) (i : NodeId) (m : Node) : Node where
  kind := if n.parent = some i then m.kind.replaceChild old new else m.kind
  span := m.span
  parent :=
    if i ∈ kind.children then some new else if i ∈ below extra then some fresh else m.parent

theorem shape_refit (n m : Node) (old new fresh i : NodeId) (kind : NodeKind)
    (extra : Option (NodeKind × Span)) :
    (refit n old new fresh kind extra i m).kind.shape = m.kind.shape := by
  simp only [refit]
  split_ifs
  · exact NodeKind.shape_replaceChild _ _ _
  · rfl

/-- The live node `old`, which is `n`, was replaced by a node of the given kind. -/
structure Replaced (t : Tree) (old : NodeId) (n : Node) (kind : NodeKind)
    (extra : Option (NodeKind × Span)) (t' : Tree) : Prop where
  node : t.node? old = some n
  size : t'.slots.size = t.replacement extra + 1
  generation : t'.generation = t.generation + 1
  log : ∃ reason, t'.log = t.log.push
    ⟨t.generation + 1, old, t.replacement extra, n.kind.name, kind.name, reason⟩
  slot_old : t'.slots[old]? = some (.retired ⟨t.replacement extra, t.generation + 1⟩)
  slot_new : t'.slots[t.replacement extra]? = some (.live ⟨kind, n.span, n.parent⟩)
  slot_extra : ∀ k s, extra = some (k, s) →
    t'.slots[t.nextId]? = some (.live ⟨k, s, some (t.replacement extra)⟩)
  slot_other : ∀ i, i < t.slots.size → i ≠ old → t'.slots[i]? =
    t.slots[i]?.map (Slot.mapNode (refit n old (t.replacement extra) t.nextId kind extra i))

namespace Replaced

variable {t t' : Tree} {old i : NodeId} {n m : Node} {kind : NodeKind}
  {extra : Option (NodeKind × Span)}

theorem node?_old (h : Replaced t old n kind extra t') : t'.node? old = none := by
  rw [Tree.node?, h.slot_old]
  rfl

theorem node?_new (h : Replaced t old n kind extra t') :
    t'.node? (t.replacement extra) = some ⟨kind, n.span, n.parent⟩ :=
  node?_eq_some_iff.mpr h.slot_new

theorem node?_other (h : Replaced t old n kind extra t') (hi : t.node? i = some m)
    (hne : i ≠ old) :
    t'.node? i = some (refit n old (t.replacement extra) t.nextId kind extra i m) := by
  rw [Tree.node?, h.slot_other i (lt_size_of_node? hi) hne, node?_eq_some_iff.mp hi]
  rfl

theorem lt_replacement (t : Tree) (extra : Option (NodeKind × Span)) (hi : i < t.slots.size) :
    i < t.replacement extra := by
  unfold replacement nextId
  grind

/-- The live nodes afterwards are the new one, the one added below it, and the others, refitted. -/
theorem cases_node? (h : Replaced t old n kind extra t') {m' : Node} (hi : t'.node? i = some m') :
    (i = t.replacement extra ∧ m' = ⟨kind, n.span, n.parent⟩) ∨
      (∃ k s, extra = some (k, s) ∧ i = t.nextId ∧ m' = ⟨k, s, some (t.replacement extra)⟩) ∨
      ∃ m, t.node? i = some m ∧ i ≠ old ∧
        m' = refit n old (t.replacement extra) t.nextId kind extra i m := by
  have hslot := node?_eq_some_iff.mp hi
  by_cases hnew : i = t.replacement extra
  · subst hnew
    refine Or.inl ⟨rfl, ?_⟩
    simpa using hslot.symm.trans h.slot_new
  · have hold : i ≠ old := by
      rintro rfl
      rw [h.node?_old] at hi
      simp at hi
    by_cases hlt : i < t.slots.size
    · have hother := h.slot_other i hlt hold
      rw [hslot] at hother
      obtain ⟨s, hs, hm⟩ := Option.map_eq_some_iff.mp hother.symm
      cases s with
      | live m => exact Or.inr (Or.inr ⟨m, node?_eq_some_iff.mpr hs, hold, (Slot.live.inj hm).symm⟩)
      | retired | discarded => cases hm
    · have hbound : i < t'.slots.size := lt_size_of_node? hi
      rw [h.size] at hbound
      rcases hextra : extra with _ | ⟨k, s⟩
      · simp only [replacement, hextra, nextId] at hbound hnew
        grind
      · have hi' : i = t.nextId := by
          simp only [replacement, hextra, nextId] at hbound hnew ⊢
          grind
        subst hi'
        refine Or.inr (Or.inl ⟨k, s, rfl, rfl, ?_⟩)
        have hx := hslot.symm.trans (h.slot_extra k s hextra)
        rw [← hextra]
        simpa using hx

variable {x c : NodeId}

theorem mem_replace {children : List NodeId} (hnodup : children.Nodup) {a b : NodeId} :
    c ∈ children.replace a b ↔ c ∈ children ∧ c ≠ a ∨ c = b ∧ a ∈ children := by
  induction children with
  | nil => simp
  | cons d rest ih =>
    obtain ⟨hd, hrest⟩ := List.nodup_cons.mp hnodup
    rw [List.replace_cons]
    have ih := ih hrest
    by_cases hda : d = a
    · subst hda
      simp only [beq_self_eq_true, List.mem_cons]
      grind
    · have hbeq : (a == d) = false := by simpa using Ne.symm hda
      simp only [hbeq, List.mem_cons, ih]
      grind

/-- The children of a node that is not itself replaced: `new` stands where `old` stood. -/
theorem mem_children_refit (hforest : t.Forest) (hold : t.node? old = some n)
    (hx : t.node? x = some m) {new fresh : NodeId} :
    c ∈ (refit n old new fresh kind extra x m).kind.children ↔
      c ∈ m.kind.children ∧ c ≠ old ∨ c = new ∧ n.parent = some x := by
  have hparent : n.parent = some x ↔ old ∈ m.kind.children := by
    rw [← parent?_eq hold, ← hforest.owned, names_iff hx]
  have hkind : (refit n old new fresh kind extra x m).kind =
      if n.parent = some x then m.kind.replaceChild old new else m.kind := rfl
  rw [hkind]
  by_cases hp : n.parent = some x
  · rw [if_pos hp, NodeKind.children_replaceChild, mem_replace (hforest.distinct x m hx), hparent]
  · rw [if_neg hp]
    have hnot : old ∉ m.kind.children := fun hmem ↦ hp (hparent.mpr hmem)
    grind

theorem names_iff (h : Replaced t old n kind extra t') (hforest : t.Forest) :
    t'.Names x c ↔ (x = t.replacement extra ∧ c ∈ kind.children) ∨
      (extra.isSome ∧ x = t.nextId ∧ c ∈ below extra) ∨
      x ≠ old ∧ (t.Names x c ∧ c ≠ old ∨ c = t.replacement extra ∧ n.parent = some x) := by
  constructor
  · rintro ⟨m', hm', hc⟩
    rcases h.cases_node? hm' with ⟨rfl, rfl⟩ | ⟨k, s, rfl, rfl, rfl⟩ | ⟨m, hm, hne, rfl⟩
    · exact Or.inl ⟨rfl, hc⟩
    · exact Or.inr (Or.inl ⟨rfl, rfl, hc⟩)
    · rw [mem_children_refit hforest h.node hm, ← Tree.names_iff hm] at hc
      exact Or.inr (Or.inr ⟨hne, hc⟩)
  · rintro (⟨rfl, hc⟩ | ⟨hsome, rfl, hc⟩ | ⟨hne, hc⟩)
    · exact ⟨_, h.node?_new, hc⟩
    · obtain ⟨⟨k, s⟩, rfl⟩ := Option.isSome_iff_exists.mp hsome
      exact ⟨_, node?_eq_some_iff.mpr (h.slot_extra k s rfl), hc⟩
    · have hlive : ∃ m, t.node? x = some m := by
        rcases hc with ⟨⟨m, hm, _⟩, _⟩ | ⟨_, hp⟩
        · exact ⟨m, hm⟩
        · obtain ⟨m, hm, _⟩ := hforest.exists_parent h.node hp
          exact ⟨m, hm⟩
      obtain ⟨m, hm⟩ := hlive
      refine ⟨_, h.node?_other hm hne, ?_⟩
      rw [mem_children_refit hforest h.node hm, ← Tree.names_iff hm]
      exact hc

theorem parent?_eq_some_iff (h : Replaced t old n kind extra t') :
    t'.parent? c = some x ↔ (c = t.replacement extra ∧ n.parent = some x) ∨
      (extra.isSome ∧ c = t.nextId ∧ x = t.replacement extra) ∨
      ∃ m, t.node? c = some m ∧ c ≠ old ∧
        (refit n old (t.replacement extra) t.nextId kind extra c m).parent = some x := by
  rw [Tree.parent?_eq_some_iff]
  constructor
  · rintro ⟨m', hm', hp⟩
    rcases h.cases_node? hm' with ⟨rfl, rfl⟩ | ⟨k, s, rfl, rfl, rfl⟩ | ⟨m, hm, hne, rfl⟩
    · exact Or.inl ⟨rfl, hp⟩
    · exact Or.inr (Or.inl ⟨rfl, rfl, (Option.some.inj hp).symm⟩)
    · exact Or.inr (Or.inr ⟨m, hm, hne, hp⟩)
  · rintro (⟨rfl, hp⟩ | ⟨hsome, rfl, rfl⟩ | ⟨m, hm, hne, hp⟩)
    · exact ⟨_, h.node?_new, hp⟩
    · obtain ⟨⟨k, s⟩, rfl⟩ := Option.isSome_iff_exists.mp hsome
      exact ⟨_, node?_eq_some_iff.mpr (h.slot_extra k s rfl), rfl⟩
    · exact ⟨_, h.node?_other hm hne, hp⟩

theorem regroups_lt
    (hgroups : Regroups t.nextId n.kind.children kind.children extra)
    (hc : c ∈ kind.children) (hlt : c < t.slots.size) : c ∈ n.kind.children := by
  rcases hgroups.mem_after c hc with hold | ⟨_, rfl⟩
  · exact hold
  · exact absurd hlt (Nat.lt_irrefl _)

theorem nextId_ne (t : Tree) (hextra : extra.isSome) : t.nextId ≠ t.replacement extra := by
  rw [replacement, if_pos hextra]
  exact Nat.ne_of_lt (Nat.lt_succ_self _)

theorem owned (h : Replaced t old n kind extra t') (hforest : t.Forest)
    (hgroups : Regroups t.nextId n.kind.children kind.children extra) (x c : NodeId) :
    t'.Names x c ↔ t'.parent? c = some x := by
  rw [h.names_iff hforest, h.parent?_eq_some_iff]
  have hchild : ∀ c ∈ n.kind.children, ∃ m, t.node? c = some m ∧ c ≠ old ∧ m.parent = some old := by
    intro c hc
    obtain ⟨m, hm, hp⟩ := hforest.exists_child h.node hc
    exact ⟨m, hm, hforest.child_ne h.node hc, hp⟩
  constructor
  · rintro (⟨rfl, hc⟩ | ⟨hsome, rfl, hc⟩ | ⟨hx, ⟨hnames, hne⟩ | hparent⟩)
    · rcases hgroups.mem_after c hc with hbefore | ⟨hsome, rfl⟩
      · obtain ⟨m, hm, hne, _⟩ := hchild c hbefore
        exact Or.inr (Or.inr ⟨m, hm, hne, if_pos hc⟩)
      · exact Or.inr (Or.inl ⟨hsome, rfl, rfl⟩)
    · obtain ⟨m, hm, hne, _⟩ := hchild c (hgroups.mem_below c hc)
      have hnot : c ∉ kind.children := fun hafter ↦ hgroups.disjoint c hafter hc
      exact Or.inr (Or.inr ⟨m, hm, hne, (if_neg hnot).trans (if_pos hc)⟩)
    · obtain ⟨m, hm, hp⟩ := Tree.parent?_eq_some_iff.mp ((hforest.owned x c).mp hnames)
      have hnot : c ∉ n.kind.children := fun hbefore ↦ by
        obtain ⟨m', hm', _, hp'⟩ := hchild c hbefore
        obtain rfl := Option.some.inj (hm.symm.trans hm')
        exact hx (Option.some.inj (hp.symm.trans hp'))
      have hafter : c ∉ kind.children := fun hc ↦
        hnot (regroups_lt hgroups hc (lt_size_of_node? hm))
      have hbelow : c ∉ below extra := fun hc ↦ hnot (hgroups.mem_below c hc)
      exact Or.inr (Or.inr ⟨m, hm, hne, ((if_neg hafter).trans (if_neg hbelow)).trans hp⟩)
    · exact Or.inl hparent
  · rintro (⟨rfl, hparent⟩ | ⟨hsome, rfl, rfl⟩ | ⟨m, hm, hne, hp⟩)
    · have hx : x ≠ old := fun hold ↦ hforest.parent_ne h.node (hold ▸ hparent)
      exact Or.inr (Or.inr ⟨hx, Or.inr ⟨rfl, hparent⟩⟩)
    · exact Or.inl ⟨rfl, hgroups.fresh_mem hsome⟩
    · unfold refit at hp
      dsimp only at hp
      split_ifs at hp with hafter hbelow
      · exact Or.inl ⟨(Option.some.inj hp).symm, hafter⟩
      · have hsome : extra.isSome := by
          rcases extra with _ | _
          · cases hbelow
          · rfl
        exact Or.inr (Or.inl ⟨hsome, (Option.some.inj hp).symm, hbelow⟩)
      · have hnames : t.Names x c := (hforest.owned x c).mpr ((parent?_eq hm).trans hp)
        have hx : x ≠ old := by
          rintro rfl
          rcases hgroups.covers c ((Tree.names_iff h.node).mp hnames) with hc | hc
          · exact hafter hc
          · exact hbelow hc
        exact Or.inr (Or.inr ⟨hx, Or.inl ⟨hnames, hne⟩⟩)

theorem nodup_replace {children : List NodeId} (hnodup : children.Nodup) {a b : NodeId}
    (hb : b ∉ children) : (children.replace a b).Nodup := by
  induction children with
  | nil => simp
  | cons d rest ih =>
    obtain ⟨hd, hrest⟩ := List.nodup_cons.mp hnodup
    have hbd : b ≠ d := List.ne_of_not_mem_cons hb
    have hbrest : b ∉ rest := List.not_mem_of_not_mem_cons hb
    rw [List.replace_cons]
    split
    · exact List.nodup_cons.mpr ⟨hbrest, hrest⟩
    · refine List.nodup_cons.mpr ⟨fun hmem ↦ ?_, ih hrest hbrest⟩
      rcases (mem_replace hrest).mp hmem with ⟨hmem, _⟩ | ⟨rfl, _⟩
      · exact hd hmem
      · exact hbd rfl

/-- The slots that came with the replacement are live. -/
theorem exists_live (h : Replaced t old n kind extra t') {i : NodeId} (hi : i < t'.slots.size)
    (hfresh : ¬ i < t.slots.size) : ∃ m, t'.slots[i]? = some (.live m) := by
  rw [h.size] at hi
  by_cases hnew : i = t.replacement extra
  · rw [hnew]
    exact ⟨_, h.slot_new⟩
  · rcases hextra : extra with _ | ⟨k, s⟩
    · simp only [replacement, hextra, nextId] at hi hnew
      grind
    · have hid : i = t.nextId := by
        simp only [replacement, hextra, nextId] at hi hnew ⊢
        grind
      rw [hid]
      exact ⟨_, h.slot_extra k s hextra⟩

theorem ascending (h : Replaced t old n kind extra t') (hforest : t.Forest) : t'.Ascending := by
  intro id link hlink
  have hslot := forwarded?_eq_some_iff.mp hlink
  by_cases hid : id = old
  · rw [hid, h.slot_old] at hslot
    obtain rfl := Slot.retired.inj (Option.some.inj hslot)
    rw [hid, h.size]
    exact ⟨lt_replacement t extra (lt_size_of_node? h.node), Nat.lt_succ_self _⟩
  · by_cases hlt : id < t.slots.size
    · rw [h.slot_other id hlt hid] at hslot
      obtain ⟨s, hs, hmap⟩ := Option.map_eq_some_iff.mp hslot
      have hold : t.slots[id]? = some (.retired link) := by
        cases s with
        | retired => exact hs.trans (congrArg some hmap)
        | live | discarded => cases hmap
      obtain ⟨hup, hbound⟩ := hforest.ascending id link (forwarded?_eq_some_iff.mpr hold)
      rw [h.size]
      exact ⟨hup, Nat.lt_succ_of_lt (lt_replacement t extra hbound)⟩
    · obtain ⟨m, hlive⟩ := h.exists_live (Array.getElem?_eq_some_iff.mp hslot).1 hlt
      rw [hlive] at hslot
      simp at hslot

theorem distinct (h : Replaced t old n kind extra t') (hforest : t.Forest)
    (hgroups : Regroups t.nextId n.kind.children kind.children extra) {x : NodeId} {m' : Node}
    (hx : t'.node? x = some m') : m'.kind.children.Nodup := by
  rcases h.cases_node? hx with ⟨_, rfl⟩ | ⟨k, s, rfl, _, rfl⟩ | ⟨m, hm, _, rfl⟩
  · exact hgroups.nodup
  · exact hgroups.nodup_below
  · have hnew : t.replacement extra ∉ m.kind.children := fun hmem ↦
      Nat.lt_irrefl _ (lt_replacement t extra (hforest.child_lt_size hm hmem))
    have hnodup := hforest.distinct x m hm
    simp only [refit]
    split_ifs
    · rw [NodeKind.children_replaceChild]
      exact nodup_replace hnodup hnew
    · exact hnodup

/-- Doubled depths leave room for the node that is added below the replacement. -/
theorem layered (h : Replaced t old n kind extra t') (hforest : t.Forest)
    (hgroups : Regroups t.nextId n.kind.children kind.children extra) :
    ∃ depth : NodeId → Nat, ∀ x c, t'.Names x c → depth x < depth c := by
  obtain ⟨depth, hdepth⟩ := hforest.layered
  let deeper (i : NodeId) : Nat :=
    if i = t.replacement extra then 2 * depth old
    else if i = t.nextId then 2 * depth old + 1 else 2 * depth i
  have hnew : deeper (t.replacement extra) = 2 * depth old := if_pos rfl
  have hfresh : extra.isSome → deeper t.nextId = 2 * depth old + 1 := fun hsome ↦
    (if_neg (nextId_ne t hsome)).trans (if_pos rfl)
  have hbefore : ∀ i, i < t.slots.size → deeper i = 2 * depth i := fun i hi ↦
    (if_neg (Nat.ne_of_lt (lt_replacement t extra hi))).trans (if_neg (Nat.ne_of_lt hi))
  have hchild : ∀ c ∈ n.kind.children, 2 * depth old + 1 < deeper c := by
    intro c hc
    have := hdepth old c ((Tree.names_iff h.node).mpr hc)
    rw [hbefore c (hforest.child_lt_size h.node hc)]
    omega
  refine ⟨deeper, fun x c hnames ↦ ?_⟩
  rcases (h.names_iff hforest).mp hnames with
    ⟨rfl, hc⟩ | ⟨hsome, rfl, hc⟩ | ⟨_, ⟨hnames, _⟩ | ⟨rfl, hp⟩⟩
  · rw [hnew]
    rcases hgroups.mem_after c hc with hmem | ⟨hsome, rfl⟩
    · exact Nat.lt_of_succ_lt (hchild c hmem)
    · rw [hfresh hsome]
      exact Nat.lt_succ_self _
  · rw [hfresh hsome]
    exact hchild c (hgroups.mem_below c hc)
  · have := hdepth x c hnames
    obtain ⟨m, hm, hc⟩ := hnames
    rw [hbefore x (lt_size_of_node? hm), hbefore c (hforest.child_lt_size hm hc)]
    omega
  · obtain ⟨m, hm, hold⟩ := hforest.exists_parent h.node hp
    have := hdepth x old ((Tree.names_iff hm).mpr hold)
    rw [hnew, hbefore x (lt_size_of_node? hm)]
    omega

/-- Assumes: a replacement that takes over the children of the node replaced. -/
theorem forest (h : Replaced t old n kind extra t') (hforest : t.Forest)
    (hgroups : Regroups t.nextId n.kind.children kind.children extra) : t'.Forest where
  ascending := h.ascending hforest
  owned := h.owned hforest hgroups
  distinct := fun _ _ hx ↦ h.distinct hforest hgroups hx
  layered := h.layered hforest hgroups

end Replaced

end AdaptiveTree.Tree
