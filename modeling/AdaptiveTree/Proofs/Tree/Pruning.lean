import AdaptiveTree.Proofs.Tree.Histories
import AdaptiveTree.Proofs.Tree.WellFormed

/-!
What a splice discards in a well-formed tree. The replacement is a new node over nodes from
below the old one and nodes that hang nowhere. Exactly what became unreachable is discarded if
the replacement took nothing from deeper than the children of the old node, and the parents
recorded around the old node are those that name it; otherwise more is lost, or too little.
-/

set_option autoImplicit false
set_option relaxedAutoImplicit false

namespace AdaptiveTree.Tree

variable {t t' : Tree} {kind : NodeKind} {span : Span} {holder : Option NodeId} {reason : String}
  {old new x y c d i : NodeId}

/-- Children for a replacement of `old`: different nodes that hang below it, none of them below
another one, or that hang nowhere. -/
structure Gathers (t : Tree) (old : NodeId) (children : List NodeId) : Prop where
  distinct : children.Nodup
  ne : ∀ c ∈ children, c ≠ old
  source : ∀ c ∈ children, t.Reaches old c ∨ t.isLive c = true ∧ ∀ x, ¬ t.Names x c
  apart : ∀ c ∈ children, ∀ d ∈ children, t.Reaches old c → t.Reaches c d → c = d

theorem Gathers.live {children : List NodeId} (h : t.Gathers old children) (hwf : t.WellFormed)
    (hold : ∃ n, t.node? old = some n) : ∀ c ∈ children, ∃ n, t.node? c = some n := by
  intro c hc
  rcases h.source c hc with hreach | ⟨hlive, _⟩
  · exact hwf.live_of_reaches hold hreach
  · exact isLive_iff.mp hlive

/-- `new` took the place of `old`, and only what hung below `old` and cannot be reached any more
was discarded. -/
structure Prunes (t : Tree) (old new : NodeId) (t' : Tree) : Prop where
  live : ∀ i, t'.Reaches new i → t'.isLive i = true
  linked : t'.danglingLinks = []
  retired : t'.slots[old]? = some (.retired ⟨new, t'.generation⟩)
  discarded : ∀ i, i ≠ old → t.isLive i = true →
    (t'.slots[i]? = some .discarded ↔ t.Reaches old i ∧ ¬ t'.Reaches new i)

/-- Nothing is taken from deeper than the children of `old`; whoever names `old` is recorded as
its parent, and `old` as the parent of the children that are not taken. -/
structure Direct (t : Tree) (old : NodeId) (children : List NodeId) : Prop where
  above : ∀ p, t.Names p old → t.parent? old = some p
  below : ∀ d, t.Names old d → d ∉ children → t.parent? d = some old
  direct : ∀ c ∈ children, t.Reaches old c → t.Names old c

/-! ### Names and parents -/

theorem mem_replace_iff {children : List NodeId} (hnodup : children.Nodup)
    (hmem : old ∈ children) :
    y ∈ children.replace old new ↔ y = new ∨ y ∈ children ∧ y ≠ old := by
  induction children with
  | nil => cases hmem
  | cons c rest ih =>
    obtain ⟨hc, hrest⟩ := List.nodup_cons.mp hnodup
    by_cases heq : old = c
    · subst heq
      have hne : y ∈ rest → y ≠ old := fun hy heq ↦ hc (heq ▸ hy)
      rw [List.replace_cons, beq_self_eq_true]
      grind
    · have hold : old ∈ rest := (List.mem_cons.mp hmem).resolve_left heq
      rw [List.replace_cons, beq_eq_false_iff_ne.mpr heq, List.mem_cons, ih hrest hold]
      grind

theorem names_seat (hheld : ∀ p, holder = some p → t.Names p old)
    (hdistinct : ∀ p, holder = some p → (t.childrenAt p).Nodup) :
    (t.seat holder old new).Names x y ↔
      holder = some x ∧ y = new ∨ t.Names x y ∧ (holder = some x → y ≠ old) := by
  unfold Names
  rw [node?_seat]
  by_cases hx : holder = some x
  · obtain ⟨k, hk, hmem⟩ := hheld x hx
    have hnodup := hdistinct x hx
    rw [childrenAt_eq hk] at hnodup
    simp [hk, seated, hx, NodeKind.children_replaceChild, mem_replace_iff hnodup hmem]
  · rcases t.node? x with _ | k <;> simp [hx, seated]

theorem parent?_seat (hne : i ≠ new) : (t.seat holder old new).parent? i = t.parent? i := by
  unfold parent?
  rw [node?_seat]
  rcases t.node? i with _ | k <;> simp [seated, hne]

theorem Retired.names_iff (h : Retired t old new reason t') :
    t'.Names x y ↔ t.Names x y ∧ x ≠ old ∧ ¬ t.Drags old x := by
  unfold Names
  constructor
  · rintro ⟨n, hn, hy⟩
    obtain ⟨hlive, hkept⟩ := h.node?_eq_some_iff.mp hn
    exact ⟨⟨n, hlive, hy⟩, hkept⟩
  · rintro ⟨⟨n, hn, hy⟩, hkept⟩
    exact ⟨n, h.node?_eq_some_iff.mpr ⟨hn, hkept⟩, hy⟩

/-! ### The new node in its place -/

/-- The tree in which a new node stands where `old` stood, which is not retired yet. -/
def replanted (t : Tree) (old : NodeId) (kind : NodeKind) (span : Span) : Tree :=
  (t.alloc kind span).seat (t.parent? old) old t.nextId

/-- A new node over gathered children was put into the place of `old`. -/
structure Hoisted (t : Tree) (old : NodeId) (kind : NodeKind) (span : Span) (reason : String)
    (t' : Tree) : Prop where
  wellFormed : t.WellFormed
  live_old : ∃ n, t.node? old = some n
  gathers : t.Gathers old kind.children
  spliced : Spliced (t.alloc kind span) (t.parent? old) old t.nextId reason t'

theorem ne_nextId (hlive : ∃ n, t.node? i = some n) : i ≠ t.nextId := by
  obtain ⟨n, hn⟩ := hlive
  exact Nat.ne_of_lt (lt_size_of_node? hn)

namespace Hoisted

variable (h : Hoisted t old kind span reason t')

include h

theorem live_child (hc : c ∈ kind.children) : ∃ n, t.node? c = some n :=
  h.gathers.live h.wellFormed h.live_old c hc

theorem child_lt_size (hc : c ∈ kind.children) : c < t.slots.size := by
  obtain ⟨n, hn⟩ := h.live_child hc
  exact lt_size_of_node? hn

theorem names_alloc_iff :
    (t.alloc kind span).Names x y ↔ x = t.nextId ∧ y ∈ kind.children ∨ t.Names x y :=
  names_alloc fun _ ↦ h.child_lt_size

theorem held (p : NodeId) (hp : t.parent? old = some p) : t.Names p old := by
  rcases h.names_alloc_iff.mp (h.spliced.held p hp) with ⟨_, hmem⟩ | hnames
  · exact absurd rfl (h.gathers.ne old hmem)
  · exact hnames

theorem names_replanted :
    (t.replanted old kind span).Names x y ↔
      x = t.nextId ∧ y ∈ kind.children ∨ t.parent? old = some x ∧ y = t.nextId ∨
        t.Names x y ∧ (t.parent? old = some x → y ≠ old) := by
  have hnext : t.parent? old ≠ some t.nextId := fun hp ↦ by
    obtain ⟨n, hn, _⟩ := h.held _ hp
    exact ne_nextId ⟨n, hn⟩ rfl
  have hdistinct : ∀ p, t.parent? old = some p → ((t.alloc kind span).childrenAt p).Nodup := by
    intro p hp
    obtain ⟨k, hk, _⟩ := h.held p hp
    obtain ⟨q, hk'⟩ := exists_node?_alloc kind span hk
    rw [childrenAt_eq hk', ← childrenAt_eq hk]
    exact h.wellFormed.distinct p
  rw [replanted, names_seat h.spliced.held hdistinct, h.names_alloc_iff]
  grind

/-- The new node is recorded as the parent of what it gathered. -/
theorem parent?_replanted (hlive : ∃ n, t.node? i = some n) :
    (t.replanted old kind span).parent? i =
      if i ∈ kind.children then some t.nextId else t.parent? i := by
  rw [replanted, parent?_seat (ne_nextId hlive), parent?_alloc fun c hc ↦ h.live_child hc]

theorem live_replanted_iff :
    (∃ n, (t.replanted old kind span).node? i = some n) ↔
      i = t.nextId ∨ ∃ n, t.node? i = some n := by
  rw [replanted, node?_seat, node?_alloc t kind span fun _ ↦ h.child_lt_size]
  rcases t.node? i with _ | n <;> split_ifs <;> simp [*]

theorem not_names_self : ¬ t.Names old old := fun hnames ↦
  h.wellFormed.acyclic old (.single hnames)

/-- Below a child of `old` nothing but the recorded parents changed. -/
theorem reaches_cut_iff (hd : t.Names old d) :
    ((t.replanted old kind span).cut old).Reaches d i ↔ t.Reaches d i := by
  obtain ⟨n, hn⟩ := h.live_replanted_iff.mpr (Or.inr h.live_old)
  have hapart : ∀ x, t.Reaches d x →
      x ≠ old ∧ x ≠ t.nextId ∧ t.parent? old ≠ some x := by
    intro x hx
    have hbelow := h.wellFormed.not_reaches_of_names hd
    have hlive := h.wellFormed.live_of_reaches (h.wellFormed.exists_node? hd) hx
    exact ⟨fun heq ↦ hbelow (heq ▸ hx), ne_nextId hlive,
      fun hp ↦ hbelow (hx.tail (h.held x hp))⟩
  constructor
  · refine reaches_of_steps fun x y _ hx hxy ↦ ?_
    obtain ⟨_, hnext, hholder⟩ := hapart x hx
    rw [names_cut_iff hn, h.names_replanted] at hxy
    grind
  · refine reaches_of_steps fun x y hx _ hxy ↦ ?_
    obtain ⟨hold, _, hholder⟩ := hapart x hx
    rw [names_cut_iff hn, h.names_replanted]
    grind

/-- The children of `old` that were not gathered go with it, and all that hangs below them. -/
theorem drags_iff :
    (t.replanted old kind span).Drags old i ↔
      ∃ d, t.Names old d ∧ d ∉ kind.children ∧ t.parent? d = some old ∧ t.Reaches d i := by
  obtain ⟨n, hn⟩ := h.live_replanted_iff.mpr (Or.inr h.live_old)
  have hnames : ∀ d, (t.replanted old kind span).Names old d ↔ t.Names old d := by
    intro d
    have hnext := ne_nextId h.live_old
    have hholder : t.parent? old ≠ some old := fun hp ↦ h.not_names_self (h.held old hp)
    simp [h.names_replanted, hnext, hholder]
  have hparent : ∀ d, t.Names old d →
      (((t.replanted old kind span).cut old).parent? d = some old ↔
        d ∉ kind.children ∧ t.parent? d = some old) := by
    intro d hd
    have hne : d ≠ old := fun heq ↦ h.not_names_self (heq ▸ hd)
    have hnext := ne_nextId h.live_old
    rw [parent?_cut hn hne, h.parent?_replanted (h.wellFormed.exists_node? hd)]
    split_ifs with hmem <;> simp [hmem, Ne.symm hnext]
  constructor
  · rintro ⟨d, hd, hp, hreach⟩
    have hd := (hnames d).mp hd
    obtain ⟨hmem, hp⟩ := (hparent d hd).mp hp
    exact ⟨d, hd, hmem, hp, (h.reaches_cut_iff hd).mp hreach⟩
  · rintro ⟨d, hd, hmem, hp, hreach⟩
    exact ⟨d, (hnames d).mpr hd, (hparent d hd).mpr ⟨hmem, hp⟩, (h.reaches_cut_iff hd).mpr hreach⟩

theorem reaches_of_drags (hdrags : (t.replanted old kind span).Drags old i) :
    t.Reaches old i ∧ i ≠ old := by
  obtain ⟨d, hd, _, _, hreach⟩ := h.drags_iff.mp hdrags
  exact ⟨hreach.head hd, fun heq ↦ h.wellFormed.not_reaches_of_names hd (heq ▸ hreach)⟩

/-! ### The tree afterwards -/

theorem retired : Retired (t.replanted old kind span) old t.nextId reason t' := h.spliced.retired

theorem live_iff :
    (∃ n, t'.node? i = some n) ↔ (i = t.nextId ∨ ∃ n, t.node? i = some n) ∧ i ≠ old ∧
      ¬ (t.replanted old kind span).Drags old i := by
  rw [← h.live_replanted_iff]
  simp only [h.retired.node?_eq_some_iff, exists_and_right]

theorem live_new : ∃ n, t'.node? t.nextId = some n := by
  refine h.live_iff.mpr ⟨Or.inl rfl, (ne_nextId h.live_old).symm, fun hdrags ↦ ?_⟩
  exact ne_nextId (h.wellFormed.live_of_reaches h.live_old (h.reaches_of_drags hdrags).1) rfl

theorem names_iff : t'.Names x y ↔
    (∃ n, t'.node? x = some n) ∧ (t.replanted old kind span).Names x y := by
  rw [h.live_iff, ← h.live_replanted_iff, h.retired.names_iff]
  constructor
  · rintro ⟨⟨n, hn, hy⟩, hkept⟩
    exact ⟨⟨⟨n, hn⟩, hkept⟩, n, hn, hy⟩
  · rintro ⟨⟨_, hkept⟩, hnames⟩
    exact ⟨hnames, hkept⟩

/-- What hung below `old` and hangs below the new node was gathered with what is above it. -/
theorem gathered_of_reaches (hreach : t'.Reaches t.nextId i) (hbelow : t.Reaches old i)
    (hne : i ≠ old) : ∃ c ∈ kind.children, t.Reaches old c ∧ t.Reaches c i := by
  have hlive := h.wellFormed.live_of_reaches h.live_old hbelow
  induction hreach with
  | refl => exact absurd rfl (ne_nextId hlive)
  | @tail x y _ hnames ih =>
    obtain ⟨hnames, hx, _⟩ := h.retired.names_iff.mp hnames
    rcases h.names_replanted.mp hnames with ⟨_, hy⟩ | ⟨_, hy⟩ | ⟨hxy, _⟩
    · exact ⟨y, hy, hbelow, .refl⟩
    · exact absurd hy (ne_nextId hlive)
    · have habove := h.wellFormed.reaches_of_names hbelow hne.symm hxy
      have hlive' := h.wellFormed.live_of_reaches h.live_old habove
      obtain ⟨c, hc, hold, hcx⟩ := ih habove hx hlive'
      exact ⟨c, hc, hold, hcx.tail hxy⟩

theorem names_new (hc : c ∈ kind.children) : t'.Names t.nextId c :=
  h.names_iff.mpr ⟨h.live_new, h.names_replanted.mpr (Or.inl ⟨rfl, hc⟩)⟩

/-- Assumes: what hangs below the new node is live. -/
theorem reaches_of_gathered (hlive : ∀ i, t'.Reaches t.nextId i → ∃ n, t'.node? i = some n)
    (hc : c ∈ kind.children) (hold : t.Reaches old c) (hreach : t.Reaches c i) :
    t'.Reaches t.nextId i := by
  refine Relation.ReflTransGen.head (h.names_new hc) (reaches_of_steps ?_ hreach)
  intro x y hx hx' hxy
  have hy : y ≠ old := by
    rintro rfl
    exact h.wellFormed.not_reaches_of_names hxy (hold.trans hx)
  exact h.names_iff.mpr ⟨hlive x (hx'.head (h.names_new hc)),
    h.names_replanted.mpr (Or.inr (Or.inr ⟨hxy, fun _ ↦ hy⟩))⟩

/-! ### Exactly what became unreachable -/

theorem linked_of_direct (hdirect : t.Direct old kind.children) :
    ∀ x y, t'.Names x y → ∃ n, t'.node? y = some n := by
  intro x y hnames
  obtain ⟨hnames, hx, hkept⟩ := h.retired.names_iff.mp hnames
  rcases h.names_replanted.mp hnames with ⟨_, hy⟩ | ⟨_, rfl⟩ | ⟨hxy, hother⟩
  · refine h.live_iff.mpr ⟨Or.inr (h.live_child hy), h.gathers.ne y hy, fun hdrags ↦ ?_⟩
    -- gathered, `y` is itself a child of `old`, and not the one that would take it along
    obtain ⟨d, hd, hmem, _, hreach⟩ := h.drags_iff.mp hdrags
    have hchild := hdirect.direct y hy (hreach.head hd)
    exact hmem (h.wellFormed.siblings_eq hd hchild hreach .refl ▸ hy)
  · exact h.live_new
  · refine h.live_iff.mpr ⟨Or.inr (h.wellFormed.exists_node? hxy), ?_, fun hdrags ↦ ?_⟩
    · rintro rfl
      exact hother (hdirect.above x hxy) rfl
    · -- what takes `y` along takes its parent, unless that is the retired node
      obtain ⟨d, hd, hmem, hp, hreach⟩ := h.drags_iff.mp hdrags
      by_cases hdy : d = y
      · exact hx (h.wellFormed.named_once x old y hxy (hdy ▸ hd))
      · exact hkept (h.drags_iff.mpr
          ⟨d, hd, hmem, hp, h.wellFormed.reaches_of_names hreach hdy hxy⟩)

theorem prunes_of_direct (hdirect : t.Direct old kind.children) : t.Prunes old t.nextId t' := by
  have hlinked := h.linked_of_direct hdirect
  have hlive : ∀ i, t'.Reaches t.nextId i → ∃ n, t'.node? i = some n := by
    intro i hreach
    rcases Relation.ReflTransGen.cases_tail hreach with rfl | ⟨x, _, hnames⟩
    · exact h.live_new
    · exact hlinked x i hnames
  constructor
  · exact fun i hreach ↦ isLive_iff.mpr (hlive i hreach)
  · exact danglingLinks_eq_nil_iff.mpr hlinked
  · rw [h.spliced.generation_eq]
    exact h.spliced.slot_old
  · intro i hne hi
    have hi := isLive_iff.mp hi
    constructor
    · intro hslot
      have hdead : ¬ ∃ n, t'.node? i = some n := by
        simp [node?, hslot, Slot.node?]
      refine ⟨?_, fun hreach ↦ hdead (hlive i hreach)⟩
      by_contra hnot
      exact hdead (h.live_iff.mpr ⟨Or.inr hi, hne, fun hdrags ↦ hnot (h.reaches_of_drags hdrags).1⟩)
    · rintro ⟨hreach, hlost⟩
      obtain ⟨m, hm⟩ := h.live_replanted_iff.mpr (Or.inr hi)
      refine h.retired.dragged i m hne hm (h.drags_iff.mpr ?_)
      obtain ⟨e, he, hei⟩ := (Relation.ReflTransGen.cases_head hreach).resolve_left hne.symm
      have hmem : e ∉ kind.children := fun hmem ↦
        hlost (h.reaches_of_gathered hlive hmem (.single he) hei)
      exact ⟨e, he, hmem, hdirect.below e he hmem, hei⟩

theorem direct_of_prunes (hprunes : t.Prunes old t.nextId t') : t.Direct old kind.children := by
  have hlinked := danglingLinks_eq_nil_iff.mp hprunes.linked
  have hbelow : ∀ d, t.Names old d → d ∉ kind.children → t.parent? d = some old := by
    intro d hd hmem
    have hlive := h.wellFormed.exists_node? hd
    have hne : d ≠ old := fun heq ↦ h.not_names_self (heq ▸ hd)
    have hlost : ¬ t'.Reaches t.nextId d := by
      intro hreach
      obtain ⟨c, hc, hcold, hcd⟩ := h.gathered_of_reaches hreach (.single hd) hne
      have hcne : c ≠ d := fun heq ↦ hmem (heq ▸ hc)
      have hback := h.wellFormed.reaches_of_names hcd hcne hd
      exact h.gathers.ne c hc (h.wellFormed.reaches_antisymm hback hcold)
    have hslot := (hprunes.discarded d hne (isLive_iff.mpr hlive)).mpr ⟨.single hd, hlost⟩
    have hdrags : (t.replanted old kind span).Drags old d := by
      by_contra hkept
      obtain ⟨n, hn⟩ := h.live_iff.mpr ⟨Or.inr hlive, hne, hkept⟩
      simp [node?, hslot, Slot.node?] at hn
    obtain ⟨e, he, _, hp, hreach⟩ := h.drags_iff.mp hdrags
    rwa [← h.wellFormed.siblings_eq he hd hreach .refl]
  refine ⟨?_, hbelow, ?_⟩
  · intro p hp
    by_contra hholder
    -- nobody turned the slot of `p` away from the retired node
    have hlive : ∃ n, t'.node? p = some n := by
      have hdead : ¬ t.Reaches old p := h.wellFormed.not_reaches_of_names hp
      obtain ⟨n, hn, _⟩ := id hp
      exact h.live_iff.mpr ⟨Or.inr ⟨n, hn⟩, fun heq ↦ hdead (heq ▸ .refl),
        fun hdrags ↦ hdead (h.reaches_of_drags hdrags).1⟩
    obtain ⟨n, hn⟩ := hlinked p old (h.names_iff.mpr
      ⟨hlive, h.names_replanted.mpr (Or.inr (Or.inr ⟨hp, fun heq ↦ absurd heq hholder⟩))⟩)
    exact h.retired.ne_of_node? hn rfl
  · intro c hc hreach
    obtain ⟨e, he, hec⟩ :=
      (Relation.ReflTransGen.cases_head hreach).resolve_left (h.gathers.ne c hc).symm
    by_cases hmem : e ∈ kind.children
    · rwa [← h.gathers.apart e hmem c hc (.single he) hec]
    · have hdrags := h.drags_iff.mpr ⟨e, he, hmem, hbelow e he hmem, hec⟩
      exact absurd hdrags (h.live_iff.mp (hlinked t.nextId c (h.names_new hc))).2.2

end Hoisted

theorem prunes_iff_direct (hwf : t.WellFormed) (hold : t.isLive old = true)
    (hgathers : t.Gathers old kind.children)
    (hok : Edit.replaceSelf old t.nextId reason (t.alloc kind span) = .ok new t') :
    new = t.nextId ∧ (t.Prunes old t.nextId t' ↔ t.Direct old kind.children) := by
  have hold := isLive_iff.mp hold
  rcases Edit.replaceSelf_cases (t.alloc kind span) old t.nextId reason with
    ⟨e, he⟩ | ⟨n, u, hn, hok', hspliced⟩
  · cases he.symm.trans hok
  · obtain ⟨rfl, rfl⟩ : t.nextId = new ∧ u = t' := by
      cases hok'.symm.trans hok
      exact ⟨rfl, rfl⟩
    have hparent : n.parent = t.parent? old := by
      have hkept : old ∉ kind.children := fun hmem ↦ hgathers.ne old hmem rfl
      rw [← parent?_eq hn, parent?_alloc (hgathers.live hwf hold), if_neg hkept]
    have h : Hoisted t old kind span reason u := ⟨hwf, hold, hgathers, hparent ▸ hspliced⟩
    exact ⟨rfl, h.direct_of_prunes, h.prunes_of_direct⟩

/-- Where nodes and parents know each other, only the depth matters. -/
theorem Forest.direct_iff (h : t.Forest) {children : List NodeId} :
    t.Direct old children ↔ ∀ c ∈ children, t.Reaches old c → t.Names old c :=
  ⟨fun hdirect ↦ hdirect.direct, fun hchildren ↦
    ⟨fun p ↦ (h.owned p old).mp, fun d hd _ ↦ (h.owned old d).mp hd, hchildren⟩⟩

/-- A constant below two operators. -/
def twiceNegated : Tree :=
  ((empty.alloc (.constant .null) ⟨2, 3⟩).alloc (.unary .neg 0) ⟨1, 3⟩).alloc (.unary .neg 1) ⟨0, 3⟩

theorem forest_twiceNegated : twiceNegated.Forest := by
  have hroot : ∀ {t : Tree} {x c : NodeId} {n : Node}, t.node? x = some n → n.parent = none →
      c ∈ [x] → t.IsRoot c := by
    intro t x c n hn hp hc
    rw [List.mem_singleton.mp hc]
    exact ⟨n, hn, hp⟩
  refine ((Forest.empty.alloc ?_ ?_).alloc (fun c ↦ hroot rfl rfl) ?_).alloc
    (fun c ↦ hroot rfl rfl) ?_
  · exact fun c hc ↦ nomatch hc
  all_goals decide

/-- Both operators give way to a new one. Over the inner operator it keeps all that it can
reach; over the constant it loses it, since the inner operator takes the constant along. -/
theorem prunes_iff_direct_twiceNegated :
    (∃ t', Edit.replaceSelf 2 3 "hoist" (twiceNegated.alloc (.unary .neg 1) ⟨0, 3⟩) = .ok 3 t' ∧
      twiceNegated.Prunes 2 3 t') ∧
    ∃ t', Edit.replaceSelf 2 3 "hoist" (twiceNegated.alloc (.unary .neg 0) ⟨0, 3⟩) = .ok 3 t' ∧
      t'.danglingLinks = [(3, 0)] ∧ ¬ twiceNegated.Prunes 2 3 t' := by
  have hforest := forest_twiceNegated
  have hinner : twiceNegated.Names 2 1 := mem_childrenAt_iff.mp (by decide +kernel)
  have hconst : twiceNegated.Names 1 0 := mem_childrenAt_iff.mp (by decide +kernel)
  have hskips : ¬ twiceNegated.Names 2 0 := fun hnames ↦
    absurd (mem_childrenAt_iff.mpr hnames) (by decide +kernel)
  have hgathers : ∀ c, c ≠ 2 → twiceNegated.Reaches 2 c → twiceNegated.Gathers 2 [c] := by
    intro c hne hreach
    refine ⟨List.nodup_singleton c, ?_, ?_, ?_⟩ <;> simp [hne, hreach]
  constructor
  · have hok : Edit.replaceSelf 2 3 "hoist" (twiceNegated.alloc (.unary .neg 1) ⟨0, 3⟩) = .ok 3
        ((Edit.replaceSelf 2 3 "hoist").left (twiceNegated.alloc (.unary .neg 1) ⟨0, 3⟩)) := by rfl
    have hiff := (prunes_iff_direct hforest.wellFormed rfl
      (hgathers 1 (by decide) (.single hinner)) hok).2
    refine ⟨_, hok, hiff.mpr (hforest.direct_iff.mpr fun c hc _ ↦ ?_)⟩
    rwa [List.mem_singleton.mp hc]
  · have hok : Edit.replaceSelf 2 3 "hoist" (twiceNegated.alloc (.unary .neg 0) ⟨0, 3⟩) = .ok 3
        ((Edit.replaceSelf 2 3 "hoist").left (twiceNegated.alloc (.unary .neg 0) ⟨0, 3⟩)) := by rfl
    have hreach : twiceNegated.Reaches 2 0 := .tail (.single hinner) hconst
    have hiff := (prunes_iff_direct hforest.wellFormed rfl (hgathers 0 (by decide) hreach) hok).2
    refine ⟨_, hok, by decide +kernel, fun hprunes ↦ hskips ?_⟩
    exact (hiff.mp hprunes).direct 0 (List.mem_singleton.mpr rfl) hreach

end AdaptiveTree.Tree
