import AdaptiveTree.Proofs.Tree.Discarding
import AdaptiveTree.Proofs.Tree.Edits

/-!
Splices of an arbitrary tree, in which nodes may share children or hang below themselves. A
splice that fails changes nothing. One that succeeds seats the new node, leaves a link in the
slot of the old one, and discards every node that only the old one is recorded to hold; this
may take away any node that hangs below these.
-/

set_option autoImplicit false
set_option relaxedAutoImplicit false

namespace AdaptiveTree

namespace Tree

variable {t t' : Tree} {id old new i c p : NodeId} {n m : Node}

/-! ### Slots that are not live -/

theorem persists_foldl {f : Tree → NodeId → Tree} (hone : ∀ t x, Persists t (f t x))
    (ids : List NodeId) : ∀ t : Tree, Persists t (ids.foldl f t) := by
  induction ids with
  | nil => exact Persists.refl
  | cons id rest ih => exact fun t ↦ (hone t id).trans (ih (f t id))

theorem persists_modifyLive (t : Tree) (id : NodeId) (f : Node → Node) :
    Persists t (t.modifyLive id f) := by
  constructor
  · intro i link h
    rw [slots_modifyLive, h]
    split_ifs <;> rfl
  · intro i h
    rw [slots_modifyLive, h]
    split_ifs <;> rfl

theorem persists_push (t : Tree) (s : Slot) : Persists t { t with slots := t.slots.push s } := by
  have hkept : ∀ {i : NodeId} {slot : Slot}, t.slots[i]? = some slot →
      (t.slots.push s)[i]? = some slot := by
    intro i slot h
    have hlt : i < t.slots.size := (Array.getElem?_eq_some_iff.mp h).1
    rw [Array.getElem?_push, if_neg (Nat.ne_of_lt hlt), h]
  exact ⟨hkept, hkept⟩

theorem persists_alloc (t : Tree) (kind : NodeKind) (span : Span) :
    Persists t (t.alloc kind span) :=
  (persists_push t _).trans (persists_foldl (fun t x ↦ persists_modifyLive t x _) _ _)

theorem persists_cut (h : t.node? id = some n) : Persists t (t.cut id) := by
  have hkept : ∀ {i : NodeId} {s : Slot}, t.slots[i]? = some s → s.node? = none →
      (t.cut id).slots[i]? = some s := by
    intro i s hs hnone
    have hne : i ≠ id := by
      rintro rfl
      rw [node?_eq_some_iff.mp h] at hs
      obtain rfl := Option.some.inj hs
      cases hnone
    rw [slots_cut h, if_neg hne, hs]
  exact ⟨fun h ↦ hkept h rfl, fun h ↦ hkept h rfl⟩

theorem persists_discardWithin (depth : Nat) : ∀ (t : Tree) (id : NodeId),
    Persists t (discardWithin depth t id) := by
  induction depth with
  | zero => exact fun t _ ↦ Persists.refl t
  | succ depth ih =>
    intro t id
    rcases h : t.node? id with _ | n
    · rw [discardWithin_of_dead h]
      exact Persists.refl t
    · rw [discardWithin_of_live h]
      exact (persists_cut h).trans (persists_foldl ih _ _)

theorem persists_discardOrphan (p : NodeId) (t : Tree) (orphan : NodeId) :
    Persists t (Edit.discardOrphan p t orphan) := by
  unfold Edit.discardOrphan
  split
  · split_ifs
    · exact persists_discardWithin _ t orphan
    · exact Persists.refl t
  · exact Persists.refl t

theorem exists_node?_alloc (kind : NodeKind) (span : Span) (h : t.node? id = some n) :
    ∃ p, (t.alloc kind span).node? id = some { n with parent := p } := by
  have hne : id ≠ t.slots.size := Nat.ne_of_lt (lt_size_of_node? h)
  rw [node?, alloc, slots_foldl_adopt]
  dsimp only
  rw [Array.getElem?_push, if_neg hne, node?_eq_some_iff.mp h]
  split_ifs
  · exact ⟨some t.nextId, rfl⟩
  · exact ⟨n.parent, rfl⟩

theorem exists_node?_alloc_nextId (t : Tree) (kind : NodeKind) (span : Span) :
    ∃ p, (t.alloc kind span).node? t.nextId = some ⟨kind, span, p⟩ := by
  rw [node?, alloc, slots_foldl_adopt]
  dsimp only
  rw [Array.getElem?_push, nextId, if_pos rfl]
  split_ifs
  · exact ⟨some t.nextId, rfl⟩
  · exact ⟨none, rfl⟩

/-! ### Orphans -/

namespace Discarded

variable {ids : List NodeId}

theorem parent?_eq_some (h : Discarded t ids t') (hp : t'.parent? i = some p) :
    t.parent? i = some p := by
  unfold parent? at hp ⊢
  rcases h.node?_eq_none_or i with hnone | heq
  · simp [hnone] at hp
  · rwa [heq] at hp

theorem node?_eq_none (h : Discarded t ids t') (hi : t.node? i = none) : t'.node? i = none := by
  rcases h.node?_eq_none_or i with hnone | heq
  · exact hnone
  · exact heq.trans hi

theorem node?_eq_none_of_reaches (h : Discarded t ids t') (hc : t'.node? c = none)
    (hreach : t.Reaches c i) : t'.node? i = none := by
  induction hreach with
  | refl => exact hc
  | tail _ hnames ih => exact h.closed _ _ hnames ih

end Discarded

theorem discardOrphan_eq_discard (h : t.parent? c = some p) :
    Edit.discardOrphan p t c = t.discard c := by
  obtain ⟨k, hk, hp⟩ := parent?_eq_some_iff.mp h
  simp [Edit.discardOrphan, parent_eq hk, hp]

/-- Of the nodes given, those are discarded that have `p` as their parent. -/
theorem discarded_foldl_discardOrphan (p : NodeId) (orphans : List NodeId) : ∀ t : Tree,
    ∃ ids, Discarded t ids (orphans.foldl (Edit.discardOrphan p) t) ∧
      (∀ c ∈ ids, c ∈ orphans ∧ t.parent? c = some p) ∧
      ∀ c ∈ orphans, t.parent? c = some p →
        (orphans.foldl (Edit.discardOrphan p) t).node? c = none := by
  induction orphans with
  | nil => exact fun t ↦ ⟨[], .nil t, by simp, by simp⟩
  | cons c rest ih =>
    intro t
    rw [List.foldl_cons]
    by_cases hp : t.parent? c = some p
    · rw [discardOrphan_eq_discard hp]
      have hfirst := discarded_discard t c
      obtain ⟨ids, hrest, hsub, hgone⟩ := ih (t.discard c)
      refine ⟨c :: ids, hfirst.cons hrest, ?_, ?_⟩
      · intro d hd
        rcases List.mem_cons.mp hd with rfl | hd
        · exact ⟨List.mem_cons_self, hp⟩
        · obtain ⟨hmem, hparent⟩ := hsub d hd
          exact ⟨List.mem_cons_of_mem c hmem, hfirst.parent?_eq_some hparent⟩
      · intro d hd hparent
        rcases hfirst.node?_eq_none_or d with hnone | heq
        · exact hrest.node?_eq_none hnone
        · rcases List.mem_cons.mp hd with rfl | hd
          · exact hrest.node?_eq_none (hfirst.gone d (List.mem_singleton.mpr rfl))
          · refine hgone d hd ?_
            rwa [parent?, heq]
    · rw [Edit.discardOrphan_eq hp]
      obtain ⟨ids, hrest, hsub, hgone⟩ := ih t
      refine ⟨ids, hrest, fun d hd ↦ ?_, fun d hd hparent ↦ ?_⟩
      · obtain ⟨hmem, hparent⟩ := hsub d hd
        exact ⟨List.mem_cons_of_mem c hmem, hparent⟩
      · rcases List.mem_cons.mp hd with rfl | hd
        · exact absurd hparent hp
        · exact hgone d hd hparent

/-! ### Retiring -/

/-- What goes with `old`: the children that have it as their parent, and what hangs below these
when `old` itself is gone. -/
def Drags (t : Tree) (old i : NodeId) : Prop :=
  ∃ c, t.Names old c ∧ (t.cut old).parent? c = some old ∧ (t.cut old).Reaches c i

/-- A link to `new` took the place of `old`. -/
structure Retired (t : Tree) (old new : NodeId) (reason : String) (t' : Tree) : Prop where
  size_eq : t'.slots.size = t.slots.size
  generation_eq : t'.generation = t.generation + 1
  log_eq : ∃ n m, t.node? old = some n ∧ t.node? new = some m ∧
    t'.log = t.log.push ⟨t.generation + 1, old, new, n.kind.name, m.kind.name, reason⟩
  slot_old : t'.slots[old]? = some (.retired ⟨new, t.generation + 1⟩)
  dragged : ∀ i n, i ≠ old → t.node? i = some n → t.Drags old i →
    t'.slots[i]? = some .discarded
  kept : ∀ i, i ≠ old → (∀ n, t.node? i = some n → ¬ t.Drags old i) →
    t'.slots[i]? = t.slots[i]?

theorem names_congr (h : ∀ i, t'.node? i = t.node? i) : t'.Names = t.Names := by
  funext x c
  unfold Names
  rw [h]

theorem exists_retired (hold : t.node? old = some n) (hnew : t.node? new = some m)
    (reason : String) :
    ∃ t', Edit.retire old new reason t = .ok () t' ∧ Retired t old new reason t' := by
  obtain ⟨t₁, hrecord, hslots, hgeneration, hlog⟩ := Edit.record_eq hold hnew reason
  have hold₁ : t₁.node? old = some n := by rw [node?, hslots]; exact hold
  let v : Tree := { t₁ with slots := t₁.slots.setIfInBounds old (.retired ⟨new, t.generation + 1⟩) }
  obtain ⟨ids, hdiscarded, hsub, hgone⟩ := discarded_foldl_discardOrphan old n.kind.children v
  have hpersists : Persists v (n.kind.children.foldl (Edit.discardOrphan old) v) :=
    persists_foldl (persists_discardOrphan old) _ v
  have hlt : old < t₁.slots.size := lt_size_of_node? hold₁
  have hslot_old : v.slots[old]? = some (.retired ⟨new, t.generation + 1⟩) := by simp [v, hlt]
  have hslot : ∀ i, i ≠ old → v.slots[i]? = t.slots[i]? := fun i hi ↦ by
    simp [v, hslots, Array.getElem?_setIfInBounds_ne (Ne.symm hi)]
  -- retired or discarded, the old node is gone alike for whoever looks for live nodes
  have hnode : ∀ i, v.node? i = (t.cut old).node? i := by
    intro i
    unfold node?
    rw [slots_cut hold]
    split_ifs with hi
    · rw [hi, hslot_old]
      rfl
    · rw [hslot i hi]
  have hreaches : v.Reaches = (t.cut old).Reaches := by
    unfold Reaches
    rw [names_congr hnode]
  have hparent : ∀ i, v.parent? i = (t.cut old).parent? i := fun i ↦ by
    rw [parent?, parent?, hnode]
  refine ⟨n.kind.children.foldl (Edit.discardOrphan old) v, ?_, ?_, ?_, ?_, ?_, ?_, ?_⟩
  · unfold Edit.retire
    rw [Edit.bind_eq hrecord, Edit.bind_eq (Edit.ask_eq (node_eq hold₁))]
    rfl
  · rw [hdiscarded.size_eq, ← hslots]
    exact Array.size_setIfInBounds
  · exact hdiscarded.history.1.trans hgeneration
  · exact ⟨n, m, hold, hnew, hdiscarded.history.2.trans hlog⟩
  · exact hpersists.retired hslot_old
  · rintro i k hi hk ⟨c, hc, hcp, hreach⟩
    rw [← hparent] at hcp
    rw [← hreaches] at hreach
    have hdead := hdiscarded.node?_eq_none_of_reaches (hgone c ((names_iff hold).mp hc) hcp) hreach
    rcases hdiscarded.slot i with heq | ⟨hslot', _⟩
    · rw [node?, heq, hslot i hi] at hdead
      exact absurd (hk.symm.trans hdead) (Option.some_ne_none k)
    · exact hslot'
  · intro i hi hnot
    rcases hdiscarded.slot i with heq | ⟨_, c, hc, hreach⟩
    · exact heq.trans (hslot i hi)
    · obtain ⟨hmem, hcp⟩ := hsub c hc
      rw [hparent] at hcp
      rw [hreaches] at hreach
      have hdrags : t.Drags old i := ⟨c, (names_iff hold).mpr hmem, hcp, hreach⟩
      rw [← hslot i hi]
      rcases hs : v.slots[i]? with _ | k | link | _
      · rw [Array.getElem?_eq_none_iff] at hs ⊢
        rwa [hdiscarded.size_eq]
      · rw [hslot i hi] at hs
        exact absurd hdrags (hnot k (node?_eq_some_iff.mpr hs))
      · exact hpersists.retired hs
      · exact hpersists.discarded hs

namespace Retired

variable {reason : String}

theorem ne_of_node? (h : Retired t old new reason t') (hi : t'.node? i = some n) : i ≠ old := by
  rintro rfl
  rw [node?, h.slot_old] at hi
  cases hi

theorem node?_eq_some_iff (h : Retired t old new reason t') :
    t'.node? i = some n ↔ t.node? i = some n ∧ i ≠ old ∧ ¬ t.Drags old i := by
  constructor
  · intro hi
    have hne := h.ne_of_node? hi
    by_cases hdrags : ∃ k, t.node? i = some k ∧ t.Drags old i
    · obtain ⟨k, hk, hdrags⟩ := hdrags
      rw [node?, h.dragged i k hne hk hdrags] at hi
      cases hi
    · have hkept := h.kept i hne fun k hk hd ↦ hdrags ⟨k, hk, hd⟩
      have hlive : t.node? i = some n := by rwa [node?, ← hkept]
      exact ⟨hlive, hne, fun hd ↦ hdrags ⟨n, hlive, hd⟩⟩
  · rintro ⟨hi, hne, hnot⟩
    rw [node?, h.kept i hne fun _ _ ↦ hnot]
    exact hi

theorem persists (h : Retired t old new reason t') : Persists t t' := by
  obtain ⟨n, _, hold, _⟩ := h.log_eq
  have hkept : ∀ {i : NodeId} {s : Slot}, t.slots[i]? = some s → s.node? = none →
      t'.slots[i]? = some s := by
    intro i s hs hnone
    have hdead : t.node? i = none := by rw [node?, hs]; exact hnone
    have hne : i ≠ old := by
      rintro rfl
      exact absurd (hold.symm.trans hdead) (Option.some_ne_none n)
    rw [h.kept i hne fun k hk ↦ absurd (hk.symm.trans hdead) (Option.some_ne_none k), hs]
  exact ⟨fun hi ↦ hkept hi rfl, fun hi ↦ hkept hi rfl⟩

theorem forwarded?_eq (h : Retired t old new reason t') (i : NodeId) :
    t'.forwarded? i = if i = old then some ⟨new, t.generation + 1⟩ else t.forwarded? i := by
  split_ifs with hi
  · rw [hi]
    exact forwarded?_eq_some_iff.mpr h.slot_old
  · by_cases hdrags : ∃ k, t.node? i = some k ∧ t.Drags old i
    · obtain ⟨k, hk, hdrags⟩ := hdrags
      simp [Tree.forwarded?_eq, h.dragged i k hi hk hdrags, Tree.node?_eq_some_iff.mp hk,
        Slot.link?]
    · rw [Tree.forwarded?_eq, Tree.forwarded?_eq, h.kept i hi fun k hk hd ↦ hdrags ⟨k, hk, hd⟩]

end Retired

/-! ### Seating -/

/-- The tree in which `holder`, if there is one, names `new` instead of `old` and `new` knows
it; `old` is not retired yet. -/
def seat (t : Tree) (holder : Option NodeId) (old new : NodeId) : Tree :=
  match holder with
  | some p => Edit.hung t p old new
  | none => t

/-- What seating `new` makes of node `i`. -/
def seated (holder : Option NodeId) (old new i : NodeId) (k : Node) : Node :=
  { k with
    kind := if holder = some i then k.kind.replaceChild old new else k.kind
    parent := if i = new then holder.or k.parent else k.parent }

theorem slots_seat (t : Tree) (holder : Option NodeId) (old new i : NodeId) :
    (t.seat holder old new).slots[i]? =
      t.slots[i]?.map (Slot.mapNode (seated holder old new i)) := by
  rcases holder with _ | p
  · have hsame : Slot.mapNode (seated none old new i) = fun s ↦ s := by
      funext s
      cases s with
      | live k => simp [Slot.mapNode, seated]
      | retired | discarded => rfl
    rw [hsame, Option.map_id']
    rfl
  · rw [seat, Edit.hung, slots_modifyLive, slots_modifyLive]
    rcases t.slots[i]? with _ | k | _ | _
    · simp
    · split_ifs with hnew hp hp
      · simp [Slot.mapNode, seated, ← hnew, ← hp]
      · simp [Slot.mapNode, seated, ← hnew, Ne.symm hp]
      · simp [Slot.mapNode, seated, hnew, ← hp]
      · simp [Slot.mapNode, seated, hnew, Ne.symm hp]
    · split_ifs <;> rfl
    · split_ifs <;> rfl

theorem node?_seat (t : Tree) (holder : Option NodeId) (old new i : NodeId) :
    (t.seat holder old new).node? i = (t.node? i).map (seated holder old new i) := by
  unfold node?
  rw [slots_seat]
  rcases t.slots[i]? with _ | s <;> simp

theorem node?_hung {k : Node} (p old new : NodeId) (h : t.node? i = some k) :
    (Edit.hung t p old new).node? i = some (seated (some p) old new i k) := by
  have hseat := node?_seat t (some p) old new i
  rwa [h] at hseat

theorem forwarded?_seat (t : Tree) (holder : Option NodeId) (old new i : NodeId) :
    (t.seat holder old new).forwarded? i = t.forwarded? i := by
  rw [forwarded?_eq, forwarded?_eq, slots_seat]
  rcases t.slots[i]? with _ | s <;> simp

@[simp] theorem size_seat (t : Tree) (holder : Option NodeId) (old new : NodeId) :
    (t.seat holder old new).slots.size = t.slots.size := by
  rcases holder with _ | p
  · rfl
  · simp [seat, Edit.hung]

theorem history_seat (t : Tree) (holder : Option NodeId) (old new : NodeId) :
    (t.seat holder old new).generation = t.generation ∧
      (t.seat holder old new).log = t.log := by
  rcases holder with _ | p
  · exact ⟨rfl, rfl⟩
  · exact Edit.history_hung

theorem persists_seat (t : Tree) (holder : Option NodeId) (old new : NodeId) :
    Persists t (t.seat holder old new) := by
  rcases holder with _ | p
  · exact Persists.refl t
  · exact (persists_modifyLive t p _).trans (persists_modifyLive _ new _)

/-! ### Splices -/

/-- `new` took the place of `old`, for `holder` and for whoever follows links. -/
structure Spliced (t : Tree) (holder : Option NodeId) (old new : NodeId) (reason : String)
    (t' : Tree) : Prop where
  live_old : ∃ n, t.node? old = some n
  live_new : ∃ m, t.node? new = some m
  held : ∀ p, holder = some p → t.Names p old
  retired : Retired (t.seat holder old new) old new reason t'

/-- A node that `wrap` built over `child` was put between it and `parent`. -/
structure Inserted (t : Tree) (parent child : NodeId) (wrap : NodeKind) (reason : String)
    (t' : Tree) : Prop where
  held : t.Names parent child
  slots_eq : ∃ n, t.node? child = some n ∧
    t'.slots = (Edit.hung (t.alloc wrap n.span) parent child t.nextId).slots
  generation_eq : t'.generation = t.generation + 1

namespace Spliced

variable {holder : Option NodeId} {reason : String}

theorem size_eq (h : Spliced t holder old new reason t') : t'.slots.size = t.slots.size :=
  h.retired.size_eq.trans (size_seat t holder old new)

theorem generation_eq (h : Spliced t holder old new reason t') :
    t'.generation = t.generation + 1 :=
  h.retired.generation_eq.trans (congrArg (· + 1) (history_seat t holder old new).1)

theorem slot_old (h : Spliced t holder old new reason t') :
    t'.slots[old]? = some (.retired ⟨new, t.generation + 1⟩) := by
  rw [h.retired.slot_old, (history_seat t holder old new).1]

theorem persists (h : Spliced t holder old new reason t') : Persists t t' :=
  (persists_seat t holder old new).trans h.retired.persists

theorem forwarded?_eq (h : Spliced t holder old new reason t') (i : NodeId) :
    t'.forwarded? i = if i = old then some ⟨new, t.generation + 1⟩ else t.forwarded? i := by
  rw [h.retired.forwarded?_eq, (history_seat t holder old new).1, forwarded?_seat]

end Spliced

end Tree

namespace Edit

open AdaptiveTree.Tree

variable {t : Tree}

theorem bind_error_eq {α β : Type} {x : Edit α} {f : α → Edit β} {e : TreeError} {t' : Tree}
    (h : x t = .error e t') : (x >>= f) t = .error e t' := by
  show EStateM.bind x f t = .error e t'
  rw [EStateM.bind, h]

theorem ask_error_eq {α : Type} {question : Tree → Except TreeError α} {e : TreeError}
    (h : question t = .error e) : ask question t = .error e t := by
  rw [ask, h]

/-- Only a live node passes the check that it is one. -/
theorem ask_node_cases (t : Tree) (id : NodeId) :
    (∃ e, ask (·.node id) t = .error e t) ∨
      ∃ n, t.node? id = some n ∧ ask (·.node id) t = .ok n t := by
  rcases h : t.node id with e | n
  · exact Or.inl ⟨e, ask_error_eq h⟩
  · obtain ⟨m, hm, rfl⟩ : ∃ m, t.node? id = some m ∧ m = n := map_node_eq_ok (f := fun n ↦ n)
      (by rw [h]; rfl)
    exact Or.inr ⟨m, hm, ask_eq h⟩

/-- Writing the child slot and telling the new node about it, in front of anything else. -/
theorem hang_eq {α : Type} {parent old new : NodeId} {m : Node} {rest : Unit → Edit α}
    (hheld : t.Names parent old) (hnew : t.node? new = some m) :
    (writeChild parent old new >>= fun _ ↦
      modifyNode new (fun n ↦ { n with parent := some parent }) >>= rest) t =
      rest () (hung t parent old new) := by
  obtain ⟨k, hk, hmem⟩ := hheld
  have hnew' : ∃ m', (t.modifyLive parent fun n ↦
      { n with kind := n.kind.replaceChild old new }).node? new = some m' := by
    rw [node?, slots_modifyLive, Tree.node?_eq_some_iff.mp hnew]
    split_ifs <;> exact ⟨_, rfl⟩
  obtain ⟨m', hnew'⟩ := hnew'
  rw [bind_eq (writeChild_eq hk hmem), bind_eq (modifyNode_eq _ hnew')]
  rfl

/-! ### What an operation can do -/

theorem replaceChild_cases (t : Tree) (parent old new : NodeId) (reason : String) :
    (∃ e, replaceChild parent old new reason t = .error e t) ∨
      ∃ t', replaceChild parent old new reason t = .ok new t' ∧
        Spliced t (some parent) old new reason t' := by
  unfold replaceChild
  rcases ask_node_cases t new with ⟨e, he⟩ | ⟨m, hnew, hasknew⟩
  · exact Or.inl ⟨e, bind_error_eq he⟩
  rw [bind_eq hasknew]
  rcases ask_node_cases t old with ⟨e, he⟩ | ⟨n, hold, haskold⟩
  · exact Or.inl ⟨e, bind_error_eq he⟩
  rw [bind_eq haskold]
  by_cases hheld : t.Names parent old
  · obtain ⟨t', hretire, hretired⟩ :=
      exists_retired (node?_hung parent old new hold) (node?_hung parent old new hnew) reason
    refine Or.inr ⟨t', ?_, ⟨n, hold⟩, ⟨m, hnew⟩, ?_, hretired⟩
    · rw [hang_eq hheld hnew]
      exact bind_eq hretire
    · rintro p hp
      obtain rfl := Option.some.inj hp
      exact hheld
  · refine Or.inl ?_
    have hwrite : ∃ e, writeChild parent old new t = .error e t := by
      unfold writeChild
      rcases hkind : t.kind parent with e | kind
      · exact ⟨e, bind_error_eq (ask_error_eq hkind)⟩
      · obtain ⟨k, hk, rfl⟩ := kind_eq_ok hkind
        rw [bind_eq (ask_eq hkind), if_neg fun hmem ↦ hheld ⟨k, hk, hmem⟩]
        exact ⟨.notAChild parent old, rfl⟩
    obtain ⟨e, he⟩ := hwrite
    exact ⟨e, bind_error_eq he⟩

theorem replaceSelf_cases (t : Tree) (node new : NodeId) (reason : String) :
    (∃ e, replaceSelf node new reason t = .error e t) ∨
      ∃ n t', t.node? node = some n ∧ replaceSelf node new reason t = .ok new t' ∧
        Spliced t n.parent node new reason t' := by
  unfold replaceSelf
  rcases hparent : t.parent node with e | holder
  · exact Or.inl ⟨e, bind_error_eq (ask_error_eq hparent)⟩
  obtain ⟨n, hold, rfl⟩ := parent_eq_ok hparent
  rw [bind_eq (ask_eq hparent)]
  rcases hholder : n.parent with _ | p
  · show (∃ e, (ask _ >>= _) t = _) ∨ ∃ n t', _ ∧ (ask _ >>= _) t = _ ∧ _
    rcases ask_node_cases t new with ⟨e, he⟩ | ⟨m, hnew, hasknew⟩
    · exact Or.inl ⟨e, bind_error_eq he⟩
    · obtain ⟨t', hretire, hretired⟩ := exists_retired hold hnew reason
      refine Or.inr ⟨n, t', hold, ?_, ⟨n, hold⟩, ⟨m, hnew⟩, ?_, ?_⟩
      · rw [bind_eq hasknew, bind_eq hretire]
        rfl
      · simp [hholder]
      · rw [hholder]
        exact hretired
  · rcases replaceChild_cases t p node new reason with ⟨e, he⟩ | ⟨t', hok, hspliced⟩
    · exact Or.inl ⟨e, he⟩
    · exact Or.inr ⟨n, t', hold, hok, hholder ▸ hspliced⟩

/-- Inserting above a child succeeds. -/
theorem insertAbove_eq {parent child : NodeId} {n : Node} (hheld : t.Names parent child)
    (hchild : t.node? child = some n) (wrap : NodeId → NodeKind) (reason : String) :
    ∃ t', insertAbove parent child wrap reason t = .ok t.nextId t' ∧
      t'.slots = (hung (t.alloc (wrap child) n.span) parent child t.nextId).slots ∧
      t'.generation = t.generation + 1 ∧
      ∃ childKind wrapKind, t'.log =
        t.log.push ⟨t.generation + 1, child, t.nextId, childKind, wrapKind, reason⟩ := by
  obtain ⟨k, hk, hmem⟩ := hheld
  obtain ⟨p, hk'⟩ := exists_node?_alloc (wrap child) n.span hk
  obtain ⟨q, hchild'⟩ := exists_node?_alloc (wrap child) n.span hchild
  obtain ⟨r, hnew⟩ := exists_node?_alloc_nextId t (wrap child) n.span
  obtain ⟨t', hrecord, hslots, hgeneration, hlog⟩ :=
    record_eq (node?_hung parent child t.nextId hchild') (node?_hung parent child t.nextId hnew)
      reason
  have halloc : alloc (wrap child) n.span t = .ok t.nextId (t.alloc (wrap child) n.span) := rfl
  have hhistory : (hung (t.alloc (wrap child) n.span) parent child t.nextId).generation =
      t.generation := history_hung.1.trans (generation_alloc t _ _)
  rw [hhistory, history_hung.2, log_alloc] at hlog
  refine ⟨t', ?_, hslots, hgeneration.trans (congrArg (· + 1) hhistory), _, _, hlog⟩
  unfold insertAbove
  rw [bind_eq (ask_eq (span_eq hchild)), bind_eq (ask_eq (kind_eq hk)), if_pos hmem,
    bind_eq halloc, hang_eq ⟨_, hk', hmem⟩ hnew]
  exact bind_eq hrecord

theorem insertAbove_cases (t : Tree) (parent child : NodeId) (wrap : NodeId → NodeKind)
    (reason : String) :
    (∃ e, insertAbove parent child wrap reason t = .error e t) ∨
      ∃ t', insertAbove parent child wrap reason t = .ok t.nextId t' ∧
        Inserted t parent child (wrap child) reason t' := by
  rcases hspan : t.span child with e | span
  · exact Or.inl ⟨e, bind_error_eq (ask_error_eq hspan)⟩
  obtain ⟨n, hchild, rfl⟩ : ∃ n, t.node? child = some n ∧ n.span = span := map_node_eq_ok hspan
  by_cases hheld : t.Names parent child
  · obtain ⟨t', hok, hslots, hgeneration, -⟩ := insertAbove_eq hheld hchild wrap reason
    exact Or.inr ⟨t', hok, hheld, ⟨n, hchild, hslots⟩, hgeneration⟩
  · refine Or.inl ?_
    unfold insertAbove
    rw [bind_eq (ask_eq hspan)]
    rcases hkind : t.kind parent with e | kind
    · exact ⟨e, bind_error_eq (ask_error_eq hkind)⟩
    · obtain ⟨k, hk, rfl⟩ := kind_eq_ok hkind
      rw [bind_eq (ask_eq hkind), if_neg fun hmem ↦ hheld ⟨k, hk, hmem⟩]
      exact ⟨.notAChild parent child, rfl⟩

end Edit

end AdaptiveTree
