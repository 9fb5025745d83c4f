import AdaptiveTree.Proofs.Tree.Neighbours

/-!
What the overriding of return tails leaves of a tree, slot by slot. A tail becomes a link to its
overridden form, which stands right behind the call of `return` that was added below it. Every
other node stays where it is. All of them are the nodes there were, over what their children
have become.
-/

set_option autoImplicit false
set_option relaxedAutoImplicit false

namespace AdaptiveTree.Tree

variable {calls : NodeId → Span} {call : NodeId → NodeId} {busy : NodeId → Prop}
  {t t' t'' : Tree} {x i z new : NodeId} {n : Node}

/-! ### A tree whose return tails are overridden -/

section Image

variable (t : Tree) (call : NodeId → NodeId) (i : NodeId)

/-- Where a node is once its tree is overridden; `call` gives the number of the call of `return`
for each tail. -/
def place : NodeId :=
  if (t.kind? i).any NodeKind.isBuiltinTail then call i + 1 else i

/-- What a node is once its tree is overridden. -/
def overriddenKind : NodeKind → NodeKind
  | .cond (.returnBuiltin c body _ rest) => .cond (.returnOverridden (t.place call c)
      (body.map (t.place call)) (call i) (t.place call rest))
  | kind => kind.withChildren (kind.children.map (t.place call))

/-- What a node with the parent `p` hangs below once its tree is overridden: the argument of a
tail hangs below its call. -/
def overriddenParent (p : NodeId) : NodeId :=
  match t.kind? p with
  | some (.cond (.returnBuiltin _ _ arg _)) => if i = arg then call p else call p + 1
  | _ => p

end Image

/-- The splice `e`, which came after `t`, put the node `new` in the place of the return tail `i`. -/
structure Retires (t t' : Tree) (i new : NodeId) (e : SpliceEvent) : Prop where
  mem_log : e ∈ t'.log
  old_eq : e.old = i
  new_eq : e.new = new
  oldKind_eq : e.oldKind = "IfReturnRest.Builtin"
  newKind_eq : e.newKind = "IfReturnRest.Overridden"
  lt_generation : t.generation < e.generation
  generation_le : e.generation ≤ t'.generation
  slot : t'.slots[i]? = some (.retired ⟨new, e.generation⟩)

/-- What became of the tree below a node: all its return tails are overridden, and nothing else
has happened to it. The calls added for them are at the places given by `calls`. -/
structure Overridden (calls : NodeId → Span) (call : NodeId → NodeId) (t t' : Tree)
    (x : NodeId) : Prop where
  nodes : ∀ i n, t.Reaches x i → t.slots[i]? = some (.live n) →
    t'.slots[t.place call i]? = some (.live ⟨t.overriddenKind call i n.kind, n.span,
      n.parent.map (t.overriddenParent call i)⟩)
  /-- A tail leads to its new form, which stands where there were no slots before. -/
  links : ∀ i, t.Reaches x i → t.IsBuiltinTail i →
    t.slots.size ≤ call i ∧ ∃ e, Retires t t' i (call i + 1) e
  called : ∀ i c body arg rest, t.Reaches x i →
    t.kind? i = some (.cond (.returnBuiltin c body arg rest)) →
    t'.slots[call i]? =
      some (.live ⟨.call "return" [t.place call arg], calls i, some (call i + 1)⟩)

theorem isBuiltinTail_of_kind? {c arg rest : NodeId} {body : Option NodeId}
    (h : t.kind? i = some (.cond (.returnBuiltin c body arg rest))) : t.IsBuiltinTail i := by
  obtain ⟨n, hn, hkind⟩ := kind?_eq_some_iff.mp h
  exact ⟨n, hn, by rw [hkind]; rfl⟩

theorem not_isBuiltinTail_of_kind? {k : NodeKind} (h : t.kind? i = some k)
    (hplain : k.isBuiltinTail = false) : ¬ t.IsBuiltinTail i := by
  obtain ⟨n, hn, rfl⟩ := kind?_eq_some_iff.mp h
  rw [isBuiltinTail_iff hn, hplain]
  exact Bool.false_ne_true

theorem place_of_isBuiltinTail (h : t.IsBuiltinTail i) : t.place call i = call i + 1 := by
  obtain ⟨n, hn, htail⟩ := h
  rw [place, kind?_eq_some_iff.mpr ⟨n, hn, rfl⟩]
  exact if_pos htail

theorem place_of_not_isBuiltinTail (h : ¬ t.IsBuiltinTail i) : t.place call i = i := by
  refine if_neg fun htail ↦ h ?_
  obtain ⟨k, hk, hbuiltin⟩ := (Option.any_eq_true _ _).mp htail
  obtain ⟨n, hn, rfl⟩ := kind?_eq_some_iff.mp hk
  exact ⟨n, hn, hbuiltin⟩

theorem overriddenKind_of_not_isBuiltinTail {k : NodeKind} (h : k.isBuiltinTail = false) :
    t.overriddenKind call i k = k.withChildren (k.children.map (t.place call)) := by
  unfold overriddenKind
  split
  · cases h
  · rfl

theorem overriddenParent_of_not_isBuiltinTail (h : ¬ t.IsBuiltinTail z) :
    t.overriddenParent call i z = z := by
  unfold overriddenParent
  split
  · next hkind => exact absurd (isBuiltinTail_of_kind? hkind) h
  · rfl

/-- A number goes on leading to its node, wherever that is now. -/
theorem Overridden.resolve_eq (h : Overridden calls call t t' x) (hascending : t'.Ascending)
    (hi : t.Reaches x i) (hn : t.node? i = some n) : t'.resolve i = .ok (t.place call i) := by
  have hplace := resolve_of_node? (node?_eq_some_iff.mpr (h.nodes i n hi (node?_eq_some_iff.mp hn)))
  by_cases htail : t.IsBuiltinTail i
  · obtain ⟨_, _, hretires⟩ := h.links i hi htail
    rw [resolve_of_retired hascending hretires.slot]
    rwa [place_of_isBuiltinTail htail] at hplace ⊢
  · rwa [place_of_not_isBuiltinTail htail] at hplace ⊢

/-! ### One tail -/

/-- The return tail `i` gave way to a form right behind the call added below it. -/
structure Superseded (calls : NodeId → Span) (t t' : Tree) (i call : NodeId) : Prop where
  fresh : t.slots.size ≤ call
  link : ∃ e, Retires t t' i (call + 1) e
  form : ∃ c body rest, t'.kind? (call + 1) = some (.cond (.returnOverridden c body call rest))
  called : ∃ n arg, t'.node? call = some n ∧ n.kind = .call "return" [arg] ∧ n.span = calls i

theorem Adaptation.generation_eq (h : Adaptation calls busy t t') :
    t'.generation = t.generation + 1 := by
  cases h with
  | replace hreplaced => exact hreplaced.generation
  | wrap hwrapped => exact hwrapped.generation

theorem Adaptation.mem_log (h : Adaptation calls busy t t') {e : SpliceEvent} (he : e ∈ t.log) :
    e ∈ t'.log := by
  cases h with
  | replace hreplaced =>
    obtain ⟨_, hlog⟩ := hreplaced.log
    rw [hlog]
    exact Array.mem_push_of_mem _ he
  | wrap hwrapped =>
    obtain ⟨_, hlog⟩ := hwrapped.log
    rw [hlog]
    exact Array.mem_push_of_mem _ he

theorem Adapts.generation_le (h : Adapts calls busy t t') : t.generation ≤ t'.generation := by
  induction h with
  | refl => exact Nat.le_refl _
  | tail _ hstep ih =>
    rw [hstep.generation_eq]
    exact Nat.le_succ_of_le ih

theorem Replaced.retires {c arg rest : NodeId} {body : Option NodeId} {form : Conditional}
    {extra : Option (NodeKind × Span)} (h : Replaced t i n (.cond form) extra t')
    (hkind : n.kind = .cond (.returnBuiltin c body arg rest))
    (hform : form.name = "IfReturnRest.Overridden") :
    ∃ e, Retires t t' i (t.replacement extra) e := by
  obtain ⟨reason, hlog⟩ := h.log
  exact ⟨⟨t.generation + 1, i, t.replacement extra, n.kind.name, form.name, reason⟩, {
    mem_log := hlog ▸ Array.mem_push_self
    old_eq := rfl
    new_eq := rfl
    oldKind_eq := by rw [hkind]; rfl
    newKind_eq := hform
    lt_generation := Nat.lt_succ_self _
    generation_le := Nat.le_of_eq h.generation.symm
    slot := h.slot_old }⟩

/-- What was retired stays retired, by the same splice. -/
theorem Retires.adaptation {e : SpliceEvent} (h : Retires t t' i new e) (hforest : t'.Forest)
    (hstep : Adaptation calls busy t' t'') : Retires t t'' i new e :=
  { h with
    mem_log := hstep.mem_log h.mem_log
    generation_le := by
      rw [hstep.generation_eq]
      exact Nat.le_succ_of_le h.generation_le
    slot := (hstep.evolves hforest).persists.retired h.slot }

/-- One adaptation leaves a tail or overrides it. -/
theorem Adaptation.superseded (h : Adaptation calls busy t t') (hforest : t.Forest)
    (htail : t.IsBuiltinTail i) : t'.IsBuiltinTail i ∨ ∃ call, Superseded calls t t' i call := by
  cases h with
  | @replace old n kind extra hreplaced hrecast =>
    by_cases hne : i = old
    · subst hne
      obtain ⟨c, body, arg, rest, hkind⟩ :=
        NodeKind.isBuiltinTail_eq_true_iff.mp ((isBuiltinTail_iff hreplaced.node).mp htail)
      rw [hkind] at hrecast
      cases hrecast with
      | override =>
        exact Or.inr ⟨t.nextId, Nat.le_refl _, hreplaced.retires hkind rfl,
          ⟨c, body, rest, kind?_eq_some_iff.mpr ⟨_, hreplaced.node?_new, rfl⟩⟩,
          ⟨_, arg, node?_eq_some_iff.mpr (hreplaced.slot_extra _ _ rfl), rfl, rfl⟩⟩
    · exact Or.inl ((hreplaced.isBuiltinTail_iff hrecast).mpr ⟨htail, hne⟩)
  | wrap hwrapped => exact Or.inl ((hwrapped.isBuiltinTail_iff hforest).mpr htail)

namespace Superseded

variable {c : NodeId}

theorem resolve_eq (h : Superseded calls t t' i c) (hforest : t'.Forest) :
    t'.resolve i = .ok (c + 1) := by
  obtain ⟨_, _, _, hform⟩ := h.form
  obtain ⟨_, hretires⟩ := h.link
  rw [resolve_of_retired hforest.ascending hretires.slot]
  exact resolve_of_kind? hform

/-- A tail was overridden as well if it was only some time later. -/
theorem of_le (h : Superseded calls t t' i c) (hsize : t''.slots.size ≤ t.slots.size)
    (hgeneration : t''.generation ≤ t.generation) : Superseded calls t'' t' i c where
  fresh := Nat.le_trans hsize h.fresh
  link := by
    obtain ⟨e, hretires⟩ := h.link
    have hlt := Nat.lt_of_le_of_lt hgeneration hretires.lt_generation
    exact ⟨e, { hretires with lt_generation := hlt }⟩
  form := h.form
  called := h.called

/-- What took the place of a tail stays: the call is never adapted, and the new form is being
evaluated where the tail was. -/
theorem adaptation (h : Superseded calls t t' i c) (hforest : t'.Forest)
    (hstep : Adaptation calls busy t' t'') (hbusy : busy i) : Superseded calls t t'' i c := by
  have hevolves := hstep.evolves hforest
  have hresolve := h.resolve_eq hforest
  obtain ⟨d, body, rest, hform⟩ := h.form
  obtain ⟨n, arg, hn, hkind, hspan⟩ := h.called
  obtain ⟨args, hcalled, hargs⟩ :=
    hstep.keeps hforest (kind?_eq_some_iff.mpr ⟨n, hn, rfl⟩) (Or.inl (by rw [hkind]; rfl))
  obtain ⟨ids, hkept, hfollowed⟩ := hstep.keeps hforest hform (Or.inr ⟨⟨i, hbusy, hresolve⟩, rfl⟩)
  refine ⟨h.fresh, ?_, ?_, ?_⟩
  · obtain ⟨e, hretires⟩ := h.link
    exact ⟨e, hretires.adaptation hforest hstep⟩
  · obtain ⟨d', body', c', rest', rfl, _, hoverridden⟩ :=
      exists_tail_children (Keeps.length_eq hfollowed)
    obtain ⟨_, _, hcall, _⟩ := followed_tail_iff.mp hfollowed
    obtain rfl := Except.ok.inj ((resolve_of_kind? hcalled).symm.trans hcall)
    exact ⟨d', body', rest', hkept.trans (congrArg some hoverridden)⟩
  · rw [hkind] at hcalled hargs
    obtain ⟨arg', rfl⟩ := List.length_eq_one_iff.mp (Keeps.length_eq hargs)
    obtain ⟨n', hn', hkind'⟩ := kind?_eq_some_iff.mp hcalled
    obtain ⟨x', m, hx', hm, hspan', _⟩ := hevolves.lives c n hn
    obtain rfl := Except.ok.inj ((resolve_of_node? hn').symm.trans hx')
    obtain rfl := Option.some.inj (hn'.symm.trans hm)
    exact ⟨n', arg', hn', hkind', hspan'.trans hspan⟩

end Superseded

/-- A return tail that is being evaluated stays or is overridden once. -/
theorem Adapts.superseded (h : Adapts calls busy t t') (hforest : t.Forest)
    (htail : t.IsBuiltinTail i) (hbusy : busy i) :
    t'.IsBuiltinTail i ∨ ∃ call, Superseded calls t t' i call := by
  induction h with
  | refl => exact Or.inl htail
  | tail hsteps hstep ih =>
    have hevolves := Adapts.evolves hsteps hforest
    rcases ih with hkept | ⟨call, hgone⟩
    · exact (hstep.superseded hevolves.forest hkept).imp_right
        fun ⟨call, hnow⟩ ↦ ⟨call, hnow.of_le hevolves.size_le (Adapts.generation_le hsteps)⟩
    · exact Or.inr ⟨call, hgone.adaptation hevolves.forest hstep hbusy⟩

/-! ### The tree below a root -/

theorem Followed.eq_map {ids ids' : List NodeId} {f : NodeId → NodeId} (h : t.Followed ids ids')
    (hids : ∀ c ∈ ids, t.resolve c = .ok (f c)) : ids' = ids.map f := by
  induction h with
  | nil => rfl
  | cons hc _ ih =>
    have hhead := hc.symm.trans (hids _ (List.mem_cons_self ..))
    have htail := ih fun d hd ↦ hids d (List.mem_cons_of_mem _ hd)
    rw [List.map_cons, Except.ok.inj hhead, htail]

theorem slot_eq {k : NodeKind} {span : Span} {parent : Option NodeId} (hn : t.node? i = some n)
    (hkind : t.kind? i = some k) (hspan : n.span = span) (hparent : t.parent? i = parent) :
    t.slots[i]? = some (.live ⟨k, span, parent⟩) := by
  obtain ⟨m, hm, rfl⟩ := kind?_eq_some_iff.mp hkind
  obtain rfl := Option.some.inj (hn.symm.trans hm)
  rw [← hspan, ← hparent, parent?_eq hn]
  exact node?_eq_some_iff.mp hn

/-- Adaptations outside the tree below a root, after which all return tails there are gone. -/
structure Bypassed (calls : NodeId → Span) (call : NodeId → NodeId) (t t' : Tree)
    (x : NodeId) : Prop where
  adapts : ∃ busy, Adapts calls busy t t' ∧ ∀ i, t.Reaches x i → busy i
  forest : t.Forest
  isRoot : t.IsRoot x
  gone : ∀ i, t.Reaches x i → t.IsBuiltinTail i → Superseded calls t t' i (call i)

namespace Bypassed

theorem evolves (h : Bypassed calls call t t' x) : Evolves t t' := by
  obtain ⟨_, hadapts, _⟩ := h.adapts
  exact hadapts.evolves h.forest

theorem keeps (h : Bypassed calls call t t' x) {k : NodeKind} (hi : t.Reaches x i)
    (hkind : t.kind? i = some k) (hplain : k.isBuiltinTail = false) : t'.Keeps i k := by
  obtain ⟨_, hadapts, hbusy⟩ := h.adapts
  exact hadapts.keeps h.forest hkind (Or.inr ⟨hbusy i hi, hplain⟩)

theorem resolve_place (h : Bypassed calls call t t' x) (hi : t.Reaches x i) :
    t'.resolve i = .ok (t.place call i) := by
  by_cases htail : t.IsBuiltinTail i
  · rw [place_of_isBuiltinTail htail]
    exact (h.gone i hi htail).resolve_eq h.evolves.forest
  · rw [place_of_not_isBuiltinTail htail]
    obtain ⟨n, hn⟩ := live_of_reaches h.forest h.isRoot hi
    have hplain : n.kind.isBuiltinTail = false :=
      Bool.eq_false_iff.mpr fun heq ↦ htail ⟨n, hn, heq⟩
    obtain ⟨_, hkept, _⟩ := h.keeps hi (kind?_eq_some_iff.mpr ⟨n, hn, rfl⟩) hplain
    exact resolve_of_kind? hkept

theorem eq_map_place (h : Bypassed calls call t t' x) {k : NodeKind} {ids : List NodeId}
    (hi : t.Reaches x i) (hkind : t.kind? i = some k)
    (hfollowed : t'.Followed k.children ids) : ids = k.children.map (t.place call) :=
  hfollowed.eq_map fun _ hc ↦ h.resolve_place (hi.tail (names_iff_kind?.mpr ⟨k, hkind, hc⟩))

/-- What a tail has become, part by part. -/
theorem kind?_of_tail (h : Bypassed calls call t t' x) {c arg rest : NodeId}
    {body : Option NodeId} (hi : t.Reaches x i)
    (hkind : t.kind? i = some (.cond (.returnBuiltin c body arg rest))) :
    t'.kind? (call i + 1) = some (.cond (.returnOverridden (t.place call c)
        (body.map (t.place call)) (call i) (t.place call rest))) ∧
      t'.kind? (call i) = some (.call "return" [t.place call arg]) := by
  obtain ⟨_, hadapts, hbusy⟩ := h.adapts
  have hgone := h.gone i hi (isBuiltinTail_of_kind? hkind)
  obtain ⟨c', body', arg', rest', ⟨x', hx', htail⟩, hfollowed⟩ :=
    hadapts.tailAt h.forest (hbusy i hi) ⟨i, resolve_of_kind? hkind, Or.inl hkind⟩
  obtain rfl := Except.ok.inj ((hgone.resolve_eq h.evolves.forest).symm.trans hx')
  obtain ⟨d, body₁, rest₁, hform⟩ := hgone.form
  rcases htail with hbuiltin | ⟨call', hform', hcall⟩
  · cases hform.symm.trans hbuiltin
  · obtain ⟨⟩ := hform.symm.trans hform'
    have hparts := h.eq_map_place hi hkind hfollowed
    cases body <;> cases body' <;> simp_all [NodeKind.children, Conditional.children]

theorem kind?_place (h : Bypassed calls call t t' x) {k : NodeKind} (hi : t.Reaches x i)
    (hkind : t.kind? i = some k) :
    t'.kind? (t.place call i) = some (t.overriddenKind call i k) := by
  cases htail : k.isBuiltinTail with
  | true =>
    obtain ⟨c, body, arg, rest, rfl⟩ := NodeKind.isBuiltinTail_eq_true_iff.mp htail
    rw [place_of_isBuiltinTail (isBuiltinTail_of_kind? hkind)]
    exact (h.kind?_of_tail hi hkind).1
  | false =>
    rw [place_of_not_isBuiltinTail (not_isBuiltinTail_of_kind? hkind htail),
      overriddenKind_of_not_isBuiltinTail htail]
    obtain ⟨ids, hkept, hfollowed⟩ := h.keeps hi hkind htail
    rw [← h.eq_map_place hi hkind hfollowed]
    exact hkept

/-- Whoever named a node names it where it is now. -/
theorem names_place (h : Bypassed calls call t t' x) (hz : t.Reaches x z)
    (hnames : t.Names z i) : t'.Names (t.overriddenParent call i z) (t.place call i) := by
  obtain ⟨k, hkind, hmem⟩ := names_iff_kind?.mp hnames
  cases htail : k.isBuiltinTail with
  | true =>
    obtain ⟨c, body, arg, rest, rfl⟩ := NodeKind.isBuiltinTail_eq_true_iff.mp htail
    obtain ⟨hform, hcall⟩ := h.kind?_of_tail hz hkind
    rw [overriddenParent, hkind]
    dsimp only
    split_ifs with harg
    · rw [harg]
      exact names_iff_kind?.mpr ⟨_, hcall, List.mem_singleton.mpr rfl⟩
    · have hpart : i = c ∨ i ∈ body ∨ i = rest := by
        simpa [NodeKind.children, Conditional.children, harg] using hmem
      refine names_iff_kind?.mpr ⟨_, hform, ?_⟩
      rcases hpart with rfl | hbody | rfl
      · exact List.mem_cons_self ..
      · simp [NodeKind.children, Conditional.children, Option.mem_def.mp hbody]
      · simp [NodeKind.children, Conditional.children]
  | false =>
    have hnot := not_isBuiltinTail_of_kind? hkind htail
    have hkept := h.kind?_place hz hkind
    rw [place_of_not_isBuiltinTail hnot, overriddenKind_of_not_isBuiltinTail htail] at hkept
    rw [overriddenParent_of_not_isBuiltinTail hnot]
    refine names_iff_kind?.mpr ⟨_, hkept, ?_⟩
    rw [NodeKind.children_withChildren _ _ (List.length_map _)]
    exact List.mem_map_of_mem hmem

theorem parent?_place (h : Bypassed calls call t t' x) (hi : t.Reaches x i)
    (hn : t.node? i = some n) :
    t'.parent? (t.place call i) = n.parent.map (t.overriddenParent call i) := by
  cases hparent : n.parent with
  | none =>
    obtain ⟨i', n', hi', hn', _, hnone⟩ := h.evolves.lives i n hn
    obtain rfl := Except.ok.inj (hi'.symm.trans (h.resolve_place hi))
    rw [parent?_eq hn', hnone.mpr hparent]
    rfl
  | some z =>
    have hnames : t.Names z i := (h.forest.owned z i).mpr ((parent?_eq hn).trans hparent)
    have hz : t.Reaches x z := reaches_of_names h.forest h.isRoot hnames hi
    exact (h.evolves.forest.owned _ _).mp (h.names_place hz hnames)

theorem overridden (h : Bypassed calls call t t' x) : Overridden calls call t t' x where
  nodes := fun i n hi hslot ↦ by
    have hn := node?_eq_some_iff.mpr hslot
    obtain ⟨i', n', hi', hn', hspan, _⟩ := h.evolves.lives i n hn
    obtain rfl := Except.ok.inj (hi'.symm.trans (h.resolve_place hi))
    exact slot_eq hn' (h.kind?_place hi (kind?_eq_some_iff.mpr ⟨n, hn, rfl⟩)) hspan
      (h.parent?_place hi hn)
  links := fun i hi htail ↦ ⟨(h.gone i hi htail).fresh, (h.gone i hi htail).link⟩
  called := fun i c body arg rest hi hkind ↦ by
    obtain ⟨hform, hcall⟩ := h.kind?_of_tail hi hkind
    obtain ⟨m, _, hm, _, hspan⟩ := (h.gone i hi (isBuiltinTail_of_kind? hkind)).called
    have hnames : t'.Names (call i + 1) (call i) :=
      names_iff_kind?.mpr ⟨_, hform, by simp [NodeKind.children, Conditional.children]⟩
    exact slot_eq hm hcall hspan ((h.evolves.forest.owned _ _).mp hnames)

end Bypassed

/-- If no return tail is left, those below a root where all nodes were being evaluated have been
overridden, and that is all. -/
theorem Adapts.overridden (h : Adapts calls busy t t') (hforest : t.Forest) (hroot : t.IsRoot x)
    (hbusy : ∀ i, t.Reaches x i → busy i) (hnone : ∀ i, ¬ t'.IsBuiltinTail i) :
    ∃ call, Overridden calls call t t' x := by
  have hexists : ∀ i, t.Reaches x i → t.IsBuiltinTail i → ∃ call, Superseded calls t t' i call :=
    fun i hi htail ↦ (h.superseded hforest htail (hbusy i hi)).resolve_left (hnone i)
  choose! call hgone using hexists
  have hbypassed : Bypassed calls call t t' x := ⟨⟨busy, h, hbusy⟩, hforest, hroot, hgone⟩
  exact ⟨call, hbypassed.overridden⟩

end AdaptiveTree.Tree
