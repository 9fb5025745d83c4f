import AdaptiveTree.Proofs.Tree.Footprint

/-!
Nodes that keep their form while their children are adapted. Such a node names, in the same
order, what its children have become. A return tail may be overridden meanwhile, but its parts
can be followed as well: its argument is then that of the call.
-/

set_option autoImplicit false
set_option relaxedAutoImplicit false

namespace AdaptiveTree

namespace Conditional

/-- What a form expects of its condition. -/
inductive Sense where
  | any
  | present
  | tail
  | const (constant : Scalar)
  | specialized (comparator : Comparator)
  deriving DecidableEq, Repr

def sense : Conditional → Sense
  | generic .. => .any
  | noElse .. | twoBranch .. => .present
  | returnBuiltin .. | returnOverridden .. => .tail
  | const _ _ _ k => .const k
  | specialized _ _ _ k => .specialized k

theorem sense_withChildren (form : Conditional) (ids : List NodeId) :
    (form.withChildren ids).sense = form.sense := by
  unfold withChildren
  split <;> rfl

theorem head?_children (form : Conditional) : form.children.head? = some form.cond := by
  cases form <;> rfl

theorem withChildren_children (form : Conditional) : form.withChildren form.children = form := by
  cases form with
  | returnBuiltin _ body | returnOverridden _ body => cases body <;> rfl
  | _ => rfl

end Conditional

namespace NodeKind

theorem withChildren_children (kind : NodeKind) : kind.withChildren kind.children = kind := by
  cases kind with
  | cond form => exact congrArg cond form.withChildren_children
  | _ => rfl

/-- The kinds of nodes that are never adapted. -/
def isFixed : NodeKind → Bool
  | convert .. | cond _ => false
  | _ => true

def isTail : NodeKind → Bool
  | cond form => form.isTail
  | _ => false

theorem isFixed_withChildren (kind : NodeKind) (ids : List NodeId) :
    (kind.withChildren ids).isFixed = kind.isFixed := by
  unfold withChildren
  split <;> rfl

theorem isBuiltinTail_withChildren (kind : NodeKind) (ids : List NodeId) :
    (kind.withChildren ids).isBuiltinTail = kind.isBuiltinTail := by
  unfold withChildren
  split <;> first | rfl | exact Conditional.isBuiltinTail_withChildren ..

theorem isBuiltinTail_of_isTail {kind : NodeKind} (h : kind.isTail = false) :
    kind.isBuiltinTail = false := by
  cases kind with
  | cond form => cases form <;> first | rfl | cases h
  | _ => rfl

end NodeKind

namespace Tree

variable {calls : NodeId → Span} {busy : NodeId → Prop} {t t' t'' : Tree} {x : NodeId}
  {n : Node} {k : NodeKind} {ids ids' ids'' : List NodeId}

/-! ### Lists of children -/

/-- The second nodes are what the first ones have become. -/
def Followed (t : Tree) (ids ids' : List NodeId) : Prop :=
  List.Forall₂ (fun c c' ↦ t.resolve c = .ok c') ids ids'

namespace Followed

theorem of_live (h : ∀ c ∈ ids, ∃ n, t.node? c = some n) : t.Followed ids ids := by
  refine List.forall₂_same.mpr fun c hc ↦ ?_
  obtain ⟨n, hn⟩ := h c hc
  exact resolve_of_node? hn

theorem replace {old new : NodeId} (hnodup : ids.Nodup) (hnew : t.resolve old = .ok new)
    (hothers : ∀ c ∈ ids, c ≠ old → ∃ n, t.node? c = some n) :
    t.Followed ids (ids.replace old new) := by
  induction ids with
  | nil => exact .nil
  | cons c rest ih =>
    obtain ⟨hc, hrest⟩ := List.nodup_cons.mp hnodup
    rw [List.replace_cons]
    by_cases heq : old = c
    · subst heq
      rw [beq_self_eq_true]
      exact .cons hnew (of_live fun d hd ↦
        hothers d (List.mem_cons_of_mem _ hd) fun hdc ↦ hc (hdc ▸ hd))
    · rw [beq_eq_false_iff_ne.mpr heq]
      obtain ⟨n, hn⟩ := hothers c (List.mem_cons_self ..) (Ne.symm heq)
      exact .cons (resolve_of_node? hn) (ih hrest fun d hd ↦
        hothers d (List.mem_cons_of_mem _ hd))

theorem head {c c' : NodeId} (h : t.Followed ids ids') (hc : ids.head? = some c)
    (hc' : ids'.head? = some c') : t.resolve c = .ok c' := by
  cases h with
  | nil => cases hc
  | cons hresolve _ =>
    obtain rfl := Option.some.inj hc
    obtain rfl := Option.some.inj hc'
    exact hresolve

theorem trans (h : t.Followed ids ids') (hevolves : Evolves t t')
    (h' : t'.Followed ids' ids'') : t'.Followed ids ids'' := by
  induction h generalizing ids'' with
  | nil =>
    cases h'
    exact .nil
  | cons hc _ ih =>
    cases h' with
    | cons hc' hrest' =>
      refine .cons ?_ (ih hrest')
      rw [hevolves.persists.resolve_eq hevolves.forest.ascending hc, hc']

end Followed

/-! ### One adaptation -/

/-- A node of the kind is still there, over what its children have become. -/
def Keeps (t : Tree) (x : NodeId) (k : NodeKind) : Prop :=
  ∃ ids, t.kind? x = some (k.withChildren ids) ∧ t.Followed k.children ids

theorem Replaced.keeps {old : NodeId} {m : Node} {kind : NodeKind}
    {extra : Option (NodeKind × Span)} (h : Replaced t old m kind extra t') (hforest : t.Forest)
    (hforest' : t'.Forest) (hx : t.node? x = some n) (hne : x ≠ old) : t'.Keeps x n.kind := by
  have hx' := h.node?_other hx hne
  have hothers : ∀ c ∈ n.kind.children, c ≠ old → ∃ n, t'.node? c = some n := by
    intro c hc hne
    obtain ⟨k, hk, _⟩ := hforest.exists_child hx hc
    exact ⟨_, h.node?_other hk hne⟩
  by_cases hparent : m.parent = some x
  · refine ⟨n.kind.children.replace old (t.replacement extra),
      kind?_eq_some_iff.mpr ⟨_, hx', if_pos hparent⟩, ?_⟩
    exact .replace (hforest.distinct x n hx) (h.resolve_old hforest'.ascending) hothers
  · have hmem : old ∉ n.kind.children := fun hmem ↦
      hparent ((parent?_eq h.node).symm.trans
        ((hforest.owned x old).mp ((Tree.names_iff hx).mpr hmem)))
    refine ⟨n.kind.children, ?_, .of_live fun c hc ↦ hothers c hc fun heq ↦ hmem (heq ▸ hc)⟩
    rw [NodeKind.withChildren_children]
    exact kind?_eq_some_iff.mpr ⟨_, hx', if_neg hparent⟩

theorem Wrapped.keeps {p c : NodeId} {m child : Node} {mode : ConvertMode}
    (h : Wrapped t p c m child mode t') (hforest : t.Forest) (hx : t.node? x = some n)
    (hne : x ≠ p) : t'.Keeps x n.kind := by
  obtain ⟨n', hn', _, hkind, _⟩ := h.exists_node? hforest hx
  rw [if_neg hne] at hkind
  refine ⟨n.kind.children, ?_, .of_live fun d hd ↦ ?_⟩
  · rw [NodeKind.withChildren_children]
    exact kind?_eq_some_iff.mpr ⟨n', hn', hkind⟩
  · obtain ⟨k, hk, _⟩ := hforest.exists_child hx hd
    obtain ⟨k', hk', _⟩ := h.exists_node? hforest hk
    exact ⟨k', hk'⟩

/-- A node keeps its form while it is being evaluated, unless it is a return tail that is
overridden. Most nodes keep it anyway. -/
theorem Adaptation.keeps (h : Adaptation calls busy t t') (hforest : t.Forest)
    (hx : t.kind? x = some k)
    (hkept : k.isFixed = true ∨ t.Occupied busy x ∧ k.isBuiltinTail = false) :
    t'.Keeps x k := by
  obtain ⟨n, hn, rfl⟩ := kind?_eq_some_iff.mp hx
  have hforest' := (h.evolves hforest).forest
  cases h with
  | @replace old m kind extra hreplaced hrecast hidle =>
    refine hreplaced.keeps hforest hforest' hn ?_
    rintro rfl
    obtain rfl := Option.some.inj (hn.symm.trans hreplaced.node)
    rcases hkept with hfixed | ⟨hbusy, hplain⟩
    · revert hfixed hrecast
      generalize n.kind = before
      rintro hrecast hfixed
      cases hrecast <;> cases hfixed
    · rw [(isBuiltinTail_iff hn).mp (hidle hbusy)] at hplain
      cases hplain
  | @wrap p m _ _ form hwrapped hform _ _ hidle =>
    refine hwrapped.keeps hforest hn ?_
    rintro rfl
    obtain rfl := Option.some.inj (hn.symm.trans hwrapped.node)
    rcases hkept with hfixed | ⟨hbusy, _⟩
    · rw [hform] at hfixed
      cases hfixed
    · exact hidle hbusy

/-! ### Any number of adaptations -/

theorem Keeps.length_eq (h : t.Followed k.children ids) : ids.length = k.children.length :=
  (List.Forall₂.length_eq h).symm

theorem Keeps.trans (h : t.Followed k.children ids) (hevolves : Evolves t t')
    (h' : t'.Keeps x (k.withChildren ids)) : t'.Keeps x k := by
  have hlength := Keeps.length_eq h
  obtain ⟨ids', hkind, hfollowed⟩ := h'
  rw [NodeKind.children_withChildren k ids hlength] at hfollowed
  have hlength' : ids'.length = k.children.length :=
    (List.Forall₂.length_eq hfollowed).symm.trans hlength
  rw [NodeKind.withChildren_withChildren k ids ids' hlength hlength'] at hkind
  exact ⟨ids', hkind, h.trans hevolves hfollowed⟩

theorem Adapts.keeps (h : Adapts calls busy t t') (hforest : t.Forest) (hx : t.kind? x = some k)
    (hkept : k.isFixed = true ∨ busy x ∧ k.isBuiltinTail = false) : t'.Keeps x k := by
  induction h with
  | refl =>
    obtain ⟨n, hn, rfl⟩ := kind?_eq_some_iff.mp hx
    refine ⟨n.kind.children, ?_, .of_live fun c hc ↦ ?_⟩
    · rw [NodeKind.withChildren_children, hx]
    · obtain ⟨m, hm, _⟩ := hforest.exists_child hn hc
      exact ⟨m, hm⟩
  | tail hsteps hstep ih =>
    have hforest' := (evolves hsteps hforest).forest
    obtain ⟨ids, hkind, hfollowed⟩ := ih
    refine Keeps.trans hfollowed (hstep.evolves hforest') (hstep.keeps hforest' hkind ?_)
    rw [NodeKind.isFixed_withChildren]
    obtain ⟨n, hn, _⟩ := kind?_eq_some_iff.mp hkind
    refine hkept.imp_right fun ⟨hbusy, hplain⟩ ↦
      ⟨.of_live hn hbusy, ?_⟩
    rw [NodeKind.isBuiltinTail_withChildren, hplain]

/-! ### Conditionals and return tails -/

/-- A number leads to a return tail with the given parts. Once overridden it has its argument in
the call of `return`. -/
def TailAt (t : Tree) (id c : NodeId) (body : Option NodeId) (arg rest : NodeId) : Prop :=
  ∃ x, t.resolve id = .ok x ∧ (t.kind? x = some (.cond (.returnBuiltin c body arg rest)) ∨
    ∃ call, t.kind? x = some (.cond (.returnOverridden c body call rest)) ∧
      t.kind? call = some (.call "return" [arg]))

variable {id c arg rest : NodeId} {body : Option NodeId}

/-- A node that is being evaluated is only ever overridden. -/
theorem Adaptation.keeps_or_overridden (h : Adaptation calls busy t t') (hforest : t.Forest)
    (hx : t.kind? x = some k) (hbusy : t.Occupied busy x) : t'.Keeps x k ∨
      ∃ c body arg rest new call, k = .cond (.returnBuiltin c body arg rest) ∧
        t'.resolve x = .ok new ∧ t'.kind? new = some (.cond (.returnOverridden c body call rest)) ∧
        t'.kind? call = some (.call "return" [arg]) ∧ t'.Followed k.children k.children := by
  cases htail : k.isBuiltinTail with
  | false => exact Or.inl (h.keeps hforest hx (Or.inr ⟨hbusy, htail⟩))
  | true =>
    obtain ⟨c, body, arg, rest, rfl⟩ := NodeKind.isBuiltinTail_eq_true_iff.mp htail
    obtain ⟨n, hn, hkind⟩ := kind?_eq_some_iff.mp hx
    have hforest' := (h.evolves hforest).forest
    cases h with
    | @replace old m kind extra hreplaced hrecast hidle =>
      by_cases hne : x = old
      · subst hne
        obtain rfl := Option.some.inj (hn.symm.trans hreplaced.node)
        have hlive : ∀ d ∈ n.kind.children, ∃ m, t'.node? d = some m := by
          intro d hd
          obtain ⟨m, hm, _⟩ := hforest.exists_child hn hd
          exact ⟨_, hreplaced.node?_other hm (hforest.child_ne hn hd)⟩
        rw [hkind] at hrecast hlive
        cases hrecast with
        | override =>
          refine Or.inr ⟨c, body, arg, rest, _, _, rfl, hreplaced.resolve_old hforest'.ascending,
            kind?_eq_some_iff.mpr ⟨_, hreplaced.node?_new, rfl⟩, ?_, .of_live hlive⟩
          exact kind?_eq_some_iff.mpr
            ⟨_, node?_eq_some_iff.mpr (hreplaced.slot_extra _ _ rfl), rfl⟩
      · exact Or.inl (hkind ▸ hreplaced.keeps hforest hforest' hn hne)
    | @wrap p _ _ _ _ hwrapped _ _ _ hidle =>
      exact Or.inl (hkind ▸ hwrapped.keeps hforest hn fun heq ↦ hidle (heq ▸ hbusy))

/-- A conditional that is being evaluated goes on expecting the same of its condition. -/
theorem Adapts.exists_sense (h : Adapts calls busy t t') (hforest : t.Forest) (hbusy : busy id)
    {form : Conditional} (hresolve : t.resolve id = .ok x) (hx : t.kind? x = some (.cond form)) :
    ∃ x' form', t'.resolve id = .ok x' ∧ t'.kind? x' = some (.cond form') ∧
      form'.sense = form.sense ∧ t'.resolve form.cond = .ok form'.cond := by
  induction h with
  | refl =>
    obtain ⟨n, hn, hkind⟩ := kind?_eq_some_iff.mp hx
    have hmem : form.cond ∈ n.kind.children := by
      rw [hkind]
      exact List.mem_of_mem_head? form.head?_children
    obtain ⟨m, hm, _⟩ := hforest.exists_child hn hmem
    exact ⟨x, form, hresolve, hx, rfl, resolve_of_node? hm⟩
  | tail hsteps hstep ih =>
    have hforest' := (evolves hsteps hforest).forest
    have hevolves := hstep.evolves hforest'
    obtain ⟨y, form₁, hy, hkind, hsense, hcond⟩ := ih
    have hid := hevolves.persists.resolve_eq hevolves.forest.ascending hy
    have hcond' := hevolves.persists.resolve_eq hevolves.forest.ascending hcond
    rcases hstep.keeps_or_overridden hforest' hkind ⟨id, hbusy, hy⟩ with
      ⟨ids, hkept, hfollowed⟩ | ⟨c, body, arg, rest, new, call, heq, hnew, hkind', _, hfollowed⟩
    · have hids := Keeps.length_eq hfollowed
      have hhead : ids.head? = some (form₁.withChildren ids).cond := by
        rw [← Conditional.head?_children, form₁.children_withChildren ids hids]
      have hchildren : (NodeKind.cond form₁).children.head? = some form₁.cond :=
        form₁.head?_children
      refine ⟨y, _, hid.trans (resolve_of_kind? hkept), hkept,
        (form₁.sense_withChildren ids).trans hsense, ?_⟩
      rw [hcond']
      exact hfollowed.head hchildren hhead
    · obtain rfl := NodeKind.cond.inj heq
      refine ⟨new, _, hid.trans hnew, hkind', hsense, ?_⟩
      rw [hcond']
      exact hfollowed.head rfl rfl

/-- The children of a return tail, one by one. -/
theorem exists_tail_children (hlength : ids.length = (c :: body.toList ++ [arg, rest]).length) :
    ∃ c' body' arg' rest', ids = c' :: body'.toList ++ [arg', rest'] ∧
      (NodeKind.cond (.returnBuiltin c body arg rest)).withChildren ids =
        .cond (.returnBuiltin c' body' arg' rest') ∧
      (NodeKind.cond (.returnOverridden c body arg rest)).withChildren ids =
        .cond (.returnOverridden c' body' arg' rest') := by
  cases body with
  | none =>
    obtain ⟨c', arg', rest', rfl⟩ := List.length_eq_three.mp hlength
    exact ⟨c', none, arg', rest', rfl, rfl, rfl⟩
  | some b =>
    obtain ⟨c', b', arg', rest', rfl⟩ := List.length_eq_four.mp hlength
    exact ⟨c', some b', arg', rest', rfl, rfl, rfl⟩

/-- Following a return tail part by part. -/
theorem followed_tail_iff {c' arg' rest' : NodeId} {body' : Option NodeId} :
    t.Followed (c :: body.toList ++ [arg, rest]) (c' :: body'.toList ++ [arg', rest']) ↔
      t.resolve c = .ok c' ∧ t.Followed body.toList body'.toList ∧ t.resolve arg = .ok arg' ∧
        t.resolve rest = .ok rest' := by
  unfold Followed
  cases body <;> cases body' <;> simp

/-- A return tail that is being evaluated can be followed part by part. -/
theorem Adaptation.tailAt (h : Adaptation calls busy t t') (hforest : t.Forest) (hbusy : busy id)
    (htail : t.TailAt id c body arg rest) : ∃ c' body' arg' rest',
      t'.TailAt id c' body' arg' rest' ∧
      t'.Followed (c :: body.toList ++ [arg, rest]) (c' :: body'.toList ++ [arg', rest']) := by
  obtain ⟨x, hresolve, hform⟩ := htail
  have hevolves := h.evolves hforest
  have hid := hevolves.persists.resolve_eq hevolves.forest.ascending hresolve
  have hoccupied : t.Occupied busy x := ⟨id, hbusy, hresolve⟩
  rcases hform with hx | ⟨call, hx, hcall⟩
  · rcases h.keeps_or_overridden hforest hx hoccupied with
      ⟨ids, hkept, hfollowed⟩ | ⟨c₁, body₁, arg₁, rest₁, new, call, heq, hnew, hkind, hcall, hsame⟩
    · obtain ⟨c', body', arg', rest', rfl, hbuiltin, _⟩ :=
        exists_tail_children (Keeps.length_eq hfollowed)
      rw [hbuiltin] at hkept
      exact ⟨c', body', arg', rest', ⟨x, hid.trans (resolve_of_kind? hkept), Or.inl hkept⟩,
        hfollowed⟩
    · cases heq
      exact ⟨c, body, arg, rest, ⟨new, hid.trans hnew, Or.inr ⟨call, hkind, hcall⟩⟩, hsame⟩
  · obtain ⟨ids, hkept, hfollowed⟩ := h.keeps hforest hx (Or.inr ⟨hoccupied, rfl⟩)
    obtain ⟨c', body', call', rest', rfl, _, hoverridden⟩ :=
      exists_tail_children (Keeps.length_eq hfollowed)
    rw [hoverridden] at hkept
    obtain ⟨args, hcalled, hargs⟩ := h.keeps hforest hcall (Or.inl rfl)
    obtain ⟨arg', rfl⟩ := List.length_eq_one_iff.mp (Keeps.length_eq hargs)
    obtain ⟨hc, hbody, hcall', hrest⟩ := followed_tail_iff.mp hfollowed
    obtain rfl := Except.ok.inj ((resolve_of_kind? hcalled).symm.trans hcall')
    exact ⟨c', body', arg', rest',
      ⟨x, hid.trans (resolve_of_kind? hkept), Or.inr ⟨call, hkept, hcalled⟩⟩,
      followed_tail_iff.mpr ⟨hc, hbody, hargs.head rfl rfl, hrest⟩⟩

theorem Adapts.tailAt (h : Adapts calls busy t t') (hforest : t.Forest) (hbusy : busy id)
    (htail : t.TailAt id c body arg rest) : ∃ c' body' arg' rest',
      t'.TailAt id c' body' arg' rest' ∧
      t'.Followed (c :: body.toList ++ [arg, rest]) (c' :: body'.toList ++ [arg', rest']) := by
  induction h with
  | refl =>
    refine ⟨c, body, arg, rest, htail, ?_⟩
    obtain ⟨x, _, hform⟩ := htail
    have hlive {y : NodeId} {k : NodeKind} (hy : t.kind? y = some k) :
        ∀ d ∈ k.children, ∃ n, t.node? d = some n := by
      intro d hd
      obtain ⟨n, hn, rfl⟩ := kind?_eq_some_iff.mp hy
      obtain ⟨m, hm, _⟩ := hforest.exists_child hn hd
      exact ⟨m, hm⟩
    rcases hform with hx | ⟨call, hx, hcall⟩
    · exact .of_live (hlive hx)
    · obtain ⟨hc, hbody, _, hrest⟩ := followed_tail_iff.mp (Followed.of_live (hlive hx))
      exact followed_tail_iff.mpr ⟨hc, hbody, (Followed.of_live (hlive hcall)).head rfl rfl, hrest⟩
  | tail hsteps hstep ih =>
    have hforest' := (evolves hsteps hforest).forest
    obtain ⟨c₁, body₁, arg₁, rest₁, htail₁, hfollowed⟩ := ih
    obtain ⟨c₂, body₂, arg₂, rest₂, htail₂, hfollowed₂⟩ := hstep.tailAt hforest' hbusy htail₁
    exact ⟨c₂, body₂, arg₂, rest₂, htail₂, hfollowed.trans (hstep.evolves hforest') hfollowed₂⟩

end Tree

end AdaptiveTree
