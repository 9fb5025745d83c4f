import AdaptiveTree.Proofs.Tree.Edits

/-!
The edits that carry out transitions, by name. Where they are called, on a live node of a
forest, they succeed, and each comes to one replacement or one conversion step put in between.
-/

set_option autoImplicit false
set_option relaxedAutoImplicit false

namespace AdaptiveTree.Edit

variable {t t' : Tree} {old p c : NodeId} {n : Node} {kind : NodeKind}
  {extra : Option (NodeKind × Span)} {callSpan : Span} {form : Conditional}

/-- The tree with only the additional node allocated. -/
def prepared (t : Tree) : Option (NodeKind × Span) → Tree
  | none => t
  | some (k, s) => t.alloc k s

theorem alloc_prepared (t : Tree) (kind : NodeKind) (span : Span)
    (extra : Option (NodeKind × Span)) :
    alloc kind span (prepared t extra) = .ok (t.replacement extra) (grown t kind span extra) := by
  rcases extra with _ | ⟨k, s⟩
  · rfl
  · show EStateM.Result.ok (t.alloc k s).nextId _ = EStateM.Result.ok (t.nextId + 1) _
    rw [Tree.nextId, Tree.size_alloc]
    rfl

theorem span_prepared (hforest : t.Forest) (hold : t.node? old = some n)
    (hgroups : Tree.Regroups t.nextId n.kind.children kind.children extra) :
    (prepared t extra).span old = .ok n.span := by
  rcases extra with _ | ⟨k, s⟩
  · exact Tree.span_eq hold
  · have hbelow : ∀ c ∈ k.children, c ∈ n.kind.children := hgroups.mem_below
    have hself : old ∉ k.children := fun hmem ↦
      hforest.loopless old ((Tree.names_iff hold).mpr (hbelow old hmem))
    have hne : old ≠ t.nextId := Nat.ne_of_lt (Tree.lt_size_of_node? hold)
    have hsize : ∀ c ∈ k.children, c < t.slots.size := fun c hc ↦
      hforest.child_lt_size hold (hbelow c hc)
    refine Tree.span_eq (n := n) ?_
    rw [prepared, t.node?_alloc k s hsize, if_neg hne, if_neg hself, hold]

theorem installForm_eq (hforest : t.Forest) (hold : t.node? old = some n)
    (hrecast : Tree.Recast callSpan n.span t.nextId n.kind (.cond form) extra)
    (reason : String) :
    ∃ t', installForm old form reason (prepared t extra) = .ok (t.replacement extra) t' ∧
      Tree.Replaced t old n (.cond form) extra t' := by
  have hgroups := hrecast.regroups_of_forest hforest hold
  unfold installForm
  rw [bind_eq (ask_eq (span_prepared hforest hold hgroups)), bind_eq (alloc_prepared ..)]
  exact replaceSelf_grown hforest hold hgroups reason

/-- Replacing by the generic form. Assumes: a form that can be given up. -/
theorem installGeneric_eq (callSpan : Span) (hforest : t.Forest) (hold : t.node? old = some n)
    (hkind : n.kind = .cond form) (hgives : form.isRestricted = true ∨ form.readsOperand = true) :
    ∃ t' c b e extra, installGeneric old t = .ok (t.replacement extra) t' ∧
      Tree.Replaced t old n (.cond (.generic c b e)) extra t' ∧
      Tree.Recast callSpan n.span t.nextId n.kind (.cond (.generic c b e)) extra := by
  unfold installGeneric
  rw [bind_eq (ask_eq (Tree.kind_eq hold)), hkind]
  cases form with
  | generic | returnBuiltin | returnOverridden =>
    simp [Conditional.isRestricted, Conditional.readsOperand] at hgives
  | noElse c b =>
    have hrecast : Tree.Recast callSpan n.span t.nextId (.cond (.noElse c b))
      (.cond (.generic c b t.nextId)) (some (.constant .null, n.span)) := .addElse c b
    rw [← hkind] at hrecast
    obtain ⟨t', hinstall, hreplaced⟩ :=
      installForm_eq hforest hold hrecast "condition is not a non-NA logical"
    refine ⟨t', c, b, t.nextId, _, ?_, hreplaced, by rw [← hkind]; exact hrecast⟩
    show (ask _ >>= _) t = _
    rw [bind_eq (ask_eq (Tree.span_eq hold))]
    exact hinstall
  | twoBranch c b e =>
    have hrecast : Tree.Recast callSpan n.span t.nextId (.cond (.twoBranch c b e))
      (.cond (.generic c b e)) none := .relax c b e
    rw [← hkind] at hrecast
    obtain ⟨t', hinstall, hreplaced⟩ :=
      installForm_eq hforest hold hrecast "condition is not a non-NA logical"
    exact ⟨t', c, b, e, none, hinstall, hreplaced, by rw [← hkind]; exact hrecast⟩
  | const c b e k =>
    have hrecast : Tree.Recast callSpan n.span t.nextId (.cond (.const c b e k))
      (.cond (.generic c b e)) none := .dropConstant c b e k
    rw [← hkind] at hrecast
    obtain ⟨t', hinstall, hreplaced⟩ :=
      installForm_eq hforest hold hrecast "operand shape not supported"
    exact ⟨t', c, b, e, none, hinstall, hreplaced, by rw [← hkind]; exact hrecast⟩
  | specialized c b e k =>
    have hrecast : Tree.Recast callSpan n.span t.nextId (.cond (.specialized c b e k))
      (.cond (.generic c b e)) none := .dropComparator c b e k
    rw [← hkind] at hrecast
    obtain ⟨t', hinstall, hreplaced⟩ :=
      installForm_eq hforest hold hrecast "operand shape not supported"
    exact ⟨t', c, b, e, none, hinstall, hreplaced, by rw [← hkind]; exact hrecast⟩

theorem installSpecialized_eq (callSpan : Span) (hforest : t.Forest) (hold : t.node? old = some n)
    {b e : NodeId} {k : Scalar} (hkind : n.kind = .cond (.const c b e k)) {v : Value}
    {comparator : Comparator} (hshapes : Comparator.forShapes? v k = some comparator) :
    ∃ t', installSpecialized old comparator t = .ok t.nextId t' ∧
      Tree.Replaced t old n (.cond (.specialized c b e comparator)) none t' ∧
      Tree.Recast callSpan n.span t.nextId n.kind
        (.cond (.specialized c b e comparator)) none := by
  have hrecast : Tree.Recast callSpan n.span t.nextId (.cond (.const c b e k))
    (.cond (.specialized c b e comparator)) none := .specialize c b e hshapes
  rw [← hkind] at hrecast
  obtain ⟨t', hinstall, hreplaced⟩ :=
    installForm_eq hforest hold hrecast "first operand observed"
  refine ⟨t', ?_, hreplaced, hrecast⟩
  unfold installSpecialized
  rw [bind_eq (ask_eq (Tree.kind_eq hold)), hkind]
  exact hinstall

theorem widenConversion_eq (callSpan : Span) (hforest : t.Forest) (hold : t.node? old = some n)
    {input : NodeId} {mode : ConvertMode} (hkind : n.kind = .convert input mode) :
    ∃ t', widenConversion old t = .ok t.nextId t' ∧
      Tree.Replaced t old n (.convert input .generic) none t' ∧
      Tree.Recast callSpan n.span t.nextId n.kind (.convert input .generic) none := by
  have hrecast : Tree.Recast callSpan n.span t.nextId (.convert input mode)
    (.convert input .generic) none := .widen input mode
  rw [← hkind] at hrecast
  have hgroups := hrecast.regroups_of_forest hforest hold
  obtain ⟨t', hinstall, hreplaced⟩ :=
    replaceSelf_grown hforest hold hgroups "condition changed type"
  refine ⟨t', ?_, hreplaced, hrecast⟩
  unfold widenConversion
  rw [bind_eq (ask_eq (Tree.kind_eq hold)), hkind]
  show (ask _ >>= _) t = _
  rw [bind_eq (ask_eq (Tree.span_eq hold))]
  exact hinstall

theorem overrideReturn_builtin (callSpan : Span) (hforest : t.Forest) (hold : t.node? old = some n)
    {body : Option NodeId} {arg rest : NodeId}
    (hkind : n.kind = .cond (.returnBuiltin c body arg rest)) :
    ∃ t' call, overrideReturn old callSpan t = .ok () t' ∧
      Tree.Replaced t old n (.cond (.returnOverridden c body call rest))
        (some (.call "return" [arg], callSpan)) t' ∧
      Tree.Recast callSpan n.span t.nextId n.kind (.cond (.returnOverridden c body call rest))
        (some (.call "return" [arg], callSpan)) := by
  have hrecast : Tree.Recast callSpan n.span t.nextId (.cond (.returnBuiltin c body arg rest))
    (.cond (.returnOverridden c body t.nextId rest)) (some (.call "return" [arg], callSpan)) :=
    .override c body arg rest
  rw [← hkind] at hrecast
  obtain ⟨t', hinstall, hreplaced⟩ := installForm_eq hforest hold hrecast "return rebound"
  refine ⟨t', t.nextId, ?_, hreplaced, hrecast⟩
  have hget : (get : Edit Tree) t = .ok t t := rfl
  unfold overrideReturn
  rw [bind_eq hget, Tree.resolve_of_node? hold]
  show (ask (·.kind old) >>= _) t = _
  rw [bind_eq (ask_eq (Tree.kind_eq hold)), hkind]
  show (installForm old (.returnOverridden c body t.nextId rest) "return rebound" >>= _)
    (prepared t (some (.call "return" [arg], callSpan))) = _
  rw [bind_eq hinstall]
  rfl

/-! ### Conversion steps -/

theorem slots_hung_parent (hpn : p ≠ c) (hp : t.node? p = some n) (old : NodeId) :
    (hung t p old c).slots[p]? = some (.live { n with kind := n.kind.replaceChild old c }) := by
  rw [hung, Tree.slots_modifyLive, if_neg hpn, Tree.slots_modifyLive, if_pos rfl,
    Tree.node?_eq_some_iff.mp hp]
  rfl

theorem slots_hung_of_ne {i new : NodeId} (hip : i ≠ p) (hi : i ≠ new) (old : NodeId) :
    (hung t p old new).slots[i]? = t.slots[i]? := by
  rw [hung, Tree.slots_modifyLive, if_neg hi, Tree.slots_modifyLive, if_neg hip]

section Conversion

variable {child : Node} (hchild : t.node? c = some child) (mode : ConvertMode)

include hchild

/-- A conversion step above a node, not yet named by its parent. -/
theorem slots_alloc_convert (i : NodeId) : (t.alloc (.convert c mode) child.span).slots[i]? =
    if i = t.nextId then some (.live ⟨.convert c mode, child.span, none⟩)
    else if i = c then some (.live (Tree.adopted t.nextId child))
    else t.slots[i]? := by
  have hclt : c < t.slots.size := Tree.lt_size_of_node? hchild
  have hsize : ∀ d ∈ (NodeKind.convert c mode).children, d < t.slots.size := by
    intro d hd
    rw [List.mem_singleton.mp hd]
    exact hclt
  rw [t.slots_alloc (.convert c mode) child.span hsize]
  simp only [NodeKind.children, List.mem_singleton]
  split_ifs with hnew hic
  · rfl
  · rw [hic, Tree.node?_eq_some_iff.mp hchild]
    rfl
  · rfl

/-- Assumes: the step is named by the parent in place of the child. -/
theorem wrapped_hung (hforest : t.Forest) (hp : t.node? p = some n) (hmem : c ∈ n.kind.children)
    (hslots : t'.slots = (hung (t.alloc (.convert c mode) child.span) p c t.nextId).slots)
    (hgeneration : t'.generation = t.generation + 1)
    (hlog : ∃ reason, t'.log = t.log.push ⟨t.generation + 1, c, t.nextId, child.kind.name,
      (NodeKind.convert c mode).name, reason⟩) : Tree.Wrapped t p c n child mode t' := by
  have hpc : p ≠ c := Ne.symm (hforest.child_ne hp hmem)
  have hpn : p ≠ t.nextId := Nat.ne_of_lt (Tree.lt_size_of_node? hp)
  have hcn : c ≠ t.nextId := Nat.ne_of_lt (Tree.lt_size_of_node? hchild)
  have hstep := slots_alloc_convert hchild mode
  refine ⟨hp, hchild, hmem, ?_, hgeneration, hlog, ?_, ?_, ?_, ?_⟩
  · rw [hslots, hung, Tree.size_modifyLive, Tree.size_modifyLive, Tree.size_alloc]
  · have hparent : (t.alloc (.convert c mode) child.span).node? p = some n := by
      rw [Tree.node?, hstep, if_neg hpn, if_neg hpc]
      exact hp
    rw [hslots, slots_hung_parent hpn hparent]
  · rw [hslots, slots_hung_of_ne (Ne.symm hpc) hcn, hstep, if_neg hcn, if_pos rfl]
  · have hnew : (t.alloc (.convert c mode) child.span).node? t.nextId =
        some ⟨.convert c mode, child.span, none⟩ := by
      rw [Tree.node?, hstep, if_pos rfl]
      rfl
    rw [hslots, slots_hung_new c hpn hnew]
  · intro i hi hip hic
    have hin : i ≠ t.nextId := Nat.ne_of_lt hi
    rw [hslots, slots_hung_of_ne hip hin, hstep, if_neg hin, if_neg hic]

end Conversion

theorem installConversion_eq (hforest : t.Forest) (hp : t.node? p = some n)
    (hmem : c ∈ n.kind.children) (mode : ConvertMode) :
    ∃ child t', t.node? c = some child ∧ installConversion p c mode t = .ok t.nextId t' ∧
      Tree.Wrapped t p c n child mode t' := by
  obtain ⟨child, hchild, _⟩ := hforest.exists_child hp hmem
  have hpc : p ≠ c := Ne.symm (hforest.child_ne hp hmem)
  have hpn : p ≠ t.nextId := Nat.ne_of_lt (Tree.lt_size_of_node? hp)
  have hcn : c ≠ t.nextId := Nat.ne_of_lt (Tree.lt_size_of_node? hchild)
  have hstep := slots_alloc_convert hchild mode
  let u := t.alloc (.convert c mode) child.span
  have hparent : u.node? p = some n := by
    rw [Tree.node?, hstep, if_neg hpn, if_neg hpc]
    exact hp
  have hnew : u.node? t.nextId = some ⟨.convert c mode, child.span, none⟩ := by
    rw [Tree.node?, hstep, if_pos rfl]
    rfl
  have hwritten : (u.modifyLive p fun n ↦ { n with kind := n.kind.replaceChild c t.nextId }).node?
      t.nextId = some ⟨.convert c mode, child.span, none⟩ := by
    rw [Tree.node?, Tree.slots_modifyLive, if_neg (Ne.symm hpn)]
    exact hnew
  have hbelow : (hung u p c t.nextId).node? c = some (Tree.adopted t.nextId child) := by
    rw [Tree.node?, slots_hung_of_ne (Ne.symm hpc) hcn, hstep, if_neg hcn, if_pos rfl]
    rfl
  have habove := Tree.node?_eq_some_iff.mpr (slots_hung_new c hpn hnew)
  obtain ⟨t', hrecord, hslots, hgeneration, hlog⟩ :=
    record_eq hbelow habove "condition is not a scalar logical"
  rw [history_hung.1, Tree.generation_alloc] at hgeneration hlog
  rw [history_hung.2, Tree.log_alloc] at hlog
  refine ⟨child, t', hchild, ?_,
    wrapped_hung hchild mode hforest hp hmem hslots hgeneration ⟨_, hlog⟩⟩
  have halloc : alloc (.convert c mode) child.span t = .ok t.nextId u := rfl
  unfold installConversion insertAbove
  rw [bind_eq (ask_eq (Tree.span_eq hchild)), bind_eq (ask_eq (Tree.kind_eq hp)), if_pos hmem,
    bind_eq halloc, bind_eq (writeChild_eq hparent hmem), bind_eq (modifyNode_eq _ hwritten)]
  exact bind_eq hrecord

end AdaptiveTree.Edit
