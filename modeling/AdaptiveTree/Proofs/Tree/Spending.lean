import AdaptiveTree.Proofs.Tree.Budget

/-!
What an adaptation does to the conditionals of a tree. It is one splice, taken by one conditional
whose budget it lowers; every other conditional is where it was and has the budget it had.
-/

set_option autoImplicit false
set_option relaxedAutoImplicit false

namespace AdaptiveTree.Tree

variable {t t' : Tree} {x c owner : NodeId} {n : Node} {k : NodeKind} {form : Conditional}
  {e : SpliceEvent}

/-- The splice `e` was paid for by the conditional `owner`. -/
structure Spends (t : Tree) (e : SpliceEvent) (owner : NodeId) (t' : Tree) : Prop where
  generation : t'.generation = t.generation + 1
  log : t'.log = t.log.push e
  size_le : t.slots.size ≤ t'.slots.size
  live : ∃ k, t.kind? e.old = some k
  fresh : t.slots.size ≤ e.new
  owned : ∃ form, t.kind? owner = some (.cond form)
  takes : ∀ x form, t.kind? x = some (.cond form) →
    (Site.takes ⟨x, form.cond⟩ e = true ↔ x = owner)
  follow : ∀ x form, t.kind? x = some (.cond form) →
    t'.site? (Site.follow ⟨x, form.cond⟩ e).node = some (Site.follow ⟨x, form.cond⟩ e)
  budget : ∀ x form, t.kind? x = some (.cond form) →
    t'.budgetAt (Site.follow ⟨x, form.cond⟩ e).node + (if x = owner then 1 else 0) ≤ t.budgetAt x
  arises : ∀ x' form', t'.kind? x' = some (.cond form') →
    ∃ x form, t.kind? x = some (.cond form) ∧ (Site.follow ⟨x, form.cond⟩ e).node = x'
  gone : ∀ x, t.Gone x → t'.Gone x

/-- Every conversion step is the condition of a conditional. -/
def StepsTest (t : Tree) : Prop := ∀ x input mode, t.kind? x = some (.convert input mode) →
  ∃ p form, t.kind? p = some (.cond form) ∧ form.cond = x

/-! ### Renamed conditionals -/

theorem site_of_renamed {old new : NodeId}
    (hx : t'.kind? x = some ((NodeKind.cond form).replaceChild old new)) :
    t'.site? x = some ⟨x, if old = form.cond then new else form.cond⟩ ∧
      t'.budgetAt x =
        form.replacements + t'.conversions (if old = form.cond then new else form.cond) := by
  obtain ⟨form', hform', hcond, hreplacements⟩ := NodeKind.exists_replaceChild_form form old new
  rw [hform'] at hx
  rw [site?_of_cond hx, budgetAt_of_cond hx, hcond, hreplacements]
  exact ⟨rfl, rfl⟩

theorem Forest.mem_cond (h : t.Forest) (hx : t.kind? x = some (.cond form)) :
    t.Names x form.cond ∧ ∃ k, t.kind? form.cond = some k := by
  refine h.kind?_child hx ?_
  obtain ⟨rest, hrest⟩ := form.exists_children_eq
  rw [NodeKind.children, hrest]
  exact List.mem_cons_self ..

theorem gone_of_persists (h : Persists t t') (hsize : t.slots.size ≤ t'.slots.size)
    (hx : t.Gone x) : t'.Gone x := by
  obtain ⟨hlt, hnone⟩ := hx
  refine ⟨Nat.lt_of_lt_of_le hlt hsize, ?_⟩
  unfold node? at hnone ⊢
  rcases hslot : t.slots[x]? with _ | m | link | _
  · exact absurd (Array.getElem?_eq_none_iff.mp hslot) (Nat.not_le.mpr hlt)
  · rw [hslot] at hnone
    cases hnone
  · rw [h.retired hslot]
    rfl
  · rw [h.discarded hslot]
    rfl

/-! ### Replacing a conditional -/

/-- No conditional is added below a recast node. -/
theorem Recast.ne_cond {callSpan span s : Span} {fresh : NodeId} {before after : NodeKind}
    {extra : Option (NodeKind × Span)} (h : Recast callSpan span fresh before after extra)
    (hextra : extra = some (k, s)) : k ≠ .cond form := by
  cases h <;> cases hextra <;> simp

namespace Replaced

variable {old : NodeId} {kind : NodeKind} {extra : Option (NodeKind × Span)} {callSpan : Span}

theorem renames (h : Replaced t old n kind extra t') (hforest : t.Forest) :
    t.Renames old (t.replacement extra) t' := by
  intro x k hx hne
  obtain ⟨m, hm, rfl⟩ := kind?_eq_some_iff.mp hx
  refine kind?_eq_some_iff.mpr ⟨_, h.node?_other hm hne, ?_⟩
  simp only [refit]
  split_ifs with hparent
  · rfl
  · refine (NodeKind.replaceChild_of_not_mem fun hmem ↦ hparent ?_).symm
    rw [← Tree.parent?_eq h.node]
    exact (hforest.owned x old).mp ((Tree.names_iff hm).mpr hmem)

theorem kind?_new (h : Replaced t old n kind extra t') :
    t'.kind? (t.replacement extra) = some kind :=
  kind?_eq_some_iff.mpr ⟨_, h.node?_new, rfl⟩

theorem cases_cond (h : Replaced t old n kind extra t')
    (hrecast : Recast callSpan n.span t.nextId n.kind kind extra)
    (hx : t'.kind? x = some (.cond form)) :
    (x = t.replacement extra ∧ kind = .cond form) ∨
      x ≠ old ∧ ∃ form', t.kind? x = some (.cond form') := by
  obtain ⟨m', hm', hkind⟩ := kind?_eq_some_iff.mp hx
  rcases h.cases_node? hm' with ⟨rfl, rfl⟩ | ⟨k, s, hextra, _, rfl⟩ | ⟨m, hm, hne, rfl⟩
  · exact Or.inl ⟨rfl, hkind⟩
  · exact absurd hkind (hrecast.ne_cond hextra)
  · refine Or.inr ⟨hne, ?_⟩
    have hshape : m.kind.shape = (NodeKind.cond form).shape := by
      rw [← hkind, shape_refit]
    obtain ⟨form', hform', _⟩ := NodeKind.eq_cond_of_shape hshape
    exact ⟨form', kind?_eq_some_iff.mpr ⟨m, hm, hform'⟩⟩

end Replaced

/-- A recast conditional keeps its condition and is less hopeful. -/
theorem Recast.exists_cond {callSpan span : Span} {fresh : NodeId} {after : NodeKind}
    {extra : Option (NodeKind × Span)}
    (h : Recast callSpan span fresh (.cond form) after extra) :
    ∃ form', after = .cond form' ∧ form'.cond = form.cond ∧
      form'.replacements < form.replacements := by
  cases h <;> exact ⟨_, rfl, rfl, by simp [Conditional.replacements]⟩

theorem Replaced.spends_cond {old : NodeId} {kind : NodeKind} {extra : Option (NodeKind × Span)}
    {callSpan : Span} (h : Replaced t old n kind extra t')
    (hrecast : Recast callSpan n.span t.nextId n.kind kind extra) (hforest : t.Forest)
    (hkind : n.kind = .cond form) : ∃ e, t.Spends e old t' := by
  obtain ⟨reason, hlog⟩ := h.log
  have hold : t.kind? old = some (.cond form) := kind?_eq_some_iff.mpr ⟨n, h.node, hkind⟩
  obtain ⟨form', hform', hcond, hless⟩ := (hkind ▸ hrecast).exists_cond
  have hnew : t'.kind? (t.replacement extra) = some (.cond form') := hform' ▸ h.kind?_new
  have hevolves := h.evolves hforest (hrecast.regroups_of_forest hforest h.node)
  have hstep : SpliceEvent.isStep ⟨t.generation + 1, old, t.replacement extra, n.kind.name,
      kind.name, reason⟩ = false := SpliceEvent.isStep_of_cond (congrArg NodeKind.name hform')
  have hrenames := h.renames hforest
  have hinput : ∀ x mode, t.kind? x = some (.convert old mode) →
      t'.compares (t.replacement extra) = t.compares old := by
    intro x mode _
    rw [compares, compares, hold, hnew]
    rfl
  have hconversions (c : NodeId) (hc : ∃ k, t.kind? c = some k) :
      t'.conversions (if old = c then t.replacement extra else c) = t.conversions c := by
    obtain ⟨k, hk⟩ := hc
    split_ifs with hoc
    · rw [← hoc, conversions_of_plain hold rfl, conversions_of_plain hnew rfl]
      rfl
    · exact hrenames.conversions_eq hforest hinput hk (Ne.symm hoc)
  have hself : old ≠ form.cond := by
    intro heq
    exact hforest.loopless old (heq ▸ (hforest.mem_cond hold).1)
  refine ⟨_, h.generation, hlog, hevolves.size_le, ⟨_, hold⟩, ?_, ⟨form, hold⟩, ?_, ?_, ?_, ?_,
    fun x ↦ gone_of_persists hevolves.persists hevolves.size_le⟩
  · exact Nat.le_of_not_lt fun hlt ↦
      Nat.lt_irrefl _ (Replaced.lt_replacement t extra hlt)
  · intro x formx _
    simp [Site.takes, hstep, eq_comm]
  · intro x formx hx
    by_cases hxo : old = x
    · subst hxo
      obtain rfl := NodeKind.cond.inj (Option.some.inj (hold.symm.trans hx))
      simp only [Site.follow, hstep, if_neg hself, true_and, if_pos]
      rw [site?_of_cond hnew, hcond]
    · simp only [Site.follow, hxo, and_false, if_false]
      exact (site_of_renamed (hrenames x _ hx (Ne.symm hxo))).1
  · intro x formx hx
    by_cases hxo : old = x
    · subst hxo
      obtain rfl := NodeKind.cond.inj (Option.some.inj (hold.symm.trans hx))
      simp only [Site.follow, hstep, true_and, if_true]
      have hsame := hconversions _ (hforest.mem_cond hold).2
      rw [if_neg hself] at hsame
      rw [budgetAt_of_cond hnew, budgetAt_of_cond hold, hcond, hsame]
      omega
    · simp only [Site.follow, hxo, and_false, if_false]
      rw [if_neg (Ne.symm hxo), (site_of_renamed (hrenames x _ hx (Ne.symm hxo))).2,
        hconversions _ (hforest.mem_cond hx).2, budgetAt_of_cond hx]
      exact Nat.le_refl _
  · intro x' formx' hx'
    rcases h.cases_cond hrecast hx' with ⟨rfl, _⟩ | ⟨hne, formx, hx⟩
    · refine ⟨old, form, hold, ?_⟩
      simp [Site.follow, hstep]
    · refine ⟨x', formx, hx, ?_⟩
      simp [Site.follow, Ne.symm hne]

/-! ### Conversion steps -/

/-- A step in the place of the condition `old` of the conditional `p`. Assumes: the new condition
needs fewer conversions than the old one, and every other node as many as before. -/
theorem spends_step {p : NodeId} (hforest : t.Forest) (hevolves : Evolves t t')
    (hgeneration : t'.generation = t.generation + 1) (hlog : t'.log = t.log.push e)
    (hfresh : t.slots.size ≤ e.new) (hstep : e.isStep = true)
    (howner : t.kind? p = some (.cond form)) (hcond : form.cond = e.old)
    (hrenamed : ∀ x form, t.kind? x = some (.cond form) →
      t'.kind? x = some ((NodeKind.cond form).replaceChild e.old e.new))
    (harises : ∀ x form, t'.kind? x = some (.cond form) → ∃ form', t.kind? x = some (.cond form'))
    (hless : t'.conversions e.new < t.conversions e.old)
    (hsame : ∀ c k, t.kind? c = some k → c ≠ e.old → t'.conversions c = t.conversions c) :
    t.Spends e p t' := by
  have hunique : ∀ x formx, t.kind? x = some (.cond formx) → (e.old = formx.cond ↔ x = p) := by
    intro x formx hx
    constructor
    · intro heq
      have hnames := (hforest.mem_cond hx).1
      rw [← heq, ← hcond] at hnames
      have hparent := (hforest.owned p form.cond).mp (hforest.mem_cond howner).1
      exact Option.some.inj (((hforest.owned x form.cond).mp hnames).symm.trans hparent)
    · rintro rfl
      obtain rfl := NodeKind.cond.inj (Option.some.inj (howner.symm.trans hx))
      exact hcond.symm
  have hfollow : ∀ x formx,
      Site.follow ⟨x, formx⟩ e = ⟨x, if e.old = formx then e.new else formx⟩ := by
    intro x formx
    simp [Site.follow, hstep]
  refine ⟨hgeneration, hlog, hevolves.size_le, hcond ▸ (hforest.mem_cond howner).2, hfresh,
    ⟨form, howner⟩, ?_, ?_, ?_, ?_,
    fun x ↦ gone_of_persists hevolves.persists hevolves.size_le⟩
  · intro x formx hx
    rw [← hunique x formx hx]
    simp [Site.takes, hstep]
  · intro x formx hx
    rw [hfollow]
    exact (site_of_renamed (hrenamed x formx hx)).1
  · intro x formx hx
    rw [hfollow, (site_of_renamed (hrenamed x formx hx)).2, budgetAt_of_cond hx]
    by_cases hold : e.old = formx.cond
    · rw [if_pos hold, if_pos ((hunique x formx hx).mp hold), ← hold]
      omega
    · obtain ⟨k, hk⟩ := (hforest.mem_cond hx).2
      rw [if_neg hold, if_neg fun hxp ↦ hold ((hunique x formx hx).mpr hxp),
        hsame _ k hk (Ne.symm hold)]
      exact Nat.le_refl _
  · intro x' formx' hx'
    obtain ⟨formx, hx⟩ := harises x' formx' hx'
    exact ⟨x', formx, hx, by rw [hfollow]⟩

/-- Assumes: a step for one type that stands above no comparison. -/
theorem Replaced.spends_widen {old input : NodeId} {mode : ConvertMode} {callSpan : Span}
    {kind : NodeKind} {extra : Option (NodeKind × Span)} (h : Replaced t old n kind extra t')
    (hrecast : Recast callSpan n.span t.nextId n.kind kind extra) (hforest : t.Forest)
    (hsteps : t.StepsTest) (hkind : n.kind = .convert input mode) (hmode : mode ≠ .generic)
    (hinput : ¬ t.IsCompare input) : ∃ e owner, t.Spends e owner t' := by
  obtain ⟨reason, hlog⟩ := h.log
  have hold : t.kind? old = some (.convert input mode) :=
    kind?_eq_some_iff.mpr ⟨n, h.node, hkind⟩
  obtain ⟨rfl, rfl⟩ : kind = .convert input .generic ∧ extra = none := by
    rw [hkind] at hrecast
    cases hrecast
    exact ⟨rfl, rfl⟩
  obtain ⟨p, form, howner, hcond⟩ := hsteps old input mode hold
  have hrenames := h.renames hforest
  have hne : ∀ x form, t.kind? x = some (.cond form) → x ≠ old := by
    rintro x form hx rfl
    cases hx.symm.trans hold
  have hplain : t.compares input = false := Bool.eq_false_iff.mpr fun hcompares ↦
    hinput (compares_iff.mp hcompares)
  refine ⟨_, p, spends_step hforest (h.evolves hforest (hrecast.regroups_of_forest hforest h.node))
    h.generation hlog ?_ (SpliceEvent.isStep_of_convert rfl) howner hcond
    (fun x form hx ↦ hrenames x _ hx (hne x form hx)) ?_ ?_ ?_⟩
  · exact Nat.le_of_not_lt fun hlt ↦
      Nat.lt_irrefl _ (Replaced.lt_replacement t none hlt)
  · intro x formx hx
    rcases h.cases_cond hrecast hx with ⟨_, hcond⟩ | ⟨_, hx⟩
    · cases hcond
    · exact hx
  · rw [conversions_of_convert h.kind?_new, conversions_of_convert hold, hplain]
    simp [hmode]
  · intro c k hc hne
    refine hrenames.conversions_eq hforest (fun x mode' hx ↦ ?_) hc hne
    rw [compares, compares, h.kind?_new, hold]
    rfl

namespace Wrapped

variable {p : NodeId} {child : Node} {mode : ConvertMode}

theorem renames (h : Wrapped t p c n child mode t') (hforest : t.Forest)
    (hx : t.kind? x = some k) : t'.kind? x = some (k.replaceChild c t.nextId) := by
  obtain ⟨m, hm, rfl⟩ := kind?_eq_some_iff.mp hx
  obtain ⟨m', hm', _, hkind, _⟩ := h.exists_node? hforest hm
  refine kind?_eq_some_iff.mpr ⟨m', hm', ?_⟩
  rw [hkind]
  split_ifs with hp
  · rfl
  · refine (NodeKind.replaceChild_of_not_mem fun hmem ↦ hp ?_).symm
    have hparent := (hforest.owned p c).mp ((Tree.names_iff h.node).mpr h.mem)
    have hparent' := (hforest.owned x c).mp ((Tree.names_iff hm).mpr hmem)
    exact Option.some.inj (hparent'.symm.trans hparent)

theorem spends (h : Wrapped t p form.cond n child mode t') (hforest : t.Forest)
    (hform : n.kind = .cond form) (hplain : child.kind.isConversion = false) :
    ∃ e owner, t.Spends e owner t' := by
  obtain ⟨reason, hlog⟩ := h.log
  have howner : t.kind? p = some (.cond form) := kind?_eq_some_iff.mpr ⟨n, h.node, hform⟩
  have hchild : t.kind? form.cond = some child.kind :=
    kind?_eq_some_iff.mpr ⟨child, h.node_child, rfl⟩
  have hnew : t'.kind? t.nextId = some (.convert form.cond mode) :=
    kind?_eq_some_iff.mpr ⟨_, h.node?_new, rfl⟩
  have hrenames : t.Renames form.cond t.nextId t' := fun x k hx _ ↦ h.renames hforest hx
  refine ⟨_, p, spends_step hforest (h.evolves hforest) h.generation hlog (Nat.le_refl _)
    (SpliceEvent.isStep_of_convert rfl) howner rfl (fun x form hx ↦ h.renames hforest hx)
    ?_ ?_ ?_⟩
  · intro x formx hx
    obtain ⟨m', hm', hkind⟩ := kind?_eq_some_iff.mp hx
    rcases h.cases_node? hm' with ⟨_, rfl⟩ | ⟨rfl, rfl⟩ | ⟨rfl, rfl⟩ | ⟨_, _, hm⟩
    · cases hkind
    · exact ⟨form, howner⟩
    · exact ⟨formx, hchild.trans (congrArg some hkind)⟩
    · exact ⟨formx, kind?_eq_some_iff.mpr ⟨m', hm, hkind⟩⟩
  · have hcompares : t'.compares form.cond = child.kind.isCompare := by
      rw [compares, h.renames hforest hchild, Option.any_some,
        (child.kind.class_replaceChild _ _).1]
    rw [conversions_of_convert hnew, conversions_of_plain hchild hplain, hcompares]
    cases child.kind.isCompare
    · simp only [Bool.false_eq_true, or_false, if_false]
      split_ifs <;> decide
    · simp
  · intro c k hc hne
    refine hrenames.conversions_eq hforest (fun x mode' hx ↦ ?_) hc hne
    -- the child of a conditional is the input of no step
    have hparent := (hforest.owned p form.cond).mp (hforest.mem_cond howner).1
    have hparent' := (hforest.owned x form.cond).mp
      (hforest.kind?_child hx (List.mem_singleton.mpr rfl)).1
    obtain rfl := Option.some.inj (hparent'.symm.trans hparent)
    cases hx.symm.trans howner

end Wrapped

/-- Every adaptation is paid for by one conditional. -/
theorem Adaptation.spends {calls : NodeId → Span} {busy : NodeId → Prop}
    (h : Adaptation calls busy t t') (hforest : t.Forest) (hsteps : t.StepsTest) :
    ∃ e owner, t.Spends e owner t' := by
  cases h with
  | @replace old n kind extra hreplaced hrecast _ hwidens =>
    cases hkind : n.kind with
    | cond form =>
      obtain ⟨e, hspends⟩ := hreplaced.spends_cond hrecast hforest hkind
      exact ⟨e, old, hspends⟩
    | convert input mode =>
      obtain ⟨hmode, hinput⟩ := hwidens input mode hkind
      exact hreplaced.spends_widen hrecast hforest hsteps hkind hmode hinput
    | _ =>
      rw [hkind] at hrecast
      cases hrecast
  | wrap hwrapped hform _ hplain => exact hwrapped.spends hforest hform hplain

end AdaptiveTree.Tree
