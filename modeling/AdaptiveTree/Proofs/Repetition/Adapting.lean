import AdaptiveTree.Proofs.Repetition.Confinement

/-!
What one adaptation of a conditional leaves as it was. Another form reads the same condition, a
step put in between stands above it, and a wider step has the same input; what hangs below is not
touched.
-/

set_option autoImplicit false
set_option relaxedAutoImplicit false

namespace AdaptiveTree

open Machine (Later Sound)

variable {calls : NodeId → Span} {busy : NodeId → Prop} {t t' : Tree} {m m' : Machine}
  {x y : NodeId} {k : NodeKind} {n : Node} {form : Conditional} {sense : Conditional.Sense}
  {part : Part} {c : Expr}

theorem Conditional.isRestricted_iff (form : Conditional) :
    form.isRestricted = true ↔ form.sense = .present := by
  cases form <;> simp [isRestricted, sense]

namespace Tree

theorem resolve_resolved (h : t.resolve x = .ok y) : t.resolve y = .ok y := by
  obtain ⟨_, hlive⟩ := exists_node?_of_resolve h
  exact resolve_of_node? hlive

theorem Evolves.resolve_trans {z : NodeId} (h : Evolves t t') (hx : t.resolve x = .ok y)
    (hy : t'.resolve y = .ok z) : t'.resolve x = .ok z :=
  (h.persists.resolve_eq h.forest.ascending hx).trans hy

/-- A number leads to a conditional that expects something of the condition at `y`. -/
def Reads (t : Tree) (x : NodeId) (sense : Conditional.Sense) (y : NodeId) : Prop :=
  ∃ x' form, t.resolve x = .ok x' ∧ t.kind? x' = some (.cond form) ∧ form.sense = sense ∧
    form.cond = y

/-- Whoever led to a conditional leads to what it has become. -/
theorem Reads.of_resolve {x' : NodeId} (h : t'.Reads x' sense y) (hevolves : Evolves t t')
    (hresolve : t.resolve x = .ok x') : t'.Reads x sense y := by
  obtain ⟨x'', form, hx', hform⟩ := h
  exact ⟨x'', form, hevolves.resolve_trans hresolve hx', hform⟩

theorem Reads.of_kind? (hx : t.kind? x = some (.cond form)) : t.Reads x form.sense form.cond :=
  ⟨x, form, resolve_of_kind? hx, hx, rfl, rfl⟩

/-- A conditional that is being evaluated goes on reading what its condition becomes. -/
theorem Reads.later (h : t.Reads x sense y) (hforest : t.Forest) (hadapts : Adapts calls busy t t')
    (hbusy : busy x) : ∃ y', t'.resolve y = .ok y' ∧ t'.Reads x sense y' := by
  obtain ⟨x', form, hresolve, hx', rfl, rfl⟩ := h
  obtain ⟨x'', form', hresolve', hx'', hsense, hcond⟩ :=
    hadapts.exists_sense hforest hbusy hresolve hx'
  exact ⟨form'.cond, hcond, x'', form', hresolve', hx'', hsense, rfl⟩

theorem Keeps.reads (h : t.Keeps x (.cond form)) :
    ∃ y, t.resolve form.cond = .ok y ∧ t.Reads x form.sense y := by
  obtain ⟨ids, hx, hfollowed⟩ := h
  have hhead : ids.head? = some (form.withChildren ids).cond := by
    rw [← Conditional.head?_children, form.children_withChildren ids (Keeps.length_eq hfollowed)]
  exact ⟨_, hfollowed.head form.head?_children hhead, x, form.withChildren ids,
    resolve_of_kind? hx, hx, form.sense_withChildren ids, rfl⟩

theorem names_cond (hx : t.kind? x = some (.cond form)) : t.Names x form.cond :=
  names_iff_kind?.mpr ⟨_, hx, List.mem_of_mem_head? form.head?_children⟩

end Tree

/-- A live node of which one knows the kind. -/
theorem Tree.Forest.kind?_cond (h : t.Forest) (hx : t.kind? x = some (.cond form)) :
    ∃ k, t.kind? form.cond = some k := by
  obtain ⟨n, hn, hkind⟩ := Tree.kind?_eq_some_iff.mp hx
  obtain ⟨child, hchild, _⟩ := h.exists_child hn (c := form.cond)
    (hkind ▸ List.mem_of_mem_head? form.head?_children)
  exact ⟨child.kind, Tree.kind?_eq_some_iff.mpr ⟨child, hchild, rfl⟩⟩

/-! ### Another form -/

section Form

variable (hready : Ready calls busy m) (hshows : Shows calls busy m.tree x part)
  (hx : m.tree.kind? x = some (.cond form))

include hready hshows hx

theorem Ready.recast_form {extra : Option (NodeKind × Span)} {form' : Conditional}
    (hnode : m.tree.node? x = some n) (hplain : form.isTail = false)
    (hreplaced : Tree.Replaced m.tree x n (.cond form') extra t')
    (hrecast : Tree.Recast (calls x) n.span m.tree.nextId n.kind (.cond form') extra) :
    Later calls busy m { m with tree := t' } ∧
      t'.resolve x = .ok (m.tree.replacement extra) ∧
      t'.kind? (m.tree.replacement extra) = some (.cond form') ∧
      form'.cond = form.cond ∧ Tree.Spares m.tree t' form.cond := by
  obtain ⟨n', hn', hkind⟩ := Tree.kind?_eq_some_iff.mp hx
  obtain rfl := Option.some.inj (hnode.symm.trans hn')
  have hforest := hready.sound.forest
  have hbuiltin : n.kind.isBuiltinTail = false :=
    NodeKind.isBuiltinTail_of_isTail (by rw [hkind]; exact hplain)
  have hlater := hready.replace hreplaced hrecast (hshows.not_occupied hnode) hbuiltin
    (by simp [hkind])
  have hcond : form'.cond = form.cond := by
    rw [hkind] at hrecast
    cases hrecast <;> rfl
  refine ⟨hlater, hreplaced.resolve_old hlater.sound.forest.ascending,
    Tree.kind?_eq_some_iff.mpr ⟨_, hreplaced.node?_new, rfl⟩, hcond, ?_, fun hnone z hz ↦
      hnone z (hlater.adapts.isBuiltinTail_of hforest hz)⟩
  exact hreplaced.intact hforest (hforest.not_reaches_parent (Tree.names_cond hx))

/-- Giving up a form for the generic one. -/
theorem Ready.generalized (hgives : form.isRestricted = true ∨ form.readsOperand = true) :
    ∃ t' new, Eval.edit (Edit.installGeneric x) m = .ok new { m with tree := t' } ∧
      Later calls busy m { m with tree := t' } ∧ t'.resolve x = .ok new ∧
      t'.Reads x .any form.cond ∧ Tree.Spares m.tree t' form.cond := by
  obtain ⟨n, hn, hkind⟩ := Tree.kind?_eq_some_iff.mp hx
  have hplain : form.isTail = false := by
    cases form <;> first | rfl | simp [Conditional.isRestricted, Conditional.readsOperand] at hgives
  obtain ⟨t', c', b, e, extra, hinstall, hreplaced, hrecast⟩ :=
    Edit.installGeneric_eq (calls x) hready.sound.forest hn hkind hgives
  obtain ⟨hlater, hresolve, hnew, hcond, hspares⟩ :=
    hready.recast_form hshows hx hn hplain hreplaced hrecast
  refine ⟨t', _, Eval.edit_eq hinstall, hlater, hresolve, ?_, hspares⟩
  exact ⟨_, _, hresolve, hnew, rfl, hcond⟩

/-- Choosing a comparator for the operand seen. -/
theorem Ready.specialized {s : Scalar} {v : Value} {comparator : Comparator}
    (hsense : form.sense = .const s) (hshapes : Comparator.forShapes? v s = some comparator) :
    ∃ t' new, Eval.edit (Edit.installSpecialized x comparator) m = .ok new { m with tree := t' } ∧
      Later calls busy m { m with tree := t' } ∧ t'.resolve x = .ok new ∧
      t'.Reads x (.specialized comparator) form.cond ∧ Tree.Spares m.tree t' form.cond := by
  obtain ⟨n, hn, hkind⟩ := Tree.kind?_eq_some_iff.mp hx
  cases form with
  | const c' b e s' =>
    obtain rfl : s' = s := Conditional.Sense.const.inj hsense
    obtain ⟨t', hinstall, hreplaced, hrecast⟩ :=
      Edit.installSpecialized_eq (calls x) hready.sound.forest hn hkind hshapes
    obtain ⟨hlater, hresolve, hnew, _, hspares⟩ :=
      hready.recast_form hshows hx hn rfl hreplaced hrecast
    exact ⟨t', _, Eval.edit_eq hinstall, hlater, hresolve, ⟨_, _, hresolve, hnew, rfl, rfl⟩,
      hspares⟩
  | _ => cases hsense

/-! ### Steps -/

/-- Putting a step above a condition. -/
theorem Ready.wrapped (hreads : form.readsOperand = false) (hy : m.tree.kind? form.cond = some k)
    (hplain : k.isConversion = false) {mode : ConvertMode}
    (hmode : k.isCompare = true → mode = .logical) :
    ∃ t' step, Eval.edit (Edit.installConversion x form.cond mode) m =
        .ok step { m with tree := t' } ∧
      Later calls busy m { m with tree := t' } ∧
      t'.kind? step = some (.convert form.cond mode) ∧
      (∃ form', t'.kind? x = some (.cond form') ∧ form'.sense = form.sense ∧ form'.cond = step) ∧
      Tree.Spares m.tree t' form.cond := by
  obtain ⟨n, hn, hkind⟩ := Tree.kind?_eq_some_iff.mp hx
  have hforest := hready.sound.forest
  obtain ⟨child, t', hchild, hinstall, hwrapped⟩ := Edit.installConversion_eq hforest hn
    (c := form.cond) (hkind ▸ List.mem_of_mem_head? form.head?_children) mode
  obtain ⟨child', hchild', rfl⟩ := Tree.kind?_eq_some_iff.mp hy
  obtain rfl := Option.some.inj (hchild.symm.trans hchild')
  have hlater := hready.wrap hwrapped hkind hreads hplain (hshows.not_occupied hn) hmode
  obtain ⟨form', hform', hcond⟩ := NodeKind.exists_replaceChild_cond form m.tree.nextId
  have hsense : form'.sense = form.sense := by
    obtain rfl := NodeKind.cond.inj hform'
    exact form.sense_withChildren _
  refine ⟨t', m.tree.nextId, Eval.edit_eq hinstall, hlater,
    Tree.kind?_eq_some_iff.mpr ⟨_, hwrapped.node?_new, rfl⟩, ⟨form', ?_, hsense, hcond⟩, ?_,
    fun hnone z hz ↦ hnone z (hlater.adapts.isBuiltinTail_of hforest hz)⟩
  · refine Tree.kind?_eq_some_iff.mpr ⟨_, hwrapped.node?_parent, ?_⟩
    rw [← hform', ← hkind]
  · exact hwrapped.intact hforest (hforest.not_reaches_parent (Tree.names_cond hx))

end Form

/-- Widening the step that a conditional reads. -/
theorem Ready.widened (hready : Ready calls busy m)
    (hx : m.tree.Reads x sense y) {input : NodeId} {mode : ConvertMode}
    (hy : m.tree.kind? y = some (.convert input mode))
    (hshows : Shows calls busy m.tree y (.test c)) {v : Value} (hrejects : ¬ mode.accepts v)
    (hadmits : Reference.Admits c v) :
    ∃ t' step, Eval.edit (Edit.widenConversion y) m = .ok step { m with tree := t' } ∧
      Later calls busy m { m with tree := t' } ∧
      t'.kind? step = some (.convert input .generic) ∧ t'.Reads x sense step ∧
      Tree.Spares m.tree t' input := by
  obtain ⟨n, hn, hkind⟩ := Tree.kind?_eq_some_iff.mp hy
  have hforest := hready.sound.forest
  have hwidens := Eval.widens_of_not_accepts hready hn hkind hshows hrejects hadmits
  obtain ⟨t', hwiden, hreplaced, hrecast⟩ := Edit.widenConversion_eq (calls y) hforest hn hkind
  have hlater := hready.replace hreplaced hrecast (hshows.not_occupied hn) (by rw [hkind]; rfl)
    hwidens
  have hresolve := hreplaced.resolve_old hlater.sound.forest.ascending
  have hinput : m.tree.Names y input :=
    Tree.names_iff_kind?.mpr ⟨_, hy, List.mem_singleton.mpr rfl⟩
  refine ⟨t', _, Eval.edit_eq hwiden, hlater,
    Tree.kind?_eq_some_iff.mpr ⟨_, hreplaced.node?_new, rfl⟩, ?_,
    hreplaced.intact hforest (hforest.not_reaches_parent hinput),
    fun hnone z hz ↦ hnone z (hlater.adapts.isBuiltinTail_of hforest hz)⟩
  obtain ⟨x', form, hx', hform, rfl, rfl⟩ := hx
  obtain ⟨n', hn', hkind'⟩ := Tree.kind?_eq_some_iff.mp hform
  have hne : x' ≠ form.cond := by
    rintro heq
    rw [heq, hy] at hform
    cases hform
  have hkeeps := hreplaced.keeps hforest hlater.sound.forest hn' hne
  rw [hkind'] at hkeeps
  obtain ⟨z, hz, hreads⟩ := hkeeps.reads
  obtain rfl := Except.ok.inj (hresolve.symm.trans hz)
  exact hreads.of_resolve (hlater.adapts.evolves hforest) hx'

end AdaptiveTree
