import AdaptiveTree.Proofs.Simulation.Calls

/-!
Reading a condition. A conversion step gives the truth of its input, and a condition without a
step gives either its truth or a value that is still to be reduced; in both cases the condition
has been evaluated once.
-/

set_option autoImplicit false
set_option relaxedAutoImplicit false

namespace AdaptiveTree

open Machine (Later)

variable {calls : NodeId → Span} {busy : NodeId → Prop} {m : Machine} {id x : NodeId}
  {part : Part} {n : Node}

/-! ### Edits at a node that is not being evaluated -/

section Edits

variable {old : NodeId} {kind : NodeKind} {extra : Option (NodeKind × Span)} {t' : Tree}

theorem Ready.replace (hready : Ready calls busy m)
    (hreplaced : Tree.Replaced m.tree old n kind extra t')
    (hrecast : Tree.Recast (calls old) n.span m.tree.nextId n.kind kind extra)
    (hidle : ¬ m.tree.Occupied busy old) (hplain : n.kind.isBuiltinTail = false)
    (hwidens : ∀ input mode, n.kind = .convert input mode →
      mode ≠ .generic ∧ ¬ m.tree.IsCompare input) :
    Later calls busy m { m with tree := t' } := by
  refine hready.sound.adapt
    (.replace hreplaced hrecast (fun hb ↦ absurd hb hidle) hwidens) fun y ↦ ?_
  rw [hreplaced.isBuiltinTail_iff hrecast]
  refine and_iff_left_of_imp ?_
  rintro htail rfl
  cases hplain.symm.trans ((Tree.isBuiltinTail_iff hreplaced.node).mp htail)

theorem Ready.wrap (hready : Ready calls busy m) {child : Node} {mode : ConvertMode}
    {form : Conditional} (hwrapped : Tree.Wrapped m.tree x form.cond n child mode t')
    (hform : n.kind = .cond form) (hreads : form.readsOperand = false)
    (hplain : child.kind.isConversion = false) (hidle : ¬ m.tree.Occupied busy x)
    (hmode : child.kind.isCompare = true → mode = .logical) :
    Later calls busy m { m with tree := t' } :=
  hready.sound.adapt (.wrap hwrapped hform hreads hplain hidle hmode) fun _ ↦
    hwrapped.isBuiltinTail_iff hready.sound.forest

/-- A replacement shows what the node replaced showed. -/
theorem Shows.at_replacement (h : Shows calls busy m.tree old part) (hready : Ready calls busy m)
    (hreplaced : Tree.Replaced m.tree old n kind extra t')
    (hrecast : Tree.Recast (calls old) n.span m.tree.nextId n.kind kind extra)
    (hwidens : ∀ input mode, n.kind = .convert input mode → ¬ m.tree.IsCompare input) :
    Shows calls busy t' (m.tree.replacement extra) part := by
  have hforest' := hreplaced.forest hready.sound.forest
    (hrecast.regroups_of_forest hready.sound.forest hreplaced.node)
  exact (h.replaced hready.sound.forest hready.bounded hreplaced hrecast hwidens).resolved
    (hreplaced.resolve_old hforest'.ascending)

end Edits

namespace Eval

variable {exec : Evaluator} {e : Expr}

theorem follows_convertObserved (hready : Ready calls busy m)
    (hshows : Shows calls busy m.tree id part) (v : Value) :
    Follows calls busy Same m (Reference.truth part.span v m.world)
      (convertObserved id v m) := by
  unfold convertObserved Reference.truth
  rcases v.truth? with _ | ⟨l, _ | length⟩
  · exact follows_fail hready hshows .emptyExtent
  · exact .pure hready.sound
  · let warned := m.warn id "W001"
      "the condition has length > 1 and only the first element will be used"
    have hlater : Later calls busy m warned :=
      ⟨hready.sound.congr rfl rfl rfl, Relation.ReflTransGen.refl, rfl, fun _ _ hf ↦ hf⟩
    refine .ok hlater ?_
    show _ = EStateM.Result.ok l (World.mk _ _ (m.warnings.push ⟨.warning, _, m.spanOf id, _, _⟩))
    rw [hshows.spanOf_eq]
    rfl

/-- A step above a comparison accepts whatever the comparison gives. -/
theorem widens_of_not_accepts (hready : Ready calls busy m) {input : NodeId} {mode : ConvertMode}
    (hx : m.tree.node? x = some n) (hkind : n.kind = .convert input mode)
    (hshows : Shows calls busy m.tree x (.test e)) {v : Value} (hrejects : ¬ mode.accepts v)
    (hadmits : Reference.Admits e v) :
    ∀ input mode, n.kind = .convert input mode → mode ≠ .generic ∧ ¬ m.tree.IsCompare input := by
  intro input' mode' hkind'
  obtain ⟨rfl, rfl⟩ := NodeKind.convert.inj (hkind.symm.trans hkind')
  obtain ⟨parts, _, hfits, hbelow⟩ := hshows.children_at hready.sound.forest hx
  rw [hkind] at hfits hbelow
  refine ⟨?_, fun hcompare ↦ ?_⟩
  · rintro rfl
    exact hrejects rfl
  · obtain rfl := hfits.parts_of_convert
    obtain ⟨k, hk, _⟩ := id hcompare
    have hinput := hbelow (input, .value e) (List.mem_singleton.mpr rfl)
    have he := (hinput.isCompare_iff hk).mp hcompare
    refine hrejects ?_
    rw [ConvertMode.accepts, hadmits he, hfits.mode_of_convert he]
    rfl

/-- A step that does not accept the value of its input is still there to be widened. -/
theorem exists_widened (hready : Ready calls busy m) {input : NodeId} {mode : ConvertMode}
    (hx : m.tree.node? x = some n) (hkind : n.kind = .convert input mode)
    (hshows : Shows calls busy m.tree x (.test e)) {m₁ : Machine}
    (hinner : Later calls (Shows.inside busy x) m m₁) {v : Value} (hrejects : ¬ mode.accepts v)
    (hadmits : Reference.Admits e v) :
    ∃ step t', edit (Edit.widenConversion x) m₁ = .ok step { m₁ with tree := t' } ∧
      Later calls busy m₁ { m₁ with tree := t' } ∧ Shows calls busy t' step (.test e) := by
  have hlater : Later calls busy m m₁ := hinner.mono fun _ hy ↦ Or.inl hy
  have hready₁ := hready.later hlater
  have hshows₁ := hshows.later hready hlater
  obtain ⟨n₁, hx₁, hshape, _⟩ := hinner.adapts.kept hready.sound.forest hx (Or.inr rfl)
    (by simp [hkind])
  obtain ⟨input₁, hkind₁⟩ := NodeKind.eq_convert_of_shape (hkind ▸ hshape)
  obtain ⟨t', hwiden, hreplaced, hrecast⟩ :=
    Edit.widenConversion_eq (calls x) hready₁.sound.forest hx₁ hkind₁
  have hwidens := widens_of_not_accepts hready₁ hx₁ hkind₁ hshows₁ hrejects hadmits
  have hwidened := hready₁.replace hreplaced hrecast (hshows₁.not_occupied hx₁)
    (by rw [hkind₁]; rfl) hwidens
  exact ⟨_, t', edit_eq hwiden, hwidened, hshows₁.at_replacement hready₁ hreplaced hrecast
    fun input mode hkind ↦ (hwidens input mode hkind).2⟩

theorem follows_convert (hexec : Simulates calls exec) (hready : Ready calls busy m)
    {input : NodeId} {mode : ConvertMode} (hx : m.tree.node? x = some n)
    (hkind : n.kind = .convert input mode) (hshows : Shows calls busy m.tree x (.test e)) :
    Follows calls busy Same m (Reference.test e m.world) (convert exec x m) := by
  obtain ⟨parts, _, hfits, hbelow⟩ := hshows.children_at hready.sound.forest hx
  rw [hkind] at hfits hbelow
  obtain rfl := hfits.parts_of_convert
  have hinput := hbelow (input, .value e) (List.mem_singleton.mpr rfl)
  have hinside : ∀ y, busy y → Shows.inside busy x y := fun _ hy ↦ Or.inl hy
  unfold convert
  rw [bind_eq (ask_eq (Tree.kind_eq hx)), hkind]
  refine .bind_inside hinside (hexec.value (hready.inside hx) hinput) fun v m₁ hinner href ↦ ?_
  have hlater := hinner.mono hinside
  have hready₁ := hready.later hlater
  have hplan : Transition.plan? (.convert input mode) none v =
      if mode.accepts v then none else some .widenConversion := rfl
  rw [hplan]
  by_cases haccepts : mode.accepts v
  · rw [if_pos haccepts]
    exact follows_convertObserved hready₁ (hshows.later hready hlater) v
  · rw [if_neg haccepts]
    obtain ⟨step, t', hwiden, hwidened, hstep⟩ := exists_widened hready hx hkind hshows hinner
      haccepts (Reference.admits_of_expr href)
    show Follows _ _ _ _ _ ((edit (Edit.widenConversion x) >>= _) m₁)
    rw [bind_eq hwiden]
    exact (follows_convertObserved (hready₁.later hwidened) hstep v).after hwidened

theorem follows_scalarLogical (hexec : Simulates calls exec) (hready : Ready calls busy m)
    (hshows : Shows calls busy m.tree id (.test e)) :
    Follows calls busy (Sensed e fun l ↦ l) m (Reference.test e m.world)
      (scalarLogical exec id m) := by
  obtain ⟨x, n, hresolve, hnode, _⟩ := hshows.exists_node?
  have hshows' := hshows.resolved hresolve
  have hpure : (Reference.test e >>= Pure.pure) m.world = Reference.test e m.world := by
    rw [bind_pure]
  unfold scalarLogical
  rw [bind_eq (ask_eq hresolve), bind_eq (ask_eq (Tree.kind_eq hnode))]
  by_cases hconversion : n.kind.isConversion
  · cases hkind : n.kind with
    | convert input mode =>
      rw [← hpure]
      exact .bind (follows_convert hexec hready hnode hkind hshows') fun l m₁ hlater _ ↦
        .ok (.refl hlater.sound) rfl
    | _ =>
      rw [hkind] at hconversion
      cases hconversion
  · have hvalue := hshows'.value (Tree.resolve_of_node? hnode) hnode
      (Bool.eq_false_iff.mpr hconversion)
    cases hkind : n.kind with
    | convert => exact absurd (congrArg NodeKind.isConversion hkind) hconversion
    | _ =>
      refine .bind (hexec.value hready hvalue) fun v m₁ hlater href ↦ ?_
      split
      · exact .ok (.refl hlater.sound) rfl
      · exact .ok (.refl hlater.sound) ⟨rfl, Reference.admits_of_expr href⟩

theorem follows_presentLogical (hexec : Simulates calls exec) (hready : Ready calls busy m)
    (hshows : Shows calls busy m.tree id (.test e)) :
    Follows calls busy (Sensed e .ofBool) m (Reference.test e m.world)
      (presentLogical exec id m) := by
  have hpure : (Reference.test e >>= Pure.pure) m.world = Reference.test e m.world := by
    rw [bind_pure]
  unfold presentLogical
  rw [← hpure]
  refine .bind_sensed (follows_scalarLogical hexec hready hshows) (fun l m₁ hlater ↦ ?_)
    fun v m₁ hlater hadmits ↦ ?_
  · cases l with
    | no => exact .ok (.refl hlater.sound) rfl
    | yes => exact .ok (.refl hlater.sound) rfl
    | na => exact .ok (.refl hlater.sound) ⟨rfl, fun _ ↦ rfl⟩
  · refine .ok (.refl hlater.sound) ⟨?_, hadmits⟩
    rw [bind_pure]

end Eval

end AdaptiveTree
