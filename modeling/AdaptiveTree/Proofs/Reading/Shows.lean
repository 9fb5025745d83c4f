import AdaptiveTree.Proofs.Reading.Part
import AdaptiveTree.Proofs.Tree.Evolution

/-!
What a node shows of the source, with all that hangs below it. A number shows a part if it leads
to a live node that fits it and whose children show what they have to stand for, none of them
being evaluated. Adaptations do not change what a number shows.
-/

set_option autoImplicit false
set_option relaxedAutoImplicit false

namespace AdaptiveTree

inductive Shows (calls : NodeId → Span) (busy : NodeId → Prop) (t : Tree) :
    NodeId → Part → Prop
  | intro {id x : NodeId} {n : Node} {part : Part} {parts : List Part}
      (hresolve : t.resolve id = .ok x) (hnode : t.node? x = some n)
      (hidle : ¬ t.Occupied busy x)
      (hfits : Fits calls x n.kind n.span part parts)
      (hbelow : ∀ q ∈ n.kind.children.zip parts, Shows calls busy t q.1 q.2) :
    Shows calls busy t id part

namespace Shows

variable {calls calls' : NodeId → Span} {busy busy' : NodeId → Prop} {t t' : Tree}
  {id id' x c : NodeId} {n : Node} {part : Part}

theorem exists_node? (h : Shows calls busy t id part) :
    ∃ x n, t.resolve id = .ok x ∧ t.node? x = some n ∧ n.span = part.span := by
  cases h with
  | intro hresolve hnode _ hfits => exact ⟨_, _, hresolve, hnode, hfits.span_eq⟩

theorem not_occupied (h : Shows calls busy t x part) (hnode : t.node? x = some n) :
    ¬ t.Occupied busy x := by
  cases h with
  | intro hresolve _ hidle =>
    obtain rfl := Except.ok.inj ((Tree.resolve_of_node? hnode).symm.trans hresolve)
    exact hidle

/-- Comparisons are shown by nodes that compare. -/
theorem isCompare_iff {e : Expr} (h : Shows calls busy t x (.value e))
    (hnode : t.node? x = some n) : t.IsCompare x ↔ e.isCompare = true := by
  cases h with
  | intro hresolve hnode' _ hfits =>
    obtain rfl := Except.ok.inj ((Tree.resolve_of_node? hnode).symm.trans hresolve)
    rw [← hfits.isCompare_eq]
    constructor
    · rintro ⟨m, hm, hcompare⟩
      obtain rfl := Option.some.inj (hnode'.symm.trans hm)
      exact hcompare
    · exact fun hcompare ↦ ⟨_, hnode', hcompare⟩

theorem of_resolve_eq (h : Shows calls busy t id part) (heq : t.resolve id' = t.resolve id) :
    Shows calls busy t id' part := by
  cases h with
  | intro hresolve hnode hidle hfits hbelow =>
    exact .intro (heq.trans hresolve) hnode hidle hfits hbelow

theorem resolved (h : Shows calls busy t id part) (hresolve : t.resolve id = .ok x) :
    Shows calls busy t x part := by
  obtain ⟨n, hn⟩ := Tree.exists_node?_of_resolve hresolve
  exact h.of_resolve_eq ((Tree.resolve_of_node? hn).trans hresolve.symm)

theorem test {e : Expr} (h : Shows calls busy t id (.value e)) :
    Shows calls busy t id (.test e) := by
  cases h with
  | intro hresolve hnode hidle hfits hbelow =>
    exact .intro hresolve hnode hidle (.plain hfits) hbelow

/-- A condition without a conversion step shows its expression. -/
theorem value {e : Expr} (h : Shows calls busy t id (.test e)) (hresolve : t.resolve id = .ok x)
    (hnode : t.node? x = some n) (hplain : n.kind.isConversion = false) :
    Shows calls busy t id (.value e) := by
  cases h with
  | intro hresolve' hnode' hidle hfits hbelow =>
    obtain rfl := Except.ok.inj (hresolve'.symm.trans hresolve)
    obtain rfl := Option.some.inj (hnode'.symm.trans hnode)
    exact .intro hresolve' hnode' hidle (hfits.value_of_test hplain) hbelow

/-- What is shown only depends on the nodes that are not busy. -/
theorem congr (h : Shows calls busy t id part)
    (hbusy : ∀ x, t'.Occupied busy' x → t.Occupied busy x)
    (hresolve : ∀ id x, t.resolve id = .ok x → ¬ t.Occupied busy x → t'.resolve id = .ok x)
    (hnode : ∀ x n, t.node? x = some n → ¬ t.Occupied busy x →
      ∃ n', t'.node? x = some n' ∧ n'.kind = n.kind ∧ n'.span = n.span)
    (hcalls : ∀ x n, t.node? x = some n → calls' x = calls x) :
    Shows calls' busy' t' id part := by
  induction h with
  | @intro _ _ _ _ parts hresolve' hnode' hidle hfits _ ih =>
    obtain ⟨n', hn', hkind, hspan⟩ := hnode _ _ hnode' hidle
    refine .intro (hresolve _ _ hresolve' hidle) hn' (fun hbusy' ↦ hidle (hbusy _ hbusy'))
      (?_ : Fits _ _ _ _ _ parts) ?_
    · rw [hkind, hspan]
      exact hfits.congr (hcalls _ _ hnode')
    · rw [hkind]
      exact ih

theorem mono (h : Shows calls busy t id part) (hbusy : ∀ x, busy' x → busy x) :
    Shows calls busy' t id part :=
  h.congr (fun _ hb ↦ hb.mono hbusy) (fun _ _ hresolve _ ↦ hresolve)
    (fun _ n hn _ ↦ ⟨n, hn, rfl, rfl⟩) (fun _ _ _ ↦ rfl)

/-! ### Adaptations -/

theorem mem_zip_replace {children : List NodeId} {parts : List Part} {a b : NodeId}
    {q : NodeId × Part} (hq : q ∈ (children.replace a b).zip parts) :
    q ∈ children.zip parts ∨ q.1 = b ∧ (a, q.2) ∈ children.zip parts := by
  induction children generalizing parts with
  | nil => simp at hq
  | cons d rest ih =>
    cases parts with
    | nil => simp at hq
    | cons p others =>
      rw [List.replace_cons] at hq
      by_cases hda : a = d
      · subst hda
        simp only [beq_self_eq_true, List.zip_cons_cons, List.mem_cons] at hq ⊢
        rcases hq with rfl | hq
        · exact Or.inr ⟨rfl, Or.inl rfl⟩
        · exact Or.inl (Or.inr hq)
      · have hbeq : (a == d) = false := by simpa using hda
        simp only [hbeq, List.zip_cons_cons, List.mem_cons] at hq ⊢
        rcases hq with rfl | hq
        · exact Or.inl (Or.inl rfl)
        · rcases ih hq with hmem | ⟨hb, hmem⟩
          · exact Or.inl (Or.inr hmem)
          · exact Or.inr ⟨hb, Or.inr hmem⟩

/-- Assumes: only nodes that were there before are busy. -/
theorem replaced {old : NodeId} {kind : NodeKind} {extra : Option (NodeKind × Span)}
    (h : Shows calls busy t id part) (hforest : t.Forest) (hbusy : ∀ x, busy x → x < t.slots.size)
    (hreplaced : Tree.Replaced t old n kind extra t')
    (hrecast : Tree.Recast (calls old) n.span t.nextId n.kind kind extra)
    (hwidens : ∀ input mode, n.kind = .convert input mode → ¬ t.IsCompare input) :
    Shows calls busy t' id part := by
  have hforest' : t'.Forest :=
    hreplaced.forest hforest (hrecast.regroups_of_forest hforest hreplaced.node)
  have hold := hreplaced.resolve_old hforest'.ascending
  have hnew : t'.resolve (t.replacement extra) = .ok (t.replacement extra) :=
    Tree.resolve_of_node? hreplaced.node?_new
  have hevolves := hreplaced.evolves hforest (hrecast.regroups_of_forest hforest hreplaced.node)
  have hresolves : ∀ {i x : NodeId}, t.resolve i = .ok x → t'.resolve i = t'.resolve x :=
    fun hi ↦ hreplaced.persists.resolve_eq hforest'.ascending hi
  induction h with
  | @intro id x n' part parts hresolve hnode hidle hfits hbelow ih =>
    by_cases hx : x = old
    · subst hx
      obtain rfl := Option.some.inj (hreplaced.node.symm.trans hnode)
      have hplain : ∀ c mode e, n.kind = .convert c mode → part = .test e →
          e.isCompare = false := by
        rintro c mode e hkind rfl
        have hc : c ∈ n.kind.children := by
          rw [hkind]
          exact List.mem_singleton.mpr rfl
        obtain ⟨k, hk, _⟩ := hforest.exists_child hreplaced.node hc
        rw [hkind] at hfits hbelow
        obtain rfl := hfits.parts_of_convert
        have hshows := hbelow (c, .value e) (List.mem_singleton.mpr rfl)
        exact Bool.eq_false_iff.mpr fun hcompare ↦
          hwidens c mode hkind ((hshows.isCompare_iff hk).mpr hcompare)
      obtain ⟨parts', hfits', hinherits⟩ := hrecast.fits (t.replacement extra) hplain hfits
      refine .intro ((hresolves hresolve).trans hold) hreplaced.node?_new
        (hevolves.not_occupied hforest hbusy hnode hidle hold) hfits' ?_
      rintro ⟨c, p⟩ hq
      cases hinherits _ hq with
      | same hmem => exact ih _ hmem
      | relaxed hmem => exact (ih _ hmem).test
      | added hextra hfits hbefore =>
        have hslot := Tree.node?_eq_some_iff.mpr (hreplaced.slot_extra _ _ hextra)
        exact .intro (Tree.resolve_of_node? hslot) hslot
          (hreplaced.not_occupied_extra hforest
            (hrecast.regroups_of_forest hforest hreplaced.node) hbusy (by simp [hextra])) hfits
          fun q hq ↦ ih q (hbefore q hq)
    · have hnode' := hreplaced.node?_other hnode hx
      refine .intro ((hresolves hresolve).trans (Tree.resolve_of_node? hnode')) hnode'
        (hevolves.not_occupied hforest hbusy hnode hidle (Tree.resolve_of_node? hnode'))
        (?_ : Fits _ _ _ _ _ parts) ?_
      · unfold Tree.refit
        dsimp only
        split_ifs
        · exact hfits.replaceChild _ _
        · exact hfits
      · rintro ⟨c, p⟩ hq
        unfold Tree.refit at hq
        dsimp only at hq
        split_ifs at hq with hparent
        · rw [NodeKind.children_replaceChild] at hq
          rcases mem_zip_replace hq with hmem | ⟨rfl, hmem⟩
          · exact ih _ hmem
          · exact (ih _ hmem).of_resolve_eq (hnew.trans hold.symm)
        · exact ih _ hq

/-- A step put in between tests what the node below it gives. -/
theorem wrapped_step {p : NodeId} {child : Node} {mode : ConvertMode} {e : Expr}
    (hwrapped : Tree.Wrapped t p c n child mode t') (hforest : t.Forest)
    (hbusy : ∀ x, busy x → x < t.slots.size) (hplain : child.kind.isConversion = false)
    (hmode : child.kind.isCompare = true → mode = .logical)
    (h : Shows calls busy t' c (.test e)) : Shows calls busy t' t.nextId (.test e) := by
  have hplain' : (Tree.adopted t.nextId child).kind.isConversion = false := hplain
  have hresolve := Tree.resolve_of_node? hwrapped.node?_child
  obtain ⟨y, k, hy, hk, hspan⟩ := h.exists_node?
  obtain rfl := Except.ok.inj (hresolve.symm.trans hy)
  obtain rfl := Option.some.inj (hk.symm.trans hwrapped.node?_child)
  have hvalue := h.value hresolve hwrapped.node?_child hplain'
  refine .intro (Tree.resolve_of_node? hwrapped.node?_new) hwrapped.node?_new
    (hwrapped.not_occupied_new hforest hbusy) (?_ : Fits _ _ _ _ _ [.value e]) ?_
  · have heq : child.span = e.span := hspan
    rw [heq]
    exact .convert c mode e fun hcompare ↦ by
      obtain ⟨m, hm, hcompare⟩ := (hvalue.isCompare_iff hwrapped.node?_child).mpr hcompare
      obtain rfl := Option.some.inj (hwrapped.node?_child.symm.trans hm)
      exact hmode hcompare
  · intro q hq
    obtain rfl : q = (c, .value e) := by simpa [NodeKind.children] using hq
    exact hvalue

/-- Assumes: a form that reads its condition as a whole, and a condition that is no step yet. -/
theorem wrapped {p : NodeId} {child : Node} {mode : ConvertMode} {form : Conditional}
    (h : Shows calls busy t id part) (hforest : t.Forest) (hbusy : ∀ x, busy x → x < t.slots.size)
    (hwrapped : Tree.Wrapped t p form.cond n child mode t') (hform : n.kind = .cond form)
    (hreads : form.readsOperand = false) (hplain : child.kind.isConversion = false)
    (hmode : child.kind.isCompare = true → mode = .logical) : Shows calls busy t' id part := by
  have hforest' : t'.Forest := hwrapped.forest hforest
  induction h with
  | @intro id x m part parts hresolve hnode hidle hfits _ ih =>
    obtain ⟨m', hm', hspan, hkind, _⟩ := hwrapped.exists_node? hforest hnode
    have hresolve' : t'.resolve id = .ok x :=
      (hwrapped.persists.resolve_eq hforest'.ascending hresolve).trans (Tree.resolve_of_node? hm')
    have hidle' := (hwrapped.evolves hforest).not_occupied hforest hbusy hnode hidle
      (Tree.resolve_of_node? hm')
    by_cases hx : x = p
    · subst hx
      obtain rfl := Option.some.inj (hwrapped.node.symm.trans hnode)
      rw [if_pos rfl] at hkind
      refine .intro hresolve' hm' hidle' (?_ : Fits _ _ _ _ _ parts) ?_
      · rw [hkind, hspan]
        exact hfits.replaceChild _ _
      · rintro ⟨c, q⟩ hq
        rw [hkind, NodeKind.children_replaceChild] at hq
        rcases mem_zip_replace hq with hmem | ⟨rfl, hmem⟩
        · exact ih _ hmem
        · obtain ⟨e, others, rfl⟩ := (hform ▸ hfits).exists_test hreads
          obtain ⟨rest, hchildren⟩ : ∃ rest, n.kind.children = form.cond :: rest := by
            rw [hform]
            cases form <;> exact ⟨_, rfl⟩
          have hnodup := hforest.distinct x n hwrapped.node
          rw [hchildren] at hmem hnodup
          have hq : q = .test e := by
            rcases List.mem_cons.mp hmem with heq | hrest
            · exact congrArg Prod.snd heq
            · exact absurd (List.of_mem_zip hrest).1 (List.nodup_cons.mp hnodup).1
          subst hq
          exact wrapped_step hwrapped hforest hbusy hplain hmode
            (ih (form.cond, .test e) (by rw [hchildren]; exact List.mem_cons_self ..))
    · rw [if_neg hx] at hkind
      refine .intro hresolve' hm' hidle' (?_ : Fits _ _ _ _ _ parts) ?_
      · rw [hkind, hspan]
        exact hfits
      · rw [hkind]
        exact ih

theorem adapts (h : Shows calls busy t id part) (hforest : t.Forest)
    (hbusy : ∀ x, busy x → x < t.slots.size) (hadapts : Tree.Adapts calls busy' t t') :
    Shows calls busy t' id part := by
  induction hadapts with
  | refl => exact h
  | tail hsteps hstep ih =>
    have hevolves := Tree.Adapts.evolves hsteps hforest
    have hbusy' : ∀ x, busy x → x < _ := fun x hx ↦ Nat.lt_of_lt_of_le (hbusy x hx) hevolves.size_le
    cases hstep with
    | replace hreplaced hrecast _ hwidens =>
      exact ih.replaced hevolves.forest hbusy' hreplaced hrecast fun input mode hkind ↦
        (hwidens input mode hkind).2
    | wrap hwrapped hform hreads hplain _ hmode =>
      exact ih.wrapped hevolves.forest hbusy' hwrapped hform hreads hplain hmode

/-! ### Below a node -/

/-- The nodes being evaluated while a child of `x` is. -/
def inside (busy : NodeId → Prop) (x : NodeId) : NodeId → Prop := fun y ↦ busy y ∨ y = x

theorem exists_zip {children : List NodeId} {parts : List Part}
    (hlength : children.length = parts.length) (hc : c ∈ children) :
    ∃ p, (c, p) ∈ children.zip parts := by
  obtain ⟨i, hi, rfl⟩ := List.getElem_of_mem hc
  have hzip : i < (children.zip parts).length := by simp [List.length_zip, ← hlength, hi]
  exact ⟨parts.get ⟨i, hlength ▸ hi⟩, List.mem_iff_getElem.mpr ⟨i, hzip, by simp⟩⟩

theorem resolve_of_mem (hforest : t.Forest) (hnode : t.node? x = some n)
    (hc : c ∈ n.kind.children) : t.resolve c = .ok c := by
  obtain ⟨m, hm, _⟩ := hforest.exists_child hnode hc
  exact Tree.resolve_of_node? hm

/-- Assumes: the root is not among the nodes to be avoided, and none of them has a parent that is
not to be avoided. -/
theorem avoid (h : Shows calls busy t id part) (hforest : t.Forest) (shunned : NodeId → Prop)
    (hlive : ∀ x, shunned x → ∃ n, t.node? x = some n)
    (hup : ∀ x c, t.Names x c → shunned c → shunned x)
    (hroot : ∀ x, t.resolve id = .ok x → ¬ shunned x) :
    Shows calls (fun y ↦ busy y ∨ shunned y) t id part := by
  induction h with
  | intro hresolve hnode hidle hfits _ ih =>
    have hx := hroot _ hresolve
    refine .intro hresolve hnode ?_ hfits fun q hq ↦ ih q hq ?_
    · rintro ⟨y, hbusy | hshunned, hy⟩
      · exact hidle ⟨y, hbusy, hy⟩
      · obtain ⟨m, hm⟩ := hlive y hshunned
        obtain rfl := Except.ok.inj ((Tree.resolve_of_node? hm).symm.trans hy)
        exact hx hshunned
    intro y hy hshunned
    have hc := (List.of_mem_zip (hq : (q.1, q.2) ∈ _)).1
    obtain rfl := Except.ok.inj (hy.symm.trans (resolve_of_mem hforest hnode hc))
    exact hx (hup _ _ ((Tree.names_iff hnode).mpr hc) hshunned)

/-- What a node shows, one level deep. -/
theorem children (h : Shows calls busy t id part) (hforest : t.Forest) :
    ∃ x n parts, t.resolve id = .ok x ∧ t.node? x = some n ∧ ¬ busy x ∧
      Fits calls x n.kind n.span part parts ∧
      ∀ q ∈ n.kind.children.zip parts, Shows calls (inside busy x) t q.1 q.2 := by
  cases h with
  | @intro _ x n _ parts hresolve hnode hidle hfits hbelow =>
    refine ⟨x, n, parts, hresolve, hnode, fun hbusy ↦ hidle (.of_live hnode hbusy), hfits,
      fun q hq ↦ ?_⟩
    have hc := (List.of_mem_zip (hq : (q.1, q.2) ∈ _)).1
    have hnames := (Tree.names_iff hnode).mpr hc
    have havoid := (hbelow q hq).avoid hforest (fun y ↦ Relation.ReflTransGen t.Names y x)
      (fun y hy ↦ by
        rcases Relation.ReflTransGen.cases_head hy with rfl | ⟨_, ⟨m, hm, _⟩, _⟩
        · exact ⟨n, hnode⟩
        · exact ⟨m, hm⟩)
      (fun y d hy hd ↦ Relation.ReflTransGen.head hy hd) (fun y hy hshunned ↦ by
        obtain rfl := Except.ok.inj (hy.symm.trans (resolve_of_mem hforest hnode hc))
        exact hforest.acyclic x (Relation.TransGen.head' hnames hshunned))
    refine havoid.mono fun y hy ↦ hy.imp_right ?_
    rintro rfl
    exact Relation.ReflTransGen.refl

/-- The same of a live node. -/
theorem children_at (h : Shows calls busy t x part) (hforest : t.Forest)
    (hnode : t.node? x = some n) :
    ∃ parts, ¬ busy x ∧ Fits calls x n.kind n.span part parts ∧
      ∀ q ∈ n.kind.children.zip parts, Shows calls (inside busy x) t q.1 q.2 := by
  obtain ⟨y, n', parts, hresolve, hnode', hidle, hfits, hbelow⟩ := h.children hforest
  obtain rfl := Except.ok.inj ((Tree.resolve_of_node? hnode).symm.trans hresolve)
  obtain rfl := Option.some.inj (hnode.symm.trans hnode')
  exact ⟨parts, hidle, hfits, hbelow⟩

theorem outside (h : Shows calls (inside busy x) t id part) : Shows calls busy t id part :=
  h.mono fun _ hb ↦ Or.inl hb

/-- The condition of a conditional is tested as a whole or evaluated for its operand. -/
theorem condition {form : Conditional} {c : Expr} (h : Shows calls busy t x part)
    (hforest : t.Forest) (hnode : t.node? x = some n) (hkind : n.kind = .cond form)
    (hcondition : part.condition? = some c) :
    (form.readsOperand = false → Shows calls (inside busy x) t form.cond (.test c)) ∧
      (form.readsOperand = true → Shows calls (inside busy x) t form.cond (.value c)) := by
  obtain ⟨parts, _, hfits, hbelow⟩ := h.children_at hforest hnode
  obtain ⟨form', hform', htest, hvalue⟩ := hfits.zip_of_condition hcondition
  obtain rfl := NodeKind.cond.inj (hkind.symm.trans hform')
  exact ⟨fun hreads ↦ hbelow _ (htest hreads), fun hreads ↦ hbelow _ (hvalue hreads)⟩

/-- Everything below a node that shows something does so as well. -/
theorem exists_below (h : Shows calls busy t id part)
    (hresolve : t.resolve id = .ok x) {y : NodeId}
    (hreach : Relation.ReflTransGen t.Names x y) : ∃ part', Shows calls busy t y part' := by
  induction hreach with
  | refl => exact ⟨part, h.resolved hresolve⟩
  | @tail y z _ hnames ih =>
    obtain ⟨part', hy⟩ := ih
    obtain ⟨n, hn, hz⟩ := hnames
    cases hy with
    | intro hresolve' hnode _ hfits hbelow =>
      rw [Tree.resolve_of_node? hn] at hresolve'
      obtain rfl := Except.ok.inj hresolve'
      obtain rfl := Option.some.inj (hn.symm.trans hnode)
      obtain ⟨p, hp⟩ := exists_zip hfits.length_eq hz
      exact ⟨p, hbelow _ hp⟩

end Shows

end AdaptiveTree
