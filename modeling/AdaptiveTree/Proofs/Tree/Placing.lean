import AdaptiveTree.Proofs.Tree.Forwarding

/-!
What a splice promises to whoever holds a number: the new node is live, the old number and all
that led to it lead there, and it hangs where the old node hung. The promise is kept exactly when
retiring the old node takes along neither the new node nor its holder, and a new root was a root
before.
-/

set_option autoImplicit false
set_option relaxedAutoImplicit false

namespace AdaptiveTree.Tree

variable {t t' : Tree} {holder : Option NodeId} {old new i p : NodeId} {reason : String}

/-- The new node stands where the old one stood, below `holder` or as a root. -/
structure InPlace (t : Tree) (holder : Option NodeId) (old new : NodeId) (t' : Tree) : Prop where
  live : t'.isLive new = true
  /-- The old number and every number that led to it. -/
  resolves : ∀ id, id = old ∨ t.resolve id = .ok old → t'.resolve id = .ok new
  parent_eq : t'.parent new = .ok holder
  held : ∀ p, holder = some p → new ∈ t'.childrenAt p

/-- Neither the new node nor its holder goes with the old node. -/
structure Admits (t : Tree) (holder : Option NodeId) (old new : NodeId) : Prop where
  ne : old ≠ new
  kept_new : ¬ (t.seat holder old new).Drags old new
  /-- A root is only followed by a root. -/
  root : holder = none → t.parent new = .ok none
  kept_holder : ∀ p, holder = some p → p ≠ old ∧ ¬ (t.seat holder old new).Drags old p

/-! ### Below the old node -/

/-- What goes with a node hangs below it. Assumes: the holder does not. -/
theorem Drags.reaches (h : (t.seat holder old new).Drags old i)
    (hholder : ∀ p, holder = some p → ¬ t.Reaches old p) : t.Reaches old i := by
  have hstep : ∀ a c, t.Reaches old a → (t.seat holder old new).Names a c → t.Names a c := by
    rintro a c hreach ⟨k, hk, hc⟩
    rw [node?_seat] at hk
    obtain ⟨k, hk', rfl⟩ := Option.map_eq_some_iff.mp hk
    have hne : holder ≠ some a := fun hp ↦ hholder a hp hreach
    simp only [seated, if_neg hne] at hc
    exact ⟨k, hk', hc⟩
  obtain ⟨c, ⟨k, hk, hc⟩, _, hreach⟩ := h
  have hfirst : t.Reaches old c := .single (hstep old c .refl ⟨k, hk, hc⟩)
  refine hfirst.trans (reaches_of_steps (fun a b _ ha hab ↦ ?_) hreach)
  exact hstep a b (hfirst.trans ha) ((names_cut_iff hk).mp hab).2

/-- Assumes: neither the new node nor the holder hangs below the old node. -/
theorem admits_of_not_reaches (hnew : ¬ t.Reaches old new)
    (hroot : holder = none → t.parent new = .ok none)
    (hholder : ∀ p, holder = some p → ¬ t.Reaches old p) : Admits t holder old new where
  ne := by
    rintro rfl
    exact hnew .refl
  kept_new := fun hdrags ↦ hnew (hdrags.reaches hholder)
  root := hroot
  kept_holder := fun p hp ↦
    ⟨fun heq ↦ hholder p hp (heq ▸ .refl), fun hdrags ↦ hholder p hp (hdrags.reaches hholder)⟩

theorem mem_replace_of_mem (new : NodeId) {children : List NodeId} (h : old ∈ children) :
    new ∈ children.replace old new := by
  induction children with
  | nil => cases h
  | cons c rest ih =>
    by_cases hc : old = c
    · simp [hc]
    · have hrest : old ∈ rest := (List.mem_cons.mp h).resolve_left hc
      rw [List.replace_cons, beq_eq_false_iff_ne.mpr hc]
      exact List.mem_cons_of_mem c (ih hrest)

/-! ### The promise -/

namespace Spliced

theorem inPlace_of_admits (h : Spliced t holder old new reason t') (hdated : t'.Dated)
    (hadmits : Admits t holder old new) : InPlace t holder old new t' := by
  obtain ⟨m, hnew⟩ := h.live_new
  obtain ⟨n, hold⟩ := h.live_old
  have hnew' : t'.node? new = some (seated holder old new new m) := by
    rw [h.retired.node?_eq_some_iff, node?_seat, hnew]
    exact ⟨rfl, hadmits.ne.symm, hadmits.kept_new⟩
  have hwalks : t'.Walks old (.ok new) :=
    .retired h.slot_old (.live (node?_eq_some_iff.mp hnew'))
  constructor
  · exact isLive_iff.mpr ⟨_, hnew'⟩
  · rintro id (rfl | hid)
    · exact hwalks.resolve_eq hdated
    · exact ((walks_of_resolve hid).persists h.persists hwalks).resolve_eq hdated
  · rw [Tree.parent_eq hnew']
    rcases holder with _ | p
    · have hparent := hadmits.root rfl
      rw [Tree.parent_eq hnew] at hparent
      simpa [seated] using hparent
    · simp [seated]
  · intro p hp
    obtain ⟨hne, hkept⟩ := hadmits.kept_holder p hp
    obtain ⟨k, hk, hmem⟩ := h.held p hp
    have hk' : t'.node? p = some (seated holder old new p k) := by
      rw [h.retired.node?_eq_some_iff, node?_seat, hk]
      exact ⟨rfl, hne, hkept⟩
    rw [childrenAt_eq hk']
    simp only [seated, if_pos hp, NodeKind.children_replaceChild]
    exact mem_replace_of_mem new hmem

theorem admits_of_inPlace (h : Spliced t holder old new reason t')
    (hplace : InPlace t holder old new t') : Admits t holder old new := by
  obtain ⟨m, hm⟩ := isLive_iff.mp hplace.live
  obtain ⟨hseat, hne, hkept⟩ := h.retired.node?_eq_some_iff.mp hm
  refine ⟨hne.symm, hkept, ?_, ?_⟩
  · rintro rfl
    have hparent := hplace.parent_eq
    rwa [Tree.parent_eq hm, ← Tree.parent_eq (show t.node? new = some m from hseat)] at hparent
  · intro p hp
    obtain ⟨k, hk, _⟩ := mem_childrenAt_iff.mp (hplace.held p hp)
    exact (h.retired.node?_eq_some_iff.mp hk).2

theorem inPlace_iff_admits (h : Spliced t holder old new reason t') (hdated : t'.Dated) :
    InPlace t holder old new t' ↔ Admits t holder old new :=
  ⟨h.admits_of_inPlace, h.inPlace_of_admits hdated⟩

end Spliced

theorem placed_iff_admits (operations : List Operation) :
    (∀ parent old new reason r t',
      Edit.replaceChild parent old new reason (after operations) = .ok r t' →
      r = new ∧ (InPlace (after operations) (some parent) old new t' ↔
        Admits (after operations) (some parent) old new)) ∧
    ∀ node new reason r t',
      Edit.replaceSelf node new reason (after operations) = .ok r t' →
      ∃ holder, (after operations).parent node = .ok holder ∧
        r = new ∧ (InPlace (after operations) holder node new t' ↔
          Admits (after operations) holder node new) := by
  constructor
  · intro parent old new reason r t' h
    have hdated := (dated_after operations).apply (.replaceChild parent old new reason)
    rw [Operation.apply, Edit.left_of_ok h] at hdated
    rcases Edit.replaceChild_cases (after operations) parent old new reason with
      ⟨e, he⟩ | ⟨u, hok, hspliced⟩
    · cases he.symm.trans h
    · cases hok.symm.trans h
      exact ⟨rfl, hspliced.inPlace_iff_admits hdated⟩
  · intro node new reason r t' h
    have hdated := (dated_after operations).apply (.replaceSelf node new reason)
    rw [Operation.apply, Edit.left_of_ok h] at hdated
    rcases Edit.replaceSelf_cases (after operations) node new reason with
      ⟨e, he⟩ | ⟨n, u, hn, hok, hspliced⟩
    · cases he.symm.trans h
    · cases hok.symm.trans h
      exact ⟨n.parent, parent_eq hn, rfl, hspliced.inPlace_iff_admits hdated⟩

/-- An operand below a root, and a node that hangs nowhere. -/
def operandAndSpare : List Operation :=
  [.alloc (.constant .null) ⟨1, 2⟩, .alloc (.unary .neg 0) ⟨0, 2⟩,
    .alloc (.constant .null) ⟨1, 2⟩]

/-- The operand cannot be put into the place of the root above it, which takes it along; the spare
node can be put into the place of the operand. -/
theorem placed_iff_admits_operandAndSpare :
    (∃ t', Edit.replaceSelf 1 0 "operand" (after operandAndSpare) = .ok 0 t' ∧
      t'.resolve 1 = .error (.retired 0) ∧ ¬ Admits (after operandAndSpare) none 1 0) ∧
    ∃ t', Edit.replaceChild 1 0 2 "spare" (after operandAndSpare) = .ok 2 t' ∧
      InPlace (after operandAndSpare) (some 1) 0 2 t' := by
  obtain ⟨hchild, hself⟩ := placed_iff_admits operandAndSpare
  constructor
  · have hok : Edit.replaceSelf 1 0 "operand" (after operandAndSpare) =
        .ok 0 ((Operation.replaceSelf 1 0 "operand").apply (after operandAndSpare)) := by rfl
    have hlost : ((Operation.replaceSelf 1 0 "operand").apply
        (after operandAndSpare)).resolve 1 = .error (.retired 0) := by decide +kernel
    obtain ⟨holder, hholder, -, hiff⟩ := hself 1 0 "operand" 0 _ hok
    have hroot : (after operandAndSpare).parent 1 = .ok none := by decide +kernel
    obtain rfl := Except.ok.inj (hroot.symm.trans hholder)
    refine ⟨_, hok, hlost, fun hadmits ↦ ?_⟩
    cases hlost.symm.trans ((hiff.mpr hadmits).resolves 1 (Or.inl rfl))
  · have hok : Edit.replaceChild 1 0 2 "spare" (after operandAndSpare) =
        .ok 2 ((Operation.replaceChild 1 0 2 "spare").apply (after operandAndSpare)) := by rfl
    obtain ⟨-, hiff⟩ := hchild 1 0 2 "spare" 2 _ hok
    have hbelow : ∀ i, (after operandAndSpare).Reaches 0 i → i = 0 := by
      intro i hreach
      rcases Relation.ReflTransGen.cases_head hreach with rfl | ⟨c, hc, _⟩
      · rfl
      · have hnone : (after operandAndSpare).childrenAt 0 = [] := by decide +kernel
        rw [← mem_childrenAt_iff, hnone] at hc
        cases hc
    refine ⟨_, hok, hiff.mpr (admits_of_not_reaches ?_ ?_ ?_)⟩
    · exact fun hreach ↦ absurd (hbelow 2 hreach) (by decide)
    · exact fun hnone ↦ nomatch hnone
    · rintro p hp hreach
      obtain rfl := Option.some.inj hp
      exact absurd (hbelow 1 hreach) (by decide)

end AdaptiveTree.Tree
