import AdaptiveTree.Proofs.Repetition.Conditionals

/-!
One evaluation is enough for an expression. A conditional is left in a form that reads its
condition without a change, and the branch that was taken leaves that form and its condition as
they are. The other kinds of nodes only add up what their children leave behind.
-/

set_option autoImplicit false
set_option relaxedAutoImplicit false

namespace AdaptiveTree

open Machine (Later Sound)

variable {calls : NodeId → Span} {alike : World → World → Prop}
  {callee : Definition → Definition → Prop} {fault : Fault → Prop} {t : Tree} {w : World}
  {m m' : Machine} {x d b : NodeId} {b? : Option NodeId} {form : Conditional} {part : Part}
  {e c thenBranch elseBranch : Expr} {exec : Evaluator}

/-! ### The parts of a conditional -/

namespace Conditional

theorem children_of_branches (h : form.branches? = some (b, b?)) :
    form.children = form.cond :: b :: b?.toList := by
  cases form with
  | returnBuiltin | returnOverridden => cases h
  | _ =>
    obtain ⟨rfl, rfl⟩ := Prod.mk.inj (Option.some.inj h)
    rfl

theorem isBuiltinTail_of_branches (h : form.branches? = some (b, b?)) :
    form.isBuiltinTail = false := by
  cases form with
  | returnBuiltin | returnOverridden => cases h
  | _ => rfl

/-- The branches of a conditional are followed one by one. -/
theorem exists_branches_withChildren {ids : List NodeId} (h : form.branches? = some (b, b?))
    (hlength : ids.length = form.children.length) : ∃ c' b' b?', ids = c' :: b' :: b?'.toList ∧
      (form.withChildren ids).branches? = some (b', b?') := by
  cases form with
  | returnBuiltin | returnOverridden => cases h
  | noElse =>
    obtain ⟨c', b', rfl⟩ := List.length_eq_two.mp hlength
    exact ⟨c', b', none, rfl, rfl⟩
  | _ =>
    obtain ⟨c', b', e', rfl⟩ := List.length_eq_three.mp hlength
    exact ⟨c', b', some e', rfl, rfl⟩

end Conditional

/-- What hangs at the place of the condition is read as an expression. -/
theorem Shows.exists_condition (h : Shows calls (fun _ ↦ False) t x part) (hforest : t.Forest)
    (hx : t.kind? x = some (.cond form)) (hcondition : part.condition? = some c) :
    ∃ part', part'.isExpr = true ∧ Shows calls (fun _ ↦ False) t form.cond part' := by
  obtain ⟨n, hn, hkind⟩ := Tree.kind?_eq_some_iff.mp hx
  obtain ⟨htest, hvalue⟩ := h.condition hforest hn hkind hcondition
  cases hreads : form.readsOperand with
  | false => exact ⟨_, rfl, (htest hreads).outside⟩
  | true => exact ⟨_, rfl, (hvalue hreads).outside⟩

theorem Shows.branches (h : Shows calls (fun _ ↦ False) t x (.value e)) (hforest : t.Forest)
    (hx : t.kind? x = some (.cond form)) (hsource : e.Branches c thenBranch elseBranch) :
    ∃ b b?, form.branches? = some (b, b?) ∧ Shows calls (fun _ ↦ False) t b (.value thenBranch) ∧
      ∀ e', b? = some e' → Shows calls (fun _ ↦ False) t e' (.value elseBranch) := by
  obtain ⟨n, hn, hkind⟩ := Tree.kind?_eq_some_iff.mp hx
  obtain ⟨parts, _, hfits, hbelow⟩ := h.children_at hforest hn
  obtain ⟨form', b, b?, hform, hbranches, hthen, helse, _⟩ := hfits.zip_of_branches hsource
  obtain rfl := NodeKind.cond.inj (hkind.symm.trans hform)
  exact ⟨b, b?, hbranches, (hbelow _ hthen).outside, fun e' he' ↦ (hbelow _ (helse e' he')).outside⟩

/-- The condition stays as it is while another part of the conditional is evaluated. -/
theorem Machine.Later.spares_cond (h : Later calls (m.tree.Outside d) m m')
    (hsound : m.Sound calls) (hshows : Shows calls (fun _ ↦ False) m.tree x part)
    (hcondition : part.condition? = some c) (hx : m.tree.kind? x = some (.cond form))
    (hd : m.tree.Names x d) (hne : d ≠ form.cond) : Tree.Spares m.tree m'.tree form.cond := by
  obtain ⟨part', hexpr, hshows'⟩ := hshows.exists_condition hsound.forest hx hcondition
  exact h.spares_sibling hsound hd (Tree.names_cond hx) hne.symm hshows' hexpr

/-! ### A conditional and its branch -/

section Branch

variable (hsource : e.Branches c thenBranch elseBranch) (hsound : m.Sound calls)
  (hshows : Shows calls (fun _ ↦ False) m.tree x (.value e))
  (hx : m.tree.kind? x = some (.cond form)) (hbranches : form.branches? = some (b, b?))
  (hdecides : Decides calls alike m.tree w form.sense form.cond c)

include hsource hsound hshows hx hbranches hdecides

/-- A conditional is settled after one of its branches has been evaluated. -/
theorem settled_of_branch (hd : d = b ∨ b? = some d)
    (hlater : Later calls (m.tree.Outside d) m m')
    (hthen : ∀ b' w', m'.tree.resolve b = .ok b' → Reference.test c w = .ok .yes w' →
      Settled calls alike m'.tree w' b' thenBranch)
    (helse : ∀ e' e'' w', b? = some e' → m'.tree.resolve e' = .ok e'' →
      Reference.test c w = .ok .no w' → Settled calls alike m'.tree w' e'' elseBranch) :
    m'.tree.resolve x = .ok x ∧ Settled calls alike m'.tree w x e := by
  have hforest := hsound.forest
  have hcondition : (Part.value e).condition? = some c := by cases hsource <;> rfl
  have hchildren : (NodeKind.cond form).children = form.cond :: b :: b?.toList :=
    Conditional.children_of_branches hbranches
  have hmem : d ∈ b :: b?.toList := by
    rcases hd with rfl | rfl <;> simp
  have hnames : m.tree.Names x d :=
    Tree.names_iff_kind?.mpr ⟨_, hx, hchildren ▸ List.mem_cons_of_mem _ hmem⟩
  have hne : d ≠ form.cond := by
    obtain ⟨n, hn, hkind⟩ := Tree.kind?_eq_some_iff.mp hx
    have hnodup := hforest.distinct x n hn
    rw [hkind, hchildren] at hnodup
    rintro rfl
    exact (List.nodup_cons.mp hnodup).1 hmem
  have hspares := hlater.spares_cond hsound hshows hcondition hx hnames hne
  have hkeeps := hlater.adapts.keeps hforest hx
    (Or.inr ⟨hsound.outside_parent hx hnames,
      Conditional.isBuiltinTail_of_branches hbranches⟩)
  obtain ⟨ids, hx', hfollowed⟩ := hkeeps
  have hlength := Tree.Keeps.length_eq hfollowed
  obtain ⟨c', b', b?', rfl, hbranches'⟩ :=
    Conditional.exists_branches_withChildren hbranches hlength
  rw [hchildren] at hfollowed
  obtain ⟨hc, hb, helse'⟩ : m'.tree.resolve form.cond = .ok c' ∧ m'.tree.resolve b = .ok b' ∧
      m'.tree.Followed b?.toList b?'.toList := by simpa [Tree.Followed] using hfollowed
  have hcond : (form.withChildren (c' :: b' :: b?'.toList)).cond = form.cond := by
    obtain ⟨kc, hkc⟩ := hforest.kind?_cond hx
    obtain rfl := Except.ok.inj
      ((Tree.resolve_of_kind? (hspares.intact.kind?_eq hkc)).symm.trans hc)
    have hhead := (form.withChildren (form.cond :: b' :: b?'.toList)).head?_children
    rw [form.children_withChildren _ hlength] at hhead
    exact (Option.some.inj hhead).symm
  refine ⟨Tree.resolve_of_kind? hx', settled_conditional hsource hx' hbranches' ?_
    (fun w' ↦ hthen b' w' hb) ?_⟩
  · rw [hcond, form.sense_withChildren]
    exact hdecides.later hspares
  · rintro w' e'' htest rfl
    cases b? with
    | none => cases helse'
    | some e' => exact helse e' e'' w' rfl (List.forall₂_cons.mp helse').1 htest

/-- The branch that the condition selects leaves the conditional settled. -/
theorem settled_of_taken (htends : Tends calls alike exec) (holds : Bool)
    (htest : Reference.test c w = .ok (.ofBool holds) m.world)
    (hd : (if holds then some b else b?) = some d)
    (hshowd : Shows calls (fun _ ↦ False) m.tree d
      (.value (if holds then thenBranch else elseBranch)))
    (hdeep : ∀ span m', exec d m ≠ .error (.tooDeep span) m') :
    Later calls (fun _ ↦ False) m (machineOf (exec d m)) ∧
      (machineOf (exec d m)).tree.resolve x = .ok x ∧
      Settled calls alike (machineOf (exec d m)).tree w x e := by
  have hmem : d ∈ (NodeKind.cond form).children := by
    show d ∈ form.children
    rw [Conditional.children_of_branches hbranches]
    cases holds <;> simp_all
  obtain ⟨kd, hkd⟩ := hsound.forest.exists_kind? (Tree.names_iff_kind?.mpr ⟨_, hx, hmem⟩)
  have htended := htends hsound hkd hshowd
  revert hdeep htended
  generalize exec d m = result
  intro hdeep htended
  cases htended with
  | tooDeep => exact absurd rfl (hdeep _ _)
  | done hlater _ hresolve hsettled =>
    refine ⟨hlater.unconfined, ?_⟩
    cases holds with
    | true =>
      obtain rfl := Option.some.inj hd
      refine settled_of_branch hsource hsound hshows hx hbranches hdecides (Or.inl rfl) hlater
        (fun b' w' hb' htest' ↦ ?_) fun _ _ _ _ _ htest' ↦ ?_
      · obtain rfl := Except.ok.inj (hresolve.symm.trans hb')
        obtain ⟨_, rfl⟩ := EStateM.Result.ok.inj (htest.symm.trans htest')
        exact hsettled
      · cases htest.symm.trans htest'
    | false =>
      refine settled_of_branch hsource hsound hshows hx hbranches hdecides (Or.inr hd) hlater
        (fun _ _ _ htest' ↦ ?_) fun e' e'' w' he' he'' htest' ↦ ?_
      · cases htest.symm.trans htest'
      · obtain rfl := Option.some.inj (hd.symm.trans he')
        obtain rfl := Except.ok.inj (hresolve.symm.trans he'')
        obtain ⟨_, rfl⟩ := EStateM.Result.ok.inj (htest.symm.trans htest')
        exact hsettled

theorem settled_of_takeBranch (htends : Tends calls alike exec) {z : NodeId} {l : Logical}
    (hz : m.tree.resolve z = .ok x) (htest : Reference.test c w = .ok l m.world)
    (hdeep : ∀ span m', Eval.takeBranch exec z l m ≠ .error (.tooDeep span) m') :
    Later calls (fun _ ↦ False) m (machineOf (Eval.takeBranch exec z l m)) ∧
      (machineOf (Eval.takeBranch exec z l m)).tree.resolve x = .ok x ∧
      Settled calls alike (machineOf (Eval.takeBranch exec z l m)).tree w x e := by
  obtain ⟨b₁, b₁?, hbranches', hthen, helse⟩ := hshows.branches hsound.forest hx hsource
  obtain ⟨rfl, rfl⟩ := Prod.mk.inj (Option.some.inj (hbranches'.symm.trans hbranches))
  obtain ⟨n, hn, hkind⟩ := Tree.kind?_eq_some_iff.mp hx
  -- without a branch to take the conditional is left as it is
  have hidle (hyes : l ≠ .yes) (hno : l = .no → b₁? = none) :
      Later calls (fun _ ↦ False) m m ∧ m.tree.resolve x = .ok x ∧
        Settled calls alike m.tree w x e := by
    refine ⟨.refl hsound, Tree.resolve_of_kind? hx,
      settled_conditional hsource hx hbranches hdecides (fun w' htest' ↦ ?_)
        fun w' e' htest' he' ↦ ?_⟩
    · obtain ⟨rfl, _⟩ := EStateM.Result.ok.inj (htest.symm.trans htest')
      exact absurd rfl hyes
    · obtain ⟨rfl, _⟩ := EStateM.Result.ok.inj (htest.symm.trans htest')
      rw [hno rfl] at he'
      cases he'
  revert hdeep
  cases l with
  | na =>
    rw [Eval.takeBranch_na hz]
    exact fun _ ↦ hidle nofun nofun
  | yes =>
    rw [Eval.takeBranch_eq hz hn hkind hbranches rfl, if_pos rfl]
    exact settled_of_taken hsource hsound hshows hx hbranches hdecides htends true htest rfl hthen
  | no =>
    rw [Eval.takeBranch_eq hz hn hkind hbranches rfl, if_neg Bool.false_ne_true]
    cases b₁? with
    | none => exact fun _ ↦ hidle nofun fun _ ↦ rfl
    | some e' =>
      exact settled_of_taken hsource hsound hshows hx hbranches hdecides htends false htest rfl
        (helse e' rfl)

end Branch

/-- One evaluation is enough for a conditional if it is for its parts. -/
theorem settled_of_decision {result : EStateM.Result Exit Machine Value}
    (htends : Tends calls alike exec) (hsource : e.Branches c thenBranch elseBranch)
    (hsound : m.Sound calls) (hshows : Shows calls (fun _ ↦ False) m.tree x (.value e))
    (h : Decision calls alike exec m x c result)
    (hdeep : ∀ span m', result ≠ .error (.tooDeep span) m') :
    ∃ x', (machineOf result).tree.resolve x = .ok x' ∧
      Settled calls alike (machineOf result).tree m.world x' e := by
  have hready := hsound.ready
  cases h with
  | tooDeep => exact absurd rfl (hdeep _ _)
  | @failed exit m' sense y hlater hreads hdecides href =>
    obtain ⟨x', form, hresolve, hx', rfl, rfl⟩ := hreads
    obtain ⟨b, b?, hbranches, _⟩ := ((hshows.later hready hlater).resolved hresolve).branches
      hlater.sound.forest hx' hsource
    exact ⟨x', hresolve, settled_conditional hsource hx' hbranches hdecides
      (fun w' htest ↦ absurd htest (href _ _)) fun w' _ htest ↦ absurd htest (href _ _)⟩
  | @taken z l m' sense y hlater hreads hdecides hsame href =>
    obtain ⟨x', form, hresolve, hx', rfl, rfl⟩ := hreads
    have hshows' := (hshows.later hready hlater).resolved hresolve
    obtain ⟨b, b?, hbranches, _⟩ := hshows'.branches hlater.sound.forest hx' hsource
    obtain ⟨hlater', hkept, hsettled⟩ := settled_of_takeBranch hsource hlater.sound hshows' hx'
      hbranches hdecides htends (hsame.trans hresolve) href hdeep
    exact ⟨x', (hlater'.adapts.evolves hlater.sound.forest).resolve_trans hresolve hkept, hsettled⟩

/-! ### Evaluation -/

theorem Follows.ends {α : Type} {busy : NodeId → Prop} {reference : EStateM.Result Halt World α}
    {result : EStateM.Result Exit Machine α} (h : Follows calls busy Same m reference result)
    (hdeep : ∀ span m', result ≠ .error (.tooDeep span) m') : Ends reference result := by
  cases h with
  | ok _ hagrees => exact hagrees
  | error _ href => exact fun a w' hok ↦ by cases href.symm.trans hok
  | tooDeep => exact absurd rfl (hdeep _ _)

theorem Shows.exists_branches {k : NodeKind} (h : Shows calls (fun _ ↦ False) t x (.value e))
    (hforest : t.Forest) (hx : t.kind? x = some k) (hadaptive : k.isFixed = false) :
    ∃ form c thenBranch elseBranch, k = .cond form ∧ e.Branches c thenBranch elseBranch := by
  obtain ⟨n, hn, rfl⟩ := Tree.kind?_eq_some_iff.mp hx
  obtain ⟨parts, _, hfits, _⟩ := h.children_at hforest hn
  generalize n.kind = kind at hfits hadaptive
  generalize n.span = span at hfits
  cases hfits with
  | generic _ _ _ hsource | const _ _ _ hsource | specialized _ _ _ hsource =>
    exact ⟨_, _, _, _, rfl, hsource⟩
  | noElse => exact ⟨_, _, _, _, rfl, .missing ..⟩
  | twoBranch => exact ⟨_, _, _, _, rfl, .present ..⟩
  | _ => cases hadaptive

/-- One evaluation is enough for an expression: the node that it leaves at the place is settled for
the world in which it was evaluated. -/
theorem tends_execute (hbridge : Bridge alike callee fault) (limit : Nat) :
    Tends calls alike (Eval.execute limit) := by
  induction limit with
  | zero => exact fun _ _ _ ↦ .tooDeep
  | succ limit ih =>
    intro m c k e hsound hc hshows
    have hresolve := Tree.resolve_of_kind? hc
    have hfollows := (Eval.simulates_execute calls (limit + 1)).value (hsound.ready_outside c)
      (hshows.confined hsound.forest hresolve)
    by_cases hdeep : ∀ span m', Eval.execute (limit + 1) c m ≠ .error (.tooDeep span) m'
    · obtain ⟨c', hc', hsettled⟩ : ∃ c', (machineOf (Eval.execute (limit + 1) c m)).tree.resolve c =
          .ok c' ∧ Settled calls alike (machineOf (Eval.execute (limit + 1) c m)).tree m.world c'
            e := by
        cases hfixed : k.isFixed with
        | true => exact ⟨c, settled_of_step hsound hc hfixed hshows hbridge ih hdeep⟩
        | false =>
          obtain ⟨form, cond, thenBranch, elseBranch, rfl, hsource⟩ :=
            hshows.exists_branches hsound.forest hc hfixed
          have hstep : Eval.execute (limit + 1) c m =
              Eval.conditional (Eval.execute limit) c form m := Eval.step_cond hresolve hc
          have hcondition : (Part.value e).condition? = some cond := by cases hsource <;> rfl
          have hdecision := decision_conditional hbridge ih hsound hshows hcondition hc
          rw [hstep] at hdeep ⊢
          exact settled_of_decision ih hsource hsound hshows hdecision hdeep
      exact .done hfollows.later (hfollows.ends hdeep) hc' hsettled
    · simp only [not_forall, not_not] at hdeep
      obtain ⟨span, m', heq⟩ := hdeep
      rw [heq]
      exact .tooDeep

end AdaptiveTree
