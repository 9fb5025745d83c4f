import AdaptiveTree.Proofs.Repetition.Returns

/-!
One evaluation is enough for a program. Statements are evaluated one after the other and leave
alone what the ones before them have left behind; a return tail among them comes last, as it takes
the statements behind it along.
-/

set_option autoImplicit false
set_option relaxedAutoImplicit false

namespace AdaptiveTree

open Machine (Later Sound)

/-- Each statement is settled for the world in which it is evaluated after the ones before it. A
return tail stands for all that follow. -/
def FinishedEach (calls : NodeId → Span) (alike : World → World → Prop) (t : Tree) :
    World → List NodeId → List Expr → Prop
  | w, id :: ids, e :: items =>
    match e.returnTail? with
    | some tail => Finished calls alike t w id
        (.tail tail items (Expr.spanOf ⟨e.span.stop, e.span.stop⟩ items) e.span)
    | none => Settled calls alike t w id e ∧
        ∀ v w', Reference.expr e w = .ok v w' → FinishedEach calls alike t w' ids items
  | _, _, _ => True

/-- Every evaluation of a return tail leaves it finished, unless it is nested too deep. -/
def FinishesTail (calls : NodeId → Span) (alike : World → World → Prop) (exec : Evaluator) :
    Prop :=
  ∀ {m : Machine} {id : NodeId} {tail : Expr.ReturnTail} {items : List Expr}
    {restSpan span : Span}, m.Sound calls →
    Shows calls (fun _ ↦ False) m.tree id (.tail tail items restSpan span) →
    (∀ span' m', exec id m ≠ .error (.tooDeep span') m') →
    Finished calls alike (machineOf (exec id m)).tree m.world id (.tail tail items restSpan span)

variable {calls : NodeId → Span} {busy : NodeId → Prop} {alike : World → World → Prop}
  {callee : Definition → Definition → Prop} {fault : Fault → Prop} {t t' : Tree} {w : World}
  {m m' : Machine} {id x : NodeId} {ids ids' : List NodeId} {e : Expr} {items : List Expr}
  {span : Span}

theorem finishedEach_tail {tail : Expr.ReturnTail} (htail : e.returnTail? = some tail) :
    FinishedEach calls alike t w (id :: ids) (e :: items) ↔ Finished calls alike t w id
      (.tail tail items (Expr.spanOf ⟨e.span.stop, e.span.stop⟩ items) e.span) := by
  rw [FinishedEach, htail]

theorem finishedEach_value (htail : e.returnTail? = none) :
    FinishedEach calls alike t w (id :: ids) (e :: items) ↔ Settled calls alike t w id e ∧
      ∀ v w', Reference.expr e w = .ok v w' → FinishedEach calls alike t w' ids items := by
  rw [FinishedEach, htail]

/-! ### Evaluating statements again -/

/-- What is known of statements is not lost when return tails are overridden. -/
theorem FinishedEach.adapts (hforest : t.Forest)
    (hadapts : Tree.Adapts calls (fun _ ↦ True) t t') (items : List Expr) :
    ∀ {w : World} {ids ids' : List NodeId}, FinishedEach calls alike t w ids items →
      (∀ x ∈ ids, ∃ k, t.kind? x = some k) →
      (∀ q ∈ ids.zip (Part.ofStatements items), Shows calls (fun _ ↦ False) t q.1 q.2) →
      t'.Followed ids ids' → FinishedEach calls alike t' w ids' items := by
  induction items with
  | nil =>
    intro w ids ids' _ _ _ _
    cases ids' <;> trivial
  | cons e items ih =>
    intro w ids ids' h hlive hshows hfollowed
    cases hfollowed with
    | nil => trivial
    | @cons id id' ids ids' hid hfollowed =>
      obtain ⟨k, hk⟩ := hlive id (List.mem_cons_self ..)
      rw [Part.ofStatements] at hshows
      cases htail : e.returnTail? with
      | some tail =>
        rw [finishedEach_tail htail] at h ⊢
        exact (h.adapts hadapts).of_resolve_eq (hadapts.evolves hforest).forest hid
          (Tree.resolve_resolved hid)
      | none =>
        rw [finishedEach_value htail] at h ⊢
        rw [htail] at hshows
        obtain ⟨hfirst, hothers⟩ := h
        have hshow := hshows (id, .value e) (List.mem_cons_self ..)
        obtain rfl := (hadapts.spares_expr hforest hshow rfl hk).eq_of_resolve hk hid
        exact ⟨hfirst.adapts hforest hshow hk hadapts, fun v w' href ↦ ih (hothers v w' href)
          (fun x hx ↦ hlive x (List.mem_cons_of_mem _ hx))
          (fun q hq ↦ hshows q (List.mem_cons_of_mem _ hq)) hfollowed⟩

namespace Eval

theorem inOrder_single (exec : Evaluator) (last : Value) (id : NodeId) :
    inOrder exec last [id] = exec id := by
  rw [inOrder]
  simp only [inOrder, bind_pure]

theorem step_sequence {exec : Evaluator} (hresolve : m.tree.resolve id = .ok x)
    (hx : m.tree.kind? x = some (.sequence ids)) : step exec id m = inOrder exec .null ids m := by
  obtain ⟨n, hn, hkind⟩ := Tree.kind?_eq_some_iff.mp hx
  unfold step
  rw [bind_eq (ask_eq hresolve), bind_eq (ask_eq (Tree.kind_eq hn)), hkind]

end Eval

theorem FinishedEach.tree_inOrder (hbridge : Bridge alike callee fault) (limit : Nat)
    (items : List Expr) : ∀ {w : World} {m : Machine} {ids : List NodeId} (last : Value),
      FinishedEach calls alike m.tree w ids items → m.Sound calls →
      ids.length = (Part.ofStatements items).length →
      (∀ q ∈ ids.zip (Part.ofStatements items), Shows calls (fun _ ↦ False) m.tree q.1 q.2) →
      alike w m.world →
      (machineOf (Eval.inOrder (Eval.execute limit) last ids m)).tree = m.tree := by
  induction items with
  | nil =>
    intro w m ids last _ _ hlength _ _
    obtain rfl := List.length_eq_zero_iff.mp hlength
    rfl
  | cons e items ih =>
    intro w m ids last h hsound hlength hshows halike
    rw [Part.ofStatements] at hlength hshows
    cases ids with
    | nil => rfl
    | cons id ids =>
      cases htail : e.returnTail? with
      | some tail =>
        rw [finishedEach_tail htail] at h
        rw [htail] at hlength hshows
        obtain rfl : ids = [] := List.length_eq_zero_iff.mp (Nat.succ.inj hlength)
        rw [Eval.inOrder_single]
        exact h limit m hsound (hshows (id, _) (List.mem_cons_self ..)) .refl halike
      | none =>
        rw [finishedEach_value htail] at h
        rw [htail] at hlength hshows
        obtain ⟨hfirst, hothers⟩ := h
        rw [Eval.inOrder]
        refine Rests.tree_bind (hfirst.rests hbridge hsound
          (hshows (id, .value e) (List.mem_cons_self ..)) (.refl _ _) halike limit)
          fun v m₁ hsound₁ htree₁ hechoes ↦ ?_
        obtain ⟨w₁, href, halike₁⟩ := hechoes
        rw [← htree₁] at hothers hshows
        exact ih v (hothers v w₁ href) hsound₁ (Nat.succ.inj hlength)
          (fun q hq ↦ hshows q (List.mem_cons_of_mem _ hq)) halike₁

/-- A sequence whose statements are settled is finished. -/
theorem FinishedEach.finished (hbridge : Bridge alike callee fault) (hforest : t.Forest)
    (hx : t.kind? x = some (.sequence ids))
    (hshows : Shows calls (fun _ ↦ False) t x (.statements items span))
    (h : FinishedEach calls alike t w ids items) :
    Finished calls alike t w x (.statements items span) := by
  intro limit m hsound hshows' hadapts halike
  cases limit with
  | zero => rfl
  | succ limit =>
    obtain ⟨ids', hx', hfollowed⟩ := hadapts.keeps hforest hx (Or.inl rfl)
    have hx'' : m.tree.kind? x = some (.sequence ids') := hx'
    obtain ⟨_, heq, hlength, hbelow⟩ := hshows.exists_sequence hforest hx
    obtain rfl := NodeKind.sequence.inj heq
    obtain ⟨_, heq', hlength', hbelow'⟩ := hshows'.exists_sequence hsound.forest hx''
    obtain rfl := NodeKind.sequence.inj heq'
    have heach := h.adapts hforest hadapts items
      (fun y hy ↦ hforest.exists_kind? (Tree.names_iff_kind?.mpr ⟨_, hx, hy⟩)) hbelow hfollowed
    show (machineOf (Eval.step (Eval.execute limit) x m)).tree = m.tree
    rw [Eval.step_sequence (Tree.resolve_of_kind? hx'') hx'']
    exact heach.tree_inOrder hbridge limit items .null hsound hlength' hbelow' halike

/-! ### Evaluating statements for the first time -/

theorem Tree.Followed.exists_mem_zip {α : Type} {q : NodeId × α} {parts : List α}
    (h : t.Followed ids ids') (hq : q ∈ ids.zip parts) :
    ∃ d, t.resolve q.1 = .ok d ∧ (d, q.2) ∈ ids'.zip parts := by
  induction h generalizing parts with
  | nil => cases hq
  | cons hresolve _ ih =>
    cases parts with
    | nil => cases hq
    | cons part parts =>
      rcases List.mem_cons.mp hq with rfl | hq
      · exact ⟨_, hresolve, List.mem_cons_self ..⟩
      · obtain ⟨d, hd, hmem⟩ := ih hq
        exact ⟨d, hd, List.mem_cons_of_mem _ hmem⟩

theorem Tree.Followed.exists_mem_zip_of {α : Type} {q : NodeId × α} {parts : List α}
    (h : t.Followed ids ids') (hq : q ∈ ids'.zip parts) :
    ∃ c, t.resolve c = .ok q.1 ∧ (c, q.2) ∈ ids.zip parts := by
  induction h generalizing parts with
  | nil => cases hq
  | cons hresolve _ ih =>
    cases parts with
    | nil => cases hq
    | cons part parts =>
      rcases List.mem_cons.mp hq with rfl | hq
      · exact ⟨_, hresolve, List.mem_cons_self ..⟩
      · obtain ⟨c, hc, hmem⟩ := ih hq
        exact ⟨c, hc, List.mem_cons_of_mem _ hmem⟩

/-- The statements of a sequence that are still to be evaluated: `ids` lead to its last children
`cs`, and these show `items`. -/
structure Pending (calls : NodeId → Span) (m : Machine) (x : NodeId) (ids cs : List NodeId)
    (items : List Expr) : Prop where
  last : ∃ all, m.tree.kind? x = some (.sequence all) ∧ cs <:+ all
  followed : m.tree.Followed ids cs
  length : ids.length = (Part.ofStatements items).length
  shows : ∀ q ∈ cs.zip (Part.ofStatements items), Shows calls (fun _ ↦ False) m.tree q.1 q.2

namespace Pending

variable {c : NodeId} {cs : List NodeId}

theorem names (h : Pending calls m x ids cs items) : ∀ d ∈ cs, m.tree.Names x d := by
  obtain ⟨all, hx, hsuffix⟩ := h.last
  exact fun d hd ↦ Tree.names_iff_kind?.mpr ⟨_, hx, hsuffix.subset hd⟩

theorem nodup (h : Pending calls m x ids cs items) (hforest : m.tree.Forest) : cs.Nodup := by
  obtain ⟨all, hx, hsuffix⟩ := h.last
  obtain ⟨n, hn, hkind⟩ := Tree.kind?_eq_some_iff.mp hx
  have hall := hforest.distinct x n hn
  rw [hkind] at hall
  exact hall.sublist hsuffix.sublist

theorem tail (h : Pending calls m x (id :: ids) (c :: cs) (e :: items))
    (htail : e.returnTail? = none) : Pending calls m x ids cs items := by
  obtain ⟨⟨all, hx, hsuffix⟩, hfollowed, hlength, hshows⟩ := h
  simp only [Part.ofStatements, htail] at hlength hshows
  exact ⟨⟨all, hx, (List.suffix_cons c cs).trans hsuffix⟩, (List.forall₂_cons.mp hfollowed).2,
    Nat.succ.inj hlength, fun q hq ↦ hshows q (List.mem_cons_of_mem _ hq)⟩

theorem head (h : Pending calls m x (id :: ids) (c :: cs) (e :: items))
    (htail : e.returnTail? = none) : Shows calls (fun _ ↦ False) m.tree c (.value e) := by
  have hshows := h.shows (c, .value e)
  rw [Part.ofStatements, htail] at hshows
  exact hshows (List.mem_cons_self ..)

/-- Evaluation leaves a sequence at its place, with its children where they have gone. -/
theorem later (h : Pending calls m x ids cs items) (hsound : m.Sound calls)
    (hlater : Later calls busy m m') :
    ∃ cs', m'.tree.Followed cs cs' ∧ Pending calls m' x ids cs' items := by
  obtain ⟨⟨all, hx, before, hall⟩, hfollowed, hlength, hshows⟩ := h
  obtain ⟨all', hx', hkept⟩ := hlater.adapts.keeps hsound.forest hx (Or.inl rfl)
  have hcs : m'.tree.Followed cs (all'.drop before.length) := by
    have hdrop := List.forall₂_drop before.length hkept
    rwa [← hall, NodeKind.children, List.drop_left] at hdrop
  refine ⟨_, hcs, ⟨all', hx', List.drop_suffix _ _⟩,
    Tree.Followed.trans hfollowed (hlater.adapts.evolves hsound.forest) hcs, hlength,
    fun q hq ↦ ?_⟩
  obtain ⟨d, hd, hmem⟩ := Tree.Followed.exists_mem_zip_of hcs hq
  exact ((hshows _ hmem).later hsound.ready hlater).resolved hd

/-- What a statement has left behind is left alone by the ones behind it. -/
theorem spares (h : Pending calls m x (id :: ids) (c :: cs) (e :: items))
    (htail : e.returnTail? = none) (hsound : m.Sound calls) (limit : Nat) (last : Value) :
    Later calls (fun _ ↦ False) m (machineOf (Eval.inOrder (Eval.execute limit) last ids m)) ∧
      Tree.Spares m.tree (machineOf (Eval.inOrder (Eval.execute limit) last ids m)).tree c := by
  have hforest := hsound.forest
  have hnames := h.names c (List.mem_cons_self ..)
  obtain ⟨k, hk⟩ := hforest.exists_kind? hnames
  obtain ⟨_, hfollowed, hlength, hbelow⟩ := h.tail htail
  let busy : NodeId → Prop := fun y ↦ (∃ k, m.tree.kind? y = some k) ∧ m.tree.Reaches c y
  have hready : Ready calls busy m := by
    refine ⟨hsound, fun y ⟨⟨k, hy⟩, _⟩ ↦ ?_⟩
    obtain ⟨n, hn, _⟩ := Tree.kind?_eq_some_iff.mp hy
    exact Tree.lt_size_of_node? hn
  have hfollows := Eval.follows_inOrder_statements (Eval.simulates_execute calls limit) items last
    hready hlength fun q hq ↦ by
      obtain ⟨d, hd, hmem⟩ := hfollowed.exists_mem_zip hq
      have hd' := (List.of_mem_zip hmem).1
      have hne : c ≠ d := fun heq ↦ (List.nodup_cons.mp (h.nodup hforest)).1 (heq ▸ hd')
      have hresolve := (Tree.resolve_resolved hd).trans hd.symm
      refine (((hbelow _ hmem).confined hforest (Tree.resolve_resolved hd)).mono
        fun y ⟨hy, hreach⟩ ↦ ⟨hy, ?_⟩).of_resolve_eq hresolve.symm
      exact hforest.not_reaches_sibling hnames (h.names d (List.mem_cons_of_mem _ hd')) hne hreach
  exact ⟨hfollows.later.unconfined, hfollows.later.adapts.spares_of_shows hforest (h.head htail)
    rfl hk fun y k hreach hy ↦ ⟨⟨k, hy⟩, hreach⟩⟩

end Pending

/-- By induction on the statements, each evaluated in the tree that the ones before it left. -/
theorem finishedEach_inOrder (hbridge : Bridge alike callee fault) {limit : Nat}
    (htails : FinishesTail calls alike (Eval.execute limit)) (items : List Expr) :
    ∀ {m : Machine} {ids cs : List NodeId} (last : Value), m.Sound calls →
      Pending calls m x ids cs items →
      (∀ span' m', Eval.inOrder (Eval.execute limit) last ids m ≠ .error (.tooDeep span') m') →
      ∀ ids', (machineOf (Eval.inOrder (Eval.execute limit) last ids m)).tree.Followed ids ids' →
        FinishedEach calls alike (machineOf (Eval.inOrder (Eval.execute limit) last ids m)).tree
          m.world ids' items := by
  induction items with
  | nil =>
    intro m ids cs last _ _ _ ids' _
    cases ids' <;> trivial
  | cons e items ih =>
    intro m ids cs last hsound hpending hdeep ids' hfollowed'
    cases hpending.followed with
    | nil =>
      cases hfollowed'
      trivial
    | @cons id c ids cs hid hrest =>
      have hc := Tree.resolve_resolved hid
      cases htail : e.returnTail? with
      | some tail =>
        obtain ⟨_, _, hlength, hshows⟩ := hpending
        rw [Part.ofStatements, htail] at hlength hshows
        obtain rfl : ids = [] := List.length_eq_zero_iff.mp (Nat.succ.inj hlength)
        rw [Eval.inOrder_single] at hdeep hfollowed' ⊢
        have hshow := (hshows (c, _) (List.mem_cons_self ..)).of_resolve_eq (hid.trans hc.symm)
        have hlater := ((Eval.simulates_execute calls limit).tail hsound.ready htail hshow).later
        cases hfollowed' with
        | cons hid' _ =>
          rw [finishedEach_tail htail]
          exact (htails hsound hshow hdeep).of_resolve_eq hlater.sound.forest hid'
            (Tree.resolve_resolved hid')
      | none =>
        obtain ⟨k, hk⟩ := hsound.forest.exists_kind? (hpending.names c (List.mem_cons_self ..))
        rw [Eval.inOrder] at hdeep hfollowed' ⊢
        have hcongr := Eval.execute_congr (hid.trans hc.symm) fun span' m' heq ↦
          hdeep span' m' (Eval.bind_error_eq heq)
        rw [Eval.bind_congr_at hcongr] at hdeep hfollowed' ⊢
        have htended := tends_execute hbridge limit hsound hk (hpending.head htail)
        revert htended
        generalize hexec : Eval.execute limit c m = result
        intro htended
        cases htended with
        | tooDeep => exact absurd (Eval.bind_error_eq hexec) (hdeep _ _)
        | @done _ c₁ hlater hends hresolve hsettled =>
          have hid₁ := (hlater.adapts.evolves hsound.forest).resolve_trans hid hresolve
          cases result with
          | error exit m₁ =>
            rw [Eval.bind_error_eq hexec] at hfollowed' ⊢
            cases hfollowed' with
            | cons hid' _ =>
              obtain rfl := Except.ok.inj (hid₁.symm.trans hid')
              rw [finishedEach_value htail]
              exact ⟨hsettled, fun v w' href ↦ absurd href (hends v w')⟩
          | ok v m₁ =>
            rw [Eval.bind_eq hexec] at hdeep hfollowed' ⊢
            obtain ⟨cs₁, hcs₁, hpending₁⟩ := hpending.later hsound hlater
            cases hcs₁ with
            | cons hc₁ _ =>
              obtain rfl := Except.ok.inj (hresolve.symm.trans hc₁)
              obtain ⟨hlater₂, hspares⟩ := hpending₁.spares htail hlater.sound limit v
              obtain ⟨k₁, hk₁⟩ := hlater.sound.forest.exists_kind?
                (hpending₁.names c₁ (List.mem_cons_self ..))
              have hid₂ := (hlater₂.adapts.evolves hlater.sound.forest).resolve_trans hid₁
                (Tree.resolve_of_kind? (hspares.intact.kind?_eq hk₁))
              cases hfollowed' with
              | cons hid' hrest' =>
                obtain rfl := Except.ok.inj (hid₂.symm.trans hid')
                rw [finishedEach_value htail]
                refine ⟨hsettled.later hspares, fun u w' hu ↦ ?_⟩
                obtain ⟨-, rfl⟩ := EStateM.Result.ok.inj (Eq.trans (Eq.symm hends) hu)
                exact ih v hlater.sound (hpending₁.tail htail) hdeep _ hrest'

/-! ### Programs -/

/-- One evaluation is enough for statements and for the return tails among them. -/
theorem finishes_execute (hbridge : Bridge alike callee fault) (limit : Nat) :
    Finishes calls alike (Eval.execute limit) ∧ FinishesTail calls alike (Eval.execute limit) := by
  induction limit with
  | zero =>
    constructor
    · intro m id items span _ _ hdeep
      exact absurd rfl (hdeep _ _)
    · intro m id tail items restSpan span _ _ hdeep
      exact absurd rfl (hdeep _ _)
  | succ limit ih =>
    constructor
    · intro m id items span hsound hshows hdeep
      have hready := hsound.ready
      have hforest := hsound.forest
      obtain ⟨x, n, hresolve, hn, _⟩ := hshows.exists_node?
      have hx : m.tree.kind? x = some n.kind := Tree.kind?_eq_some_iff.mpr ⟨n, hn, rfl⟩
      have hshows' := hshows.resolved hresolve
      obtain ⟨all, hkind, hlength, hbelow⟩ := hshows'.exists_sequence hforest hx
      rw [hkind] at hx
      have hlater := ((Eval.simulates_execute calls (limit + 1)).statements hready hshows).later
      have hevolves := hlater.adapts.evolves hforest
      obtain ⟨all', hx', hfollowed⟩ := hlater.adapts.keeps hforest hx (Or.inl rfl)
      have hstep : Eval.execute (limit + 1) id m = Eval.inOrder (Eval.execute limit) .null all m :=
        Eval.step_sequence hresolve hx
      have hlive : m.tree.Followed all all := .of_live fun d hd ↦ by
        obtain ⟨k, hk⟩ := hforest.exists_kind? (Tree.names_iff_kind?.mpr ⟨_, hx, hd⟩)
        exact (Tree.kind?_eq_some_iff.mp hk).imp fun _ h ↦ h.1
      have heach := finishedEach_inOrder hbridge ih.2 items .null hsound
        ⟨⟨all, hx, List.suffix_rfl⟩, hlive, hlength, hbelow⟩ (hstep ▸ hdeep) all'
        (hstep ▸ hfollowed)
      rw [← hstep] at heach
      exact (heach.finished hbridge hlater.sound.forest hx'
        (hshows'.later hready hlater)).of_resolve_eq hlater.sound.forest (Tree.resolve_of_kind? hx')
        (hevolves.resolve_trans hresolve (Tree.resolve_of_kind? hx'))
    · intro m id tail items restSpan span hsound hshows hdeep
      obtain ⟨x, n, hresolve, hn, _⟩ := hshows.exists_node?
      have hshows' := hshows.resolved hresolve
      obtain ⟨c, body, arg, rest, htail, _⟩ := hshows'.exists_tail hsound.forest
      obtain ⟨form, hx, _⟩ := htail.exists_form (Tree.resolve_resolved hresolve)
      have hstep : Eval.execute (limit + 1) id m =
          Eval.conditional (Eval.execute limit) x form m := Eval.step_cond hresolve hx
      have hdecision :=
        decision_conditional hbridge (tends_execute hbridge limit) hsound hshows' rfl hx
      rw [hstep] at hdeep ⊢
      obtain ⟨hlater, hfinished⟩ :=
        finished_of_decision hbridge hsound hshows' limit ih.1 hdecision hdeep
      have hevolves := hlater.adapts.evolves hsound.forest
      obtain ⟨y, _, hy, _⟩ := (hshows'.later hsound.ready hlater).exists_node?
      exact hfinished.of_resolve_eq hevolves.forest hy (hevolves.resolve_trans hresolve hy)

theorem Part.ofProgram_cases (options : CompilationOptions) (e : Expr) :
    (∃ e', Part.ofProgram options e = .value e') ∨
      ∃ items span, Part.ofProgram options e = .statements items span := by
  cases e with
  | block items span =>
    rw [Part.ofProgram]
    split_ifs
    · exact Or.inr ⟨_, _, rfl⟩
    · exact Or.inl ⟨_, rfl⟩
  | _ => exact Or.inl ⟨_, rfl⟩

/-- One evaluation is enough for a program. -/
theorem finished_of_execute (hbridge : Bridge alike callee fault) (limit : Nat)
    (hsound : m.Sound calls) (options : CompilationOptions)
    (hshows : Shows calls (fun _ ↦ False) m.tree id (Part.ofProgram options e))
    (hdeep : ∀ span' m', Eval.execute limit id m ≠ .error (.tooDeep span') m') :
    Finished calls alike (machineOf (Eval.execute limit id m)).tree m.world id
      (Part.ofProgram options e) := by
  rcases Part.ofProgram_cases options e with ⟨e', hpart⟩ | ⟨items, span, hpart⟩
  · rw [hpart] at hshows ⊢
    have hready := hsound.ready
    obtain ⟨x, n, hresolve, hn, _⟩ := hshows.exists_node?
    have hx : m.tree.kind? x = some n.kind := Tree.kind?_eq_some_iff.mpr ⟨n, hn, rfl⟩
    have hcongr := Eval.execute_congr (hresolve.trans (Tree.resolve_of_kind? hx).symm) hdeep
    rw [hcongr] at hdeep ⊢
    have htended := tends_execute hbridge limit hsound hx (hshows.resolved hresolve)
    revert hdeep htended
    generalize Eval.execute limit x m = result
    intro hdeep htended
    cases htended with
    | tooDeep => exact absurd rfl (hdeep _ _)
    | done hlater _ hx' hsettled =>
      have hlater' : Later calls (fun _ ↦ False) m (machineOf result) :=
        hlater.unconfined
      have hforest := hlater.sound.forest
      obtain ⟨n', hn'⟩ := Tree.exists_node?_of_resolve hx'
      exact (hsettled.finished hforest
        (((hshows.resolved hresolve).later hready hlater').resolved hx')
        (Tree.kind?_eq_some_iff.mpr ⟨n', hn', rfl⟩)).of_resolve_eq hforest
        (Tree.resolve_resolved hx')
        ((hlater.adapts.evolves hsound.forest).resolve_trans hresolve hx')
  · rw [hpart] at hshows ⊢
    exact (finishes_execute hbridge limit).1 hsound hshows hdeep

end AdaptiveTree
