import AdaptiveTree.Proofs.Repetition.Settled

/-!
One evaluation is enough for a node that is no conditional, if it is for its children. Each child
is evaluated after the ones before it, which it does not touch, so all that was found out about
them still holds when the last one has been evaluated.
-/

set_option autoImplicit false
set_option relaxedAutoImplicit false

namespace AdaptiveTree

open Machine (Later Sound)

/-- An evaluation comes to what the reference comes to, and fails only where it fails. -/
def Ends {α : Type} (reference : EStateM.Result Halt World α) :
    EStateM.Result Exit Machine α → Prop
  | .ok a m' => reference = .ok a m'.world
  | .error _ _ => ∀ a w', reference ≠ .ok a w'

/-- What the evaluation of a live node leaves behind: the node that it has become is settled for
the world in which it was evaluated. Nothing is said of evaluations that were nested too deep. -/
inductive Tended (calls : NodeId → Span) (alike : World → World → Prop) (m : Machine)
    (c : NodeId) (e : Expr) : EStateM.Result Exit Machine Value → Prop
  | done {result : EStateM.Result Exit Machine Value} {c' : NodeId}
      (hlater : Later calls (m.tree.Outside c) m (machineOf result))
      (hends : Ends (Reference.expr e m.world) result)
      (hresolve : (machineOf result).tree.resolve c = .ok c')
      (hsettled : Settled calls alike (machineOf result).tree m.world c' e) :
    Tended calls alike m c e result
  | tooDeep {span : Span} {m' : Machine} : Tended calls alike m c e (.error (.tooDeep span) m')

/-- Every evaluation of a live node for the value of an expression leaves it settled. -/
def Tends (calls : NodeId → Span) (alike : World → World → Prop) (exec : Evaluator) : Prop :=
  ∀ {m : Machine} {c : NodeId} {k : NodeKind} {e : Expr}, m.Sound calls →
    m.tree.kind? c = some k → Shows calls (fun _ ↦ False) m.tree c (.value e) →
    Tended calls alike m c e (exec c m)

/-- The same of some children of `x`, one after the other. What else `x` names is spared. -/
inductive TendedEach (calls : NodeId → Span) (alike : World → World → Prop) (x : NodeId)
    (m : Machine) (cs : List NodeId) (es : List Expr) :
    EStateM.Result Exit Machine (List Value) → Prop
  | done {result : EStateM.Result Exit Machine (List Value)}
      (hlater : Later calls (fun _ ↦ False) m (machineOf result))
      (hends : Ends (Reference.each es m.world) result)
      (hspares : ∀ d e, m.tree.Names x d → d ∉ cs →
        Shows calls (fun _ ↦ False) m.tree d (.value e) →
        Tree.Spares m.tree (machineOf result).tree d)
      (hsettled : ∀ cs', (machineOf result).tree.Followed cs cs' →
        SettledEach calls alike (machineOf result).tree m.world cs' es) :
    TendedEach calls alike x m cs es result
  | tooDeep {span : Span} {m' : Machine} :
    TendedEach calls alike x m cs es (.error (.tooDeep span) m')

variable {calls : NodeId → Span} {alike : World → World → Prop}
  {callee : Definition → Definition → Prop} {fault : Fault → Prop} {t t' : Tree} {w : World}
  {m m' : Machine} {x c d : NodeId} {k : NodeKind} {e : Expr} {exec : Evaluator}

/-! ### Around one child -/

/-- A node is not touched while one of its children is evaluated. -/
theorem Machine.Sound.outside_parent (h : m.Sound calls) (hx : m.tree.kind? x = some k)
    (hc : m.tree.Names x c) : m.tree.Outside c x :=
  ⟨⟨k, hx⟩, h.forest.not_reaches_parent hc⟩

/-- The other children are not touched either. -/
theorem Machine.Later.spares_sibling {part : Part} (h : Later calls (m.tree.Outside c) m m')
    (hsound : m.Sound calls) (hc : m.tree.Names x c) (hd : m.tree.Names x d) (hne : d ≠ c)
    (hshows : Shows calls (fun _ ↦ False) m.tree d part) (hexpr : part.isExpr = true) :
    Tree.Spares m.tree m'.tree d := by
  obtain ⟨y, n, hresolve, hn, _⟩ := hshows.exists_node?
  have hchild : ∃ k, m.tree.kind? d = some k := by
    obtain ⟨n', hn', hmem⟩ := hd
    obtain ⟨child, hchild, _⟩ := hsound.forest.exists_child hn' hmem
    exact ⟨child.kind, Tree.kind?_eq_some_iff.mpr ⟨child, hchild, rfl⟩⟩
  obtain ⟨k, hk⟩ := hchild
  exact h.adapts.spares_of_shows hsound.forest hshows hexpr hk fun y k hreach hy ↦
    ⟨⟨k, hy⟩, hsound.forest.not_reaches_sibling hd hc hne hreach⟩

/-- A child that is still there is still a child. -/
theorem Tree.Keeps.names (h : t.Keeps x k) (hc : c ∈ k.children) {c' : NodeId}
    (hresolve : t.resolve c = .ok c') : t.Names x c' := by
  obtain ⟨ids, hx, hfollowed⟩ := h
  have hlength := Keeps.length_eq hfollowed
  obtain ⟨i, hi, rfl⟩ := List.getElem_of_mem hc
  have hi' : i < ids.length := hlength ▸ hi
  have hget := hfollowed.get hi hi'
  refine Tree.names_iff_kind?.mpr ⟨_, hx, ?_⟩
  rw [NodeKind.children_withChildren k ids hlength]
  have heq : ids.get ⟨i, hi'⟩ = c' := Except.ok.inj (hget.symm.trans hresolve)
  exact heq ▸ List.get_mem ids ⟨i, hi'⟩

/-- Return tails are overridden at any time, but there are none below an expression. -/
theorem Tree.Adapts.spares_expr {busy : NodeId → Prop} {part : Part}
    (h : Tree.Adapts calls (fun _ ↦ True) t t') (hforest : t.Forest)
    (hshows : Shows calls busy t d part) (hexpr : part.isExpr = true)
    (hd : t.kind? d = some k) : Tree.Spares t t' d :=
  h.spares_of_shows hforest hshows hexpr hd fun _ _ _ _ ↦ trivial

/-! ### The children of a node -/

theorem exists_of_forall₂ {α β : Type} {R : α → β → Prop} {as : List α} {bs : List β}
    (h : List.Forall₂ R as bs) {a : α} (ha : a ∈ as) : ∃ b, R a b := by
  induction h with
  | nil => cases ha
  | cons hfirst _ ih =>
    rcases List.mem_cons.mp ha with rfl | ha
    · exact ⟨_, hfirst⟩
    · exact ih ha

theorem Tree.Forest.exists_kind? (h : t.Forest) (hnames : t.Names x c) :
    ∃ k, t.kind? c = some k := by
  obtain ⟨n, hn, hmem⟩ := hnames
  obtain ⟨child, hchild, _⟩ := h.exists_child hn hmem
  exact ⟨child.kind, Tree.kind?_eq_some_iff.mpr ⟨child, hchild, rfl⟩⟩

theorem Reference.each_eq_ok {es : List Expr} {vs : List Value} {w' : World}
    (h : Reference.each (e :: es) w = .ok vs w') : ∃ v w₁ vs', Reference.expr e w = .ok v w₁ ∧
      Reference.each es w₁ = .ok vs' w' ∧ vs = v :: vs' := by
  rw [Reference.each] at h
  cases hfirst : Reference.expr e w with
  | error halt w₁ =>
    rw [Reference.bind_error_eq hfirst] at h
    cases h
  | ok v w₁ =>
    rw [Reference.bind_eq hfirst] at h
    cases hrest : Reference.each es w₁ with
    | error halt w₂ =>
      rw [Reference.bind_error_eq hrest] at h
      cases h
    | ok vs' w₂ =>
      rw [Reference.bind_eq hrest] at h
      obtain ⟨rfl, rfl⟩ := EStateM.Result.ok.inj h
      exact ⟨v, w₁, vs', rfl, hrest, rfl⟩

section Children

variable {cs : List NodeId} {es : List Expr} (hsound : m.Sound calls)
  (hx : m.tree.kind? x = some k) (hfixed : k.isFixed = true) (hnamesc : m.tree.Names x c)
  (hnames : ∀ d ∈ cs, m.tree.Names x d) (hnodup : (c :: cs).Nodup)

include hsound hnamesc in
/-- After a failure no other child is evaluated. -/
theorem tendedEach_of_error {exit : Exit}
    (h : Tended calls alike m c e (.error exit m')) :
    TendedEach calls alike x m (c :: cs) (e :: es) (.error exit m') := by
  cases h with
  | tooDeep => exact .tooDeep
  | done hlater hends hresolve hsettled =>
    refine .done hlater.unconfined ?_ ?_ ?_
    · intro vs w' href
      obtain ⟨v, w₁, _, hfirst, _⟩ := Reference.each_eq_ok href
      exact hends v w₁ hfirst
    · intro d e' hd hne hshows
      exact hlater.spares_sibling hsound hnamesc hd (fun heq ↦ hne (heq ▸ List.mem_cons_self ..))
        hshows rfl
    · intro cs' hcs'
      cases hcs' with
      | cons hc' _ =>
        obtain rfl := Except.ok.inj (hresolve.symm.trans hc')
        exact ⟨hsettled, fun v w' href ↦ absurd href (hends v w')⟩

include hsound hx hfixed hnamesc in
/-- What `x` names it goes on naming. -/
theorem Machine.Later.names_sibling {part : Part} (h : Later calls (m.tree.Outside c) m m')
    (hd : m.tree.Names x d) (hne : d ≠ c) (hshows : Shows calls (fun _ ↦ False) m.tree d part)
    (hexpr : part.isExpr = true) : m'.tree.Names x d := by
  obtain ⟨k', hk'⟩ := hsound.forest.exists_kind? hd
  have hspares := h.spares_sibling hsound hnamesc hd hne hshows hexpr
  have hkeeps := h.adapts.keeps hsound.forest hx (Or.inl hfixed)
  obtain ⟨n, hn, hmem⟩ := Tree.names_iff_kind?.mp hd
  obtain rfl := Option.some.inj (hx.symm.trans hn)
  exact hkeeps.names hmem (Tree.resolve_of_kind? (hspares.intact.kind?_eq hk'))

include hsound hnamesc hnodup in
/-- The node that a child has become is none of the others. -/
theorem Machine.Later.not_mem_others (h : Later calls (m.tree.Outside c) m m')
    (hnames : ∀ d ∈ cs, m.tree.Names x d)
    (hshows : List.Forall₂ (fun c e ↦ Shows calls (fun _ ↦ False) m.tree c (.value e)) cs es)
    {c' : NodeId} (hresolve : m'.tree.resolve c = .ok c') : c' ∉ cs := by
  intro hmem
  obtain ⟨hc, _⟩ := List.nodup_cons.mp hnodup
  obtain ⟨kc, hkc⟩ := hsound.forest.exists_kind? hnamesc
  obtain ⟨kd, hkd⟩ := hsound.forest.exists_kind? (hnames c' hmem)
  obtain ⟨nc, hnc, _⟩ := Tree.kind?_eq_some_iff.mp hkc
  obtain ⟨nd, hnd, _⟩ := Tree.kind?_eq_some_iff.mp hkd
  obtain ⟨e', hshow⟩ := exists_of_forall₂ hshows hmem
  have hspares := h.spares_sibling hsound hnamesc (hnames c' hmem) (fun heq ↦ hc (heq ▸ hmem))
    hshow rfl
  exact hc ((h.adapts.evolves hsound.forest).apart c c' nc nd c' hnc hnd hresolve
    (Tree.resolve_of_kind? (hspares.intact.kind?_eq hkd)) ▸ hmem)

include hsound hx hfixed hnamesc hnodup in
/-- What the first child leaves behind is not touched by the others. -/
theorem tendedEach_cons {v : Value} {rest : Eval (List Value)}
    (hshow : Shows calls (fun _ ↦ False) m.tree c (.value e))
    (hshows : List.Forall₂ (fun c e ↦ Shows calls (fun _ ↦ False) m.tree c (.value e)) cs es)
    (h : Tended calls alike m c e (.ok v m')) (hnames : ∀ d ∈ cs, m.tree.Names x d)
    (hothers : TendedEach calls alike x m' cs es (rest m')) :
    TendedEach calls alike x m (c :: cs) (e :: es)
      ((rest >>= fun vs ↦ pure (v :: vs) : Eval (List Value)) m') := by
  have hready := hsound.ready
  cases h with
  | @done _ c' hlater hends hresolve hsettled =>
    have hkeeps := hlater.adapts.keeps hsound.forest hx (Or.inl hfixed)
    have hnot := hlater.not_mem_others hsound hnamesc hnodup hnames hshows hresolve
    obtain ⟨n, hn, hmem⟩ := Tree.names_iff_kind?.mp hnamesc
    obtain rfl := Option.some.inj (hx.symm.trans hn)
    have hnamesc' : m'.tree.Names x c' := hkeeps.names hmem hresolve
    have hspares : ∀ {t₂ : Tree}, (∀ d e, m'.tree.Names x d → d ∉ cs →
        Shows calls (fun _ ↦ False) m'.tree d (.value e) → Tree.Spares m'.tree t₂ d) →
        ∀ d e', m.tree.Names x d → d ∉ c :: cs →
          Shows calls (fun _ ↦ False) m.tree d (.value e') → Tree.Spares m.tree t₂ d := by
      intro t₂ hspares' d e' hd hne hshowd
      obtain ⟨hnec, hnecs⟩ := not_or.mp (mt List.mem_cons.mpr hne)
      exact (hlater.spares_sibling hsound hnamesc hd hnec hshowd rfl).trans
        (hspares' d e' (hlater.names_sibling hsound hx hfixed hnamesc hd hnec hshowd rfl) hnecs
          (hshowd.later hready hlater))
    revert hothers
    generalize hrest : rest m' = result
    intro hothers
    cases hothers with
    | tooDeep =>
      rw [Eval.bind_error_eq hrest]
      exact .tooDeep
    | done hlater' hends' hspares' hsettled' =>
      have hsparesc := hspares' c' e hnamesc' hnot ((hshow.later hready hlater).resolved hresolve)
      have hmachine : machineOf ((rest >>= fun vs ↦ pure (v :: vs) : Eval (List Value)) m') =
          machineOf result := by
        cases result with
        | ok vs m₂ =>
          rw [Eval.bind_eq hrest]
          rfl
        | error exit m₂ => rw [Eval.bind_error_eq hrest]
      have hlater₁ := hlater.unconfined
      refine .done (hmachine ▸ hlater₁.trans hlater') ?_ (hmachine ▸ hspares hspares') ?_
      · cases result with
        | ok vs m₂ =>
          rw [Eval.bind_eq hrest]
          show Reference.each (e :: es) m.world = _
          rw [Reference.each, Reference.bind_eq hends, Reference.bind_eq hends']
          rfl
        | error exit m₂ =>
          rw [Eval.bind_error_eq hrest]
          intro vs w' href
          obtain ⟨u, w₁, vs', hfirst, hrest, _⟩ := Reference.each_eq_ok href
          obtain ⟨-, rfl⟩ := EStateM.Result.ok.inj (hends.symm.trans hfirst)
          exact hends' vs' w' hrest
      · rw [hmachine]
        intro cs' hcs'
        cases hcs' with
        | @cons _ c'' _ cs' hc' hcs' =>
          obtain ⟨kc', hkc'⟩ := hlater.sound.forest.exists_kind? hnamesc'
          have hevolves' := hlater'.adapts.evolves hlater.sound.forest
          rw [hevolves'.persists.resolve_eq hevolves'.forest.ascending hresolve,
            Tree.resolve_of_kind? (hsparesc.intact.kind?_eq hkc')] at hc'
          obtain rfl := Except.ok.inj hc'
          refine ⟨hsettled.later hsparesc, fun u w' href ↦ ?_⟩
          obtain ⟨-, rfl⟩ := EStateM.Result.ok.inj (hends.symm.trans href)
          exact hsettled' cs' hcs'

end Children

theorem tended_values (htends : Tends calls alike exec) (es : List Expr) :
    ∀ {m : Machine} {k : NodeKind} {cs : List NodeId}, m.Sound calls → m.tree.kind? x = some k →
      k.isFixed = true → (∀ c ∈ cs, m.tree.Names x c) → cs.Nodup →
      List.Forall₂ (fun c e ↦ Shows calls (fun _ ↦ False) m.tree c (.value e)) cs es →
      TendedEach calls alike x m cs es (Eval.values exec cs m) := by
  induction es with
  | nil =>
    intro m k cs hsound _ _ _ _ hshows
    cases hshows
    refine .done (.refl hsound) ?_ (fun _ _ _ _ _ ↦ .refl _ _) fun cs' hcs' ↦ ?_
    · show Reference.each [] m.world = _
      rw [Reference.each]
      rfl
    · cases hcs'
      trivial
  | cons e es ih =>
    intro m k cs hsound hx hfixed hnames hnodup hshows
    cases hshows with
    | @cons c _ cs _ hshow hshows =>
      have hnamesc := hnames c (List.mem_cons_self ..)
      obtain ⟨kc, hkc⟩ := hsound.forest.exists_kind? hnamesc
      have htended := htends hsound hkc hshow
      rw [Eval.values]
      cases hexec : exec c m with
      | error exit m₁ =>
        rw [Eval.bind_error_eq hexec]
        exact tendedEach_of_error hsound hnamesc (hexec ▸ htended)
      | ok v m₁ =>
        rw [hexec] at htended
        rw [Eval.bind_eq hexec]
        have hready := hsound.ready
        have hnames' : ∀ d ∈ cs, m.tree.Names x d := fun d hd ↦
          hnames d (List.mem_cons_of_mem _ hd)
        obtain ⟨hc, hnodup'⟩ := List.nodup_cons.mp hnodup
        refine tendedEach_cons hsound hx hfixed hnamesc hnodup hshow hshows htended hnames' ?_
        cases htended with
        | @done _ c' hlater =>
          obtain ⟨ids, hx₁, _⟩ := hlater.adapts.keeps hsound.forest hx (Or.inl hfixed)
          refine ih hlater.sound hx₁ (by rw [NodeKind.isFixed_withChildren, hfixed])
            (fun d hd ↦ ?_) hnodup' (hshows.imp fun d e' hshow ↦ hshow.later hready hlater)
          obtain ⟨e', hshowd⟩ := exists_of_forall₂ hshows hd
          exact hlater.names_sibling hsound hx hfixed hnamesc (hnames' d hd)
            (fun heq ↦ hc (heq ▸ hd)) hshowd rfl

/-! ### A node with all its children -/

namespace NodeKind

theorem binds?_withChildren (kind : NodeKind) (ids : List NodeId) :
    (kind.withChildren ids).binds? = kind.binds? := by
  unfold withChildren
  split <;> rfl

end NodeKind

/-- With the values of its children a node changes no more than that it overrides the return tails
by binding `return`, and then there are none left. -/
theorem Eval.adapts_finish (hsound : m.Sound calls) (callee : Option Eval.Callee)
    (vs : List Value) :
    Tree.Adapts calls (fun _ ↦ True) m.tree (machineOf (Eval.finish x callee k vs m)).tree ∧
      (k.binds? = some "return" → vs.length = 1 →
        ∀ y, ¬ (machineOf (Eval.finish x callee k vs m)).tree.IsBuiltinTail y) := by
  by_cases hbinds : k.binds? = some "return" ∧ vs.length = 1
  · obtain ⟨hname, hlength⟩ := hbinds
    obtain ⟨v, rfl⟩ := List.length_eq_one_iff.mp hlength
    cases k with
    | assign name value =>
      obtain rfl := Option.some.inj hname
      obtain ⟨m', hbind, hlater, hworld⟩ := hsound.bindValue "return" v fun _ ↦ True
      have hassign : Eval.assign "return" v m = .ok () m' := by
        unfold Eval.assign
        rw [hbind]
      have hbound : m'.frame.contains "return" = true := by
        have hframe : m'.frame = m.frame.insert "return" (.value v) :=
          congrArg World.frame hworld
        rw [hframe, Frame.contains_insert]
        rfl
      rw [Eval.finish, Eval.bind_eq hassign]
      exact ⟨hlater.adapts, fun _ _ ↦ hlater.sound.unbound hbound⟩
    | _ => cases hname
  · have hrests : Rests calls (fun _ _ ↦ True) m (Eval.finish x callee k vs m) :=
      Eval.rests_finish hsound fun hname hlength ↦ absurd ⟨hname, hlength⟩ hbinds
    rw [hrests.tree_eq]
    exact ⟨Relation.ReflTransGen.refl, fun hname hlength ↦ absurd ⟨hname, hlength⟩ hbinds⟩

/-- What a node that is no conditional leaves behind if it gets to its children: they are settled,
and if it has bound `return` no return tail waits for that any more. -/
structure Kept (calls : NodeId → Span) (alike : World → World → Prop) (t : Tree) (w : World)
    (x : NodeId) (k : NodeKind) (es : List Expr) (ids : List NodeId) : Prop where
  kind : t.kind? x = some (k.withChildren ids)
  length : ids.length = k.children.length
  settled : SettledEach calls alike t w ids es
  bound : ∀ vs w', Reference.each es w = .ok vs w' → k.binds? = some "return" → vs.length = 1 →
    ∀ y, ¬ t.IsBuiltinTail y

theorem Kept.settled_node {ids : List NodeId} (hbridge : Bridge alike callee fault)
    (h : Kept calls alike t w x k e.operands ids) (hfixed : k.isFixed = true) :
    t.resolve x = .ok x ∧ Settled calls alike t w x e := by
  have hchildren := k.children_withChildren ids h.length
  refine ⟨Tree.resolve_of_kind? h.kind, settled_fixed hbridge h.kind
    (by rw [NodeKind.isFixed_withChildren, hfixed]) (fun _ ↦ ?_) ?_⟩
  · rw [hchildren]
    exact h.settled
  · rw [NodeKind.binds?_withChildren]
    exact h.bound

section Fixed

variable (hsound : m.Sound calls) (hx : m.tree.kind? x = some k) (hfixed : k.isFixed = true)
  (hshows : Shows calls (fun _ ↦ False) m.tree x (.value e))

include hsound hx hfixed hshows

theorem kept_of_values {result : EStateM.Result Exit Machine (List Value)}
    (h : TendedEach calls alike x m k.children e.operands result)
    (hdeep : ∀ span m', result ≠ .error (.tooDeep span) m')
    (hadapts : Tree.Adapts calls (fun _ ↦ True) (machineOf result).tree t)
    (hbinds : ∀ vs m', result = .ok vs m' → k.binds? = some "return" → vs.length = 1 →
      ∀ y, ¬ t.IsBuiltinTail y) : ∃ ids, Kept calls alike t m.world x k e.operands ids := by
  cases h with
  | tooDeep => exact absurd rfl (hdeep _ _)
  | done hlater hends _ hsettled =>
    have hready := hsound.ready
    have hshows' := hshows.later hready hlater
    obtain ⟨ids, hx₁, hfollowed⟩ := hlater.adapts.keeps hsound.forest hx (Or.inl hfixed)
    have hlength := Tree.Keeps.length_eq hfollowed
    have hspares := hadapts.spares_expr hlater.sound.forest hshows' rfl hx₁
    refine ⟨ids, hspares.intact.kind?_eq hx₁, hlength, ?_, fun vs w' href hname hone ↦ ?_⟩
    · refine (hsettled ids hfollowed).later fun c hc ↦ hspares.child hx₁ ?_
      rw [k.children_withChildren ids hlength]
      exact hc
    · cases result with
      | error exit m' => exact absurd href (hends vs w')
      | ok vs' m' =>
        obtain ⟨rfl, rfl⟩ := EStateM.Result.ok.inj (Eq.trans (Eq.symm hends) href)
        exact hbinds vs' m' rfl hname hone

/-- Nothing is evaluated of a call if there is nothing to call. -/
theorem kept_of_step (htends : Tends calls alike exec)
    (hcallable : ∀ name, k.calls? = some name → m.world.Callable name)
    (hdeep : ∀ span m', Eval.step exec x m ≠ .error (.tooDeep span) m') :
    ∃ ids, Kept calls alike (machineOf (Eval.step exec x m)).tree m.world x k e.operands ids := by
  obtain ⟨n, hn, hkind⟩ := Tree.kind?_eq_some_iff.mp hx
  have hnames : ∀ c ∈ k.children, m.tree.Names x c := fun c hc ↦
    Tree.names_iff_kind?.mpr ⟨k, hx, hc⟩
  have hnodup : k.children.Nodup := hkind ▸ hsound.forest.distinct x n hn
  have htended := tended_values htends e.operands hsound hx hfixed hnames hnodup
    (hshows.operands hsound.forest hx hfixed)
  revert hdeep
  rw [Eval.step_fixed (Tree.resolve_of_kind? hx) hx hfixed]
  intro hdeep
  rcases Eval.prepare_eq x k m with ⟨c, hprepare, _⟩ | ⟨exit, _, name, hname, hnone⟩
  · rw [Eval.bind_eq hprepare] at hdeep ⊢
    cases hvalues : Eval.values exec k.children m with
    | error exit m₁ =>
      rw [Eval.bind_error_eq hvalues] at hdeep ⊢
      rw [hvalues] at htended
      exact kept_of_values hsound hx hfixed hshows htended
        (fun span m' heq ↦ by
          obtain ⟨rfl, rfl⟩ := EStateM.Result.error.inj heq
          exact hdeep _ _ rfl) Relation.ReflTransGen.refl nofun
    | ok vs m₁ =>
      rw [Eval.bind_eq hvalues]
      rw [hvalues] at htended
      have hsound₁ : m₁.Sound calls := by
        cases htended with
        | done hlater => exact hlater.sound
      obtain ⟨hadapts, hnobody⟩ := Eval.adapts_finish (x := x) (k := k) hsound₁ c vs
      refine kept_of_values hsound hx hfixed hshows htended nofun hadapts ?_
      rintro vs' m' heq hname
      obtain ⟨rfl, rfl⟩ := EStateM.Result.ok.inj heq
      exact hnobody hname
  · exact absurd (hcallable name hname) hnone

theorem settled_of_step (hbridge : Bridge alike callee fault) (htends : Tends calls alike exec)
    (hdeep : ∀ span m', Eval.step exec x m ≠ .error (.tooDeep span) m') :
    (machineOf (Eval.step exec x m)).tree.resolve x = .ok x ∧
      Settled calls alike (machineOf (Eval.step exec x m)).tree m.world x e := by
  rcases Eval.prepare_eq x k m with ⟨_, _, hcallable⟩ | ⟨exit, hprepare, name, hname, hnone⟩
  · obtain ⟨ids, hkept⟩ := kept_of_step hsound hx hfixed hshows htends hcallable hdeep
    exact hkept.settled_node hbridge hfixed
  · rw [Eval.step_fixed (Tree.resolve_of_kind? hx) hx hfixed, Eval.bind_error_eq hprepare]
    refine ⟨Tree.resolve_of_kind? hx, settled_fixed hbridge hx hfixed
      (fun hcallable ↦ absurd (hcallable name hname) hnone) fun _ _ _ hbinds ↦ ?_⟩
    cases k with
    | call => cases hbinds
    | _ => cases hname

end Fixed

end AdaptiveTree
