import AdaptiveTree.Proofs.Repetition.Tails

/-!
One evaluation is enough for a return tail. Its parts are evaluated one after the other, and each
leaves alone what the ones before it have left behind. A tail that is overridden meanwhile has the
same parts afterwards.
-/

set_option autoImplicit false
set_option relaxedAutoImplicit false

namespace AdaptiveTree

open Machine (Later Sound)

/-- Every evaluation of statements leaves them finished, unless it is nested too deep. -/
def Finishes (calls : NodeId → Span) (alike : World → World → Prop) (exec : Evaluator) : Prop :=
  ∀ {m : Machine} {id : NodeId} {items : List Expr} {span : Span}, m.Sound calls →
    Shows calls (fun _ ↦ False) m.tree id (.statements items span) →
    (∀ span' m', exec id m ≠ .error (.tooDeep span') m') →
    Finished calls alike (machineOf (exec id m)).tree m.world id (.statements items span)

variable {calls : NodeId → Span} {alike : World → World → Prop}
  {callee : Definition → Definition → Prop} {fault : Fault → Prop} {t t' : Tree} {w : World}
  {m m' : Machine} {id x d c arg rest : NodeId} {body : Option NodeId} {k : NodeKind} {e : Expr}
  {part others : Part} {tail : Expr.ReturnTail} {items : List Expr} {restSpan span : Span}

namespace Tree.TailAt

theorem of_resolve (h : t'.TailAt x c body arg rest) (hevolves : Tree.Evolves t t')
    (hresolve : t.resolve id = .ok x) : t'.TailAt id c body arg rest := by
  obtain ⟨y, hy, hform⟩ := h
  exact ⟨y, hevolves.resolve_trans hresolve hy, hform⟩

theorem names (h : t.TailAt x c body arg rest) (hlive : t.resolve x = .ok x) :
    ∀ a ∈ c :: body.toList ++ [rest], t.Names x a := by
  obtain ⟨y, hy, hform⟩ := h
  obtain rfl := Except.ok.inj (hlive.symm.trans hy)
  intro a ha
  simp only [List.cons_append, List.mem_cons, List.mem_append, List.not_mem_nil, or_false] at ha
  rcases hform with hx | ⟨call, hx, _⟩ <;>
    · refine Tree.names_iff_kind?.mpr ⟨_, hx, ?_⟩
      simp only [NodeKind.children, Conditional.children, List.cons_append, List.mem_cons,
        List.mem_append, List.not_mem_nil, or_false]
      tauto

end Tree.TailAt

/-- The parts of a return tail are apart from each other. -/
theorem Tree.Forest.tail_apart {last : NodeId} (h : t.Forest) (hx : t.kind? x = some k)
    (hchildren : k.children = c :: body.toList ++ [last, rest]) :
    (c :: body.toList).Nodup ∧ last ∉ c :: body.toList ∧ rest ∉ c :: body.toList ∧
      last ≠ rest := by
  obtain ⟨n, hn, rfl⟩ := Tree.kind?_eq_some_iff.mp hx
  have hnodup := h.distinct x n hn
  rw [hchildren] at hnodup
  obtain ⟨hbody, hlast, hapart⟩ := List.nodup_append.mp hnodup
  refine ⟨hbody, fun hmem ↦ hapart last hmem last (by simp) rfl,
    fun hmem ↦ hapart rest hmem rest (by simp) rfl, ?_⟩
  simpa using hlast

theorem Reference.expr_return_ne_ok (hunbound : w.frame.contains "return" = false) (arg : Expr)
    (span : Span) (v : Value) (w' : World) : expr (.call "return" [arg] span) w ≠ .ok v w' := by
  rw [expr_return hunbound]
  cases harg : expr arg w with
  | ok u w₁ =>
    rw [bind_eq harg]
    nofun
  | error halt w₁ =>
    rw [bind_error_eq harg]
    nofun

/-! ### One part -/

section Child

variable (hsound : m.Sound calls) (hlive : m.tree.resolve x = .ok x)
  (htail : m.tree.TailAt x c body arg rest)
  (hparts : TailParts calls m.tree x tail (.statements items restSpan) c body arg rest)
  (hlater : Later calls (m.tree.Outside d) m m') (hd : m.tree.Names x d)

include hsound hlive htail hparts hlater hd

/-- The condition and the body are left alone while another part is evaluated. -/
theorem spares_of_child (hne : d ∉ c :: body.toList) :
    ∀ a ∈ c :: body.toList, Tree.Spares m.tree m'.tree a := by
  intro a ha
  have hnames := htail.names hlive a (List.mem_append_left _ ha)
  have hne' : a ≠ d := fun heq ↦ hne (heq ▸ ha)
  rcases List.mem_cons.mp ha with rfl | hbody
  · exact hlater.spares_sibling hsound hd hnames hne' hparts.cond rfl
  · exact hlater.spares_sibling hsound hd hnames hne'
      (hparts.body a (Option.mem_toList.mp hbody)) rfl

/-- The parts of a return tail are followed while one of them is evaluated. -/
theorem tailAt_of_child (hne : d ≠ c) : ∃ body' arg', m'.tree.TailAt x c body' arg' rest ∧
    m'.tree.Followed body.toList body'.toList ∧ m'.tree.resolve arg = .ok arg' := by
  have hforest := hsound.forest
  obtain ⟨k, hk, _⟩ := Tree.names_iff_kind?.mp hd
  obtain ⟨c', body', arg', rest', htail', hfollowed⟩ := hlater.adapts.tailAt hforest
    (hsound.outside_parent hk hd) htail
  obtain ⟨hc, hbody, harg, hrest⟩ := Tree.followed_tail_iff.mp hfollowed
  obtain ⟨kc, hkc⟩ := htail.exists_kind? hforest c (by simp)
  obtain ⟨kr, hkr⟩ := htail.exists_kind? hforest rest (by simp)
  obtain rfl := (hlater.spares_sibling hsound hd (htail.names hlive c (by simp)) hne.symm
    hparts.cond rfl).eq_of_resolve hkc hc
  obtain ⟨ids, rfl, _⟩ := hparts.rest.exists_sequence hforest hkr
  obtain rfl := Except.ok.inj (hrest.symm.trans (hlater.adapts.resolve_sequence hforest hkr))
  exact ⟨body', arg', htail', hbody, harg⟩

theorem tailAt_of_sibling (hne : d ∉ c :: body.toList) : ∃ arg',
    m'.tree.TailAt x c body arg' rest ∧ m'.tree.resolve arg = .ok arg' := by
  have hspares := spares_of_child hsound hlive htail hparts hlater hd hne
  obtain ⟨body', arg', htail', hfollowed, harg⟩ := tailAt_of_child hsound hlive htail hparts
    hlater hd fun heq ↦ hne (heq ▸ List.mem_cons_self ..)
  obtain rfl : body' = body := hfollowed.body_eq
    (fun b hb ↦ hspares b (List.mem_cons_of_mem _ hb))
    fun b hb ↦ htail.exists_kind? hsound.forest b
      (List.mem_append_left _ (List.mem_cons_of_mem _ hb))
  exact ⟨arg', htail', harg⟩

end Child

/-! ### The end of a tail -/

/-- After its end a tail still has its condition and its body, which were left alone. -/
structure EndReached (calls : NodeId → Span) (alike : World → World → Prop) (m m' : Machine)
    (x : NodeId) (tail : Expr.ReturnTail) (others : Part) (c : NodeId) (body : Option NodeId)
    (rest : NodeId) : Prop where
  later : Later calls (fun _ ↦ False) m m'
  spares : ∀ a ∈ c :: body.toList, Tree.Spares m.tree m'.tree a
  reached : ∃ arg, m'.tree.TailAt x c body arg rest ∧
    SettledEnd calls alike m'.tree m.world tail others arg rest

theorem later_execute_statements (hsound : m.Sound calls) (limit : Nat)
    (hshows : Shows calls (fun _ ↦ False) m.tree d (.statements items span))
    (hd : m.tree.kind? d = some k) :
    Later calls (m.tree.Outside d) m (machineOf (Eval.execute limit d m)) :=
  ((Eval.simulates_execute calls limit).statements (hsound.ready_outside d)
    (hshows.confined hsound.forest (Tree.resolve_of_kind? hd))).later

section End

variable (hbridge : Bridge alike callee fault) (hsound : m.Sound calls)
  (hshows : Shows calls (fun _ ↦ False) m.tree x (.tail tail items restSpan span)) (limit : Nat)

include hbridge hsound

omit hshows in
/-- The argument of a call is settled if there is something to call. -/
theorem settled_argument {call : NodeId} {name : String}
    (hcall : m.tree.kind? call = some (.call name [arg]))
    (hshows : Shows calls (fun _ ↦ False) m.tree call (.value (.call name [e] span)))
    (hdeep : ∀ span' m', Eval.execute limit call m ≠ .error (.tooDeep span') m')
    (hcallable : m.world.Callable name) :
    ∃ arg', (machineOf (Eval.execute limit call m)).tree.kind? call = some (.call name [arg']) ∧
      Settled calls alike (machineOf (Eval.execute limit call m)).tree m.world arg' e := by
  cases limit with
  | zero => exact absurd rfl (hdeep _ _)
  | succ limit =>
    obtain ⟨ids, hkept⟩ := kept_of_step hsound hcall rfl hshows (tends_execute hbridge limit)
      (fun name' hname ↦ by
        obtain rfl := Option.some.inj hname
        exact hcallable) hdeep
    obtain ⟨arg', rfl⟩ := List.length_eq_one_iff.mp hkept.length
    exact ⟨arg', hkept.kind, hkept.settled.1⟩

include hshows

/-- With its own meaning `return` ends with the argument. -/
theorem endReached_builtin (hx : m.tree.kind? x = some (.cond (.returnBuiltin c body arg rest)))
    (hdeep : ∀ span' m', Eval.execute limit arg m ≠ .error (.tooDeep span') m') :
    EndReached calls alike m (machineOf (Eval.execute limit arg m)) x tail
      (.statements items restSpan) c body rest := by
  have hforest := hsound.forest
  have hlive := Tree.resolve_of_kind? hx
  have htail : m.tree.TailAt x c body arg rest := ⟨x, hlive, Or.inl hx⟩
  have hparts := hshows.tailParts hforest htail
  obtain ⟨n, hn, hkind⟩ := Tree.kind?_eq_some_iff.mp hx
  have hbuiltin : m.tree.IsBuiltinTail x := ⟨n, hn, by rw [hkind]; rfl⟩
  have hunbound : m.world.frame.contains "return" = false :=
    Bool.eq_false_iff.mpr fun hbound ↦ hsound.unbound hbound x hbuiltin
  have hnames : m.tree.Names x arg :=
    Tree.names_iff_kind?.mpr ⟨_, hx, by simp [NodeKind.children, Conditional.children]⟩
  obtain ⟨_, hne, _⟩ := hforest.tail_apart hx rfl
  obtain ⟨ka, hka⟩ := hforest.exists_kind? hnames
  have htended := tends_execute hbridge limit hsound hka hparts.arg
  revert hdeep htended
  generalize Eval.execute limit arg m = result
  intro hdeep htended
  cases htended with
  | tooDeep => exact absurd rfl (hdeep _ _)
  | done hlater _ hresolve hsettled =>
    obtain ⟨arg', htail', harg⟩ := tailAt_of_sibling hsound hlive htail hparts hlater hnames hne
    obtain rfl := Except.ok.inj (hresolve.symm.trans harg)
    refine ⟨hlater.unconfined,
      spares_of_child hsound hlive htail hparts hlater hnames hne, _, htail', fun _ ↦ hsettled,
      fun v w' href ↦ absurd href (Reference.expr_return_ne_ok hunbound _ _ v w')⟩

omit hbridge in
/-- An overridden tail stays what it is while one of its parts is evaluated. -/
theorem kept_overridden {call : NodeId}
    (hx : m.tree.kind? x = some (.cond (.returnOverridden c body call rest)))
    (hcall : m.tree.kind? call = some (.call "return" [arg])) (hd : m.tree.Names x d) (hne : d ≠ c)
    (hlater : Later calls (m.tree.Outside d) m m') : ∃ body' arg',
      m'.tree.kind? x = some (.cond (.returnOverridden c body' call rest)) ∧
      m'.tree.kind? call = some (.call "return" [arg']) ∧
      m'.tree.Followed body.toList body'.toList ∧ m'.tree.resolve arg = .ok arg' := by
  have hforest := hsound.forest
  have hlive := Tree.resolve_of_kind? hx
  have htail : m.tree.TailAt x c body arg rest := ⟨x, hlive, Or.inr ⟨call, hx, hcall⟩⟩
  obtain ⟨body', arg', htail', hbody, harg⟩ :=
    tailAt_of_child hsound hlive htail (hshows.tailParts hforest htail) hlater hd hne
  obtain ⟨ids, hx', hfollowed⟩ := hlater.adapts.keeps hforest hx
    (Or.inr ⟨hsound.outside_parent hx hd, rfl⟩)
  obtain ⟨c₁, body₁, call₁, rest₁, rfl, _, hsame⟩ :=
    Tree.exists_tail_children (Tree.Keeps.length_eq hfollowed)
  rw [hsame] at hx'
  obtain ⟨_, _, hcall₁, _⟩ := Tree.followed_tail_iff.mp hfollowed
  obtain ⟨args, hcall', _⟩ := hlater.adapts.keeps hforest hcall (Or.inl rfl)
  obtain rfl := Except.ok.inj ((Tree.resolve_of_kind? hcall').symm.trans hcall₁)
  obtain ⟨y, hy, hform⟩ := htail'
  obtain rfl := Except.ok.inj ((Tree.resolve_of_kind? hx').symm.trans hy)
  rcases hform with hbuiltin | ⟨call₂, hx₂, hcall₂⟩
  · cases hx'.symm.trans hbuiltin
  · cases hx'.symm.trans hx₂
    exact ⟨body', arg', hx', hcall₂, hbody, harg⟩

omit hbridge in
/-- After the call the statements behind the tail are evaluated. -/
theorem endReached_rest (hfinishes : Finishes calls alike (Eval.execute limit)) {call : NodeId}
    (hx : m.tree.kind? x = some (.cond (.returnOverridden c body call rest)))
    (hcall : m.tree.kind? call = some (.call "return" [arg]))
    (hsettled : w.Callable "return" → Settled calls alike m.tree w arg tail.arg) {v : Value}
    (href : Reference.expr (.call "return" [tail.arg] tail.callSpan) w = .ok v m.world)
    (hdeep : ∀ span' m', Eval.execute limit rest m ≠ .error (.tooDeep span') m') :
    Later calls (m.tree.Outside rest) m (machineOf (Eval.execute limit rest m)) ∧
      (∀ a ∈ c :: body.toList,
        Tree.Spares m.tree (machineOf (Eval.execute limit rest m)).tree a) ∧
      ∃ arg', (machineOf (Eval.execute limit rest m)).tree.TailAt x c body arg' rest ∧
        SettledEnd calls alike (machineOf (Eval.execute limit rest m)).tree w tail
          (.statements items restSpan) arg' rest := by
  have hforest := hsound.forest
  have hlive := Tree.resolve_of_kind? hx
  have htail : m.tree.TailAt x c body arg rest := ⟨x, hlive, Or.inr ⟨call, hx, hcall⟩⟩
  have hparts := hshows.tailParts hforest htail
  obtain ⟨_, _, hne, hapart⟩ := hforest.tail_apart hx rfl
  have hrest := htail.names hlive rest (by simp)
  have hnames : m.tree.Names x call :=
    Tree.names_iff_kind?.mpr ⟨_, hx, by simp [NodeKind.children, Conditional.children]⟩
  obtain ⟨kr, hkr⟩ := hforest.exists_kind? hrest
  have hlater := later_execute_statements hsound limit hparts.rest hkr
  have hfinished := hfinishes hsound hparts.rest hdeep
  obtain ⟨arg', htail', harg⟩ := tailAt_of_sibling hsound hlive htail hparts hlater hrest hne
  have hspares := (hlater.spares_sibling hsound hrest hnames hapart
    (hparts.call x call hlive hx) rfl).child hcall (List.mem_singleton.mpr rfl)
  obtain ⟨ka, hka⟩ := htail.exists_kind? hforest arg (by simp)
  obtain rfl := hspares.eq_of_resolve hka harg
  refine ⟨hlater, spares_of_child hsound hlive htail hparts hlater hrest hne, arg', htail',
    fun hcallable ↦ (hsettled hcallable).later hspares, fun u w' hu ↦ ?_⟩
  obtain ⟨_, rfl⟩ := EStateM.Result.ok.inj (href.symm.trans hu)
  exact hfinished

/-- Once it has another meaning `return` is called, and the statements follow. -/
theorem endReached_overridden (hfinishes : Finishes calls alike (Eval.execute limit))
    {call : NodeId} (hx : m.tree.kind? x = some (.cond (.returnOverridden c body call rest)))
    (hcall : m.tree.kind? call = some (.call "return" [arg]))
    (hdeep : ∀ span' m', (Eval.execute limit call >>= fun _ ↦ Eval.execute limit rest) m ≠
      .error (.tooDeep span') m') :
    EndReached calls alike m
      (machineOf ((Eval.execute limit call >>= fun _ ↦ Eval.execute limit rest) m)) x tail
      (.statements items restSpan) c body rest := by
  have hready := hsound.ready
  have hforest := hsound.forest
  have hlive := Tree.resolve_of_kind? hx
  have htail : m.tree.TailAt x c body arg rest := ⟨x, hlive, Or.inr ⟨call, hx, hcall⟩⟩
  have hparts := hshows.tailParts hforest htail
  have hshows' := hparts.call x call hlive hx
  have hnames : m.tree.Names x call :=
    Tree.names_iff_kind?.mpr ⟨_, hx, by simp [NodeKind.children, Conditional.children]⟩
  obtain ⟨_, hne, _⟩ := hforest.tail_apart hx rfl
  have hdeep₁ : ∀ span' m', Eval.execute limit call m ≠ .error (.tooDeep span') m' :=
    fun span' m' heq ↦ hdeep span' m' (Eval.bind_error_eq heq)
  have hargument := settled_argument hbridge hsound limit hcall hshows' hdeep₁
  have htended := tends_execute hbridge limit hsound hcall hshows'
  revert hargument htended
  generalize hexec : Eval.execute limit call m = result
  intro hargument htended
  cases htended with
  | tooDeep => exact absurd hexec (hdeep₁ _ _)
  | done hlater hends =>
    have hlater₁ := hlater.unconfined
    have hspares := spares_of_child hsound hlive htail hparts hlater hnames hne
    obtain ⟨body₁, arg₁, hx₁, hcall₁, hbody, _⟩ := kept_overridden hsound hshows hx hcall hnames
      (fun heq ↦ hne (heq ▸ List.mem_cons_self ..)) hlater
    obtain rfl : body₁ = body := hbody.body_eq (fun b hb ↦ hspares b (List.mem_cons_of_mem _ hb))
      fun b hb ↦ htail.exists_kind? hforest b (List.mem_append_left _ (List.mem_cons_of_mem _ hb))
    have hsettled : m.world.Callable "return" →
        Settled calls alike (machineOf result).tree m.world arg₁ tail.arg := by
      intro hcallable
      obtain ⟨arg', hcall', hsettled⟩ := hargument hcallable
      cases hcall₁.symm.trans hcall'
      exact hsettled
    cases result with
    | error exit m₁ =>
      rw [Eval.bind_error_eq hexec]
      exact ⟨hlater₁, hspares, arg₁,
        ⟨x, Tree.resolve_of_kind? hx₁, Or.inr ⟨call, hx₁, hcall₁⟩⟩, hsettled,
        fun v w' href ↦ absurd href (hends v w')⟩
    | ok v m₁ =>
      rw [Eval.bind_eq hexec] at hdeep ⊢
      obtain ⟨hlater₂, hspares₂, arg₂, htail₂, hend⟩ := endReached_rest hlater.sound
        (hshows.later hready hlater₁) limit hfinishes hx₁ hcall₁ hsettled hends hdeep
      exact ⟨hlater₁.trans hlater₂.unconfined,
        fun a ha ↦ (hspares a ha).trans (hspares₂ a ha), arg₂, htail₂, hend⟩

/-- The form that the tail has when its end is reached decides what `return` means. -/
theorem endReached_runTail (hfinishes : Finishes calls alike (Eval.execute limit))
    (htail : m.tree.TailAt x c body arg rest)
    (hdeep : ∀ span' m', Eval.runTail (Eval.execute limit) x m ≠ .error (.tooDeep span') m') :
    EndReached calls alike m (machineOf (Eval.runTail (Eval.execute limit) x m)) x tail
      (.statements items restSpan) c body rest := by
  obtain ⟨y, hresolve, hform⟩ := htail
  have hshows' := hshows.resolved hresolve
  have hmoved {m' : Machine} (h : EndReached calls alike m m' y tail
      (.statements items restSpan) c body rest) :
      EndReached calls alike m m' x tail (.statements items restSpan) c body rest := by
    obtain ⟨arg', htail', hend⟩ := h.reached
    exact ⟨h.later, h.spares, arg',
      htail'.of_resolve (h.later.adapts.evolves hsound.forest) hresolve, hend⟩
  rcases hform with hx | ⟨call, hx, hcall⟩
  · rw [Eval.runTail_builtin hresolve hx] at hdeep ⊢
    exact hmoved (endReached_builtin hbridge hsound hshows' limit hx hdeep)
  · rw [Eval.runTail_overridden hresolve hx] at hdeep ⊢
    exact hmoved (endReached_overridden hbridge hsound hshows' limit hfinishes hx hcall hdeep)

end End

/-! ### From the body on -/

theorem Reference.exists_of_body {w' : World} (h : Reference.body items w = .ok () w') :
    ∃ v w₁, expr (.block items (Expr.spanOf .origin items)) w = .ok v w₁ := by
  rw [Reference.body_eq] at h
  cases hexpr : expr (.block items (Expr.spanOf .origin items)) w with
  | ok v w₁ => exact ⟨v, w₁, rfl⟩
  | error halt w₁ =>
    rw [bind_error_eq hexpr] at h
    cases h

/-- After its body and its end a tail still has its condition, which was left alone. -/
structure BodyReached (calls : NodeId → Span) (alike : World → World → Prop) (m m' : Machine)
    (x : NodeId) (tail : Expr.ReturnTail) (others : Part) (c rest : NodeId) : Prop where
  later : Later calls (fun _ ↦ False) m m'
  spares : Tree.Spares m.tree m'.tree c
  reached : ∃ body arg, m'.tree.TailAt x c body arg rest ∧
    SettledBody calls alike m'.tree m.world tail others body arg rest

section Body

variable (hbridge : Bridge alike callee fault) (hsound : m.Sound calls)
  (hshows : Shows calls (fun _ ↦ False) m.tree x (.tail tail items restSpan span)) (limit : Nat)
  (hfinishes : Finishes calls alike (Eval.execute limit))
  (htail : m.tree.TailAt x c body arg rest) (hlive : m.tree.resolve x = .ok x)
  (hdeep : ∀ span' m', (Eval.runBody (Eval.execute limit) body >>=
    fun _ ↦ Eval.runTail (Eval.execute limit) x) m ≠ .error (.tooDeep span') m')

include hbridge hsound hshows hfinishes htail hlive hdeep

theorem bodyReached : BodyReached calls alike m
    (machineOf ((Eval.runBody (Eval.execute limit) body >>=
      fun _ ↦ Eval.runTail (Eval.execute limit) x) m)) x tail (.statements items restSpan) c
        rest := by
  have hforest := hsound.forest
  have hparts := hshows.tailParts hforest htail
  cases body with
  | none =>
    have hrun : (Eval.runBody (Eval.execute limit) none >>=
        fun _ ↦ Eval.runTail (Eval.execute limit) x) m =
          Eval.runTail (Eval.execute limit) x m := rfl
    rw [hrun] at hdeep ⊢
    obtain ⟨hlater, hspares, arg', htail', hend⟩ :=
      endReached_runTail hbridge hsound hshows limit hfinishes htail hdeep
    refine ⟨hlater, hspares c (List.mem_cons_self ..), none, arg', htail', nofun, fun w' href ↦ ?_⟩
    rw [hparts.body_eq_nil, Reference.body, Reference.inOrder] at href
    obtain ⟨-, rfl⟩ := EStateM.Result.ok.inj href
    exact hend
  | some b =>
    have hready := hsound.ready
    have hnames := htail.names hlive b (by simp)
    have hne : b ≠ c := by
      obtain ⟨y, hy, hform⟩ := htail
      have hnodup : (c :: (some b).toList).Nodup := by
        rcases hform with hx | ⟨call, hx, _⟩ <;> exact (hforest.tail_apart hx rfl).1
      rintro rfl
      exact (List.nodup_cons.mp hnodup).1 (List.mem_singleton.mpr rfl)
    obtain ⟨kb, hkb⟩ := hforest.exists_kind? hnames
    have htended := tends_execute hbridge limit hsound hkb (hparts.body b rfl)
    have hrun : (Eval.runBody (Eval.execute limit) (some b) >>=
        fun _ ↦ Eval.runTail (Eval.execute limit) x) m =
        (Eval.execute limit b >>= fun _ ↦ Eval.runTail (Eval.execute limit) x) m := by
      unfold Eval.runBody
      simp only [bind_assoc, pure_bind]
    rw [hrun] at hdeep ⊢
    revert htended
    generalize hexec : Eval.execute limit b m = result
    intro htended
    cases htended with
    | tooDeep => exact absurd (Eval.bind_error_eq hexec) (hdeep _ _)
    | @done _ b' hlater hends hresolve hsettled =>
      have hlater₁ : Later calls (fun _ ↦ False) m (machineOf result) :=
        hlater.unconfined
      have hspares := hlater.spares_sibling hsound hnames (htail.names hlive c (by simp)) hne.symm
        hparts.cond rfl
      obtain ⟨body₁, arg₁, htail₁, hbody, _⟩ :=
        tailAt_of_child hsound hlive htail hparts hlater hnames hne
      obtain rfl : body₁ = some b' := by
        cases body₁ with
        | none => cases hbody
        | some b₁ =>
          rw [Except.ok.inj (hresolve.symm.trans (List.forall₂_cons.mp hbody).1)]
      cases result with
      | error exit m₁ =>
        rw [Eval.bind_error_eq hexec]
        refine ⟨hlater₁, hspares, some b', arg₁, htail₁, fun b₁ hb₁ ↦ ?_, fun w' href ↦ ?_⟩
        · obtain rfl := Option.some.inj hb₁
          exact hsettled
        · obtain ⟨v, w₁, hexpr⟩ := Reference.exists_of_body href
          exact absurd hexpr (hends v w₁)
      | ok v m₁ =>
        rw [Eval.bind_eq hexec] at hdeep ⊢
        obtain ⟨hlater₂, hspares₂, arg₂, htail₂, hend⟩ := endReached_runTail hbridge hlater.sound
          (hshows.later hready hlater₁) limit hfinishes htail₁ hdeep
        refine ⟨hlater₁.trans hlater₂, hspares.trans (hspares₂ c (List.mem_cons_self ..)), some b',
          arg₂, htail₂, fun b₁ hb₁ ↦ ?_, fun w' href ↦ ?_⟩
        · obtain rfl := Option.some.inj hb₁
          exact hsettled.later (hspares₂ b' (by simp))
        · rw [Reference.body_eq, Reference.bind_eq hends] at href
          obtain ⟨-, rfl⟩ := EStateM.Result.ok.inj href
          exact hend

end Body

/-! ### From the condition on -/

section Branch

variable (hbridge : Bridge alike callee fault) (hsound : m.Sound calls)
  (hshows : Shows calls (fun _ ↦ False) m.tree x (.tail tail items restSpan span)) (limit : Nat)
  (hlive : m.tree.resolve x = .ok x)

include hbridge hsound hshows

/-- Looking the form up again after the body makes no difference to an overridden tail. -/
theorem runBody_overridden {call : NodeId}
    (hx : m.tree.kind? x = some (.cond (.returnOverridden c body call rest)))
    (hcall : m.tree.kind? call = some (.call "return" [arg])) :
    (Eval.runBody (Eval.execute limit) body >>=
      fun _ ↦ Eval.execute limit call >>= fun _ ↦ Eval.execute limit rest) m =
    (Eval.runBody (Eval.execute limit) body >>= fun _ ↦ Eval.runTail (Eval.execute limit) x) m := by
  have hforest := hsound.forest
  have hlive := Tree.resolve_of_kind? hx
  cases body with
  | none => exact (Eval.runTail_overridden hlive hx).symm
  | some b =>
    have htail : m.tree.TailAt x c (some b) arg rest := ⟨x, hlive, Or.inr ⟨call, hx, hcall⟩⟩
    have hnames := htail.names hlive b (by simp)
    obtain ⟨hnodup, _⟩ := hforest.tail_apart hx rfl
    obtain ⟨kb, hkb⟩ := hforest.exists_kind? hnames
    have htended := tends_execute hbridge limit hsound hkb
      ((hshows.tailParts hforest htail).body b rfl)
    unfold Eval.runBody
    simp only [bind_assoc, pure_bind]
    cases hexec : Eval.execute limit b m with
    | error exit m₁ => rw [Eval.bind_error_eq hexec, Eval.bind_error_eq hexec]
    | ok v m₁ =>
      rw [hexec] at htended
      cases htended with
      | done hlater =>
        obtain ⟨_, _, hx₁, _⟩ := kept_overridden hsound hshows hx hcall hnames (by
          rintro rfl
          exact (List.nodup_cons.mp hnodup).1 (List.mem_singleton.mpr rfl)) hlater
        rw [Eval.bind_eq hexec, Eval.bind_eq hexec]
        exact (Eval.runTail_overridden (Tree.resolve_of_kind? hx₁) hx₁).symm

theorem takeBranch_yes (htail : m.tree.TailAt x c body arg rest) {z : NodeId}
    (hz : m.tree.resolve z = .ok x) : Eval.takeBranch (Eval.execute limit) z .yes m =
      (Eval.runBody (Eval.execute limit) body >>=
        fun _ ↦ Eval.runTail (Eval.execute limit) x) m := by
  obtain ⟨y, hy, hform⟩ := htail.resolved (Tree.resolve_resolved hz)
  obtain rfl := Except.ok.inj ((Tree.resolve_resolved hz).symm.trans hy)
  rcases hform with hx | ⟨call, hx, hcall⟩ <;>
    obtain ⟨n, hn, hkind⟩ := Tree.kind?_eq_some_iff.mp hx
  · exact Eval.takeBranch_builtin hz hn hkind true
  · rw [← runBody_overridden hbridge hsound hshows limit hx hcall]
    exact Eval.takeBranch_overridden hz hn hkind true

omit hbridge hsound hshows in
theorem takeBranch_no (htail : m.tree.TailAt x c body arg rest) {z : NodeId}
    (hz : m.tree.resolve z = .ok x) :
    Eval.takeBranch (Eval.execute limit) z .no m = Eval.execute limit rest m := by
  obtain ⟨y, hy, hform⟩ := htail
  obtain rfl := Except.ok.inj ((Tree.resolve_resolved hz).symm.trans hy)
  rcases hform with hx | ⟨call, hx, _⟩ <;> obtain ⟨n, hn, hkind⟩ := Tree.kind?_eq_some_iff.mp hx
  · exact Eval.takeBranch_builtin hz hn hkind false
  · exact Eval.takeBranch_overridden hz hn hkind false

/-- The branch that the condition of a return tail selects leaves the tail settled. -/
theorem settledTail_of_takeBranch (hfinishes : Finishes calls alike (Eval.execute limit))
    (htail : m.tree.TailAt x c body arg rest) {z : NodeId} {l : Logical}
    (hz : m.tree.resolve z = .ok x) (hdecides : Decides calls alike m.tree w .tail c tail.cond)
    (htest : Reference.test tail.cond w = .ok l m.world)
    (hdeep : ∀ span' m', Eval.takeBranch (Eval.execute limit) z l m ≠
      .error (.tooDeep span') m') :
    Later calls (fun _ ↦ False) m (machineOf (Eval.takeBranch (Eval.execute limit) z l m)) ∧
      ∃ body' arg', (machineOf (Eval.takeBranch (Eval.execute limit) z l m)).tree.TailAt x c body'
        arg' rest ∧ SettledTail calls alike
          (machineOf (Eval.takeBranch (Eval.execute limit) z l m)).tree w tail
          (.statements items restSpan) c body' arg' rest := by
  have hforest := hsound.forest
  have hlive := Tree.resolve_resolved hz
  have hparts := hshows.tailParts hforest htail
  cases l with
  | na =>
    rw [Eval.takeBranch_na hz]
    refine ⟨.refl hsound, body, arg, htail, hdecides, fun w' htest' ↦ ?_, fun w' htest' ↦ ?_⟩ <;>
      cases htest.symm.trans htest'
  | no =>
    rw [takeBranch_no limit htail hz] at hdeep ⊢
    have hnames := htail.names hlive rest (by simp)
    have hne : rest ∉ c :: body.toList := by
      obtain ⟨y, hy, hform⟩ := htail
      rcases hform with hx | ⟨call, hx, _⟩ <;> exact (hforest.tail_apart hx rfl).2.2.1
    obtain ⟨kr, hkr⟩ := hforest.exists_kind? hnames
    have hlater := later_execute_statements hsound limit hparts.rest hkr
    obtain ⟨arg', htail', _⟩ := tailAt_of_sibling hsound hlive htail hparts hlater hnames hne
    have hspares := spares_of_child hsound hlive htail hparts hlater hnames hne
    refine ⟨hlater.unconfined, body, arg', htail',
      hdecides.later (hspares c (List.mem_cons_self ..)), fun w' htest' ↦ ?_, fun w' htest' ↦ ?_⟩
    · obtain ⟨-, rfl⟩ := EStateM.Result.ok.inj (htest.symm.trans htest')
      exact hfinishes hsound hparts.rest hdeep
    · cases htest.symm.trans htest'
  | yes =>
    rw [takeBranch_yes hbridge hsound hshows limit htail hz] at hdeep ⊢
    obtain ⟨hlater, hspares, body', arg', htail', hbody⟩ :=
      bodyReached hbridge hsound hshows limit hfinishes htail hlive hdeep
    refine ⟨hlater, body', arg', htail', hdecides.later hspares, fun w' htest' ↦ ?_,
      fun w' htest' ↦ ?_⟩
    · cases htest.symm.trans htest'
    · obtain ⟨-, rfl⟩ := EStateM.Result.ok.inj (htest.symm.trans htest')
      exact hbody

end Branch

/-- One evaluation is enough for a return tail if it is for its parts. -/
theorem finished_of_decision {result : EStateM.Result Exit Machine Value}
    (hbridge : Bridge alike callee fault) (hsound : m.Sound calls)
    (hshows : Shows calls (fun _ ↦ False) m.tree x (.tail tail items restSpan span)) (limit : Nat)
    (hfinishes : Finishes calls alike (Eval.execute limit))
    (h : Decision calls alike (Eval.execute limit) m x tail.cond result)
    (hdeep : ∀ span' m', result ≠ .error (.tooDeep span') m') :
    Later calls (fun _ ↦ False) m (machineOf result) ∧
      Finished calls alike (machineOf result).tree m.world x (.tail tail items restSpan span) := by
  have hready := hsound.ready
  -- a tail reads its condition as a tail does
  have hform {m' : Machine} {sense : Conditional.Sense} {y : NodeId}
      (hlater : Later calls (fun _ ↦ False) m m') (hreads : m'.tree.Reads x sense y) :
      sense = .tail ∧ ∃ x' body arg rest, m'.tree.resolve x = .ok x' ∧
        m'.tree.TailAt x' y body arg rest := by
    obtain ⟨x', form, hresolve, hx', rfl, rfl⟩ := hreads
    obtain ⟨c, body, arg, rest, htail, _⟩ := (hshows.later hready hlater).exists_tail
      hlater.sound.forest
    obtain ⟨form', hform', hsense, hcond⟩ := htail.exists_form hresolve
    obtain rfl := NodeKind.cond.inj (Option.some.inj (hx'.symm.trans hform'))
    exact ⟨hsense, x', body, arg, rest, hresolve, hcond ▸ htail.resolved hresolve⟩
  cases h with
  | tooDeep => exact absurd rfl (hdeep _ _)
  | @failed exit m' sense y hlater hreads hdecides href =>
    obtain ⟨rfl, x', body, arg, rest, hresolve, htail⟩ := hform hlater hreads
    have hforest := hlater.sound.forest
    have hshows' := hshows.later hready hlater
    refine ⟨hlater, (SettledTail.finished hbridge hforest htail
      ((hshows'.resolved hresolve).tailParts hforest htail) ⟨hdecides,
      fun w' htest ↦ absurd htest (href _ _), fun w' htest ↦ absurd htest (href _ _)⟩).of_resolve_eq
      hforest (Tree.resolve_resolved hresolve) hresolve⟩
  | @taken z l m' sense y hlater hreads hdecides hsame href =>
    obtain ⟨rfl, x', body, arg, rest, hresolve, htail⟩ := hform hlater hreads
    have hshows' := (hshows.later hready hlater).resolved hresolve
    obtain ⟨hlater', body', arg', htail', hsettled⟩ := settledTail_of_takeBranch hbridge
      hlater.sound hshows' limit hfinishes htail (hsame.trans hresolve) hdecides href hdeep
    have hforest := hlater'.sound.forest
    have hevolves := hlater'.adapts.evolves hlater.sound.forest
    have htail'' := htail'.of_resolve hevolves hresolve
    exact ⟨hlater.trans hlater', hsettled.finished hbridge hforest htail''
      ((hshows.later hready (hlater.trans hlater')).tailParts hforest htail'')⟩

end AdaptiveTree
