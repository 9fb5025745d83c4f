import AdaptiveTree.Proofs.Repetition.Expressions

/-!
Return tails that are evaluated without a change of the tree. What is known of a tail is told of
its condition, its body, its argument and the statements behind it, each for the world in which it
is reached. It holds in either form, so it is not lost when the tail is overridden in between.
-/

set_option autoImplicit false
set_option relaxedAutoImplicit false

namespace AdaptiveTree

open Machine (Later Sound)

/-- Evaluating `id` leaves the tree as it is, in any world that is like `w`, no matter which return
tails have been overridden since. -/
def Finished (calls : NodeId → Span) (alike : World → World → Prop) (t : Tree) (w : World)
    (id : NodeId) (part : Part) : Prop :=
  ∀ (limit : Nat) (m : Machine), m.Sound calls → Shows calls (fun _ ↦ False) m.tree id part →
    Tree.Adapts calls (fun _ ↦ True) t m.tree → alike w m.world →
    (machineOf (Eval.execute limit id m)).tree = m.tree

/-- The end of a return tail after its body: the call of `return` and the statements `others`. -/
structure SettledEnd (calls : NodeId → Span) (alike : World → World → Prop) (t : Tree) (w : World)
    (tail : Expr.ReturnTail) (others : Part) (arg rest : NodeId) : Prop where
  arg : w.Callable "return" → Settled calls alike t w arg tail.arg
  rest : ∀ v w', Reference.expr (.call "return" [tail.arg] tail.callSpan) w = .ok v w' →
    Finished calls alike t w' rest others

/-- A return tail after its condition, if that holds. -/
structure SettledBody (calls : NodeId → Span) (alike : World → World → Prop) (t : Tree) (w : World)
    (tail : Expr.ReturnTail) (others : Part) (body : Option NodeId) (arg rest : NodeId) :
    Prop where
  body : ∀ b, body = some b →
    Settled calls alike t w b (.block tail.body (Expr.spanOf .origin tail.body))
  last : ∀ w', Reference.body tail.body w = .ok () w' →
    SettledEnd calls alike t w' tail others arg rest

/-- A return tail from its condition on. -/
structure SettledTail (calls : NodeId → Span) (alike : World → World → Prop) (t : Tree) (w : World)
    (tail : Expr.ReturnTail) (others : Part) (c : NodeId) (body : Option NodeId)
    (arg rest : NodeId) : Prop where
  decides : Decides calls alike t w .tail c tail.cond
  no : ∀ w', Reference.test tail.cond w = .ok .no w' → Finished calls alike t w' rest others
  yes : ∀ w', Reference.test tail.cond w = .ok .yes w' →
    SettledBody calls alike t w' tail others body arg rest

variable {calls : NodeId → Span} {busy : NodeId → Prop} {alike : World → World → Prop}
  {callee : Definition → Definition → Prop} {fault : Fault → Prop} {t t' : Tree} {w : World}
  {m m' : Machine} {id x c arg rest : NodeId} {body : Option NodeId} {k : NodeKind} {e : Expr}
  {part others : Part} {tail : Expr.ReturnTail} {items : List Expr} {restSpan span : Span}
  {name : String}

/-! ### Any part -/

namespace Eval

/-- What is evaluated is told by the node that a number leads to. -/
theorem step_congr (exec : Evaluator) {a b : NodeId} (h : m.tree.resolve a = m.tree.resolve b) :
    step exec a m = step exec b m := by
  have hask : ask (·.resolve a) m = ask (·.resolve b) m := by
    unfold ask
    dsimp only
    rw [h]
  unfold step
  rw [bind_congr_at hask]

/-- Unless nothing may be evaluated at all, not even the place told with the error differs. -/
theorem execute_congr {a b : NodeId} (h : m.tree.resolve a = m.tree.resolve b) {limit : Nat}
    (hdeep : ∀ span' m', execute limit a m ≠ .error (.tooDeep span') m') :
    execute limit a m = execute limit b m := by
  cases limit with
  | zero => exact absurd rfl (hdeep _ _)
  | succ limit => exact step_congr (execute limit) h

theorem tree_execute_congr {a b : NodeId} (h : m.tree.resolve a = m.tree.resolve b)
    (limit : Nat) :
    (machineOf (execute limit a m)).tree = (machineOf (execute limit b m)).tree := by
  cases limit with
  | zero => rfl
  | succ limit => exact congrArg (machineOf · |>.tree) (step_congr (execute limit) h)

end Eval

namespace Finished

theorem adapts (h : Finished calls alike t w id part)
    (hadapts : Tree.Adapts calls (fun _ ↦ True) t t') : Finished calls alike t' w id part :=
  fun limit m hsound hshows hadapts' halike ↦
    h limit m hsound hshows (hadapts.trans hadapts') halike

/-- A number may be exchanged for another one that leads to the same node. -/
theorem of_resolve_eq (h : Finished calls alike t w id part) (hforest : t.Forest) {id' : NodeId}
    (hid : t.resolve id = .ok x) (hid' : t.resolve id' = .ok x) :
    Finished calls alike t w id' part := by
  intro limit m hsound hshows hadapts halike
  have hevolves := hadapts.evolves hforest
  have heq : m.tree.resolve id' = m.tree.resolve id :=
    (hevolves.persists.resolve_eq hevolves.forest.ascending hid').trans
      (hevolves.persists.resolve_eq hevolves.forest.ascending hid).symm
  rw [Eval.tree_execute_congr heq]
  exact h limit m hsound (hshows.of_resolve_eq heq.symm) hadapts halike

end Finished

/-- There are no return tails below an expression. -/
theorem Settled.adapts (h : Settled calls alike t w x e) (hforest : t.Forest)
    (hshows : Shows calls busy t x (.value e)) (hx : t.kind? x = some k)
    (hadapts : Tree.Adapts calls (fun _ ↦ True) t t') : Settled calls alike t' w x e :=
  h.later (hadapts.spares_expr hforest hshows rfl hx)

theorem Settled.finished (h : Settled calls alike t w x e) (hforest : t.Forest)
    (hshows : Shows calls busy t x (.value e)) (hx : t.kind? x = some k) :
    Finished calls alike t w x (.value e) :=
  fun limit m hsound hshows' hadapts halike ↦
    h limit m hsound hshows' (hadapts.spares_expr hforest hshows rfl hx) halike

/-- What follows on an evaluation that leaves the tree as it is may do so as well. -/
theorem Rests.tree_bind {α β : Type} {agrees : α → World → Prop} {y : Eval α} {f : α → Eval β}
    (hy : Rests calls agrees m (y m))
    (hf : ∀ a m₁, m₁.Sound calls → m₁.tree = m.tree → agrees a m₁.world →
      (machineOf (f a m₁)).tree = m₁.tree) : (machineOf ((y >>= f) m)).tree = m.tree := by
  show (machineOf (EStateM.bind y f m)).tree = m.tree
  unfold EStateM.bind
  revert hy
  generalize y m = result
  intro hy
  cases hy with
  | ok hsound htree hagrees => exact (hf _ _ hsound htree hagrees).trans htree
  | error htree => exact htree

/-! ### The parts of a return tail -/

theorem Part.eq_of_mem_ofBody (h : part ∈ Part.ofBody items) :
    part = .value (.block items (Expr.spanOf .origin items)) := by
  cases items with
  | nil => cases h
  | cons => exact List.mem_singleton.mp h

/-- What is read at the nodes of a return tail. -/
structure TailParts (calls : NodeId → Span) (t : Tree) (id : NodeId) (tail : Expr.ReturnTail)
    (others : Part) (c : NodeId) (body? : Option NodeId) (arg rest : NodeId) : Prop where
  length : body?.toList.length = (Part.ofBody tail.body).length
  cond : Shows calls (fun _ ↦ False) t c (.test tail.cond)
  body : ∀ b, body? = some b → Shows calls (fun _ ↦ False) t b
    (.value (.block tail.body (Expr.spanOf .origin tail.body)))
  arg : Shows calls (fun _ ↦ False) t arg (.value tail.arg)
  call : ∀ x call, t.resolve id = .ok x →
    t.kind? x = some (.cond (.returnOverridden c body? call rest)) →
    Shows calls (fun _ ↦ False) t call (.value (.call "return" [tail.arg] tail.callSpan))
  rest : Shows calls (fun _ ↦ False) t rest others

theorem Shows.args (h : Shows calls (fun _ ↦ False) t x (.value (.call name [e] span)))
    (hforest : t.Forest) (hx : t.kind? x = some k) : ∃ arg, k = .call name [arg] ∧
      Shows calls (fun _ ↦ False) t arg (.value e) := by
  obtain ⟨n, hn, rfl⟩ := Tree.kind?_eq_some_iff.mp hx
  obtain ⟨parts, _, hfits, hbelow⟩ := h.children_at hforest hn
  generalize n.kind = kind at hfits hbelow
  generalize n.span = span' at hfits
  cases hfits with
  | call _ ids _ _ hlength =>
    obtain ⟨arg, rfl⟩ := List.length_eq_one_iff.mp hlength
    exact ⟨arg, rfl, (hbelow (arg, .value e) (List.mem_singleton.mpr rfl)).outside⟩
  | generic _ _ _ hsource | const _ _ _ hsource | specialized _ _ _ hsource => cases hsource

theorem Shows.exists_tail (h : Shows calls (fun _ ↦ False) t id (.tail tail items restSpan span))
    (hforest : t.Forest) : ∃ c body? arg rest, t.TailAt id c body? arg rest ∧
      TailParts calls t id tail (.statements items restSpan) c body? arg rest := by
  obtain ⟨x, n, hresolve, hn, _⟩ := h.exists_node?
  have hx : t.kind? x = some n.kind := Tree.kind?_eq_some_iff.mpr ⟨n, hn, rfl⟩
  obtain ⟨parts, _, hfits, hbelow⟩ := (h.resolved hresolve).children_at hforest hn
  obtain ⟨c, body?, last, rest, lastPart, hform, hlength, hzip⟩ := hfits.zip_of_tail
  rw [hzip] at hbelow
  have hcond := (hbelow (c, .test tail.cond) (by simp)).outside
  have hrest := (hbelow (rest, .statements items restSpan) (by simp)).outside
  have hlast := (hbelow (last, lastPart) (by simp)).outside
  have hbody : ∀ b, body? = some b → Shows calls (fun _ ↦ False) t b
      (.value (.block tail.body (Expr.spanOf .origin tail.body))) := by
    rintro b rfl
    obtain ⟨part, hpart⟩ := exists_zip hlength (List.mem_singleton.mpr rfl : b ∈ [b])
    obtain rfl := Part.eq_of_mem_ofBody (List.of_mem_zip hpart).2
    exact (hbelow (b, _) (List.mem_cons_of_mem _ (List.mem_append_left _ hpart))).outside
  rcases hform with ⟨hkind, rfl⟩ | ⟨hkind, rfl⟩
  · refine ⟨c, body?, last, rest, ⟨x, hresolve, Or.inl (hkind ▸ hx)⟩, hlength, hcond, hbody, hlast,
      fun y call hy hcall ↦ ?_, hrest⟩
    obtain rfl := Except.ok.inj (hresolve.symm.trans hy)
    rw [hx, hkind] at hcall
    cases hcall
  · obtain ⟨kc, hkc⟩ := hforest.exists_kind? (x := x) (c := last)
      (Tree.names_iff_kind?.mpr
        ⟨_, hx, by rw [hkind]; simp [NodeKind.children, Conditional.children]⟩)
    obtain ⟨arg, rfl, harg⟩ := hlast.args hforest hkc
    refine ⟨c, body?, arg, rest, ⟨x, hresolve, Or.inr ⟨last, hkind ▸ hx, hkc⟩⟩, hlength, hcond,
      hbody, harg, fun y call hy hcall ↦ ?_, hrest⟩
    obtain rfl := Except.ok.inj (hresolve.symm.trans hy)
    rw [hx, hkind] at hcall
    cases hcall
    exact hlast

theorem Shows.exists_sequence (h : Shows calls (fun _ ↦ False) t x (.statements items span))
    (hforest : t.Forest) (hx : t.kind? x = some k) : ∃ ids, k = .sequence ids ∧
      ids.length = (Part.ofStatements items).length ∧
      ∀ q ∈ ids.zip (Part.ofStatements items), Shows calls (fun _ ↦ False) t q.1 q.2 := by
  obtain ⟨n, hn, rfl⟩ := Tree.kind?_eq_some_iff.mp hx
  obtain ⟨parts, _, hfits, hbelow⟩ := h.children_at hforest hn
  generalize n.kind = kind at hfits hbelow
  generalize n.span = span' at hfits
  cases hfits with
  | statements ids _ _ hlength => exact ⟨ids, rfl, hlength, fun q hq ↦ (hbelow q hq).outside⟩

namespace Tree

variable {c' arg' rest' : NodeId} {body' : Option NodeId}

theorem TailAt.unique (h : t.TailAt id c body arg rest) (h' : t.TailAt id c' body' arg' rest') :
    c = c' ∧ body = body' ∧ arg = arg' ∧ rest = rest' := by
  obtain ⟨x, hresolve, hform⟩ := h
  obtain ⟨x', hresolve', hform'⟩ := h'
  obtain rfl := Except.ok.inj (hresolve.symm.trans hresolve')
  rcases hform with hx | ⟨call, hx, hcall⟩ <;> rcases hform' with hx' | ⟨call', hx', hcall'⟩ <;>
    cases hx.symm.trans hx'
  · exact ⟨rfl, rfl, rfl, rfl⟩
  · cases hcall.symm.trans hcall'
    exact ⟨rfl, rfl, rfl, rfl⟩

theorem TailAt.resolved (h : t.TailAt id c body arg rest) (hresolve : t.resolve id = .ok x) :
    t.TailAt x c body arg rest := by
  obtain ⟨x', hresolve', hform⟩ := h
  obtain rfl := Except.ok.inj (hresolve.symm.trans hresolve')
  exact ⟨x, resolve_resolved hresolve, hform⟩

theorem TailAt.exists_form (h : t.TailAt id c body arg rest) (hresolve : t.resolve id = .ok x) :
    ∃ form, t.kind? x = some (.cond form) ∧ form.sense = .tail ∧ form.cond = c := by
  obtain ⟨x', hresolve', hform⟩ := h
  obtain rfl := Except.ok.inj (hresolve.symm.trans hresolve')
  rcases hform with hx | ⟨call, hx, _⟩ <;> exact ⟨_, hx, rfl, rfl⟩

theorem TailAt.exists_kind? (h : t.TailAt id c body arg rest) (hforest : t.Forest) :
    ∀ a ∈ c :: body.toList ++ [arg, rest], ∃ k, t.kind? a = some k := by
  obtain ⟨x, _, hform⟩ := h
  intro a ha
  rcases hform with hx | ⟨call, hx, hcall⟩
  · exact hforest.exists_kind? (x := x) (names_iff_kind?.mpr ⟨_, hx, ha⟩)
  · by_cases hlast : a = arg
    · exact hforest.exists_kind? (x := call)
        (names_iff_kind?.mpr ⟨_, hcall, hlast ▸ List.mem_singleton.mpr rfl⟩)
    · refine hforest.exists_kind? (x := x) (names_iff_kind?.mpr ⟨_, hx, ?_⟩)
      simp only [NodeKind.children, Conditional.children, List.cons_append, List.mem_cons,
        List.mem_append, List.not_mem_nil, or_false] at ha ⊢
      tauto

end Tree

theorem Shows.tailParts (h : Shows calls (fun _ ↦ False) t id (.tail tail items restSpan span))
    (hforest : t.Forest) (htail : t.TailAt id c body arg rest) :
    TailParts calls t id tail (.statements items restSpan) c body arg rest := by
  obtain ⟨c', body', arg', rest', htail', hparts⟩ := h.exists_tail hforest
  obtain ⟨rfl, rfl, rfl, rfl⟩ := htail.unique htail'
  exact hparts

/-! ### Overriding -/

/-- A live node that was left alone is still the same. -/
theorem Tree.Spares.eq_of_resolve (h : Tree.Spares t t' x) (hx : t.kind? x = some k) {x' : NodeId}
    (hresolve : t'.resolve x = .ok x') : x' = x :=
  Except.ok.inj (hresolve.symm.trans (Tree.resolve_of_kind? (h.intact.kind?_eq hx)))

/-- A body that was left alone is still the same. -/
theorem Tree.Followed.body_eq {body' : Option NodeId} (h : t'.Followed body.toList body'.toList)
    (hspares : ∀ b ∈ body.toList, Tree.Spares t t' b)
    (hlive : ∀ b ∈ body.toList, ∃ k, t.kind? b = some k) : body' = body := by
  cases body with
  | none =>
    cases body' with
    | none => rfl
    | some => cases h
  | some b =>
    obtain ⟨k, hk⟩ := hlive b (List.mem_singleton.mpr rfl)
    cases body' with
    | none => cases h
    | some b' =>
      rw [(hspares b (List.mem_singleton.mpr rfl)).eq_of_resolve hk (List.forall₂_cons.mp h).1]

/-- Statements stay where they are. -/
theorem Tree.Adapts.resolve_sequence (h : Tree.Adapts calls busy t t') (hforest : t.Forest)
    {ids : List NodeId} (hx : t.kind? x = some (.sequence ids)) : t'.resolve x = .ok x := by
  obtain ⟨_, hkept, _⟩ := h.keeps hforest hx (Or.inl rfl)
  exact Tree.resolve_of_kind? hkept

section Overriding

variable (hforest : t.Forest) (htail : t.TailAt id c body arg rest)
  (hparts : TailParts calls t id tail (.statements items restSpan) c body arg rest)
  (hadapts : Tree.Adapts calls (fun _ ↦ True) t t')

include hforest htail hparts hadapts

/-- Overriding return tails exchanges no part of any. -/
theorem Tree.TailAt.adapts : t'.TailAt id c body arg rest := by
  have hlive := htail.exists_kind? hforest
  obtain ⟨kc, hkc⟩ := hlive c (by simp)
  obtain ⟨ka, hka⟩ := hlive arg (by simp)
  obtain ⟨kr, hkr⟩ := hlive rest (by simp)
  obtain ⟨c', body', arg', rest', htail', hfollowed⟩ := hadapts.tailAt hforest trivial htail
  obtain ⟨hc, hbody, harg, hrest⟩ := Tree.followed_tail_iff.mp hfollowed
  obtain rfl := (hadapts.spares_expr hforest hparts.cond rfl hkc).eq_of_resolve hkc hc
  obtain rfl := (hadapts.spares_expr hforest hparts.arg rfl hka).eq_of_resolve hka harg
  obtain ⟨ids, rfl, _⟩ := hparts.rest.exists_sequence hforest hkr
  obtain rfl := Except.ok.inj (hrest.symm.trans (hadapts.resolve_sequence hforest hkr))
  obtain rfl : body' = body := by
    refine hbody.body_eq (fun b hb ↦ ?_) fun b hb ↦ hlive b (by simpa using Or.inr (Or.inl hb))
    obtain ⟨kb, hkb⟩ := hlive b (by simpa using Or.inr (Or.inl hb))
    exact hadapts.spares_expr hforest (hparts.body b (Option.mem_toList.mp hb)) rfl hkb
  exact htail'

/-- What is known of a return tail is not lost when tails are overridden. -/
theorem SettledTail.adapts
    (h : SettledTail calls alike t w tail (.statements items restSpan) c body arg rest) :
    SettledTail calls alike t' w tail (.statements items restSpan) c body arg rest := by
  have hlive := htail.exists_kind? hforest
  obtain ⟨kc, hkc⟩ := hlive c (by simp)
  obtain ⟨ka, hka⟩ := hlive arg (by simp)
  refine ⟨h.decides.later (hadapts.spares_expr hforest hparts.cond rfl hkc),
    fun w' htest ↦ (h.no w' htest).adapts hadapts,
    fun w₁ htest ↦ ⟨fun b hb ↦ ?_, fun w₂ hbody ↦ ?_⟩⟩
  · obtain ⟨kb, hkb⟩ := hlive b (by simp [hb])
    exact ((h.yes w₁ htest).body b hb).adapts hforest (hparts.body b hb) hkb hadapts
  · have hlast := (h.yes w₁ htest).last w₂ hbody
    exact ⟨fun hcallable ↦ (hlast.arg hcallable).adapts hforest hparts.arg hka hadapts,
      fun v w₃ hcall ↦ (hlast.rest v w₃ hcall).adapts hadapts⟩

end Overriding

/-! ### Evaluating a tail again -/

/-- The statements in front of a `return` are those of a block. -/
theorem Reference.body_eq (items : List Expr) : Reference.body items =
    Reference.expr (.block items (Expr.spanOf .origin items)) >>= fun _ ↦ pure () := by
  rw [Reference.body, Reference.expr]

theorem TailParts.body_eq_nil (h : TailParts calls t id tail others c none arg rest) :
    tail.body = [] := by
  have hlength := h.length
  cases hitems : tail.body with
  | nil => rfl
  | cons e items =>
    rw [hitems] at hlength
    cases hlength

namespace Eval

variable {exec : Evaluator} {call : NodeId}

theorem runTail_builtin (hresolve : m.tree.resolve id = .ok x)
    (hx : m.tree.kind? x = some (.cond (.returnBuiltin c body arg rest))) :
    runTail exec id m = exec arg m := by
  obtain ⟨n, hn, hkind⟩ := Tree.kind?_eq_some_iff.mp hx
  unfold runTail
  rw [bind_eq (ask_eq hresolve), bind_eq (ask_eq (Tree.kind_eq hn)), hkind]

theorem runTail_overridden (hresolve : m.tree.resolve id = .ok x)
    (hx : m.tree.kind? x = some (.cond (.returnOverridden c body call rest))) :
    runTail exec id m = (exec call >>= fun _ ↦ exec rest) m := by
  obtain ⟨n, hn, hkind⟩ := Tree.kind?_eq_some_iff.mp hx
  unfold runTail
  rw [bind_eq (ask_eq hresolve), bind_eq (ask_eq (Tree.kind_eq hn)), hkind]

end Eval

/-- A call whose argument is settled is settled. -/
theorem SettledEnd.call (h : SettledEnd calls alike t w tail others arg rest)
    (hbridge : Bridge alike callee fault) {call : NodeId}
    (hcall : t.kind? call = some (.call "return" [arg])) :
    Settled calls alike t w call (.call "return" [tail.arg] tail.callSpan) :=
  settled_fixed hbridge hcall rfl
    (fun hcallable ↦ ⟨h.arg (hcallable "return" rfl), fun _ _ _ ↦ trivial⟩) nofun

/-- With its own meaning `return` can be called. -/
theorem World.callable_return (h : w.frame.contains "return" = false) : w.Callable "return" :=
  Or.inr ⟨by simpa [Frame.contains] using h, by decide⟩

section Again

variable (hbridge : Bridge alike callee fault) (hsound : m.Sound calls)
  (htail : m.tree.TailAt id c body arg rest)
  (hparts : TailParts calls m.tree id tail others c body arg rest) (halike : alike w m.world)
  (limit : Nat)

include hbridge hsound htail hparts halike

theorem SettledEnd.tree_runTail (h : SettledEnd calls alike m.tree w tail others arg rest) :
    (machineOf (Eval.runTail (Eval.execute limit) id m)).tree = m.tree := by
  obtain ⟨x, hresolve, hform⟩ := htail
  rcases hform with hx | ⟨call, hx, hcall⟩
  · obtain ⟨n, hn, hkind⟩ := Tree.kind?_eq_some_iff.mp hx
    have hbuiltin : m.tree.IsBuiltinTail x := ⟨n, hn, by rw [hkind]; rfl⟩
    have hunbound : m.world.frame.contains "return" = false :=
      Bool.eq_false_iff.mpr fun hbound ↦ hsound.unbound hbound x hbuiltin
    rw [Eval.runTail_builtin hresolve hx]
    exact h.arg ((World.callable_return hunbound).of_alike hbridge halike) limit m hsound hparts.arg
      (.refl _ _) halike
  · rw [Eval.runTail_overridden hresolve hx]
    refine Rests.tree_bind ((h.call hbridge hcall).rests hbridge hsound
      (hparts.call x call hresolve hx) (.refl _ _) halike limit)
      fun v m₁ hsound₁ htree₁ ⟨w₁, href, halike₁⟩ ↦ ?_
    exact h.rest v w₁ href limit m₁ hsound₁ (htree₁ ▸ hparts.rest)
      (htree₁ ▸ Relation.ReflTransGen.refl) halike₁

omit htail in
theorem SettledBody.rests_runBody
    (h : SettledBody calls alike m.tree w tail others body arg rest) :
    Rests calls (Echoes alike (Reference.body tail.body w)) m
      (Eval.runBody (Eval.execute limit) body m) := by
  rw [Reference.body_eq]
  cases body with
  | none =>
    refine .pure hsound ⟨w, ?_, halike⟩
    rw [hparts.body_eq_nil, Reference.expr, Reference.inOrder]
    rfl
  | some b =>
    refine .bind ((h.body b rfl).rests hbridge hsound (hparts.body b rfl) (.refl _ _) halike
      limit) fun v m₁ hsound₁ _ ⟨w₁, href, halike₁⟩ ↦ .pure hsound₁ ⟨w₁, ?_, halike₁⟩
    rw [Reference.bind_eq href]
    rfl

theorem SettledBody.tree_runBody (h : SettledBody calls alike m.tree w tail others body arg rest) :
    (machineOf ((Eval.runBody (Eval.execute limit) body >>=
      fun _ ↦ Eval.runTail (Eval.execute limit) id) m)).tree = m.tree := by
  refine Rests.tree_bind (h.rests_runBody hbridge hsound hparts halike limit)
    fun _ m₁ hsound₁ htree₁ ⟨w₁, href, halike₁⟩ ↦ ?_
  exact (htree₁ ▸ h.last w₁ href).tree_runTail hbridge hsound₁ (htree₁ ▸ htail) (htree₁ ▸ hparts)
    halike₁ limit

omit halike in
theorem SettledTail.tree_takeBranch {l : Logical} {w' : World}
    (h : SettledTail calls alike m.tree w tail others c body arg rest)
    (hlive : m.tree.resolve id = .ok id) (htest : Reference.test tail.cond w = .ok l w')
    (halike : alike w' m.world) :
    (machineOf (Eval.takeBranch (Eval.execute limit) id l m)).tree = m.tree := by
  obtain ⟨x, hresolve, hform⟩ := htail
  obtain rfl := Except.ok.inj (hlive.symm.trans hresolve)
  cases l with
  | na =>
    rw [Eval.takeBranch_na hresolve]
    rfl
  | no =>
    have hbranch : Eval.takeBranch (Eval.execute limit) id .no m = Eval.execute limit rest m := by
      rcases hform with hx | ⟨call, hx, _⟩ <;>
        obtain ⟨n, hn, hkind⟩ := Tree.kind?_eq_some_iff.mp hx
      · exact Eval.takeBranch_builtin hresolve hn hkind false
      · exact Eval.takeBranch_overridden hresolve hn hkind false
    rw [hbranch]
    exact h.no w' htest limit m hsound hparts.rest .refl halike
  | yes =>
    have hbody := h.yes w' htest
    rcases hform with hx | ⟨call, hx, hcall⟩ <;>
      obtain ⟨n, hn, hkind⟩ := Tree.kind?_eq_some_iff.mp hx
    · have hbranch : Eval.takeBranch (Eval.execute limit) id .yes m =
          (Eval.runBody (Eval.execute limit) body >>=
            fun _ ↦ Eval.runTail (Eval.execute limit) id) m :=
        Eval.takeBranch_builtin hresolve hn hkind true
      rw [hbranch]
      exact hbody.tree_runBody hbridge hsound ⟨id, hresolve, Or.inl hx⟩ hparts halike limit
    · have hbranch : Eval.takeBranch (Eval.execute limit) id .yes m =
          (Eval.runBody (Eval.execute limit) body >>=
            fun _ ↦ Eval.execute limit call >>= fun _ ↦ Eval.execute limit rest) m :=
        Eval.takeBranch_overridden hresolve hn hkind true
      rw [hbranch]
      refine Rests.tree_bind (hbody.rests_runBody hbridge hsound hparts halike limit)
        fun _ m₁ hsound₁ htree₁ ⟨w₁, href, halike₁⟩ ↦ ?_
      rw [← htree₁] at hresolve hx hcall hbody hparts
      rw [← Eval.runTail_overridden hresolve hx]
      exact (hbody.last w₁ href).tree_runTail hbridge hsound₁
        ⟨id, hresolve, Or.inr ⟨call, hx, hcall⟩⟩ hparts halike₁ limit

end Again

/-- A return tail whose parts are settled is finished. -/
theorem SettledTail.finished (hbridge : Bridge alike callee fault) (hforest : t.Forest)
    (htail : t.TailAt id c body arg rest)
    (hparts : TailParts calls t id tail (.statements items restSpan) c body arg rest)
    (h : SettledTail calls alike t w tail (.statements items restSpan) c body arg rest) :
    Finished calls alike t w id (.tail tail items restSpan span) := by
  intro limit m hsound hshows hadapts halike
  cases limit with
  | zero => rfl
  | succ limit =>
    have htail' := htail.adapts hforest hparts hadapts
    have h' := h.adapts hforest htail hparts hadapts
    have hresolve : ∃ x, m.tree.resolve id = .ok x := htail'.imp fun _ hx ↦ hx.1
    obtain ⟨x, hresolve⟩ := hresolve
    have htailx := htail'.resolved hresolve
    have hpartsx := (hshows.resolved hresolve).tailParts hsound.forest htailx
    obtain ⟨form, hx, hsense, hcond⟩ := htail'.exists_form hresolve
    have hdecided := h'.decides limit m x form _ hsound (hshows.resolved hresolve) rfl hx hsense
      hcond (.refl _ _) halike
    show (machineOf (Eval.step (Eval.execute limit) id m)).tree = m.tree
    rw [Eval.step_cond hresolve hx]
    generalize Eval.conditional (Eval.execute limit) x form m = result at hdecided
    cases hdecided with
    | ended htree => exact htree
    | @taken l m₁ hsound₁ htree₁ hecho =>
      obtain ⟨w₁, htest, halike₁⟩ := hecho
      rw [← htree₁] at h' htailx hpartsx hresolve ⊢
      exact h'.tree_takeBranch hbridge hsound₁ htailx hpartsx limit
        (Tree.resolve_resolved hresolve) htest halike₁

end AdaptiveTree
