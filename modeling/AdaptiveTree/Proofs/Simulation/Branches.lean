import AdaptiveTree.Proofs.Simulation.Conditions

/-!
Taking the branch that a truth value selects. Whatever form a conditional has by then, it runs
the branch that the source tells, and a return tail goes on with the statements behind it.
-/

set_option autoImplicit false
set_option relaxedAutoImplicit false

namespace AdaptiveTree.Eval

open Machine (Later)

variable {calls : NodeId → Span} {busy : NodeId → Prop} {exec : Evaluator} {m : Machine}
  {id x : NodeId} {n : Node} {truth : Logical} {holds : Bool}

theorem takeBranch_na (hresolve : m.tree.resolve id = .ok x) :
    takeBranch exec id .na m = (fail x .unexpectedNA : Eval Value) m := by
  unfold takeBranch
  rw [bind_eq (ask_eq hresolve)]
  rfl

/-- The branch of a conditional that is no return tail. -/
theorem takeBranch_eq (hresolve : m.tree.resolve id = .ok x) (hnode : m.tree.node? x = some n)
    {form : Conditional} (hkind : n.kind = .cond form) {t : NodeId} {e? : Option NodeId}
    (hbranches : form.branches? = some (t, e?)) (htruth : truth.toBool? = some holds) :
    takeBranch exec id truth m =
      (if holds then exec t else match e? with
        | some e => exec e
        | none => pure .null : Eval Value) m := by
  unfold takeBranch
  rw [bind_eq (ask_eq hresolve), htruth]
  show (ask (·.kind x) >>= _) m = _
  rw [bind_eq (ask_eq (Tree.kind_eq hnode)), hkind]
  cases form with
  | generic | twoBranch | const | specialized =>
    obtain ⟨rfl, rfl⟩ := Prod.mk.inj (Option.some.inj hbranches)
    cases holds <;> rfl
  | noElse =>
    obtain ⟨rfl, rfl⟩ := Prod.mk.inj (Option.some.inj hbranches)
    rfl
  | returnBuiltin | returnOverridden => cases hbranches

theorem follows_takeBranch (hexec : Simulates calls exec) (hready : Ready calls busy m)
    {source cond thenBranch elseBranch : Expr}
    (hsource : source.Branches cond thenBranch elseBranch)
    (hshows : Shows calls busy m.tree id (.value source)) (truth : Logical) :
    Follows calls busy Same m
      (Reference.choose source.span (Reference.expr thenBranch) (Reference.expr elseBranch) truth
        m.world)
      (takeBranch exec id truth m) := by
  obtain ⟨x, n, parts, hresolve, hnode, _, hfits, hbelow⟩ := hshows.children hready.sound.forest
  have hinside : ∀ y, busy y → Shows.inside busy x y := fun _ hy ↦ Or.inl hy
  obtain ⟨form, t, e?, hkind, hbranches, hthen, helse, hmissing⟩ := hfits.zip_of_branches hsource
  rcases htruth : truth.toBool? with _ | holds
  · obtain rfl : truth = .na := by cases truth <;> first | rfl | cases htruth
    rw [takeBranch_na hresolve]
    exact follows_fail hready (hshows.resolved hresolve) .unexpectedNA
  · rw [takeBranch_eq hresolve hnode hkind hbranches htruth]
    unfold Reference.choose
    rw [htruth]
    cases holds with
    | true => exact hexec.value hready ((hbelow _ hthen).mono hinside)
    | false =>
      cases e? with
      | some e => exact hexec.value hready ((hbelow _ (helse e rfl)).mono hinside)
      | none =>
        obtain ⟨s, rfl⟩ := hmissing rfl
        have hnull : Reference.expr (.literal .null s) = pure .null := by rw [Reference.expr]; rfl
        rw [hnull]
        exact .pure hready.sound

/-! ### Return tails -/

theorem follows_runBody (hexec : Simulates calls exec) (hready : Ready calls busy m)
    {items : List Expr} {body : Option NodeId}
    (hlength : body.toList.length = (Part.ofBody items).length)
    (hshows : ∀ q ∈ body.toList.zip (Part.ofBody items), Shows calls busy m.tree q.1 q.2) :
    Follows calls busy Same m (Reference.body items m.world) (runBody exec body m) := by
  cases items with
  | nil =>
    cases body with
    | none =>
      have hnothing : Reference.body [] = pure () := by
        rw [Reference.body, Reference.inOrder, pure_bind]
      rw [hnothing]
      exact .pure hready.sound
    | some b => cases hlength
  | cons e rest =>
    cases body with
    | none => cases hlength
    | some b =>
      have hblock := hshows _ (List.mem_singleton.mpr rfl)
      have hbody : Reference.body (e :: rest) =
          Reference.expr (.block (e :: rest) (Expr.spanOf .origin (e :: rest))) >>=
            fun _ ↦ pure () := by
        rw [Reference.body, Reference.expr]
      rw [hbody]
      unfold runBody
      exact .bind (hexec.value hready hblock) fun v m₁ hlater _ ↦ .pure hlater.sound

/-- The statements behind a return tail give the value of all from there. -/
theorem follows_rest {e : Expr} {rest : List Expr} {t : Expr.ReturnTail}
    (htail : e.returnTail? = some t) {result : EStateM.Result Exit Machine Value} {last : Value}
    (h : Follows calls busy (Concluded rest) m (Reference.inOrder .null rest m.world) result) :
    Follows calls busy (Concluded (e :: rest)) m (Reference.inOrder last rest m.world) result := by
  cases rest with
  | nil =>
    rw [Reference.inOrder] at h ⊢
    cases h with
    | ok hlater hagrees =>
      refine .ok hlater (Or.inl ?_)
      rcases hagrees with ⟨v', href, hv⟩ | href
      · obtain ⟨rfl, hworld⟩ := EStateM.Result.ok.inj href
        refine ⟨last, congrArg (EStateM.Result.ok last) hworld, ?_⟩
        rw [hv]
        simp [Expr.endsWithTail, htail]
      · cases href
    | error _ href => cases href
    | tooDeep hlater => exact .tooDeep hlater
  | cons d others =>
    rw [Reference.inOrder] at h ⊢
    cases h with
    | ok hlater hagrees =>
      refine .ok hlater ?_
      rw [Concluded, Expr.endsWithTail_cons_cons]
      exact hagrees
    | error hlater href => exact .error hlater href
    | tooDeep hlater => exact .tooDeep hlater

/-- After its body, a return tail ends the program, or goes on if `return` was bound meanwhile. -/
theorem follows_runTail (hexec : Simulates calls exec) (hready : Ready calls busy m)
    {e : Expr} {rest : List Expr} {t : Expr.ReturnTail} {restSpan : Span}
    (htail : e.returnTail? = some t)
    (hshows : Shows calls busy m.tree id (.tail t rest restSpan e.span)) :
    Follows calls busy (Concluded (e :: rest)) m
      ((Reference.expr (.call "return" [t.arg] t.callSpan) >>=
        fun v ↦ Reference.inOrder v rest) m.world)
      (runTail exec id m) := by
  obtain ⟨x, n, parts, hresolve, hnode, _, hfits, hbelow⟩ := hshows.children hready.sound.forest
  have hinside : ∀ y, busy y → Shows.inside busy x y := fun _ hy ↦ Or.inl hy
  obtain ⟨c, body, last, r, lastPart, hform, _, hzip⟩ := hfits.zip_of_tail
  rw [hzip] at hbelow
  have hlast := (hbelow (last, lastPart) (by simp)).mono hinside
  have hrest := (hbelow (r, .statements rest restSpan) (by simp)).mono hinside
  unfold runTail
  rw [bind_eq (ask_eq hresolve), bind_eq (ask_eq (Tree.kind_eq hnode))]
  rcases hform with ⟨hkind, rfl⟩ | ⟨hkind, rfl⟩
  · have hbuiltin : m.tree.IsBuiltinTail x := ⟨n, hnode, by rw [hkind]; rfl⟩
    have hunbound : m.world.frame.contains "return" = false :=
      Bool.eq_false_iff.mpr fun hbound ↦ hready.sound.unbound hbound x hbuiltin
    rw [Reference.expr_return_bind hunbound, hkind]
    show Follows _ _ _ _ _ (exec last m)
    have hpure : exec last m = (exec last >>= fun v ↦ pure v) m := by rw [bind_pure]
    rw [hpure]
    exact .bind (hexec.value hready hlast) fun v m₁ hlater _ ↦
      .ok (.refl hlater.sound) (Or.inr rfl)
  · rw [hkind]
    refine .bind (hexec.value hready hlast) fun v m₁ hlater _ ↦ ?_
    exact follows_rest htail
      (hexec.statements (hready.later hlater) (hrest.later hready hlater))

theorem takeBranch_builtin (hresolve : m.tree.resolve id = .ok x) (hnode : m.tree.node? x = some n)
    {c arg r : NodeId} {body : Option NodeId} (hkind : n.kind = .cond (.returnBuiltin c body arg r))
    (holds : Bool) : takeBranch exec id (.ofBool holds) m =
      (if holds then runBody exec body >>= fun _ ↦ runTail exec x else exec r) m := by
  unfold takeBranch
  rw [bind_eq (ask_eq hresolve)]
  cases holds <;>
    · show (ask (·.kind x) >>= _) m = _
      rw [bind_eq (ask_eq (Tree.kind_eq hnode)), hkind]

theorem takeBranch_overridden (hresolve : m.tree.resolve id = .ok x)
    (hnode : m.tree.node? x = some n) {c call r : NodeId} {body : Option NodeId}
    (hkind : n.kind = .cond (.returnOverridden c body call r)) (holds : Bool) :
    takeBranch exec id (.ofBool holds) m =
      (if holds then runBody exec body >>= fun _ ↦ exec call >>= fun _ ↦ exec r else exec r) m := by
  unfold takeBranch
  rw [bind_eq (ask_eq hresolve)]
  cases holds <;>
    · show (ask (·.kind x) >>= _) m = _
      rw [bind_eq (ask_eq (Tree.kind_eq hnode)), hkind]

/-- Where the condition of a return tail holds, in a form that `return` had at that time. -/
theorem follows_takeBranch_tail (hexec : Simulates calls exec) (hready : Ready calls busy m)
    {e : Expr} {rest : List Expr} {t : Expr.ReturnTail} {restSpan : Span}
    (htail : e.returnTail? = some t)
    (hshows : Shows calls busy m.tree id (.tail t rest restSpan e.span)) (truth : Logical) :
    Follows calls busy (Concluded (e :: rest)) m
      ((Reference.choose e.span (Reference.body t.body >>=
          fun _ ↦ Reference.expr (.call "return" [t.arg] t.callSpan)) (pure .null) truth >>=
        fun v ↦ Reference.inOrder v rest) m.world)
      (takeBranch exec id truth m) := by
  obtain ⟨x, n, parts, hresolve, hnode, _, hfits, hbelow⟩ := hshows.children hready.sound.forest
  have hinside : ∀ y, busy y → Shows.inside busy x y := fun _ hy ↦ Or.inl hy
  obtain ⟨c, body, last, r, lastPart, hform, hlength, hzip⟩ := hfits.zip_of_tail
  rw [hzip] at hbelow
  have hshows' := hshows.resolved hresolve
  have hbody : ∀ q ∈ body.toList.zip (Part.ofBody t.body), Shows calls busy m.tree q.1 q.2 :=
    fun q hq ↦ (hbelow q (by simp [hq])).mono hinside
  have hlast := (hbelow (last, lastPart) (by simp)).mono hinside
  have hrest := (hbelow (r, .statements rest restSpan) (by simp)).mono hinside
  cases truth with
  | na =>
    rw [takeBranch_na hresolve, hshows'.fail_eq]
    exact .raised (.refl hready.sound) rfl
  | no =>
    have hbranch : takeBranch exec id .no m = exec r m := by
      rcases hform with ⟨hkind, _⟩ | ⟨hkind, _⟩
      · exact takeBranch_builtin hresolve hnode hkind false
      · exact takeBranch_overridden hresolve hnode hkind false
    have hchoose : Reference.choose e.span (Reference.body t.body >>=
        fun _ ↦ Reference.expr (.call "return" [t.arg] t.callSpan)) (pure .null) .no =
        pure .null := rfl
    rw [hbranch, hchoose, pure_bind]
    exact follows_rest htail (hexec.statements hready hrest)
  | yes =>
    have hchoose : Reference.choose e.span (Reference.body t.body >>=
        fun _ ↦ Reference.expr (.call "return" [t.arg] t.callSpan)) (pure .null) .yes =
        (Reference.body t.body >>=
          fun _ ↦ Reference.expr (.call "return" [t.arg] t.callSpan)) := rfl
    rw [hchoose, bind_assoc]
    rcases hform with ⟨hkind, rfl⟩ | ⟨hkind, rfl⟩
    · have hbranch : takeBranch exec id .yes m =
          (runBody exec body >>= fun _ ↦ runTail exec x) m :=
        takeBranch_builtin hresolve hnode hkind true
      rw [hbranch]
      refine .bind (follows_runBody hexec hready hlength hbody) fun _ m₁ hlater _ ↦ ?_
      exact follows_runTail hexec (hready.later hlater) htail (hshows'.later hready hlater)
    · have hbranch : takeBranch exec id .yes m =
          (runBody exec body >>= fun _ ↦ exec last >>= fun _ ↦ exec r) m :=
        takeBranch_overridden hresolve hnode hkind true
      rw [hbranch]
      refine .bind (follows_runBody hexec hready hlength hbody) fun _ m₁ hlater _ ↦ ?_
      have hready₁ := hready.later hlater
      refine .bind (hexec.value hready₁ (hlast.later hready hlater)) fun v m₂ hlater₂ _ ↦ ?_
      exact follows_rest htail (hexec.statements (hready₁.later hlater₂)
        ((hrest.later hready hlater).later hready₁ hlater₂))

end AdaptiveTree.Eval
