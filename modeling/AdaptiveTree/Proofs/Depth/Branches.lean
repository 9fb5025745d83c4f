import AdaptiveTree.Proofs.Depth.Calls

/-!
The levels of the branch that a truth value selects, in whatever form the conditional has by then.
A return tail needs one level less for its end where it evaluates the argument in its own place.
-/

set_option autoImplicit false
set_option relaxedAutoImplicit false

namespace AdaptiveTree.Eval

variable {operands : Bool} {calls : NodeId → Span} {busy : NodeId → Prop} {limit : Nat}
  {exec : Evaluator} {m : Machine} {id x : NodeId} {n : Node}

/-- Taking the branch of a node that shows the part is gauged by what the truth of the condition
leads to. Assumes: a limit under which the condition was evaluated. -/
def GaugesBranch (operands : Bool) (calls : NodeId → Span) (limit : Nat) (exec : Evaluator)
    (part : Part) (next : Logical → World → Forms → Nat) : Prop :=
  ∀ {busy : NodeId → Prop} {m : Machine} {id : NodeId} (truth : Logical), 0 < limit →
    Poised operands calls busy m → Shows calls busy m.tree id part →
    Gauged operands limit (next truth m.world) (takeBranch exec id truth m)

variable (hexec : Simulates calls exec) (hgauge : Gauges operands calls limit exec)

include hgauge in
theorem gauged_takeBranch {source cond thenBranch elseBranch : Expr}
    (hsource : source.Branches cond thenBranch elseBranch) :
    GaugesBranch operands calls limit exec (.value source) fun l w g ↦
      Reference.branchLevels (Reference.levels g false thenBranch w)
        (Reference.levels g false elseBranch w) l := by
  intro busy m id truth hlimit hpoised hshows
  obtain ⟨x, n, parts, hresolve, hnode, _, hfits, hbelow⟩ :=
    hshows.children hpoised.ready.sound.forest
  obtain ⟨form, t, e?, hkind, hbranches, hthen, helse, hmissing⟩ := hfits.zip_of_branches hsource
  rcases htruth : truth.toBool? with _ | holds
  · obtain rfl : truth = .na := by cases truth <;> first | rfl | cases htruth
    rw [takeBranch_na hresolve]
    exact .of_fits (Shallow.fail x .unexpectedNA m) (Nat.zero_le _)
  · rw [takeBranch_eq hresolve hnode hkind hbranches htruth]
    simp only [Reference.branchLevels, htruth]
    cases holds with
    | true => exact hgauge.value hpoised (hbelow _ hthen).outside
    | false =>
      cases e? with
      | some e => exact hgauge.value hpoised (hbelow _ (helse e rfl)).outside
      | none =>
        -- The missing branch gives nothing, for which there is a level left.
        obtain ⟨s, rfl⟩ := hmissing rfl
        refine .of_fits (not_overflows_ok _ m) ?_
        simp only [Bool.false_eq_true, if_false, Reference.levels]
        exact hlimit

/-! ### Return tails -/

include hgauge in
theorem gauged_runBody (hpoised : Poised operands calls busy m) {items : List Expr}
    {body : Option NodeId} (hlength : body.toList.length = (Part.ofBody items).length)
    (hshows : ∀ q ∈ body.toList.zip (Part.ofBody items), Shows calls busy m.tree q.1 q.2) :
    Gauged operands limit (fun g ↦ Reference.bodyLevels g items m.world)
      (runBody exec body m) := by
  cases items with
  | nil =>
    cases body with
    | none => exact .of_shallow (.pure ())
    | some b => cases hlength
  | cons e rest =>
    cases body with
    | none => cases hlength
    | some b =>
      have hblock := hgauge.value hpoised (hshows _ (List.mem_singleton.mpr rfl))
      simp only [Reference.levels] at hblock
      exact hblock.before fun _ ↦ .pure ()

section Tail

variable {e : Expr} {rest : List Expr} {t : Expr.ReturnTail} {restSpan : Span}

include hexec hgauge

/-- The call that ends a return tail, with the statements behind it. -/
theorem gauged_call_rest (hpoised : Poised operands calls busy m) {call r : NodeId}
    (hcall : Shows calls busy m.tree call (Part.ofCall t))
    (hrest : Shows calls busy m.tree r (.statements rest restSpan)) :
    Gauged operands limit
      (fun g ↦ Reference.callLevels g t (fun w ↦ Reference.statementLevels g rest w + 1) m.world)
      ((exec call >>= fun _ ↦ exec r) m) :=
  .bind (hexec.value hpoised.ready hcall) (hgauge.value hpoised hcall) fun _ _ hlater _ _ ↦
    hgauge.statements (hpoised.later hlater) (hrest.later hpoised.ready hlater)

/-- The call that ends a return tail in a form in which it stands for itself. -/
theorem gauged_end (hpoised : Poised operands calls busy m) {call r : NodeId}
    (hcall : Shows calls busy m.tree call (Part.ofCall t))
    (hrest : Shows calls busy m.tree r (.statements rest restSpan)) :
    Gauged operands limit
      (fun g ↦ Reference.endLevels g t (fun w ↦ Reference.statementLevels g rest w + 1) m.world)
      ((exec call >>= fun _ ↦ exec r) m) :=
  (gauged_call_rest hexec hgauge hpoised hcall hrest).weaken (Reference.endLevels_le ..)
    (Nat.le_of_eq (Reference.endLevels_most ..).symm)

theorem gauged_runTail (hpoised : Poised operands calls busy m) {span : Span}
    (hshows : Shows calls busy m.tree id (.tail t rest restSpan span)) :
    Gauged operands limit
      (fun g ↦ Reference.endLevels g t (fun w ↦ Reference.statementLevels g rest w + 1) m.world)
      (runTail exec id m) := by
  obtain ⟨x, n, parts, hresolve, hnode, _, hfits, hbelow⟩ :=
    hshows.children hpoised.ready.sound.forest
  obtain ⟨c, body, last, r, lastPart, hform, _, hzip⟩ := hfits.zip_of_tail
  rw [hzip] at hbelow
  have hlast := (hbelow (last, lastPart) (by simp)).outside
  have hrest := (hbelow (r, .statements rest restSpan) (by simp)).outside
  unfold runTail
  rw [bind_eq (ask_eq hresolve), bind_eq (ask_eq (Tree.kind_eq hnode))]
  rcases hform with ⟨hkind, rfl⟩ | ⟨hkind, rfl⟩
  · have hbuiltin : m.tree.IsBuiltinTail x := ⟨n, hnode, by rw [hkind]; rfl⟩
    have hunbound : m.world.frame.contains "return" = false :=
      Bool.eq_false_iff.mpr fun hbound ↦ hpoised.ready.sound.unbound hbound x hbuiltin
    rw [hkind]
    refine (hgauge.value hpoised hlast).weaken ?_ ?_
    · simp [Reference.endLevels, Forms.least, hunbound]
    · rw [Reference.endLevels_most, Reference.callLevels_unbound _ hunbound]
      exact Nat.le_succ _
  · rw [hkind]
    exact gauged_end hexec hgauge hpoised hlast hrest

theorem gauged_takeBranch_tail {span : Span} :
    GaugesBranch operands calls limit exec (.tail t rest restSpan span) fun l w g ↦
      Reference.tailLevels g t (fun w' ↦ Reference.statementLevels g rest w' + 1) l w := by
  intro busy m id truth _ hpoised hshows
  have hready := hpoised.ready
  obtain ⟨x, n, parts, hresolve, hnode, _, hfits, hbelow⟩ := hshows.children hready.sound.forest
  obtain ⟨c, body, last, r, lastPart, hform, hlength, hzip⟩ := hfits.zip_of_tail
  rw [hzip] at hbelow
  have hshows' := hshows.resolved hresolve
  have hbody : ∀ q ∈ body.toList.zip (Part.ofBody t.body), Shows calls busy m.tree q.1 q.2 :=
    fun q hq ↦ (hbelow q (by simp [hq])).outside
  have hlast := (hbelow (last, lastPart) (by simp)).outside
  have hrest := (hbelow (r, .statements rest restSpan) (by simp)).outside
  cases truth with
  | na =>
    rw [takeBranch_na hresolve]
    exact .of_fits (Shallow.fail x .unexpectedNA m) (Nat.zero_le _)
  | no =>
    have hbranch : takeBranch exec id .no m = exec r m := by
      rcases hform with ⟨hkind, _⟩ | ⟨hkind, _⟩
      · exact takeBranch_builtin hresolve hnode hkind false
      · exact takeBranch_overridden hresolve hnode hkind false
    rw [hbranch]
    exact hgauge.statements hpoised hrest
  | yes =>
    have hfirst := follows_runBody hexec hready hlength hbody
    have hgauged := gauged_runBody hgauge hpoised hlength hbody
    rcases hform with ⟨hkind, rfl⟩ | ⟨hkind, rfl⟩
    · have hbranch : takeBranch exec id .yes m =
          (runBody exec body >>= fun _ ↦ runTail exec x) m :=
        takeBranch_builtin hresolve hnode hkind true
      rw [hbranch]
      exact .bind hfirst hgauged fun _ m₁ hlater _ _ ↦
        gauged_runTail hexec hgauge (hpoised.later hlater) (hshows'.later hready hlater)
    · have hbranch : takeBranch exec id .yes m =
          (runBody exec body >>= fun _ ↦ exec last >>= fun _ ↦ exec r) m :=
        takeBranch_overridden hresolve hnode hkind true
      rw [hbranch]
      exact .bind hfirst hgauged fun _ m₁ hlater _ _ ↦ gauged_end hexec hgauge
        (hpoised.later hlater) (hlast.later hready hlater) (hrest.later hready hlater)

end Tail

end AdaptiveTree.Eval
