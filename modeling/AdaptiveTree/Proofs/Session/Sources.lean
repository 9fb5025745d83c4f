import AdaptiveTree.Proofs.Reading.ReadBack
import AdaptiveTree.Proofs.Session.History

/-!
Programs stay readable. After any history, and in the middle of any run, what is read from the
root of a program that was not released is what the program was made from. A conditional that
reads only one operand of its condition keeps the constant that the other one gives.
-/

set_option autoImplicit false
set_option relaxedAutoImplicit false

namespace AdaptiveTree

/-- The constant of a form that reads only the operand compared with it. -/
inductive Conditional.Holds : Conditional → Scalar → Prop
  | const (c b e : NodeId) (k : Scalar) : Holds (.const c b e k) k
  | specialized (c b e : NodeId) {k : Scalar} {v : Value} {comparator : Comparator}
      (hshapes : Comparator.forShapes? v k = some comparator) :
    Holds (.specialized c b e comparator) k

namespace Fits

variable {calls : NodeId → Span} {id : NodeId} {kind : NodeKind} {span s : Span} {part : Part}
  {parts : List Part}

theorem eq_of_literal {l : Literal}
    (h : Fits calls id kind span (.value (.literal l s)) parts) : kind = .constant l.value := by
  cases h with
  | literal => rfl
  | generic _ _ _ hsource | const _ _ _ hsource | specialized _ _ _ hsource => cases hsource

theorem eq_of_unary {op : UnaryOp} {e : Expr}
    (h : Fits calls id kind span (.value (.unary op e s)) parts) :
    ∃ x, kind = .unary op x ∧ parts = [.value e] := by
  cases h with
  | unary _ x => exact ⟨x, rfl, rfl⟩
  | generic _ _ _ hsource | const _ _ _ hsource | specialized _ _ _ hsource => cases hsource

/-- A form that reads only an operand has a test of equality with its constant below it. -/
theorem exists_constant {form : Conditional} (h : Fits calls id (.cond form) span part parts)
    (hreads : form.readsOperand = true) :
    ∃ cond k, cond.constantTested? = some k ∧ form.Holds k ∧
      (form.cond, .value cond) ∈ form.children.zip parts := by
  generalize hkind : NodeKind.cond form = kind at h
  induction h with
  | const c b e _ hconstant =>
    obtain rfl := NodeKind.cond.inj hkind
    exact ⟨_, _, hconstant, .const c b e _, List.mem_cons_self⟩
  | specialized c b e _ hconstant hshapes =>
    obtain rfl := NodeKind.cond.inj hkind
    exact ⟨_, _, hconstant, .specialized c b e hshapes, List.mem_cons_self⟩
  | plain _ ih => exact ih hkind
  | generic | noElse | twoBranch | builtin | overridden =>
    obtain rfl := NodeKind.cond.inj hkind
    simp [Conditional.readsOperand] at hreads
  | _ => simp at hkind

end Fits

/-! ### Constants -/

namespace Shows

variable {calls : NodeId → Span} {busy : NodeId → Prop} {m : Machine} {id : NodeId} {span : Span}

theorem execute_literal {l : Literal}
    (h : Shows calls busy m.tree id (.value (.literal l span))) (limit : Nat) :
    Eval.execute (limit + 1) id m = .ok l.value m := by
  cases h with
  | intro hresolve hnode _ hfits =>
    rw [← Eval.executeUntil_never, Eval.executeUntil, Eval.stepUntil_eq hresolve hnode,
      hfits.eq_of_literal]
    rfl

/-- The right operand of a test of equality with a constant gives the constant. -/
theorem execute_constant {cond : Expr} {k : Scalar} (hconstant : cond.constantTested? = some k)
    (h : Shows calls busy m.tree id (.value cond)) :
    ∃ x n l r, m.tree.resolve id = .ok x ∧ m.tree.node? x = some n ∧ n.kind = .compare .eq l r ∧
      ∀ limit, Eval.execute (limit + 2) r m = .ok (.scalar k) m := by
  unfold Expr.constantTested? at hconstant
  split at hconstant
  · next left literal s span' =>
    cases h with
    | intro hresolve hnode _ hfits hbelow =>
      obtain ⟨l, r, hkind, rfl⟩ := hfits.eq_of_compare
      have hr := hbelow (r, .value (.literal literal s)) (by simp [hkind, NodeKind.children])
      refine ⟨_, _, l, r, hresolve, hnode, hkind, fun limit ↦ ?_⟩
      rw [hr.execute_literal (limit + 1), Literal.value, hconstant]
  · next left literal s s' span' =>
    obtain ⟨k', hk', rfl⟩ := Option.map_eq_some_iff.mp hconstant
    cases h with
    | intro hresolve hnode _ hfits hbelow =>
      obtain ⟨l, r, hkind, rfl⟩ := hfits.eq_of_compare
      have hr := hbelow (r, .value (.unary .neg (.literal literal s) s'))
        (by simp [hkind, NodeKind.children])
      refine ⟨_, _, l, r, hresolve, hnode, hkind, fun limit ↦ ?_⟩
      cases hr with
      | intro hresolve' hnode' _ hfits' hbelow' =>
        obtain ⟨y, hkind', rfl⟩ := hfits'.eq_of_unary
        have hy := hbelow' (y, .value (.literal literal s)) (by simp [hkind', NodeKind.children])
        have hoperand : Eval.executeUntil (fun _ ↦ false) (limit + 1) y m =
            .ok (.scalar k') m := by
          rw [Eval.executeUntil_never, hy.execute_literal limit, Literal.value, hk']
        rw [← Eval.executeUntil_never, Eval.executeUntil, Eval.stepUntil_eq hresolve' hnode',
          hkind']
        exact Eval.bind_eq hoperand
  · simp at hconstant

end Shows

namespace Machine

/-- The condition of a form tests equality with a constant that the form keeps, and evaluating the
right operand gives that constant and changes nothing. -/
def Compares (m : Machine) (form : Conditional) : Prop :=
  ∃ k l r, form.Holds k ∧ m.tree.kind form.cond = .ok (.compare .eq l r) ∧
    ∀ limit, Eval.execute (limit + 2) r m = .ok (.scalar k) m

/-- From the root of a program its source is read, and every form below it that reads only an
operand has the constant that its condition compares with. -/
structure Recalls (m : Machine) (i : Issue) : Prop where
  listing : ∃ listing, m.tree.readProgram i.program.root = some listing ∧
    listing.Recalls i.options i.source
  constants : ∃ root, m.tree.resolve i.program.root = .ok root ∧
    ∀ x form, Relation.ReflTransGen m.tree.Names root x → m.tree.kind x = .ok (.cond form) →
      form.readsOperand = true → m.Compares form

variable {calls : NodeId → Span} {busy : NodeId → Prop} {m : Machine} {id x : NodeId} {n : Node}
  {part : Part}

theorem compares (h : Shows calls busy m.tree x part) (hforest : m.tree.Forest)
    {form : Conditional} (hkind : m.tree.kind x = .ok (.cond form))
    (hreads : form.readsOperand = true) : m.Compares form := by
  obtain ⟨n, hnode, hcond⟩ := Tree.kind_eq_ok hkind
  obtain ⟨parts, _, hfits, hbelow⟩ := h.children_at hforest hnode
  rw [hcond] at hfits hbelow
  obtain ⟨cond, k, hconstant, hholds, hmem⟩ := hfits.exists_constant hreads
  obtain ⟨y, n', l, r, hy, hn', hkind', hexecute⟩ := (hbelow _ hmem).execute_constant hconstant
  have hchild : form.cond ∈ n.kind.children := by
    rw [hcond]
    exact (List.of_mem_zip hmem).1
  obtain rfl := Except.ok.inj ((Shows.resolve_of_mem hforest hnode hchild).symm.trans hy)
  exact ⟨k, l, r, hholds, by rw [Tree.kind_eq hn', hkind'], hexecute⟩

end Machine

theorem Valid.recalls {calls : NodeId → Span} {m : Machine} {issues : List Issue}
    (h : Valid calls m issues) {i : Issue} (hi : i ∈ issues) (hkept : i.released = false) :
    m.Recalls i := by
  obtain ⟨root, hresolve, _, hshows⟩ := h.present i hi hkept
  refine ⟨hshows.readProgram_eq h.sound.forest, root, hresolve, fun x form hreach ↦ ?_⟩
  obtain ⟨part, hx⟩ := hshows.exists_below hresolve hreach
  exact Machine.compares hx h.sound.forest

namespace Session

/-- After any history, and after any binding in the middle of a run that follows it. -/
theorem recalls_sources (options : EngineOptions) (commands : List Command)
    (stop : Machine → Bool) (maxDepth index : Nat) (i : Issue)
    (hi : i ∈ (after options commands).issues) (hkept : i.released = false) :
    (after options commands).engine.machine.Recalls i ∧
      ((after options commands).interrupted stop maxDepth index).Recalls i := by
  obtain ⟨calls, hvalid⟩ := valid_after options commands
  exact ⟨hvalid.recalls hi hkept, (valid_interrupted hvalid stop maxDepth index).recalls hi hkept⟩

/-- A test of a variable for equality with one, and a return tail. -/
def testThenReturn : Expr :=
  .block [.ifThen (.compare .eq (.ident "x" ⟨4, 5⟩) (.literal (.int 1) ⟨9, 11⟩) ⟨4, 11⟩)
      (.literal (.int 2) ⟨13, 15⟩) ⟨0, 15⟩,
    .ifThen (.literal (.logical .yes) ⟨20, 24⟩)
      (.call "return" [.literal (.int 3) ⟨33, 35⟩] ⟨26, 36⟩) ⟨16, 36⟩] ⟨0, 36⟩

/-- The test is specialised for integers, and then `return` is bound. -/
def seenThenBound : List Command :=
  [.lower testThenReturn, .set "x" (.scalar (.int 2)), .run none 0,
    .set "return" (.scalar (.int 0))]

theorem recalls_sources_seenThenBound :
    (after ⟨⟨true, true⟩, 20⟩ seenThenBound).engine.machine.tree.kind 11 =
        .ok (.cond (.specialized 2 3 4 (.intInt 1))) ∧
      (after ⟨⟨true, true⟩, 20⟩ seenThenBound).engine.machine.tree.kind 13 =
        .ok (.cond (.returnOverridden 7 none 12 6)) ∧
      (after ⟨⟨true, true⟩, 20⟩ seenThenBound).engine.machine.Recalls
        ⟨⟨10, ""⟩, testThenReturn, ⟨true, true⟩, false⟩ := by
  have hset : ∀ (s : Session) (name : String) (v : Value),
      (s.step (.set name v)).issues = s.issues := fun _ _ _ ↦ rfl
  have hissues : (after ⟨⟨true, true⟩, 20⟩ seenThenBound).issues =
      [⟨⟨10, ""⟩, testThenReturn, ⟨true, true⟩, false⟩] := by
    simp only [after, seenThenBound, List.foldl_cons, List.foldl_nil, issues_step_run, hset]
    rfl
  refine ⟨by decide +kernel, by decide +kernel, ?_⟩
  exact (recalls_sources ⟨⟨true, true⟩, 20⟩ seenThenBound (fun _ ↦ true) 20 0 _
    (by rw [hissues]; exact List.mem_singleton_self _) rfl).1

end Session

end AdaptiveTree
