import AdaptiveTree.Proofs.Reading.Shows
import AdaptiveTree.Proofs.Tree.Discarding
import AdaptiveTree.Proofs.Tree.Spending

/-!
Trees in which every root shows a program. Every live node then shows a part of one; so
conversion steps stand only above conditions, and the hopeful form of a conditional that tests
equality with a constant stands only over a comparison.
-/

set_option autoImplicit false
set_option relaxedAutoImplicit false

namespace AdaptiveTree

namespace Part

theorem test_notMem_ofBody (e : Expr) (items : List Expr) : Part.test e ∉ ofBody items := by
  cases items <;> simp [ofBody]

theorem test_notMem_ofStatements (e : Expr) (items : List Expr) :
    Part.test e ∉ ofStatements items := by
  induction items with
  | nil => simp [ofStatements]
  | cons first rest ih =>
    rw [ofStatements]
    split
    · simp
    · simpa using ih

theorem ofProgram_ne_test (options : CompilationOptions) (program e : Expr) :
    ofProgram options program ≠ .test e := by
  cases program with
  | block =>
    rw [ofProgram]
    split_ifs <;> simp
  | _ => simp [ofProgram]

end Part

theorem Fits.exists_eq_test {calls : NodeId → Span} {id input : NodeId} {mode : ConvertMode}
    {span : Span} {part : Part} {parts : List Part}
    (h : Fits calls id (.convert input mode) span part parts) : ∃ e, part = .test e := by
  cases h with
  | convert => exact ⟨_, rfl⟩
  | plain h => cases h

/-- Only the condition of a conditional is tested. -/
theorem Fits.cond_of_test {calls : NodeId → Span} {id : NodeId} {kind : NodeKind} {span : Span}
    {part : Part} {parts : List Part} (h : Fits calls id kind span part parts) {x : NodeId}
    {e : Expr} (hx : (x, .test e) ∈ kind.children.zip parts) :
    ∃ form, kind = .cond form ∧ form.cond = x := by
  have hmem := (List.of_mem_zip hx).2
  induction h with
  | generic | noElse | twoBranch =>
    simp only [NodeKind.children, Conditional.children, List.zip_cons_cons, List.zip_nil_right,
      List.mem_cons, Prod.mk.injEq, reduceCtorEq, and_false, or_false, List.not_mem_nil] at hx
    exact ⟨_, rfl, hx.1.symm⟩
  | builtin _ _ _ _ t _ _ _ hlength | overridden _ _ _ _ t _ _ _ hlength =>
    simp only [NodeKind.children, Conditional.children, Part.ofCall, List.cons_append,
      List.zip_cons_cons, List.zip_append hlength, List.zip_nil_right, List.mem_cons,
      List.mem_append, Prod.mk.injEq, reduceCtorEq, and_false, or_false, List.not_mem_nil] at hx
    rcases hx with ⟨hcond, _⟩ | hbody
    · exact ⟨_, rfl, hcond.symm⟩
    · exact absurd (List.of_mem_zip hbody).2 (Part.test_notMem_ofBody e t.body)
  | plain _ ih => exact ih hx hmem
  | statements _ items => exact absurd hmem (Part.test_notMem_ofStatements e items)
  | _ => simp at hmem

/-- The form that expects to test equality with a constant does so over a comparison. -/
theorem Fits.compares_of_const {calls : NodeId → Span} {id c t e : NodeId} {k : Scalar}
    {span : Span} {part : Part} {parts : List Part}
    (h : Fits calls id (.cond (.const c t e k)) span part parts) :
    ∃ cond, (c, .value cond) ∈ (NodeKind.cond (.const c t e k)).children.zip parts ∧
      cond.isCompare = true := by
  generalize hkind : NodeKind.cond (.const c t e k) = kind at h
  induction h with
  | @const _ _ _ _ _ cond _ _ _ hconstant =>
    cases hkind
    refine ⟨cond, by simp [NodeKind.children, Conditional.children], ?_⟩
    cases cond with
    | compare => rfl
    | _ => simp [Expr.constantTested?] at hconstant
  | plain _ ih => exact ih hkind
  | _ => cases hkind

namespace Tree

variable {calls : NodeId → Span} {busy : NodeId → Prop} {t t' : Tree} {x : NodeId}

/-- Every root shows a program. -/
def Shown (calls : NodeId → Span) (t : Tree) : Prop :=
  ∀ x, t.IsRoot x → ∃ options program,
    Shows calls (fun _ ↦ False) t x (.ofProgram options program)

namespace Shown

theorem adapts (h : t.Shown calls) (hforest : t.Forest) (hadapts : Adapts calls busy t t') :
    t'.Shown calls := by
  have hevolves := hadapts.evolves hforest
  intro x' hx'
  obtain ⟨x, hx, hresolve⟩ := hevolves.rooted x' hx'
  obtain ⟨options, program, hshows⟩ := h x hx
  exact ⟨options, program, (hshows.adapts hforest (fun _ hb ↦ hb.elim) hadapts).resolved hresolve⟩

theorem exists_part (h : t.Shown calls) (hforest : t.Forest) {n : Node}
    (hx : t.node? x = some n) : ∃ part, Shows calls (fun _ ↦ False) t x part := by
  obtain ⟨r, hr, hreach⟩ := hforest.exists_root hx
  obtain ⟨options, program, hshows⟩ := h r hr
  obtain ⟨m, hm, _⟩ := hr
  exact hshows.exists_below (resolve_of_node? hm) hreach

theorem stepsTest (h : t.Shown calls) (hforest : t.Forest) : t.StepsTest := by
  intro x input mode hx
  obtain ⟨n, hn, hkind⟩ := kind?_eq_some_iff.mp hx
  rcases hparent : n.parent with _ | p
  · obtain ⟨options, program, hshows⟩ := h x ⟨n, hn, hparent⟩
    obtain ⟨parts, _, hfits, _⟩ := hshows.children_at hforest hn
    rw [hkind] at hfits
    obtain ⟨e, he⟩ := hfits.exists_eq_test
    exact absurd he (Part.ofProgram_ne_test options program e)
  · obtain ⟨m, hm, hmem⟩ := hforest.exists_parent hn hparent
    obtain ⟨part, hshows⟩ := h.exists_part hforest hm
    obtain ⟨parts, _, hfits, hbelow⟩ := hshows.children_at hforest hm
    obtain ⟨q, hq⟩ := Shows.exists_zip hfits.length_eq hmem
    obtain ⟨parts', _, hfits', _⟩ := (hbelow (x, q) hq).children_at hforest hn
    rw [hkind] at hfits'
    obtain ⟨e, rfl⟩ := hfits'.exists_eq_test
    obtain ⟨form, hform, hcond⟩ := hfits.cond_of_test hq
    exact ⟨p, form, kind?_eq_some_iff.mpr ⟨m, hm, hform⟩, hcond⟩

/-- No conditional is rewritten more than three times. -/
theorem budgetAt_le (h : t.Shown calls) (hforest : t.Forest) (x : NodeId) : t.budgetAt x ≤ 3 := by
  unfold budgetAt
  split
  · next form hx =>
    have hle := t.conversions_le form.cond
    cases form with
    | const c b e k =>
      obtain ⟨n, hn, hkind⟩ := kind?_eq_some_iff.mp hx
      obtain ⟨part, hshows⟩ := h.exists_part hforest hn
      obtain ⟨parts, _, hfits, hbelow⟩ := hshows.children_at hforest hn
      rw [hkind] at hfits hbelow
      obtain ⟨cond, hmem, hcompare⟩ := hfits.compares_of_const
      obtain ⟨_, k', hk'⟩ := hforest.mem_cond hx
      obtain ⟨m, hm, rfl⟩ := kind?_eq_some_iff.mp hk'
      obtain ⟨parts', _, hfits', _⟩ := (hbelow _ hmem).children_at hforest hm
      have hone : t.conversions c = 1 :=
        conversions_of_isCompare hk' (hfits'.isCompare_eq.trans hcompare)
      show 2 + t.conversions c ≤ 3
      omega
    | _ =>
      simp only [Conditional.replacements]
      omega
  · exact Nat.zero_le _

end Shown

end Tree

end AdaptiveTree
