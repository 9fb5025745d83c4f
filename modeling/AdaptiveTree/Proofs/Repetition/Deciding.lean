import AdaptiveTree.Proofs.Repetition.Settled

/-!
Conditions that are read without a change of the tree. There are three ways for that: a condition
without a step that always gives a truth value which is expected, a step that accepts what its
input gives, and a comparator that knows the shape of the operand.
-/

set_option autoImplicit false
set_option relaxedAutoImplicit false

namespace AdaptiveTree

open Machine (Later Sound)

/-- What comes of deciding about a conditional without a change of the tree: a failure, or the
branch that the reference selects. -/
inductive Decided (calls : NodeId → Span) (alike : World → World → Prop) (w : World) (c : Expr)
    (exec : Evaluator) (x : NodeId) (m : Machine) : EStateM.Result Exit Machine Value → Prop
  | ended {exit : Exit} {m' : Machine} (htree : m'.tree = m.tree) :
    Decided calls alike w c exec x m (.error exit m')
  | taken {l : Logical} {m' : Machine} (hsound : m'.Sound calls) (htree : m'.tree = m.tree)
      (hecho : Echoes alike (Reference.test c w) l m'.world) :
    Decided calls alike w c exec x m (Eval.takeBranch exec x l m')

/-- A form of conditional reads the condition at `y` without a change of the tree, in any world
that is like `w`. -/
def Decides (calls : NodeId → Span) (alike : World → World → Prop) (t : Tree) (w : World)
    (sense : Conditional.Sense) (y : NodeId) (c : Expr) : Prop :=
  ∀ (limit : Nat) (m : Machine) (x : NodeId) (form : Conditional) (part : Part),
    m.Sound calls → Shows calls (fun _ ↦ False) m.tree x part → part.condition? = some c →
    m.tree.kind? x = some (.cond form) → form.sense = sense → form.cond = y →
    Tree.Spares t m.tree y → alike w m.world →
    Decided calls alike w c (Eval.execute limit) x m
      (Eval.conditional (Eval.execute limit) x form m)

variable {calls : NodeId → Span} {alike : World → World → Prop}
  {callee : Definition → Definition → Prop} {fault : Fault → Prop} {t t' : Tree} {w : World}
  {m m' : Machine} {x y : NodeId} {k : NodeKind} {c : Expr} {exec : Evaluator}
  {form : Conditional} {sense : Conditional.Sense}

theorem Decides.later (h : Decides calls alike t w sense y c) (hspares : Tree.Spares t t' y) :
    Decides calls alike t' w sense y c :=
  fun limit m x form part hsound hshows hcondition hx hsense hy hspares' halike ↦
    h limit m x form part hsound hshows hcondition hx hsense hy (hspares.trans hspares') halike

theorem Eval.tree_convertObserved (y : NodeId) (v : Value) (m : Machine) :
    (machineOf (Eval.convertObserved y v m)).tree = m.tree := by
  unfold Eval.convertObserved
  rcases v.truth? with _ | ⟨l, _ | length⟩ <;> rfl

/-- A truth value that was reduced from a value is its truth. -/
theorem Reference.exists_truth? {span : Span} {v : Value} {l : Logical} {w' : World}
    (h : Reference.truth span v w = .ok l w') : ∃ extent, v.truth? = some (l, extent) := by
  unfold Reference.truth at h
  rcases htruth : v.truth? with _ | ⟨l', _ | length⟩ <;> rw [htruth] at h
  · cases h
  · obtain ⟨rfl, _⟩ := EStateM.Result.ok.inj h
    exact ⟨_, rfl⟩
  · obtain ⟨rfl, _⟩ := EStateM.Result.ok.inj h
    exact ⟨_, rfl⟩

theorem Reference.truth_of_truth? {v : Value} {l : Logical} {extent : Extent}
    (h : v.truth? = some (l, extent)) (span : Span) (w : World) :
    ∃ w', Reference.truth span v w = .ok l w' := by
  unfold Reference.truth
  rw [h]
  cases extent <;> exact ⟨_, rfl⟩

namespace Decided

theorem of_tree_eq {result : EStateM.Result Exit Machine Value}
    (h : Decided calls alike w c exec x m' result) (htree : m'.tree = m.tree) :
    Decided calls alike w c exec x m result := by
  cases h with
  | ended htree' => exact .ended (htree'.trans htree)
  | taken hsound htree' hecho => exact .taken hsound (htree'.trans htree) hecho

theorem bind {α : Type} {agrees : α → World → Prop} {z : Eval α} {f : α → Eval Value}
    (hz : Rests calls agrees m (z m))
    (hf : ∀ a m₁, m₁.Sound calls → m₁.tree = m.tree → agrees a m₁.world →
      Decided calls alike w c exec x m₁ (f a m₁)) :
    Decided calls alike w c exec x m ((z >>= f) m) := by
  show Decided calls alike w c exec x m (EStateM.bind z f m)
  unfold EStateM.bind
  revert hz
  generalize z m = result
  intro hz
  cases hz with
  | ok hsound htree hagrees => exact (hf _ _ hsound htree hagrees).of_tree_eq htree
  | error htree => exact .ended htree

end Decided

/-! ### Forms that read their condition as a whole -/

namespace Conditional

def Sense.readsOperand : Sense → Bool
  | const _ | specialized _ => true
  | _ => false

theorem readsOperand_sense (form : Conditional) : form.sense.readsOperand = form.readsOperand := by
  cases form <;> rfl

/-- What a form makes of the truth of its condition: only the generic one takes a missing value. -/
def receive (form : Conditional) : Speculation Logical → Speculation Logical
  | .hit .na => if form.sense = .any then .hit .na else .miss .na
  | s => s

end Conditional

/-- What a value is to a condition without a step. -/
def Speculation.ofValue : Value → Speculation Logical
  | .scalar (.logical l) => .hit l
  | v => .miss v

namespace Eval

theorem bind_congr_at {α β : Type} {z z' : Eval α} {f : α → Eval β} (h : z m = z' m) :
    (z >>= f) m = (z' >>= f) m := by
  show EStateM.bind z f m = EStateM.bind z' f m
  rw [EStateM.bind, EStateM.bind, h]

theorem conditional_whole (hreads : form.readsOperand = false) : conditional exec x form =
    scalarLogical exec form.cond >>= fun s ↦ match form.receive s with
      | .hit l => takeBranch exec x l
      | .miss v => settle exec x v := by
  cases form with
  | const | specialized => cases hreads
  | generic cond b e =>
    refine bind_congr fun s ↦ ?_
    rcases s with ⟨_ | _ | _⟩ | v <;> rfl
  | noElse | twoBranch | returnBuiltin | returnOverridden =>
    simp only [conditional, presentLogical, bind_assoc]
    refine bind_congr fun s ↦ ?_
    rcases s with ⟨_ | _ | _⟩ | v <;> rfl

theorem scalarLogical_plain (hy : m.tree.kind? y = some k) (hplain : k.isConversion = false) :
    scalarLogical exec y m = (exec y >>= fun v ↦ pure (Speculation.ofValue v)) m := by
  obtain ⟨n, hn, rfl⟩ := Tree.kind?_eq_some_iff.mp hy
  unfold scalarLogical
  rw [bind_eq (ask_eq (Tree.resolve_of_node? hn)), bind_eq (ask_eq (Tree.kind_eq hn))]
  have hmatch (v : Value) : (match v with
      | .scalar (.logical truth) => pure (.hit truth)
      | v => pure (.miss v) : Eval (Speculation Logical)) = pure (Speculation.ofValue v) := by
    rcases v with _ | ⟨_ | _ | _⟩ | _ | _ | _ <;> rfl
  cases hkind : n.kind with
  | convert =>
    rw [hkind] at hplain
    cases hplain
  | _ => exact congrFun (bind_congr hmatch) m

theorem scalarLogical_convert {input : NodeId} {mode : ConvertMode}
    (hy : m.tree.kind? y = some (.convert input mode)) : scalarLogical exec y m =
      (exec input >>= fun v ↦
        (if mode.accepts v then pure y else edit (Edit.widenConversion y)) >>= fun step ↦
        convertObserved step v >>= fun l ↦ pure (.hit l)) m := by
  obtain ⟨n, hn, hkind⟩ := Tree.kind?_eq_some_iff.mp hy
  unfold scalarLogical
  rw [bind_eq (ask_eq (Tree.resolve_of_node? hn)), bind_eq (ask_eq (Tree.kind_eq hn)), hkind]
  show (convert exec y >>= fun l ↦ pure (Speculation.hit l)) m = _
  have hconvert : convert exec y m = (exec input >>= fun v ↦
      (if mode.accepts v then pure y else edit (Edit.widenConversion y)) >>= fun step ↦
      convertObserved step v) m := by
    unfold convert
    rw [bind_eq (ask_eq (Tree.kind_eq hn)), hkind]
    refine congrFun (bind_congr fun v ↦ ?_) m
    have hplan : Transition.plan? (.convert input mode) none v =
        if mode.accepts v then none else some .widenConversion := rfl
    rw [hplan]
    split_ifs
    · rw [pure_bind]
    · rfl
  rw [bind_congr_at hconvert]
  simp only [bind_assoc]

/-- A return tail over a step has nothing to adapt when the truth is missing. -/
theorem settle_reuse {z input : NodeId} {mode : ConvertMode} (hresolve : m.tree.resolve z = .ok x)
    (hx : m.tree.kind? x = some (.cond form))
    (hy : m.tree.kind? form.cond = some (.convert input mode)) (hsense : form.sense = .tail) :
    settle exec z .na m = takeBranch exec x .na m := by
  obtain ⟨n, hn, hkind⟩ := Tree.kind?_eq_some_iff.mp hx
  obtain ⟨n', hn', hkind'⟩ := Tree.kind?_eq_some_iff.mp hy
  have hreads : form.readsOperand = false := by
    rw [← form.readsOperand_sense, hsense]
    rfl
  have hplain : form.isRestricted = false := by
    cases form <;> first | rfl | cases hsense
  rw [settle_eq, resume_eq hresolve hn hkind (Tree.kind_eq hn') hreads, hkind', hplain]
  rfl

/-- A form that expects no missing value is given up for one. -/
theorem settle_generalize {z input new : NodeId} {mode : ConvertMode}
    (hresolve : m.tree.resolve z = .ok x) (hx : m.tree.kind? x = some (.cond form))
    (hy : m.tree.kind? form.cond = some (.convert input mode)) (hsense : form.sense = .present)
    (hinstall : edit (Edit.installGeneric x) m = .ok new m') :
    settle exec z .na m = takeBranch exec new .na m' := by
  obtain ⟨n, hn, hkind⟩ := Tree.kind?_eq_some_iff.mp hx
  obtain ⟨n', hn', hkind'⟩ := Tree.kind?_eq_some_iff.mp hy
  have hreads : form.readsOperand = false := by
    rw [← form.readsOperand_sense, hsense]
    rfl
  have hrestricted : form.isRestricted = true := by
    cases form <;> first | rfl | cases hsense
  rw [settle_eq, resume_eq hresolve hn hkind (Tree.kind_eq hn') hreads, hkind', hrestricted]
  exact bind_eq hinstall

end Eval

section Whole

variable (hbridge : Bridge alike callee fault) (hreads : sense.readsOperand = false)

include hbridge hreads

/-- A condition without a step is read as it is if it always gives a truth value that is
expected. -/
theorem decides_plain (hy : t.kind? y = some k) (hplain : k.isConversion = false)
    (hsettled : Settled calls alike t w y c)
    (hvalue : ∀ v w', Reference.expr c w = .ok v w' →
      ∃ l, v = .scalar (.logical l) ∧ (sense = .any ∨ l ≠ .na)) :
    Decides calls alike t w sense y c := by
  rintro limit m x form part hsound hshows hcondition hx rfl rfl hspares halike
  have hy' := hspares.intact.kind?_eq hy
  obtain ⟨n, hn, hkind⟩ := Tree.kind?_eq_some_iff.mp hx
  obtain ⟨n', hn', rfl⟩ := Tree.kind?_eq_some_iff.mp hy'
  have htest := ((hshows.condition hsound.forest hn hkind hcondition).1
    (form.readsOperand_sense ▸ hreads)).outside
  have hshows' := htest.value (Tree.resolve_of_node? hn') hn' hplain
  rw [Eval.conditional_whole (form.readsOperand_sense ▸ hreads)]
  have hscalar : Rests calls (fun s w₁ ↦ ∃ l, s = .hit l ∧ (form.sense = .any ∨ l ≠ .na) ∧
      Echoes alike (Reference.test c w) l w₁) m
      (Eval.scalarLogical (Eval.execute limit) form.cond m) := by
    rw [Eval.scalarLogical_plain hy' hplain]
    refine .bind (hsettled.rests hbridge hsound hshows' hspares halike limit)
      fun v m₁ hsound₁ _ ⟨w₁, href, halike₁⟩ ↦ ?_
    obtain ⟨l, rfl, hl⟩ := hvalue v w₁ href
    refine .pure hsound₁ ⟨l, rfl, hl, w₁, ?_, halike₁⟩
    rw [Reference.test, Reference.bind_eq href]
    rfl
  refine .bind hscalar ?_
  rintro _ m₁ hsound₁ htree₁ ⟨l, rfl, hl, hecho⟩
  have hreceive : form.receive (.hit l) = .hit l := by
    rcases hl with hany | hna
    · cases l <;> simp [Conditional.receive, hany]
    · cases l <;> first | rfl | exact absurd rfl hna
  rw [hreceive]
  exact .taken hsound₁ rfl hecho

/-- A condition with a step is read as it is if the step accepts what it is given. A missing value
must not come to a form that is given up for one. -/
theorem decides_convert {input : NodeId} {mode : ConvertMode}
    (hy : t.kind? y = some (.convert input mode)) (hsettled : Settled calls alike t w input c)
    (hvalue : ∀ v w', Reference.expr c w = .ok v w' → mode.accepts v = true ∧
      (sense = .present → ∀ extent, v.truth? ≠ some (.na, extent))) :
    Decides calls alike t w sense y c := by
  rintro limit m x form part hsound hshows hcondition hx rfl rfl hspares halike
  have hreads' : form.readsOperand = false := form.readsOperand_sense ▸ hreads
  have hy' := hspares.intact.kind?_eq hy
  obtain ⟨n, hn, hkind⟩ := Tree.kind?_eq_some_iff.mp hx
  obtain ⟨n', hn', hkind'⟩ := Tree.kind?_eq_some_iff.mp hy'
  have htest := ((hshows.condition hsound.forest hn hkind hcondition).1 hreads').outside
  obtain ⟨parts, _, hfits, hbelow⟩ := htest.children_at hsound.forest hn'
  rw [hkind'] at hfits hbelow
  obtain rfl := hfits.parts_of_convert
  have hinput := (hbelow (input, .value c) (List.mem_singleton.mpr rfl)).outside
  have hspares' := hspares.child hy (List.mem_singleton.mpr rfl)
  rw [Eval.conditional_whole hreads', Eval.bind_congr_at (Eval.scalarLogical_convert hy'),
    bind_assoc]
  refine .bind (hsettled.rests hbridge hsound hinput hspares' halike limit)
    fun v m₁ hsound₁ htree₁ ⟨w₁, href, halike₁⟩ ↦ ?_
  obtain ⟨haccepts, hpresent⟩ := hvalue v w₁ href
  have hready₁ := hsound₁.ready
  have hconverted := (Eval.follows_convertObserved hready₁ (htree₁ ▸ htest) v).rests
    (Eval.tree_convertObserved _ v m₁) (Reference.matches_truth hbridge c.span v halike₁)
  simp only [haccepts, if_true, pure_bind, bind_assoc]
  refine .bind hconverted fun l m₂ hsound₂ htree₂ ⟨w₂, htruth, halike₂⟩ ↦ ?_
  have hecho : Echoes alike (Reference.test c w) l m₂.world := by
    refine ⟨w₂, ?_, halike₂⟩
    rw [Reference.test, Reference.bind_eq href]
    exact htruth
  have hx₂ : m₂.tree.kind? x = some (.cond form) := by
    rw [htree₂, htree₁]
    exact hx
  cases l with
  | no | yes => exact .taken hsound₂ rfl hecho
  | na =>
    cases hsense : form.sense with
    | any =>
      have hreceive : form.receive (.hit .na) = .hit .na := by simp [Conditional.receive, hsense]
      rw [hreceive]
      exact .taken hsound₂ rfl hecho
    | present =>
      obtain ⟨extent, hextent⟩ := Reference.exists_truth? htruth
      exact absurd hextent (hpresent hsense extent)
    | tail =>
      have hreceive : form.receive (.hit .na) = .miss .na := by simp [Conditional.receive, hsense]
      have hy₂ : m₂.tree.kind? form.cond = some (.convert input mode) := by
        rw [htree₂, htree₁]
        exact hy'
      rw [hreceive]
      dsimp only
      rw [Eval.settle_reuse (Tree.resolve_of_kind? hx₂) hx₂ hy₂ hsense]
      exact .taken hsound₂ rfl hecho
    | const | specialized =>
      rw [hsense] at hreads
      cases hreads

end Whole

/-! ### Forms that read an operand -/

/-- A form that reads an operand tests equality with a constant. -/
theorem Shows.exists_constant {part : Part} (h : Shows calls (fun _ ↦ False) m.tree x part)
    (hsound : m.Sound calls) (hx : m.tree.kind? x = some (.cond form))
    (hcondition : part.condition? = some c) (hreads : form.readsOperand = true) :
    ∃ s, c.constantTested? = some s ∧
      (∀ seen, form.sense = .const seen → seen = s) ∧
      ∀ comparator, form.sense = .specialized comparator →
        ∃ seen, Comparator.forShapes? seen s = some comparator := by
  obtain ⟨n, hn, hkind⟩ := Tree.kind?_eq_some_iff.mp hx
  obtain ⟨parts, _, hfits, _⟩ := h.children_at hsound.forest hn
  rw [hkind] at hfits
  cases form with
  | const cond b e s =>
    refine ⟨s, hfits.constantTested?_of_const hcondition, ?_, nofun⟩
    rintro _ ⟨⟩
    rfl
  | specialized cond b e comparator =>
    obtain ⟨s, seen, hconstant, hshapes⟩ := hfits.constantTested?_of_specialized hcondition
    refine ⟨s, hconstant, nofun, ?_⟩
    rintro _ ⟨⟩
    exact ⟨seen, hshapes⟩
  | _ => cases hreads

namespace Eval

theorem comparison_eq_of_kind? {op : CompareOp} {l r : NodeId}
    (hy : m.tree.kind? y = some (.compare op l r)) : comparison y m = .ok (op, l, r) m := by
  obtain ⟨n, hn, hkind⟩ := Tree.kind?_eq_some_iff.mp hy
  unfold comparison
  rw [bind_eq (ask_eq (Tree.resolve_of_node? hn)), bind_eq (ask_eq (Tree.kind_eq hn)), hkind]
  rfl

theorem conditional_operand (hreads : form.readsOperand = true) : conditional exec x form =
    comparison form.cond >>= fun parts ↦ exec parts.2.1 >>= fun v ↦ match form.sense with
      | .specialized comparator => compareSpecialized exec (settle exec) x comparator v
      | _ => settle exec x v := by
  cases form with
  | const | specialized => rfl
  | _ => cases hreads

/-- What a comparator answers is the branch to take; without a truth value there is none. -/
theorem compareSpecialized_eq {comparator : Comparator} {onMiss : NodeId → Value → Eval Value}
    {v : Value} {l : Logical} (hanswer : comparator.answer? v = some l)
    (hx : m.tree.kind? x = some k) :
    compareSpecialized exec onMiss x comparator v m = takeBranch exec x l m := by
  unfold compareSpecialized Comparator.compare
  rw [hanswer]
  cases l with
  | no | yes => rfl
  | na =>
    rw [takeBranch_na (Tree.resolve_of_kind? hx)]
    rfl

end Eval

/-- The operand is compared without a change if a comparator is there for its shape, or if it is
never known. -/
theorem decides_operand (hbridge : Bridge alike callee fault) {op : CompareOp} {l r : NodeId}
    {left right : Expr} {span : Span} (hreads : sense.readsOperand = true)
    (hc : c = .compare op left right span) (hy : t.kind? y = some (.compare op l r))
    (hsettled : Settled calls alike t w l left)
    (hvalue : ∀ v w', Reference.expr left w = .ok v w' →
      ∃ comparator truth, sense = .specialized comparator ∧ comparator.answer? v = some truth) :
    Decides calls alike t w sense y c := by
  rintro limit m x form part hsound hshows hcondition hx rfl rfl hspares halike
  have hreads' : form.readsOperand = true := form.readsOperand_sense ▸ hreads
  have hy' := hspares.intact.kind?_eq hy
  obtain ⟨n, hn, hkind⟩ := Tree.kind?_eq_some_iff.mp hx
  have hcompare := ((hshows.condition hsound.forest hn hkind hcondition).2 hreads').outside
  obtain ⟨s, hconstant, _, hshapes⟩ := hshows.exists_constant hsound hx hcondition hreads'
  obtain ⟨left', right', span', hc', _, htest⟩ := Reference.test_of_constant hconstant
  obtain ⟨rfl, rfl, rfl, rfl⟩ := Expr.compare.inj (hc.symm.trans hc')
  have hleft : Shows calls (fun _ ↦ False) m.tree l (.value left) := by
    have hoperands := hcompare.operands hsound.forest hy' rfl
    rw [hc] at hoperands
    cases hoperands with
    | cons hleft _ => exact hleft
  have hspares' := hspares.child hy (List.mem_cons_self ..)
  rw [Eval.conditional_operand hreads', Eval.bind_eq (Eval.comparison_eq_of_kind? hy')]
  refine .bind (hsettled.rests hbridge hsound hleft hspares' halike limit)
    fun v m₁ hsound₁ htree₁ ⟨w₁, href, halike₁⟩ ↦ ?_
  obtain ⟨comparator, truth, hsense, hanswer⟩ := hvalue v w₁ href
  obtain ⟨seen, hseen⟩ := hshapes comparator hsense
  rw [hsense]
  dsimp only
  rw [Eval.compareSpecialized_eq hanswer (htree₁ ▸ hx)]
  refine .taken hsound₁ rfl ⟨w₁, ?_, halike₁⟩
  rw [htest, Reference.bind_eq href, Comparator.compareWith_of_answer? hseen hanswer]
  rfl

/-! ### Conditionals -/

theorem Eval.step_cond {id : NodeId} (hresolve : m.tree.resolve id = .ok x)
    (hx : m.tree.kind? x = some (.cond form)) :
    Eval.step exec id m = Eval.conditional exec x form m := by
  obtain ⟨n, hn, hkind⟩ := Tree.kind?_eq_some_iff.mp hx
  unfold Eval.step
  rw [Eval.bind_eq (Eval.ask_eq hresolve), Eval.bind_eq (Eval.ask_eq (Tree.kind_eq hn)), hkind]

/-- A conditional is settled if deciding about it changes nothing and the branches selected are
settled. -/
theorem settled_conditional {e thenBranch elseBranch : Expr} {b : NodeId} {b? : Option NodeId}
    (hsource : e.Branches c thenBranch elseBranch)
    (hx : t.kind? x = some (.cond form)) (hbranches : form.branches? = some (b, b?))
    (hdecides : Decides calls alike t w form.sense form.cond c)
    (hthen : ∀ w', Reference.test c w = .ok .yes w' → Settled calls alike t w' b thenBranch)
    (helse : ∀ w' b', Reference.test c w = .ok .no w' → b? = some b' →
      Settled calls alike t w' b' elseBranch) : Settled calls alike t w x e := by
  intro limit m hsound hshows hspares halike
  cases limit with
  | zero => rfl
  | succ limit =>
    have hx' := hspares.intact.kind?_eq hx
    obtain ⟨n, hn, hkind⟩ := Tree.kind?_eq_some_iff.mp hx'
    have hcondition : (Part.value e).condition? = some c := by cases hsource <;> rfl
    have hcond : form.cond ∈ (NodeKind.cond form).children :=
      List.mem_of_mem_head? form.head?_children
    obtain ⟨parts, _, hfits, hbelow⟩ := hshows.children_at hsound.forest hn
    obtain ⟨form', a, a?, hform, hbranches', hthen', helse', _⟩ := hfits.zip_of_branches hsource
    obtain rfl := NodeKind.cond.inj (hkind.symm.trans hform)
    obtain ⟨rfl, rfl⟩ := Prod.mk.inj (Option.some.inj (hbranches.symm.trans hbranches'))
    rw [hkind] at hthen' helse' hbelow
    have hmem {d : NodeId} {p : Part} (hd : (d, p) ∈ (NodeKind.cond form).children.zip parts) :
        Tree.Spares t m.tree d := hspares.child hx (List.of_mem_zip hd).1
    show (machineOf (Eval.step (Eval.execute limit) x m)).tree = m.tree
    rw [Eval.step_cond (Tree.resolve_of_node? hn) hx']
    have hdecided := hdecides limit m x form (.value e) hsound hshows hcondition hx' rfl rfl
      (hspares.child hx hcond) halike
    generalize Eval.conditional (Eval.execute limit) x form m = result at hdecided
    cases hdecided with
    | ended htree => exact htree
    | @taken truth m' hsound' htree hecho =>
      obtain ⟨w', href, halike'⟩ := hecho
      have hn' : m'.tree.node? x = some n := htree ▸ hn
      rw [← htree]
      cases truth with
      | na =>
        rw [Eval.takeBranch_na (Tree.resolve_of_node? hn')]
        rfl
      | yes =>
        rw [Eval.takeBranch_eq (Tree.resolve_of_node? hn') hn' hkind hbranches rfl, if_pos rfl]
        exact hthen w' href limit m' hsound' (htree ▸ (hbelow _ hthen').outside)
          (htree ▸ hmem hthen') halike'
      | no =>
        rw [Eval.takeBranch_eq (Tree.resolve_of_node? hn') hn' hkind hbranches rfl,
          if_neg Bool.false_ne_true]
        cases b? with
        | none => rfl
        | some b' =>
          exact helse w' b' href rfl limit m' hsound' (htree ▸ (hbelow _ (helse' b' rfl)).outside)
            (htree ▸ hmem (helse' b' rfl)) halike'

end AdaptiveTree
