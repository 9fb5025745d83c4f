import AdaptiveTree.Proofs.Repetition.Adapting
import AdaptiveTree.Proofs.Repetition.Deciding
import AdaptiveTree.Proofs.Repetition.Values

/-!
One evaluation is enough for a condition. Whatever a conditional observes, the form that it has got
when it takes a branch reads the same condition without a change: a step accepts the value that it
was made for, a comparator knows the shape that it was chosen for, and a form that was given up is
not asked again.
-/

set_option autoImplicit false
set_option relaxedAutoImplicit false

namespace AdaptiveTree

open Machine (Later Sound)

/-- How the evaluation of a conditional begins: it fails before the truth of the condition is
known, or takes the branch that the reference selects. In both cases the form that the conditional
has by then decides without a change. -/
inductive Decision (calls : NodeId → Span) (alike : World → World → Prop) (exec : Evaluator)
    (m : Machine) (x : NodeId) (c : Expr) : EStateM.Result Exit Machine Value → Prop
  | tooDeep {span : Span} {m' : Machine} :
    Decision calls alike exec m x c (.error (.tooDeep span) m')
  | failed {exit : Exit} {m' : Machine} {sense : Conditional.Sense} {y : NodeId}
      (hlater : Later calls (fun _ ↦ False) m m') (hreads : m'.tree.Reads x sense y)
      (hdecides : Decides calls alike m'.tree m.world sense y c)
      (href : ∀ l w', Reference.test c m.world ≠ .ok l w') :
    Decision calls alike exec m x c (.error exit m')
  | taken {z : NodeId} {l : Logical} {m' : Machine} {sense : Conditional.Sense} {y : NodeId}
      (hlater : Later calls (fun _ ↦ False) m m') (hreads : m'.tree.Reads x sense y)
      (hdecides : Decides calls alike m'.tree m.world sense y c)
      (hsame : m'.tree.resolve z = m'.tree.resolve x)
      (href : Reference.test c m.world = .ok l m'.world) :
    Decision calls alike exec m x c (Eval.takeBranch exec z l m')

variable {calls : NodeId → Span} {alike : World → World → Prop}
  {callee : Definition → Definition → Prop} {fault : Fault → Prop} {t : Tree}
  {m m₁ : Machine} {x y z input : NodeId} {k : NodeKind} {c : Expr} {exec : Evaluator}
  {form : Conditional} {sense : Conditional.Sense} {part : Part} {v : Value} {mode : ConvertMode}

/-! ### What is read -/

namespace Shows

/-- What a conditional reads as a whole is a test of its condition. -/
theorem reads_test (h : Shows calls (fun _ ↦ False) t x part) (hforest : t.Forest)
    (hcondition : part.condition? = some c) (hreads : t.Reads x sense y)
    (hwhole : sense.readsOperand = false) : Shows calls (fun _ ↦ False) t y (.test c) := by
  obtain ⟨x', form, hresolve, hx', rfl, rfl⟩ := hreads
  obtain ⟨n, hn, hkind⟩ := Tree.kind?_eq_some_iff.mp hx'
  exact (((h.resolved hresolve).condition hforest hn hkind hcondition).1
    (form.readsOperand_sense ▸ hwhole)).outside

/-- What a conditional reads an operand of is the comparison itself. -/
theorem reads_value (h : Shows calls (fun _ ↦ False) t x part) (hforest : t.Forest)
    (hcondition : part.condition? = some c) (hreads : t.Reads x sense y)
    (hoperand : sense.readsOperand = true) : Shows calls (fun _ ↦ False) t y (.value c) := by
  obtain ⟨x', form, hresolve, hx', rfl, rfl⟩ := hreads
  obtain ⟨n, hn, hkind⟩ := Tree.kind?_eq_some_iff.mp hx'
  exact (((h.resolved hresolve).condition hforest hn hkind hcondition).2
    (form.readsOperand_sense ▸ hoperand)).outside

end Shows

theorem Reference.test_of_expr {w w' : World} (h : Reference.expr c w = .ok v w') :
    Reference.test c w = Reference.truth c.span v w' := by
  rw [Reference.test, Reference.bind_eq h]

theorem Reference.test_ne_ok {w : World} (h : ∀ v w', Reference.expr c w ≠ .ok v w')
    (l : Logical) (w' : World) : Reference.test c w ≠ .ok l w' := by
  cases hexpr : Reference.expr c w with
  | ok v w₁ => exact absurd hexpr (h v w₁)
  | error halt w₁ =>
    rw [Reference.test, Reference.bind_error_eq hexpr]
    intro heq
    cases heq

section

variable (hbridge : Bridge alike callee fault) (hsound : m.Sound calls)
  (hshows : Shows calls (fun _ ↦ False) m.tree x part) (hcondition : part.condition? = some c)
  (hlater : Later calls (fun _ ↦ False) m m₁) (href : Reference.expr c m.world = .ok v m₁.world)
  (hreads : m₁.tree.Reads x sense y) (hwhole : sense.readsOperand = false)

/-! ### With a step above the condition -/

section Step

variable (hy : m₁.tree.kind? y = some (.convert input mode))
  (hsettled : Settled calls alike m₁.tree m.world input c) (haccepts : mode.accepts v = true)

include hsound hshows hcondition hlater href hreads hwhole in
/-- Reducing the value observed to its truth changes nothing. -/
theorem decision_converted {f : Logical → Eval Value}
    (hdecides : (∀ l w', Reference.truth c.span v m₁.world ≠ .ok l w') →
      Decides calls alike m₁.tree m.world sense y c)
    (hgoes : ∀ l m₂, Later calls (fun _ ↦ False) m m₂ → m₂.tree = m₁.tree →
      Reference.truth c.span v m₁.world = .ok l m₂.world →
      Decision calls alike exec m x c (f l m₂)) :
    Decision calls alike exec m x c ((Eval.convertObserved y v >>= f) m₁) := by
  have hready := hsound.ready
  have hstep := (hshows.later hready hlater).reads_test hlater.sound.forest hcondition hreads hwhole
  have hfollows := Eval.follows_convertObserved (hready.later hlater) hstep v
  have htree := Eval.tree_convertObserved y v m₁
  cases hconvert : Eval.convertObserved y v m₁ with
  | ok l m₂ =>
    rw [Eval.bind_eq hconvert]
    rw [hconvert] at hfollows htree
    cases hfollows with
    | ok hlater₂ hagrees => exact hgoes l m₂ (hlater.trans hlater₂) htree hagrees
  | error exit m₂ =>
    rw [Eval.bind_error_eq hconvert]
    rw [hconvert] at hfollows htree
    cases hfollows with
    | tooDeep => exact .tooDeep
    | error hlater₂ herror =>
      have hnever : ∀ l w', Reference.truth c.span v m₁.world ≠ .ok l w' := by
        intro l w' hok
        cases herror.symm.trans hok
      have htree' : m₂.tree = m₁.tree := htree
      refine .failed (hlater.trans hlater₂) (htree' ▸ hreads) (htree' ▸ hdecides hnever)
        fun l w' ↦ ?_
      rw [Reference.test_of_expr href]
      exact hnever l w'

include hbridge href hwhole hy hsettled haccepts in
theorem decides_step (hpresent : sense = .present → ∀ extent, v.truth? ≠ some (.na, extent)) :
    Decides calls alike m₁.tree m.world sense y c := by
  refine decides_convert hbridge hwhole hy hsettled fun u w' hu ↦ ?_
  obtain ⟨rfl, _⟩ := EStateM.Result.ok.inj (href.symm.trans hu)
  exact ⟨haccepts, hpresent⟩

include hbridge hsound hshows hcondition hlater href hreads hwhole hy hsettled haccepts in
/-- The step was made for the value, or accepts it. -/
theorem decision_step (hsame : m₁.tree.resolve z = m₁.tree.resolve x)
    (hpresent : sense = .present → ∀ extent, v.truth? ≠ some (.na, extent)) :
    Decision calls alike exec m x c
      ((Eval.convertObserved y v >>= fun l ↦ Eval.takeBranch exec z l) m₁) := by
  have hdecides := decides_step hbridge href hwhole hy hsettled haccepts hpresent
  refine decision_converted hsound hshows hcondition hlater href hreads hwhole (fun _ ↦ hdecides)
    fun l m₂ hlater₂ htree htruth ↦ ?_
  refine .taken hlater₂ (htree ▸ hreads) (htree ▸ hdecides) (htree ▸ hsame) ?_
  rw [Reference.test_of_expr href]
  exact htruth

include hbridge hsound hshows href hreads hwhole hy hsettled haccepts in
/-- A missing value is observed where none is expected. -/
theorem decision_missing (hsense : sense ≠ .any) {m₂ : Machine}
    (hlater₂ : Later calls (fun _ ↦ False) m m₂) (htree : m₂.tree = m₁.tree)
    (htruth : Reference.truth c.span v m₁.world = .ok .na m₂.world) :
    Decision calls alike exec m x c (Eval.settle exec x .na m₂) := by
  have hready := hsound.ready
  have htest : Reference.test c m.world = .ok .na m₂.world := by
    rw [Reference.test_of_expr href]
    exact htruth
  have hshows₂ := hshows.later hready hlater₂
  rw [← htree] at hreads hy hsettled
  obtain ⟨x', form, hresolve, hx', hsense', rfl⟩ := id hreads
  cases sense with
  | any => exact absurd rfl hsense
  | tail =>
    rw [Eval.settle_reuse hresolve hx' hy hsense']
    have hdecides : Decides calls alike m₂.tree m.world .tail form.cond c :=
      decides_convert hbridge hwhole hy hsettled fun u w' hu ↦ by
        obtain ⟨rfl, _⟩ := EStateM.Result.ok.inj (href.symm.trans hu)
        exact ⟨haccepts, nofun⟩
    exact .taken hlater₂ hreads hdecides ((Tree.resolve_of_kind? hx').trans hresolve.symm) htest
  | present =>
    have hrestricted := form.isRestricted_iff.mpr hsense'
    obtain ⟨t', new, hinstall, hlater₃, hnew, hreads', hspares⟩ :=
      (hready.later hlater₂).generalized (hshows₂.resolved hresolve) hx' (Or.inl hrestricted)
    have hevolves := hlater₃.adapts.evolves hlater₂.sound.forest
    have hdecides : Decides calls alike t' m.world .any form.cond c :=
      decides_convert hbridge rfl (hspares.intact.kind?_eq hy)
        (hsettled.later (hspares.child hy (List.mem_singleton.mpr rfl))) fun u w' hu ↦ by
          obtain ⟨rfl, _⟩ := EStateM.Result.ok.inj (href.symm.trans hu)
          exact ⟨haccepts, nofun⟩
    have hsame : t'.resolve new = t'.resolve x :=
      (Tree.resolve_resolved hnew).trans (hevolves.resolve_trans hresolve hnew).symm
    rw [Eval.settle_generalize hresolve hx' hy hsense' hinstall]
    exact .taken (hlater₂.trans hlater₃) (hreads'.of_resolve hevolves hresolve) hdecides hsame htest
  | const | specialized => cases hwhole

include hbridge hsound hshows hcondition hlater href hreads hwhole hy hsettled haccepts in
/-- What follows when a step has been given the value of its input. -/
theorem decision_stepped (hsense : form.sense = sense) :
    Decision calls alike exec m x c ((Eval.convertObserved y v >>= fun l ↦
      match form.receive (.hit l) with
      | .hit l => Eval.takeBranch exec x l
      | .miss v => Eval.settle exec x v) m₁) := by
  refine decision_converted hsound hshows hcondition hlater href hreads hwhole
    (fun hnever ↦ decides_step hbridge href hwhole hy hsettled haccepts fun _ extent htruth ↦ ?_)
    fun l m₂ hlater₂ htree htruth ↦ ?_
  · obtain ⟨w', hok⟩ := Reference.truth_of_truth? htruth c.span m₁.world
    exact hnever _ _ hok
  have htest : Reference.test c m.world = .ok l m₂.world := by
    rw [Reference.test_of_expr href]
    exact htruth
  have htaken (hdecides : Decides calls alike m₁.tree m.world sense y c) :
      Decision calls alike exec m x c (Eval.takeBranch exec x l m₂) :=
    .taken hlater₂ (htree ▸ hreads) (htree ▸ hdecides) rfl htest
  have hdecides (hna : l ≠ .na) : Decides calls alike m₁.tree m.world sense y c :=
    decides_step hbridge href hwhole hy hsettled haccepts fun _ extent hextent ↦ by
      obtain ⟨w', hok⟩ := Reference.truth_of_truth? hextent c.span m₁.world
      obtain ⟨rfl, _⟩ := EStateM.Result.ok.inj (htruth.symm.trans hok)
      exact hna rfl
  cases l with
  | no | yes => exact htaken (hdecides nofun)
  | na =>
    by_cases hany : sense = .any
    · have hreceive : form.receive (.hit .na) = .hit .na := by
        simp [Conditional.receive, hsense, hany]
      rw [hreceive]
      refine htaken (decides_step hbridge href hwhole hy hsettled haccepts fun hpresent ↦ ?_)
      cases hany.symm.trans hpresent
    · have hreceive : form.receive (.hit .na) = .miss .na := by
        simp [Conditional.receive, hsense, hany]
      rw [hreceive]
      exact decision_missing hbridge hsound hshows href hreads hwhole hy hsettled haccepts hany
        hlater₂ htree htruth

end Step

/-! ### Without a step -/

theorem ConvertMode.accepts_ofValue (v : Value) : (ofValue v).accepts v = true := by
  simp [accepts]

section Plain

variable (hy : m₁.tree.kind? y = some k) (hplain : k.isConversion = false)
  (hsettled : Settled calls alike m₁.tree m.world y c)

include hbridge hsound hshows hcondition hlater href hreads hwhole hy hplain hsettled in
/-- A condition whose value is no truth value, or not one that is expected, gets a step that was
made for the value. -/
theorem decision_resume (hsame : m₁.tree.resolve z = m₁.tree.resolve x) (rounds : Nat) :
    Decision calls alike exec m x c (Eval.resume exec (rounds + 1) z v m₁) := by
  have hready := hsound.ready
  have hready₁ := hready.later hlater
  have hshows₁ := hshows.later hready hlater
  have hvalue := (hshows₁.reads_test hlater.sound.forest hcondition hreads hwhole)
  obtain ⟨x', form, hresolve, hx', rfl, rfl⟩ := hreads
  have hreads' : form.readsOperand = false := form.readsOperand_sense ▸ hwhole
  obtain ⟨n, hn, hkind⟩ := Tree.kind?_eq_some_iff.mp hx'
  obtain ⟨n', hn', rfl⟩ := Tree.kind?_eq_some_iff.mp hy
  have hmode : n'.kind.isCompare = true → ConvertMode.ofValue v = .logical := by
    intro hcompare
    have hvalue' := hvalue.value (Tree.resolve_of_node? hn') hn' hplain
    exact Reference.admits_of_expr href
      ((hvalue'.isCompare_iff hn').mp ⟨n', hn', hcompare⟩)
  obtain ⟨t₁, step, hinstall, hlater₁, hstep, ⟨form₁, hx₁, hsense₁, hcond₁⟩, hspares⟩ :=
    hready₁.wrapped (hshows₁.resolved hresolve) hx' hreads' hy hplain hmode
  have hlater₂ := hlater.trans hlater₁
  have hevolves := hlater₁.adapts.evolves hlater.sound.forest
  have hensure : Eval.ensureConversion x' form.cond n'.kind v m₁ =
      .ok step { m₁ with tree := t₁ } := by
    rw [Eval.ensureConversion, hplain, if_neg Bool.false_ne_true]
    exact hinstall
  rw [Eval.resume_eq (hsame.trans hresolve) hn hkind (Tree.kind_eq hn') hreads',
    Eval.bind_eq hensure]
  have hreads₁ : t₁.Reads x form.sense step := by
    refine Tree.Reads.of_resolve ?_ hevolves hresolve
    exact ⟨x', form₁, Tree.resolve_of_kind? hx₁, hx₁, hsense₁, hcond₁⟩
  have hsettled₁ := hsettled.later hspares
  by_cases hrestricted : form.isRestricted
  · have hrestricted₁ : form₁.isRestricted = true :=
      form₁.isRestricted_iff.mpr (hsense₁.trans (form.isRestricted_iff.mp hrestricted))
    obtain ⟨t₂, new, hinstall₂, hlater₃, hnew, hreads₂, hspares₂⟩ :=
      (hready₁.later hlater₁).generalized ((hshows₁.resolved hresolve).later hready₁ hlater₁) hx₁
        (Or.inl hrestricted₁)
    rw [hcond₁] at hreads₂ hspares₂
    have hevolves₂ := hlater₃.adapts.evolves hlater₁.sound.forest
    have hsame₂ : t₂.resolve new = t₂.resolve x :=
      (Tree.resolve_resolved hnew).trans
        ((hevolves.trans hevolves₂).resolve_trans hresolve hnew).symm
    rw [if_pos hrestricted, Eval.bind_eq hinstall₂]
    exact decision_step hbridge hsound hshows hcondition (hlater₂.trans hlater₃) href
      ((hreads₂.of_resolve hevolves₂ (Tree.resolve_of_kind? hx₁)).of_resolve
        (hevolves.trans hevolves₂) hresolve) rfl (hspares₂.intact.kind?_eq hstep)
      (hsettled₁.later (hspares₂.child hstep (List.mem_singleton.mpr rfl)))
      (ConvertMode.accepts_ofValue v) hsame₂ nofun
  · rw [if_neg hrestricted, pure_bind]
    refine decision_step hbridge hsound hshows hcondition hlater₂ href hreads₁ hwhole hstep
      hsettled₁ (ConvertMode.accepts_ofValue v) ?_ fun hpresent ↦
        absurd (form.isRestricted_iff.mpr hpresent) hrestricted
    have hx'' := Tree.resolve_of_kind? hx₁
    exact hx''.trans (hevolves.resolve_trans hresolve hx'').symm

include hbridge hsound hshows hcondition hlater href hreads hwhole hy hplain hsettled in
/-- What follows when a condition without a step has been evaluated. -/
theorem decision_observed (hsense : form.sense = sense) :
    Decision calls alike exec m x c ((match form.receive (Speculation.ofValue v) with
      | .hit l => Eval.takeBranch exec x l
      | .miss v => Eval.settle exec x v : Eval Value) m₁) := by
  have hmiss : Decision calls alike exec m x c (Eval.settle exec x v m₁) :=
    decision_resume hbridge hsound hshows hcondition hlater href hreads hwhole hy hplain hsettled
      rfl _
  have hhit {l : Logical} (hv : v = .scalar (.logical l)) (hl : sense = .any ∨ l ≠ .na) :
      Decision calls alike exec m x c (Eval.takeBranch exec x l m₁) := by
    refine .taken hlater hreads (decides_plain hbridge hwhole hy hplain hsettled fun u w' hu ↦ ?_)
      rfl ?_
    · obtain ⟨rfl, _⟩ := EStateM.Result.ok.inj (href.symm.trans hu)
      exact ⟨l, hv, hl⟩
    · rw [Reference.test_of_expr href, hv]
      rfl
  cases v with
  | scalar s =>
    cases s with
    | logical l =>
      cases l with
      | no | yes => exact hhit rfl (Or.inr nofun)
      | na =>
        by_cases hany : sense = .any
        · have hreceive : form.receive (.hit .na) = .hit .na := by
            simp [Conditional.receive, hsense, hany]
          rw [Speculation.ofValue, hreceive]
          exact hhit rfl (Or.inl hany)
        · have hreceive : form.receive (.hit .na) = .miss .na := by
            simp [Conditional.receive, hsense, hany]
          rw [Speculation.ofValue, hreceive]
          exact hmiss
    | int | double => exact hmiss
  | null | logicals | ints | doubles => exact hmiss

end Plain

end

/-! ### The evaluation of a condition -/

/-- No node hangs below one that hangs below it. -/
theorem Tree.Forest.not_reaches_above (h : t.Forest) (hxy : t.Names x y) (hyz : t.Names y z) :
    ¬ t.Reaches z x := fun hreach ↦
  h.acyclic x (.head hxy (Relation.TransGen.head' hyz hreach))

theorem Shows.isConversion_eq_false {busy : NodeId → Prop} {e : Expr}
    (h : Shows calls busy t x (.value e)) (hx : t.kind? x = some k) : k.isConversion = false := by
  obtain ⟨n, hn, rfl⟩ := Tree.kind?_eq_some_iff.mp hx
  cases h with
  | @intro _ x' n' _ _ hresolve hnode _ hfits _ =>
    obtain rfl := Except.ok.inj ((Tree.resolve_of_node? hn).symm.trans hresolve)
    obtain rfl := Option.some.inj (hn.symm.trans hnode)
    generalize n.kind = kind at hfits
    generalize n.span = span at hfits
    cases hfits <;> rfl

section Condition

variable (hbridge : Bridge alike callee fault) (htends : Tends calls alike exec)
  (hsound : m.Sound calls) (hshows : Shows calls (fun _ ↦ False) m.tree x part)
  (hcondition : part.condition? = some c) (hx : m.tree.kind? x = some (.cond form))

include hbridge htends hsound hshows hcondition hx in
theorem decision_plain (hwhole : form.readsOperand = false)
    (hy : m.tree.kind? form.cond = some k) (hplain : k.isConversion = false) :
    Decision calls alike exec m x c (Eval.conditional exec x form m) := by
  have hready := hsound.ready
  have hreads := Tree.Reads.of_kind? hx
  have hwhole' : form.sense.readsOperand = false := form.readsOperand_sense.trans hwhole
  obtain ⟨n, hn, hkind⟩ := Tree.kind?_eq_some_iff.mp hy
  have hvalue := (hshows.reads_test hsound.forest hcondition hreads hwhole').value
    (Tree.resolve_of_node? hn) hn (hkind ▸ hplain)
  have htended := htends hsound hy hvalue
  rw [Eval.conditional_whole hwhole, Eval.bind_congr_at (Eval.scalarLogical_plain hy hplain),
    bind_assoc]
  simp only [pure_bind]
  revert htended
  generalize hexec : exec form.cond m = result
  intro htended
  cases htended with
  | tooDeep =>
    rw [Eval.bind_error_eq hexec]
    exact .tooDeep
  | @done _ y' hlater hends hresolve hsettled =>
    have hlater₁ := hlater.unconfined
    obtain ⟨y'', hy'', hreads₁⟩ := hreads.later hsound.forest hlater.adapts
      (hsound.outside_parent hx (Tree.names_cond hx))
    obtain rfl := Except.ok.inj (hresolve.symm.trans hy'')
    have hvalue₁ := (hvalue.later hready hlater₁).resolved hresolve
    obtain ⟨n₁, hn₁⟩ := Tree.exists_node?_of_resolve hresolve
    have hk₁ := Tree.kind?_eq_some_iff.mpr ⟨n₁, hn₁, rfl⟩
    have hplain₁ := hvalue₁.isConversion_eq_false hk₁
    cases result with
    | error exit m₁ =>
      rw [Eval.bind_error_eq hexec]
      exact .failed hlater₁ hreads₁ (decides_plain hbridge hwhole' hk₁ hplain₁ hsettled
        fun v w' href ↦ absurd href (hends v w')) (Reference.test_ne_ok hends)
    | ok v m₁ =>
      rw [Eval.bind_eq hexec]
      exact decision_observed hbridge hsound hshows hcondition hlater₁ hends hreads₁ hwhole' hk₁
        hplain₁ hsettled rfl

include hbridge htends hsound hshows hcondition hx in
theorem decision_convert (hwhole : form.readsOperand = false)
    (hy : m.tree.kind? form.cond = some (.convert input mode)) :
    Decision calls alike exec m x c (Eval.conditional exec x form m) := by
  have hready := hsound.ready
  have hreads := Tree.Reads.of_kind? hx
  have hwhole' : form.sense.readsOperand = false := form.readsOperand_sense.trans hwhole
  have hnames : m.tree.Names form.cond input :=
    Tree.names_iff_kind?.mpr ⟨_, hy, List.mem_singleton.mpr rfl⟩
  obtain ⟨n, hn, hkind⟩ := Tree.kind?_eq_some_iff.mp hy
  have htest := hshows.reads_test hsound.forest hcondition hreads hwhole'
  obtain ⟨parts, _, hfits, hbelow⟩ := htest.children_at hsound.forest hn
  rw [hkind] at hfits hbelow
  obtain rfl := hfits.parts_of_convert
  have hvalue := (hbelow (input, .value c) (List.mem_singleton.mpr rfl)).outside
  obtain ⟨k, hk⟩ := hsound.forest.exists_kind? hnames
  have htended := htends hsound hk hvalue
  rw [Eval.conditional_whole hwhole, Eval.bind_congr_at (Eval.scalarLogical_convert hy),
    bind_assoc]
  revert htended
  generalize hexec : exec input m = result
  intro htended
  cases htended with
  | tooDeep =>
    rw [Eval.bind_error_eq hexec]
    exact .tooDeep
  | @done _ input' hlater hends hresolve hsettled =>
    have hlater₁ := hlater.unconfined
    obtain ⟨ids, hstep, hfollowed⟩ := hlater.adapts.keeps hsound.forest hy
      (Or.inr ⟨hsound.outside_parent hy hnames, rfl⟩)
    obtain ⟨input'', rfl⟩ := List.length_eq_one_iff.mp (Tree.Keeps.length_eq hfollowed)
    obtain rfl := Except.ok.inj (hresolve.symm.trans (hfollowed.head rfl rfl))
    have hstep₁ : (machineOf result).tree.kind? form.cond = some (.convert input' mode) := hstep
    obtain ⟨y, hy₁, hreads₁⟩ := hreads.later hsound.forest hlater.adapts
      ⟨⟨_, hx⟩, hsound.forest.not_reaches_above (Tree.names_cond hx) hnames⟩
    obtain rfl := Except.ok.inj ((Tree.resolve_of_kind? hstep₁).symm.trans hy₁)
    cases result with
    | error exit m₁ =>
      rw [Eval.bind_error_eq hexec]
      exact .failed hlater₁ hreads₁ (decides_convert hbridge hwhole' hstep₁ hsettled
        fun v w' href ↦ absurd href (hends v w')) (Reference.test_ne_ok hends)
    | ok v m₁ =>
      rw [Eval.bind_eq hexec]
      simp only [bind_assoc, pure_bind]
      by_cases haccepts : mode.accepts v = true
      · rw [if_pos haccepts, pure_bind]
        exact decision_stepped hbridge hsound hshows hcondition hlater₁ hends hreads₁ hwhole'
          hstep₁ hsettled haccepts rfl
      · have hready₁ : Ready calls (fun _ ↦ False) m₁ := hready.later hlater₁
        have htest₁ := (hshows.later hready hlater₁).reads_test hlater.sound.forest hcondition
          hreads₁ hwhole'
        obtain ⟨t', step, hwiden, hlater₂, hstep₂, hreads₂, hspares⟩ :=
          hready₁.widened hreads₁ hstep₁ htest₁ haccepts (Reference.admits_of_expr hends)
        rw [if_neg haccepts, Eval.bind_eq hwiden]
        exact decision_stepped hbridge hsound hshows hcondition (hlater₁.trans hlater₂) hends
          hreads₂ hwhole' hstep₂ (hsettled.later hspares) rfl rfl

end Condition

/-! ### Comparing with a constant -/

theorem Reference.expr_compare {left right : Expr} {span : Span} {op : CompareOp} {s : Scalar}
    {w w' : World} (hleft : expr left w = .ok v w') (hright : expr right = pure (.scalar s)) :
    expr (.compare op left right span) w = .ok (v.compareWith op (.scalar s)) w' := by
  rw [expr, bind_eq hleft, hright, pure_bind]
  rfl

theorem Shows.exists_compare {left right : Expr} {span : Span} {op : CompareOp}
    (h : Shows calls (fun _ ↦ False) t y (.value (.compare op left right span)))
    (hforest : t.Forest) (hy : t.kind? y = some k) :
    ∃ l r, k = .compare op l r ∧ Shows calls (fun _ ↦ False) t l (.value left) ∧
      Shows calls (fun _ ↦ False) t r (.value right) := by
  obtain ⟨n, hn, rfl⟩ := Tree.kind?_eq_some_iff.mp hy
  obtain ⟨parts, _, hfits, hbelow⟩ := h.children_at hforest hn
  obtain ⟨l, r, hkind, rfl⟩ := hfits.eq_of_compare
  rw [hkind] at hbelow
  exact ⟨l, r, hkind, (hbelow (l, .value left) (by simp [NodeKind.children])).outside,
    (hbelow (r, .value right) (by simp [NodeKind.children])).outside⟩

theorem scalar_eq_of_constantTested? {left right : Expr} {span : Span} {op : CompareOp}
    {s s' : Scalar} (h : (Expr.compare op left right span).constantTested? = some s')
    (hright : Reference.expr right = pure (.scalar s)) (w : World) : s' = s := by
  obtain ⟨_, _, _, heq, hright', _⟩ := Reference.test_of_constant h
  obtain ⟨-, -, rfl, -⟩ := Expr.compare.inj heq
  obtain ⟨hsame, _⟩ := EStateM.Result.ok.inj (congrFun (hright'.symm.trans hright) w)
  exact Value.scalar.inj hsame

section Operand

variable {left right : Expr} {span : Span} {s : Scalar} {l r : NodeId} {comparator : Comparator}
  (hbridge : Bridge alike callee fault) (htends : Tends calls alike exec)
  (hsound : m.Sound calls) (hshows : Shows calls (fun _ ↦ False) m.tree x part)
  (hcondition : part.condition? = some (.compare .eq left right span))
  (hright : Reference.expr right = pure (.scalar s))
  (hlater : Later calls (fun _ ↦ False) m m₁)
  (href : Reference.expr left m.world = .ok v m₁.world)
  (hy : m₁.tree.kind? y = some (.compare .eq l r))
  (hsettled : Settled calls alike m₁.tree m.world l left)

include hbridge hright hlater href hy hsettled in
/-- A comparator answers. -/
theorem decision_compared {seen : Value} {truth : Logical}
    (hreads : m₁.tree.Reads x (.specialized comparator) y)
    (hseen : Comparator.forShapes? seen s = some comparator)
    (hanswer : comparator.answer? v = some truth)
    (hsame : m₁.tree.resolve z = m₁.tree.resolve x) :
    Decision calls alike exec m x (.compare .eq left right span)
      (Eval.takeBranch exec z truth m₁) := by
  refine .taken hlater hreads
    (decides_operand hbridge rfl rfl hy hsettled fun u w' hu ↦ ?_) hsame ?_
  · obtain ⟨rfl, _⟩ := EStateM.Result.ok.inj (href.symm.trans hu)
    exact ⟨comparator, truth, rfl, hanswer⟩
  · rw [Reference.test_of_expr (Reference.expr_compare href hright),
      Comparator.compareWith_of_answer? hseen hanswer]
    rfl

include hbridge hsound hshows hcondition hright hlater href hy hsettled in
/-- What follows when both operands have been evaluated. -/
theorem decision_constant {m₂ : Machine} {r' : NodeId}
    (hlater₂ : Later calls (m₁.tree.Outside r) m₁ m₂) (hworld : m₂.world = m₁.world)
    (hresolve : m₂.tree.resolve r = .ok r')
    (hsettled' : Settled calls alike m₂.tree m₁.world r' right)
    (hreads : m₁.tree.Reads x .any y) (hz : m₁.tree.kind? z = some (.cond form))
    (hcond : form.cond = y) (hsame : m₁.tree.resolve z = m₁.tree.resolve x) (rounds : Nat) :
    Decision calls alike exec m x (.compare .eq left right span)
      ((match v.compareWith .eq (.scalar s) with
        | .scalar (.logical truth) => Eval.takeBranch exec z truth
        | v => Eval.resume exec (rounds + 1) z v : Eval Value) m₂) := by
  have hready := hsound.ready
  have hforest := hlater.sound.forest
  have hlater₁ := hlater.trans hlater₂.unconfined
  obtain ⟨n, hn, hkind⟩ := Tree.kind?_eq_some_iff.mp hy
  obtain ⟨_, _, hsame', hleft, _⟩ := (((hshows.later hready hlater).reads_test hforest hcondition
    hreads rfl).value (Tree.resolve_of_node? hn) hn (by rw [hkind]; rfl)).exists_compare hforest hy
  obtain ⟨-, rfl, rfl⟩ := NodeKind.compare.inj hsame'
  have hl : m₁.tree.Names y l := Tree.names_iff_kind?.mpr ⟨_, hy, by simp [NodeKind.children]⟩
  have hr : m₁.tree.Names y r := Tree.names_iff_kind?.mpr ⟨_, hy, by simp [NodeKind.children]⟩
  have hne : l ≠ r := by
    have hnodup := hforest.distinct y n hn
    rw [hkind] at hnodup
    simpa [NodeKind.children] using hnodup
  have hspares := hlater₂.spares_sibling hlater.sound hr hl hne hleft rfl
  have hy₂ : m₂.tree.kind? y = some (.compare .eq l r') := by
    obtain ⟨ids, hy₂, hfollowed⟩ := hlater₂.adapts.keeps hforest hy (Or.inl rfl)
    obtain ⟨l₂, r₂, rfl⟩ := List.length_eq_two.mp (Tree.Keeps.length_eq hfollowed)
    cases hfollowed with
    | cons hl₂ hr₂ =>
      obtain ⟨kl, hkl⟩ := hforest.exists_kind? hl
      obtain rfl := Except.ok.inj
        ((Tree.resolve_of_kind? (hspares.intact.kind?_eq hkl)).symm.trans hl₂)
      obtain rfl := Except.ok.inj (hresolve.symm.trans (List.forall₂_cons.mp hr₂).1)
      exact hy₂
  have hsettled₂ : Settled calls alike m₂.tree m.world y (.compare .eq left right span) := by
    refine settled_fixed hbridge hy₂ rfl (fun _ ↦ ⟨hsettled.later hspares, fun u w' hu ↦ ?_⟩)
      fun _ _ _ hbinds ↦ by cases hbinds
    obtain ⟨-, rfl⟩ := EStateM.Result.ok.inj (href.symm.trans hu)
    exact ⟨hsettled', fun _ _ _ ↦ trivial⟩
  have hx : m₁.tree.resolve x = .ok z := hsame.symm.trans (Tree.resolve_of_kind? hz)
  have hsense : form.sense = .any := by
    obtain ⟨x', form', hx', hform', hsense, _⟩ := hreads
    obtain rfl := Except.ok.inj (hx.symm.trans hx')
    obtain rfl := NodeKind.cond.inj (Option.some.inj (hz.symm.trans hform'))
    exact hsense
  obtain ⟨y', hy', hreads₂⟩ := (Tree.Reads.of_kind? hz).later hforest hlater₂.adapts
    ⟨⟨_, hz⟩, hforest.not_reaches_above (Tree.names_cond hz) (hcond ▸ hr)⟩
  rw [hcond] at hy'
  obtain rfl := Except.ok.inj ((Tree.resolve_of_kind? hy₂).symm.trans hy')
  rw [hsense] at hreads₂
  have hevolves := hlater₂.adapts.evolves hforest
  have hreads₂' := hreads₂.of_resolve hevolves hx
  have hsame₂ : m₂.tree.resolve z = m₂.tree.resolve x := by
    obtain ⟨z', _, hz', _⟩ := hreads₂
    exact hz'.trans (hevolves.resolve_trans hx hz').symm
  have hcompare : Reference.expr (.compare .eq left right span) m.world =
      .ok (v.compareWith .eq (.scalar s)) m₂.world :=
    hworld.symm ▸ Reference.expr_compare href hright
  have hmiss : Decision calls alike exec m x (.compare .eq left right span)
      (Eval.resume exec (rounds + 1) z (v.compareWith .eq (.scalar s)) m₂) :=
    decision_resume hbridge hsound hshows hcondition hlater₁ hcompare hreads₂' rfl hy₂ rfl hsettled₂
      hsame₂ rounds
  cases hanswer : v.compareWith .eq (.scalar s) with
  | scalar answer =>
    cases answer with
    | logical truth =>
      rw [hanswer] at hcompare
      refine .taken hlater₁ hreads₂' (decides_plain hbridge rfl hy₂ rfl hsettled₂ fun u w' hu ↦ ?_)
        hsame₂ (Reference.test_of_expr hcompare)
      obtain ⟨rfl, _⟩ := EStateM.Result.ok.inj (hcompare.symm.trans hu)
      exact ⟨truth, rfl, Or.inl rfl⟩
    | int | double =>
      rw [hanswer] at hmiss
      exact hmiss
  | null | logicals | ints | doubles =>
    rw [hanswer] at hmiss
    exact hmiss

include hbridge htends hsound hshows hcondition hright hlater href hy hsettled in
/-- The general comparison, in a conditional that is generic by then. -/
theorem decision_finish (hreads : m₁.tree.Reads x .any y)
    (hz : m₁.tree.kind? z = some (.cond form)) (hcond : form.cond = y)
    (hsame : m₁.tree.resolve z = m₁.tree.resolve x) (rounds : Nat) :
    Decision calls alike exec m x (.compare .eq left right span)
      (Eval.finishComparison exec (Eval.resume exec (rounds + 1)) z v m₁) := by
  have hready := hsound.ready
  have hforest := hlater.sound.forest
  obtain ⟨n, hn, hkind⟩ := Tree.kind?_eq_some_iff.mp hy
  obtain ⟨_, _, hsame', _, hshows'⟩ := (((hshows.later hready hlater).reads_test hforest hcondition
    hreads rfl).value (Tree.resolve_of_node? hn) hn (by rw [hkind]; rfl)).exists_compare hforest hy
  obtain ⟨-, rfl, rfl⟩ := NodeKind.compare.inj hsame'
  obtain ⟨kr, hkr⟩ := hforest.exists_kind?
    (Tree.names_iff_kind?.mpr ⟨_, hy, by simp [NodeKind.children]⟩ : m₁.tree.Names y r)
  obtain ⟨nz, hnz, hkindz⟩ := Tree.kind?_eq_some_iff.mp hz
  have htended := htends hlater.sound hkr hshows'
  unfold Eval.finishComparison
  rw [Eval.bind_eq (Eval.ask_eq (Tree.kind_eq hnz)), hkindz]
  dsimp only
  rw [Eval.bind_eq (Eval.comparison_eq_of_kind? (hcond ▸ hy))]
  revert htended
  generalize hexec : exec r m₁ = result
  intro htended
  cases htended with
  | tooDeep =>
    rw [Eval.bind_error_eq hexec]
    exact .tooDeep
  | done hlater₂ hends hresolve hsettled' =>
    rw [hright] at hends
    cases result with
    | error exit m₂ => exact absurd rfl (hends _ _)
    | ok u m₂ =>
      obtain ⟨rfl, hworld⟩ := EStateM.Result.ok.inj (Eq.symm hends)
      rw [Eval.bind_eq hexec]
      exact decision_constant hbridge hsound hshows hcondition hright hlater href hy hsettled
        hlater₂ hworld hresolve hsettled' hreads hz hcond hsame rounds

variable (hx : m₁.tree.kind? x = some (.cond form)) (hcond : form.cond = y)
  (hoperand : form.readsOperand = true)

include hbridge htends hsound hshows hcondition hright hlater href hy hsettled hx hcond hoperand in
/-- Without a comparator for the operand the form is given up. -/
theorem decision_demoted (rounds : Nat) :
    Decision calls alike exec m x (.compare .eq left right span)
      ((Eval.edit (Edit.installGeneric x) >>= fun generic ↦
        Eval.finishComparison exec (Eval.resume exec (rounds + 1)) generic v) m₁) := by
  have hready := hsound.ready
  obtain ⟨t', new, hinstall, hlater₁, hnew, hreads, hspares⟩ :=
    (hready.later hlater).generalized (hshows.later hready hlater) hx (Or.inr hoperand)
  obtain ⟨x', form', hx', hform, _, hcond'⟩ := id hreads
  obtain rfl := Except.ok.inj (hnew.symm.trans hx')
  rw [hcond] at hreads hspares hcond'
  rw [Eval.bind_eq hinstall]
  exact decision_finish hbridge htends hsound hshows hcondition hright (hlater.trans hlater₁) href
    (hspares.intact.kind?_eq hy) (hsettled.later (hspares.child hy (List.mem_cons_self ..))) hreads
    hform hcond' ((Tree.resolve_of_kind? hform).trans hnew.symm) rounds

include hbridge htends hsound hshows hcondition hright hlater href hy hsettled hx hcond hoperand in
/-- Going on with the operand of a comparison. -/
theorem decision_adapted (rounds : Nat) :
    Decision calls alike exec m x (.compare .eq left right span)
      (Eval.resume exec (rounds + 2) x v m₁) := by
  have hready := hsound.ready
  have hshows₁ := hshows.later hready hlater
  have hdemoted := decision_demoted hbridge htends hsound hshows hcondition hright hlater href hy
    hsettled hx hcond hoperand rounds
  obtain ⟨n, hn, hkind⟩ := Tree.kind?_eq_some_iff.mp hx
  obtain ⟨n', hn', hkind'⟩ := Tree.kind?_eq_some_iff.mp (hcond.symm ▸ hy)
  rw [Eval.resume_ask (Tree.resolve_of_node? hn) hn hkind (Tree.kind_eq hn')]
  cases form with
  | const c' b e s' =>
    obtain ⟨s₁, hconstant, hconst, _⟩ := hshows₁.exists_constant hlater.sound hx hcondition hoperand
    obtain rfl := scalar_eq_of_constantTested? hconstant hright m.world
    obtain rfl := hconst s' rfl
    cases hshapes : Comparator.forShapes? v s' with
    | none =>
      have hplan : Transition.forConditional (.const c' b e s') (some n'.kind) v = .demote := by
        simp [Transition.forConditional, hshapes]
      rw [hplan]
      exact hdemoted
    | some comparator =>
      have hplan : Transition.forConditional (.const c' b e s') (some n'.kind) v =
          .specialize comparator := by
        simp [Transition.forConditional, hshapes]
      obtain ⟨t', new, hinstall, hlater₁, hnew, hreads, hspares⟩ :=
        (hready.later hlater).specialized hshows₁ hx rfl hshapes
      obtain ⟨x', form', hx', hform, _⟩ := id hreads
      obtain rfl := Except.ok.inj (hnew.symm.trans hx')
      obtain ⟨truth, hanswer⟩ := Comparator.exists_answer? hshapes
      rw [hcond] at hreads hspares
      rw [hplan]
      show Decision _ _ _ _ _ _ ((Eval.edit (Edit.installSpecialized x comparator) >>= _) m₁)
      rw [Eval.bind_eq hinstall, Eval.compareSpecialized_eq hanswer hform]
      exact decision_compared hbridge hright (hlater.trans hlater₁) href
        (hspares.intact.kind?_eq hy) (hsettled.later (hspares.child hy (List.mem_cons_self ..)))
        hreads hshapes hanswer ((Tree.resolve_of_kind? hform).trans hnew.symm)
  | specialized => exact hdemoted
  | _ => cases hoperand

include hbridge htends hsound hshows hcondition hright hlater href hy hsettled hx hcond hoperand in
/-- What follows when the operand has been evaluated. -/
theorem decision_operated : Decision calls alike exec m x (.compare .eq left right span)
    ((match form.sense with
      | .specialized comparator => Eval.compareSpecialized exec (Eval.settle exec) x comparator v
      | _ => Eval.settle exec x v : Eval Value) m₁) := by
  have hready := hsound.ready
  have hadapted : Decision calls alike exec m x (.compare .eq left right span)
      (Eval.settle exec x v m₁) := by
    rw [Eval.settle_eq]
    exact decision_adapted hbridge htends hsound hshows hcondition hright hlater href hy hsettled hx
      hcond hoperand _
  obtain ⟨s₁, hconstant, _, hshapes⟩ :=
    (hshows.later hready hlater).exists_constant hlater.sound hx hcondition hoperand
  obtain rfl := scalar_eq_of_constantTested? hconstant hright m.world
  have hreads := hcond ▸ Tree.Reads.of_kind? hx
  cases hsense : form.sense with
  | specialized comparator =>
    obtain ⟨seen, hseen⟩ := hshapes comparator hsense
    dsimp only
    cases hanswer : comparator.answer? v with
    | none =>
      unfold Eval.compareSpecialized Comparator.compare
      rw [hanswer]
      exact hadapted
    | some truth =>
      rw [Eval.compareSpecialized_eq hanswer hx]
      exact decision_compared hbridge hright hlater href hy hsettled (hsense ▸ hreads) hseen hanswer
        rfl
  | _ => exact hadapted

end Operand

section Condition

variable (hbridge : Bridge alike callee fault) (htends : Tends calls alike exec)
  (hsound : m.Sound calls) (hshows : Shows calls (fun _ ↦ False) m.tree x part)
  (hcondition : part.condition? = some c) (hx : m.tree.kind? x = some (.cond form))

include hbridge htends hsound hshows hcondition hx

theorem decision_operand (hoperand : form.readsOperand = true) :
    Decision calls alike exec m x c (Eval.conditional exec x form m) := by
  have hready := hsound.ready
  have hforest := hsound.forest
  have hoperand' : form.sense.readsOperand = true := form.readsOperand_sense.trans hoperand
  obtain ⟨s, hconstant, _, hcomparator⟩ := hshows.exists_constant hsound hx hcondition hoperand
  obtain ⟨left, right, span, rfl, hright, htest⟩ := Reference.test_of_constant hconstant
  have hvalue := hshows.reads_value hforest hcondition (Tree.Reads.of_kind? hx) hoperand'
  obtain ⟨ky, hky⟩ := hforest.kind?_cond hx
  obtain ⟨l, r, rfl, hleft, _⟩ := hvalue.exists_compare hforest hky
  have hl : m.tree.Names form.cond l :=
    Tree.names_iff_kind?.mpr ⟨_, hky, by simp [NodeKind.children]⟩
  obtain ⟨kl, hkl⟩ := hforest.exists_kind? hl
  have htended := htends hsound hkl hleft
  rw [Eval.conditional_operand hoperand, Eval.bind_eq (Eval.comparison_eq_of_kind? hky)]
  revert htended
  generalize hexec : exec l m = result
  intro htended
  cases htended with
  | tooDeep =>
    rw [Eval.bind_error_eq hexec]
    exact .tooDeep
  | @done _ l' hlater hends hresolve hsettled =>
    have hlater₁ := hlater.unconfined
    have hplain : form.isBuiltinTail = false := by
      cases form <;> first | rfl | cases hoperand
    have hkeeps := hlater.adapts.keeps hforest hx
      (Or.inr ⟨⟨⟨_, hx⟩, hforest.not_reaches_above (Tree.names_cond hx) hl⟩, hplain⟩)
    obtain ⟨y, hy, hreads⟩ := hkeeps.reads
    obtain ⟨ids, hx₁, _⟩ := hkeeps
    obtain ⟨lr, hcompare, hfollowed⟩ := hlater.adapts.keeps hforest hky (Or.inl rfl)
    obtain ⟨l'', r', rfl⟩ := List.length_eq_two.mp (Tree.Keeps.length_eq hfollowed)
    obtain rfl := Except.ok.inj (hresolve.symm.trans (hfollowed.head rfl rfl))
    have hy₁ : (machineOf result).tree.kind? form.cond = some (.compare .eq l' r') := hcompare
    obtain rfl := Except.ok.inj ((Tree.resolve_of_kind? hy₁).symm.trans hy)
    cases result with
    | error exit m₁ =>
      rw [Eval.bind_error_eq hexec]
      refine .failed hlater₁ hreads (decides_operand hbridge hoperand' rfl hy₁ hsettled
        fun v w' href ↦ absurd href (hends v w')) fun truth w' href ↦ ?_
      rw [htest] at href
      cases hexpr : Reference.expr left m.world with
      | ok v w₁ => exact hends v w₁ hexpr
      | error halt w₁ =>
        rw [Reference.bind_error_eq hexpr] at href
        cases href
    | ok v m₁ =>
      obtain ⟨x', form₁, hx', hform₁, hsense, hcond⟩ := hreads
      obtain rfl := Except.ok.inj ((Tree.resolve_of_kind? hx₁).symm.trans hx')
      rw [Eval.bind_eq hexec, ← hsense]
      rw [← hsense, form₁.readsOperand_sense] at hoperand'
      exact decision_operated hbridge htends hsound hshows hcondition hright hlater₁ hends hy₁
        hsettled hform₁ hcond hoperand'

/-- Whatever the form, one evaluation of the condition is enough. -/
theorem decision_conditional :
    Decision calls alike exec m x c (Eval.conditional exec x form m) := by
  cases hoperand : form.readsOperand with
  | true => exact decision_operand hbridge htends hsound hshows hcondition hx hoperand
  | false =>
    obtain ⟨k, hk⟩ := hsound.forest.kind?_cond hx
    cases hplain : k.isConversion with
    | false =>
      exact decision_plain hbridge htends hsound hshows hcondition hx hoperand hk hplain
    | true =>
      cases k with
      | convert => exact decision_convert hbridge htends hsound hshows hcondition hx hoperand hk
      | _ => cases hplain

end Condition

end AdaptiveTree
