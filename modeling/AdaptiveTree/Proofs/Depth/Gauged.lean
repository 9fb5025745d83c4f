import AdaptiveTree.Proofs.Depth.Levels
import AdaptiveTree.Proofs.Simulation.Limits
import AdaptiveTree.Proofs.Tree.Operands

/-!
Evaluations gauged by the levels that they need. One that overflows would have needed more than
the limit even if the forms left out nothing, and one that does not overflow needs no more than the
limit where they leave out the most. Gauged evaluations can be put one after the other.
-/

set_option autoImplicit false
set_option relaxedAutoImplicit false

namespace AdaptiveTree

open Machine (Later)

/-- The numbers of levels that an evaluation needs, depending on what the forms leave out, are
bounds for whether it overflows. -/
structure Gauged {α : Type} (operands : Bool) (limit : Nat) (needs : Forms → Nat)
    (result : EStateM.Result Exit Machine α) : Prop where
  exceeds : Eval.Overflows result → limit < needs .most
  fits : ¬ Eval.Overflows result → needs (.least operands) ≤ limit

namespace Eval

/-- The computation never overflows. -/
def Shallow {α : Type} (x : Eval α) : Prop := ∀ m, ¬ Overflows (x m)

theorem not_overflows_ok {α : Type} (a : α) (m : Machine) :
    ¬ Overflows (.ok a m : EStateM.Result Exit Machine α) := fun ⟨_, _, h⟩ ↦ nomatch h

theorem not_overflows_raised {α : Type} (cause : Fault) (span : Span) (m : Machine) :
    ¬ Overflows (.error (.raised cause span) m : EStateM.Result Exit Machine α) :=
  fun ⟨_, _, h⟩ ↦ nomatch h

namespace Shallow

variable {α β : Type} {x : Eval α}

theorem pure (a : α) : Shallow (Pure.pure a) := fun m ↦ not_overflows_ok a m

theorem fail (node : NodeId) (cause : Fault) : Shallow (Eval.fail node cause : Eval α) :=
  fun m ↦ not_overflows_raised cause (m.spanOf node) m

theorem bind {f : α → Eval β} (hx : Shallow x) (hf : ∀ a, Shallow (f a)) :
    Shallow (x >>= f) := by
  intro m hoverflows
  cases hresult : x m with
  | ok a m₁ =>
    rw [bind_eq hresult] at hoverflows
    exact hf a m₁ hoverflows
  | error exit m₁ =>
    obtain ⟨span, m', h⟩ := hoverflows
    rw [bind_error_eq hresult] at h
    obtain ⟨rfl, rfl⟩ := EStateM.Result.error.inj h
    exact hx m ⟨span, m₁, hresult⟩

theorem ofResult (node : NodeId) (result : Except Fault α) :
    Shallow (Eval.ofResult node result) := by
  cases result with
  | ok a => exact pure a
  | error cause => exact fail node cause

theorem get : Shallow (MonadState.get : Eval Machine) := fun m ↦ not_overflows_ok m m

theorem callHost (node : NodeId) (f : Definition) (args : List Value) :
    Shallow (Eval.callHost node f args) := by
  intro m
  exact ofResult node (m.callHost f args).1 (m.callHost f args).2

theorem assign (name : String) (v : Value) : Shallow (Eval.assign name v) := by
  intro m
  unfold Eval.assign
  rcases m.bindValue name v with ⟨_ | _, m'⟩
  · exact not_overflows_raised _ _ m'
  · exact not_overflows_ok () m'

theorem read (node : NodeId) (name : String) : Shallow (Eval.read node name) := by
  refine get.bind fun m ↦ ?_
  rcases m.frame.value? name with _ | v
  · exact fail node _
  · exact pure v

theorem lookupCallee (node : NodeId) (name : String) : Shallow (Eval.lookupCallee node name) := by
  refine get.bind fun m ↦ ?_
  rcases m.frame.get? name with _ | ⟨v⟩ | ⟨f⟩
  · rcases Builtin.lookup? name with _ | b
    · exact fail node _
    · exact pure _
  · exact fail node _
  · exact pure _

theorem convertObserved (node : NodeId) (v : Value) : Shallow (Eval.convertObserved node v) := by
  unfold Eval.convertObserved
  rcases v.truth? with _ | ⟨l, _ | length⟩
  · exact fail node _
  · exact pure l
  · exact fun m ↦ not_overflows_ok l _

theorem edit (e : Edit α) : Shallow (Eval.edit e) := by
  intro m
  unfold Eval.edit
  rcases e m.tree with ⟨a, t⟩ | ⟨err, t⟩
  · exact not_overflows_ok a _
  · exact not_overflows_raised _ _ _

end Shallow

end Eval

namespace Gauged

variable {α β γ : Type} {operands : Bool} {limit : Nat} {needs needs' : Forms → Nat}
  {result : EStateM.Result Exit Machine α} {calls : NodeId → Span} {busy : NodeId → Prop}
  {m : Machine}

theorem of_fits (hfits : ¬ Eval.Overflows result) (hneeds : needs (.least operands) ≤ limit) :
    Gauged operands limit needs result :=
  ⟨fun hoverflows ↦ absurd hoverflows hfits, fun _ ↦ hneeds⟩

theorem of_shallow {x : Eval α} (hx : x.Shallow) : Gauged operands limit (fun _ ↦ 0) (x m) :=
  .of_fits (hx m) (Nat.zero_le _)

theorem weaken (h : Gauged operands limit needs result)
    (hleast : needs' (.least operands) ≤ needs (.least operands))
    (hmost : needs .most ≤ needs' .most) : Gauged operands limit needs' result :=
  ⟨fun hoverflows ↦ Nat.lt_of_lt_of_le (h.exceeds hoverflows) hmost,
    fun hfits ↦ Nat.le_trans hleast (h.fits hfits)⟩

/-- One more level for the node around. -/
theorem succ (h : Gauged operands limit needs result) :
    Gauged operands (limit + 1) (fun g ↦ needs g + 1) result :=
  ⟨fun hoverflows ↦ Nat.succ_lt_succ (h.exceeds hoverflows),
    fun hfits ↦ Nat.succ_le_succ (h.fits hfits)⟩

/-- The second evaluation is gauged where the first one comes to a result; where that fails, the
second one needs nothing. -/
theorem bind_of {x : Eval α} {f : α → Eval β} (hx : Gauged operands limit needs (x m))
    (hok : ∀ a m₁, x m = .ok a m₁ → needs (.least operands) ≤ limit →
      Gauged operands limit needs' (f a m₁))
    (herror : ∀ exit m₁, x m = .error exit m₁ → ¬ Eval.Overflows (x m) →
      needs' (.least operands) = 0) :
    Gauged operands limit (fun g ↦ max (needs g) (needs' g)) ((x >>= f) m) := by
  cases hresult : x m with
  | ok a m₁ =>
    rw [Eval.bind_eq hresult]
    have hfits := hx.fits (hresult ▸ Eval.not_overflows_ok a m₁)
    have hnext := hok a m₁ hresult hfits
    exact ⟨fun hoverflows ↦ Nat.lt_of_lt_of_le (hnext.exceeds hoverflows) (Nat.le_max_right ..),
      fun hfits' ↦ Nat.max_le.mpr ⟨hfits, hnext.fits hfits'⟩⟩
  | error exit m₁ =>
    rw [Eval.bind_error_eq hresult]
    constructor
    · rintro ⟨span, m', h⟩
      obtain ⟨rfl, rfl⟩ := EStateM.Result.error.inj h
      exact Nat.lt_of_lt_of_le (hx.exceeds ⟨span, m₁, hresult⟩) (Nat.le_max_left ..)
    · intro hfits
      have hfits' : ¬ Eval.Overflows (x m) := by
        rintro ⟨span, m', h⟩
        obtain ⟨rfl, rfl⟩ := EStateM.Result.error.inj (hresult.symm.trans h)
        exact hfits ⟨span, m₁, rfl⟩
      rw [herror exit m₁ hresult hfits']
      exact Nat.max_le.mpr ⟨hx.fits hfits', Nat.zero_le _⟩

/-- What is done with the result of an evaluation, if it needs no levels. -/
theorem before {x : Eval α} {f : α → Eval β} (hx : Gauged operands limit needs (x m))
    (hf : ∀ a, (f a).Shallow) : Gauged operands limit needs ((x >>= f) m) := by
  have hboth : Gauged operands limit (fun g ↦ max (needs g) 0) ((x >>= f) m) :=
    hx.bind_of (fun a m₁ _ _ ↦ .of_shallow (hf a)) fun _ _ _ _ ↦ rfl
  simpa using hboth

theorem bind {x : Eval α} {f : α → Eval β} {rx : Reference.Run α}
    {next : α → World → Forms → Nat}
    (hfollows : Follows calls busy Same m (rx m.world) (x m))
    (hx : Gauged operands limit needs (x m))
    (hnext : ∀ a m₁, Later calls busy m m₁ → rx m.world = .ok a m₁.world →
      needs (.least operands) ≤ limit → Gauged operands limit (next a m₁.world) (f a m₁)) :
    Gauged operands limit
      (fun g ↦ max (needs g) (Reference.after (fun a w ↦ next a w g) (rx m.world)))
      ((x >>= f) m) := by
  refine hx.bind_of (fun a m₁ hresult hfits ↦ ?_) fun exit m₁ hresult hfits ↦ ?_
  · rw [hresult] at hfollows
    cases hfollows with
    | ok hlater hagrees =>
      have href : rx m.world = .ok a m₁.world := hagrees
      rw [href]
      exact hnext a m₁ hlater href hfits
  · rw [hresult] at hfollows
    cases hfollows with
    | error hlater href => rw [href]; rfl
    | tooDeep hlater => exact absurd ⟨_, _, hresult⟩ hfits

/-- The first computation needs no levels. -/
theorem behind {x : Eval α} {f : α → Eval β} {rx : Reference.Run α}
    {next : α → World → Forms → Nat}
    (hfollows : Follows calls busy Same m (rx m.world) (x m)) (hx : x.Shallow)
    (hnext : ∀ a m₁, Later calls busy m m₁ → rx m.world = .ok a m₁.world →
      Gauged operands limit (next a m₁.world) (f a m₁)) :
    Gauged operands limit
      (fun g ↦ Reference.after (fun a w ↦ next a w g) (rx m.world)) ((x >>= f) m) := by
  have hfirst : Gauged operands limit (fun _ ↦ 0) (x m) := of_shallow hx
  have hboth := bind hfollows hfirst fun a m₁ hlater href _ ↦ hnext a m₁ hlater href
  simpa using hboth

/-- What is left to do about a condition is gauged by what its truth leads to. -/
theorem bind_sensed {x : Eval (Speculation γ)} {c : Expr} {truth : γ → Logical}
    {f : Speculation γ → Eval β} {next : Logical → World → Forms → Nat}
    (hfollows : Follows calls busy (Sensed c truth) m (Reference.test c m.world) (x m))
    (hx : Gauged operands limit needs (x m))
    (hhit : ∀ a m₁, Later calls busy m m₁ → needs (.least operands) ≤ limit →
      Gauged operands limit (next (truth a) m₁.world) (f (.hit a) m₁))
    (hmiss : ∀ v m₁, Later calls busy m m₁ → Reference.Admits c v →
      needs (.least operands) ≤ limit → Gauged operands limit
        (fun g ↦ Reference.after (fun l w ↦ next l w g) (Reference.truth c.span v m₁.world))
        (f (.miss v) m₁)) :
    Gauged operands limit
      (fun g ↦ max (needs g) (Reference.after (fun l w ↦ next l w g) (Reference.test c m.world)))
      ((x >>= f) m) := by
  refine hx.bind_of (fun s m₁ hresult hfits ↦ ?_) fun exit m₁ hresult hfits ↦ ?_
  · rw [hresult] at hfollows
    cases hfollows with
    | ok hlater hagrees =>
      cases s with
      | hit a =>
        have href : Reference.test c m.world = .ok (truth a) m₁.world := hagrees
        rw [href]
        exact hhit a m₁ hlater hfits
      | miss v =>
        obtain ⟨href, hadmits⟩ : Reference.test c m.world = Reference.truth c.span v m₁.world ∧
          Reference.Admits c v := hagrees
        rw [href]
        exact hmiss v m₁ hlater hadmits hfits
  · rw [hresult] at hfollows
    cases hfollows with
    | error hlater href => rw [href]; rfl
    | tooDeep hlater => exact absurd ⟨_, _, hresult⟩ hfits

end Gauged

/-! ### What is being evaluated -/

/-- A sound machine in which only nodes of its tree are being evaluated, and in which no
conditional that reads an operand can be met unless there are to be some. -/
structure Poised (operands : Bool) (calls : NodeId → Span) (busy : NodeId → Prop) (m : Machine) :
    Prop where
  ready : Ready calls busy m
  forms : operands = false → ∀ x, m.tree.ReadsOperand x → m.tree.Occupied busy x

namespace Poised

variable {operands : Bool} {calls : NodeId → Span} {busy busy' : NodeId → Prop} {m m' : Machine}
  {x : NodeId} {n : Node}

theorem later (h : Poised operands calls busy m) (hlater : Later calls busy' m m') :
    Poised operands calls busy m' where
  ready := h.ready.later hlater
  forms := fun hoff ↦ by
    have hforest := h.ready.sound.forest
    have hevolves := hlater.adapts.evolves hforest
    exact (hlater.adapts.inherited hforest).occupied hevolves.persists hevolves.forest.ascending
      (h.forms hoff)

theorem inside (h : Poised operands calls busy m) (hx : m.tree.node? x = some n) :
    Poised operands calls (Shows.inside busy x) m where
  ready := h.ready.inside hx
  forms := fun hoff y hy ↦ (h.forms hoff y hy).mono fun _ hb ↦ Or.inl hb

/-- A conditional that reads an operand is met only where there are to be some. -/
theorem operands_eq (h : Poised operands calls busy m) {part : Part}
    (hshows : Shows calls busy m.tree x part) (hnode : m.tree.node? x = some n)
    {form : Conditional} (hkind : n.kind = .cond form) (hreads : form.readsOperand = true) :
    operands = true := by
  by_contra hoff
  refine hshows.not_occupied hnode (h.forms (Bool.eq_false_iff.mpr hoff) x ⟨n, hnode, ?_⟩)
  rw [hkind]
  exact hreads

end Poised

/-- Nested evaluations under a limit are gauged by the levels of what they evaluate. -/
structure Gauges (operands : Bool) (calls : NodeId → Span) (limit : Nat) (exec : Evaluator) :
    Prop where
  value : ∀ {busy : NodeId → Prop} {m : Machine} {id : NodeId} {e : Expr},
    Poised operands calls busy m → Shows calls busy m.tree id (.value e) →
    Gauged operands limit (fun g ↦ Reference.levels g false e m.world) (exec id m)
  statements : ∀ {busy : NodeId → Prop} {m : Machine} {id : NodeId} {items : List Expr}
    {span : Span}, Poised operands calls busy m →
    Shows calls busy m.tree id (.statements items span) →
    Gauged operands limit (fun g ↦ Reference.statementLevels g items m.world + 1) (exec id m)
  tail : ∀ {busy : NodeId → Prop} {m : Machine} {id : NodeId} {e : Expr} {rest : List Expr}
    {t : Expr.ReturnTail} {restSpan : Span}, Poised operands calls busy m →
    e.returnTail? = some t → Shows calls busy m.tree id (.tail t rest restSpan e.span) →
    Gauged operands limit (fun g ↦ Reference.statementLevels g (e :: rest) m.world) (exec id m)

end AdaptiveTree
