import AdaptiveTree.Proofs.Machine.Sound
import AdaptiveTree.Proofs.Reading.Shows
import AdaptiveTree.Proofs.Reference.Statements

/-!
Evaluation on the machine beside its reference. An evaluation follows the reference if it leaves
a sound, adapted machine and, unless it was nested too deep, ends as the reference does and in
the same world. Evaluations that follow their references can be put one after the other.
-/

set_option autoImplicit false
set_option relaxedAutoImplicit false

namespace AdaptiveTree

open Machine (Later Sound)

/-- How evaluation in a machine ends, for a reference that ends as given. What a result means to
the reference is told by `agrees`. -/
inductive Follows {α β : Type} (calls : NodeId → Span) (busy : NodeId → Prop)
    (agrees : EStateM.Result Halt World β → α → World → Prop) (m : Machine)
    (reference : EStateM.Result Halt World β) : EStateM.Result Exit Machine α → Prop
  | ok {a : α} {m' : Machine} (hlater : Later calls busy m m')
      (hagrees : agrees reference a m'.world) : Follows calls busy agrees m reference (.ok a m')
  | error {halt : Halt} {m' : Machine} (hlater : Later calls busy m m')
      (href : reference = .error halt m'.world) :
    Follows calls busy agrees m reference (.error halt.exit m')
  | tooDeep {span : Span} {m' : Machine} (hlater : Later calls busy m m') :
    Follows calls busy agrees m reference (.error (.tooDeep span) m')

/-- The machine in which an evaluation ends. -/
def machineOf {α : Type} : EStateM.Result Exit Machine α → Machine
  | .ok _ m => m
  | .error _ m => m

/-- The result is the reference's. -/
def Same {α : Type} (reference : EStateM.Result Halt World α) (a : α) (w : World) : Prop :=
  reference = .ok a w

/-- What is left to do about a condition: nothing if its truth is known, and else to reduce the
value observed to its truth. -/
def Sensed {α : Type} (e : Expr) (truth : α → Logical)
    (reference : EStateM.Result Halt World Logical) (s : Speculation α) (w : World) : Prop :=
  match s with
  | .hit a => reference = .ok (truth a) w
  | .miss v => reference = Reference.truth e.span v w ∧ Reference.Admits e v

namespace Follows

variable {α β γ δ : Type} {calls : NodeId → Span} {busy busy' : NodeId → Prop}
  {agrees : EStateM.Result Halt World β → α → World → Prop} {m m₁ m' : Machine}
  {reference : EStateM.Result Halt World β} {result : EStateM.Result Exit Machine α}

theorem raised {cause : Fault} {span : Span} (hlater : Later calls busy m m')
    (href : reference = .error (.raised cause span) m'.world) :
    Follows calls busy agrees m reference
      (.error (.raised cause span) m' : EStateM.Result Exit Machine α) :=
  .error hlater href

theorem returned {v : Value} (hlater : Later calls busy m m')
    (href : reference = .error (.returned v) m'.world) :
    Follows calls busy agrees m reference
      (.error (.returned v) m' : EStateM.Result Exit Machine α) :=
  .error hlater href

/-- An evaluation may begin in a later machine. -/
theorem after (hlater : Later calls busy m m₁)
    (h : Follows calls busy agrees m₁ reference result) :
    Follows calls busy agrees m reference result := by
  cases h with
  | ok hlater' hagrees => exact .ok (hlater.trans hlater') hagrees
  | error hlater' href => exact .error (hlater.trans hlater') href
  | tooDeep hlater' => exact .tooDeep (hlater.trans hlater')

theorem later (h : Follows calls busy agrees m reference result) :
    Later calls busy m (machineOf result) := by
  cases h with
  | ok hlater _ | error hlater _ | tooDeep hlater => exact hlater

theorem pure {a : α} (h : m.Sound calls) :
    Follows calls busy Same m ((Pure.pure a : Reference.Run α) m.world)
      ((Pure.pure a : Eval α) m) :=
  .ok (.refl h) rfl

/-- The second evaluation begins where the first one ends. More nodes may be busy during the
first one. -/
theorem bind_inside {x : Eval γ} {rx : Reference.Run γ} {f : γ → Eval α}
    {g : γ → Reference.Run β} (hbusy : ∀ y, busy y → busy' y)
    (hx : Follows calls busy' Same m (rx m.world) (x m))
    (hf : ∀ a m₁, Later calls busy' m m₁ → rx m.world = .ok a m₁.world →
      Follows calls busy agrees m₁ (g a m₁.world) (f a m₁)) :
    Follows calls busy agrees m ((rx >>= g) m.world) ((x >>= f) m) := by
  show Follows calls busy agrees m (EStateM.bind rx g m.world) (EStateM.bind x f m)
  unfold EStateM.bind
  revert hx
  generalize x m = result
  intro hx
  cases hx with
  | @ok a m₁ hlater hagrees =>
    have href : rx m.world = .ok a m₁.world := hagrees
    rw [href]
    exact (hf a m₁ hlater href).after (hlater.mono hbusy)
  | error hlater href =>
    rw [href]
    exact .error (hlater.mono hbusy) rfl
  | tooDeep hlater => exact .tooDeep (hlater.mono hbusy)

theorem bind {x : Eval γ} {rx : Reference.Run γ} {f : γ → Eval α} {g : γ → Reference.Run β}
    (hx : Follows calls busy Same m (rx m.world) (x m))
    (hf : ∀ a m₁, Later calls busy m m₁ → rx m.world = .ok a m₁.world →
      Follows calls busy agrees m₁ (g a m₁.world) (f a m₁)) :
    Follows calls busy agrees m ((rx >>= g) m.world) ((x >>= f) m) :=
  bind_inside (fun _ hy ↦ hy) hx hf

/-- What is done about a condition begins where its evaluation ends. -/
theorem bind_sensed {x : Eval (Speculation γ)} {rx : Reference.Run Logical} {e : Expr}
    {truth : γ → Logical} {f : Speculation γ → Eval α} {g : Logical → Reference.Run β}
    (hx : Follows calls busy (Sensed e truth) m (rx m.world) (x m))
    (hhit : ∀ a m₁, Later calls busy m m₁ →
      Follows calls busy agrees m₁ (g (truth a) m₁.world) (f (.hit a) m₁))
    (hmiss : ∀ v m₁, Later calls busy m m₁ → Reference.Admits e v →
      Follows calls busy agrees m₁ ((Reference.truth e.span v >>= g) m₁.world)
        (f (.miss v) m₁)) :
    Follows calls busy agrees m ((rx >>= g) m.world) ((x >>= f) m) := by
  show Follows calls busy agrees m (EStateM.bind rx g m.world) (EStateM.bind x f m)
  unfold EStateM.bind
  revert hx
  generalize x m = result
  intro hx
  cases hx with
  | @ok s m₁ hlater hagrees =>
    cases s with
    | hit a =>
      have href : rx m.world = .ok (truth a) m₁.world := hagrees
      rw [href]
      exact (hhit a m₁ hlater).after hlater
    | miss v =>
      obtain ⟨href, hadmits⟩ : rx m.world = Reference.truth e.span v m₁.world ∧
        Reference.Admits e v := hagrees
      rw [href]
      exact (hmiss v m₁ hlater hadmits).after hlater
  | error hlater href =>
    rw [href]
    exact .error hlater rfl
  | tooDeep hlater => exact .tooDeep hlater

end Follows

/-! ### Single steps -/

namespace Eval

variable {α β : Type} {m m' : Machine}

theorem bind_eq {x : Eval α} {f : α → Eval β} {a : α} (h : x m = .ok a m') :
    (x >>= f) m = f a m' := by
  show EStateM.bind x f m = f a m'
  rw [EStateM.bind, h]

theorem bind_error_eq {x : Eval α} {f : α → Eval β} {exit : Exit} (h : x m = .error exit m') :
    (x >>= f) m = .error exit m' := by
  show EStateM.bind x f m = _
  rw [EStateM.bind, h]

theorem ask_eq {question : Tree → Except TreeError α} {a : α} (h : question m.tree = .ok a) :
    ask question m = .ok a m := by
  rw [ask, h]

theorem edit_eq {e : Edit α} {a : α} {t' : Tree} (h : e m.tree = .ok a t') :
    edit e m = .ok a { m with tree := t' } := by
  rw [edit, h]

end Eval

/-- A sound machine in which only nodes of its tree are being evaluated. -/
structure Ready (calls : NodeId → Span) (busy : NodeId → Prop) (m : Machine) : Prop where
  sound : m.Sound calls
  bounded : ∀ x, busy x → x < m.tree.slots.size

theorem Machine.Sound.ready {calls : NodeId → Span} {m : Machine} (h : m.Sound calls) :
    Ready calls (fun _ ↦ False) m :=
  ⟨h, fun _ hb ↦ hb.elim⟩

namespace Ready

variable {calls : NodeId → Span} {busy busy' : NodeId → Prop} {m m' : Machine}

theorem later (h : Ready calls busy m) (hlater : Later calls busy' m m') :
    Ready calls busy m' where
  sound := hlater.sound
  bounded := fun x hx ↦
    Nat.lt_of_lt_of_le (h.bounded x hx) (hlater.adapts.evolves h.sound.forest).size_le

theorem inside (h : Ready calls busy m) {x : NodeId} {n : Node} (hx : m.tree.node? x = some n) :
    Ready calls (Shows.inside busy x) m where
  sound := h.sound
  bounded := fun y hy ↦ hy.elim (h.bounded y) fun heq ↦ heq ▸ Tree.lt_size_of_node? hx

end Ready

namespace Shows

variable {calls : NodeId → Span} {busy : NodeId → Prop} {m : Machine} {id : NodeId}
  {part : Part}

/-- The place known for a node is that of what it shows. -/
theorem spanOf_eq (h : Shows calls busy m.tree id part) : m.spanOf id = part.span := by
  obtain ⟨x, n, hresolve, hnode, hspan⟩ := h.exists_node?
  unfold Machine.spanOf
  rw [hresolve]
  dsimp only
  rw [Tree.span_eq hnode]
  exact hspan

theorem fail_eq {α : Type} (h : Shows calls busy m.tree id part) (cause : Fault) :
    (Eval.fail id cause : Eval α) m = .error (.raised cause part.span) m := by
  rw [Eval.fail, h.spanOf_eq]

/-- What a node shows is not changed by evaluation. -/
theorem later {m' : Machine} {busy' : NodeId → Prop} (h : Shows calls busy m.tree id part)
    (hready : Ready calls busy m) (hlater : Machine.Later calls busy' m m') :
    Shows calls busy m'.tree id part :=
  h.adapts hready.sound.forest hready.bounded hlater.adapts

end Shows

end AdaptiveTree
