import AdaptiveTree.Proofs.Reading.Located
import AdaptiveTree.Proofs.Simulation.Conditional

/-!
Evaluations whose warnings and failures have their places in one source. This is said of every way
in which an evaluation can end, also of one that was nested too deep, and such evaluations can be
put one after the other.
-/

set_option autoImplicit false
set_option relaxedAutoImplicit false

namespace AdaptiveTree

open Machine (Later)

/-- Only warnings with places in the source have been added. -/
def Machine.WarnsIn (source : String) (m m' : Machine) : Prop :=
  ∃ new : List Diagnostic, m'.warnings.toList = m.warnings.toList ++ new ∧
    ∀ d ∈ new, d.span.ValidIn source

namespace Machine.WarnsIn

variable {source : String} {m m' m'' : Machine} {node : NodeId}

theorem of_eq (h : m'.warnings = m.warnings) : m.WarnsIn source m' :=
  ⟨[], by rw [h, List.append_nil], nofun⟩

theorem trans (h : m.WarnsIn source m') (h' : m'.WarnsIn source m'') : m.WarnsIn source m'' := by
  obtain ⟨new, heq, hnew⟩ := h
  obtain ⟨new', heq', hnew'⟩ := h'
  refine ⟨new ++ new', by rw [heq', heq, List.append_assoc], ?_⟩
  exact List.forall_mem_append.mpr ⟨hnew, hnew'⟩

theorem warn (h : (m.spanOf node).ValidIn source) (code message : String) :
    m.WarnsIn source (m.warn node code message) :=
  ⟨_, Array.toList_push, List.forall_mem_singleton.mpr h⟩

end Machine.WarnsIn

/-- A failure has its place in the source. -/
def Exit.LocatedIn (source : String) : Exit → Prop
  | raised _ span | tooDeep span => span.ValidIn source
  | returned _ => True

/-- What evaluation in a machine comes to, for a node of a program with the given source. -/
structure Placed {α : Type} (source : String) (calls : NodeId → Span) (busy : NodeId → Prop)
    (m : Machine) (result : EStateM.Result Exit Machine α) : Prop where
  later : Later calls busy m (machineOf result)
  warns : m.WarnsIn source (machineOf result)
  exit : ∀ exit m', result = .error exit m' → exit.LocatedIn source

namespace Placed

variable {α β : Type} {source : String} {calls : NodeId → Span} {busy busy' : NodeId → Prop}
  {m m' : Machine} {result : EStateM.Result Exit Machine α}

theorem ok {a : α} (hlater : Later calls busy m m') (hwarns : m.WarnsIn source m') :
    Placed source calls busy m (.ok a m') :=
  ⟨hlater, hwarns, nofun⟩

theorem error {exit : Exit} (h : m.Sound calls) (hexit : exit.LocatedIn source) :
    Placed source calls busy m (.error exit m : EStateM.Result Exit Machine α) := by
  refine ⟨.refl h, .of_eq rfl, fun exit' m' heq ↦ ?_⟩
  obtain ⟨rfl, rfl⟩ := EStateM.Result.error.inj heq
  exact hexit

theorem pure {a : α} (h : m.Sound calls) :
    Placed source calls busy m ((Pure.pure a : Eval α) m) :=
  .ok (.refl h) (.of_eq rfl)

/-- An evaluation may begin in a later machine. -/
theorem after (hlater : Later calls busy m m') (hwarns : m.WarnsIn source m')
    (h : Placed source calls busy m' result) : Placed source calls busy m result :=
  ⟨hlater.trans h.later, hwarns.trans h.warns, h.exit⟩

/-- The second evaluation begins where the first one ends. More nodes may be busy during the
first one. -/
theorem bind_inside {x : Eval α} {f : α → Eval β} (hbusy : ∀ y, busy y → busy' y)
    (hx : Placed source calls busy' m (x m))
    (hf : ∀ a m₁, x m = .ok a m₁ → Later calls busy' m m₁ →
      Placed source calls busy m₁ (f a m₁)) :
    Placed source calls busy m ((x >>= f) m) := by
  cases hresult : x m with
  | ok a m₁ =>
    rw [hresult] at hx
    rw [Eval.bind_eq hresult]
    exact (hf a m₁ hresult hx.later).after (hx.later.mono hbusy) hx.warns
  | error exit m₁ =>
    rw [hresult] at hx
    rw [Eval.bind_error_eq hresult]
    refine ⟨hx.later.mono hbusy, hx.warns, fun exit' m' heq ↦ ?_⟩
    obtain ⟨rfl, rfl⟩ := EStateM.Result.error.inj heq
    exact hx.exit exit m₁ rfl

theorem bind {x : Eval α} {f : α → Eval β} (hx : Placed source calls busy m (x m))
    (hf : ∀ a m₁, x m = .ok a m₁ → Later calls busy m m₁ →
      Placed source calls busy m₁ (f a m₁)) :
    Placed source calls busy m ((x >>= f) m) :=
  bind_inside (fun _ hy ↦ hy) hx hf

/-- What is done with the result of an evaluation. -/
theorem before {x : Eval α} {f : α → β} (hx : Placed source calls busy m (x m)) :
    Placed source calls busy m ((x >>= fun a ↦ Pure.pure (f a)) m) :=
  hx.bind fun _ _ _ hlater ↦ .pure hlater.sound

end Placed

/-! ### Nodes -/

theorem Part.LocatedIn.condition {source : String} {part : Part} {c : Expr}
    (h : part.LocatedIn source) (hcondition : part.condition? = some c) : c.Located source := by
  cases part with
  | value e =>
    cases e with
    | ifThen | ifElse =>
      obtain rfl := Option.some.inj hcondition
      obtain ⟨-, hc, -⟩ := Expr.Located.spread h
      exact hc
    | _ => cases hcondition
  | tail t rest restSpan span =>
    obtain rfl := Option.some.inj hcondition
    exact h.1.cond
  | _ => cases hcondition

/-- The node stands for something that is located in the source. -/
def ShowsIn (source : String) (calls : NodeId → Span) (busy : NodeId → Prop) (t : Tree)
    (id : NodeId) : Prop :=
  ∃ part : Part, part.LocatedIn source ∧ Shows calls busy t id part

namespace ShowsIn

variable {source : String} {calls : NodeId → Span} {busy : NodeId → Prop} {m m' : Machine}
  {id x : NodeId} {n : Node}

theorem later (h : ShowsIn source calls busy m.tree id) (hready : Ready calls busy m)
    {busy' : NodeId → Prop} (hlater : Later calls busy' m m') :
    ShowsIn source calls busy m'.tree id :=
  let ⟨part, hpart, hshows⟩ := h
  ⟨part, hpart, hshows.later hready hlater⟩

theorem validIn (h : ShowsIn source calls busy m.tree id) : (m.spanOf id).ValidIn source := by
  obtain ⟨part, hpart, hshows⟩ := h
  rw [hshows.spanOf_eq]
  exact hpart.valid

/-- The node that is found in the place of the given one, with its children. -/
theorem children (h : ShowsIn source calls busy m.tree id) (hready : Ready calls busy m) :
    ∃ x n, m.tree.resolve id = .ok x ∧ m.tree.node? x = some n ∧
      ShowsIn source calls busy m.tree x ∧
      ∀ c ∈ n.kind.children, ShowsIn source calls busy m.tree c := by
  obtain ⟨part, hpart, hshows⟩ := h
  obtain ⟨x, n, parts, hresolve, hnode, _, hfits, hbelow⟩ := hshows.children hready.sound.forest
  refine ⟨x, n, hresolve, hnode, ⟨part, hpart, hshows.resolved hresolve⟩, fun c hc ↦ ?_⟩
  obtain ⟨p, hp⟩ := Shows.exists_zip hfits.length_eq hc
  exact ⟨p, hfits.locatedIn hpart p (List.of_mem_zip hp).2, (hbelow _ hp).outside⟩

/-- A conditional shows something that has a condition. -/
theorem exists_condition (h : ShowsIn source calls busy m.tree x) (hready : Ready calls busy m)
    (hnode : m.tree.node? x = some n) {form : Conditional} (hkind : n.kind = .cond form) :
    ∃ part c, part.LocatedIn source ∧ Shows calls busy m.tree x part ∧
      part.condition? = some c := by
  obtain ⟨part, hpart, hshows⟩ := h
  obtain ⟨part, hpart, hshows, hplain⟩ : ∃ part : Part, part.LocatedIn source ∧
      Shows calls busy m.tree x part ∧ ∀ e, part ≠ .test e := by
    cases part with
    | test e =>
      have hvalue := hshows.value (Tree.resolve_of_node? hnode) hnode (by rw [hkind]; rfl)
      exact ⟨.value e, hpart, hvalue, nofun⟩
    | _ => exact ⟨_, hpart, hshows, nofun⟩
  obtain ⟨parts, _, hfits, _⟩ := hshows.children_at hready.sound.forest hnode
  rw [hkind] at hfits
  obtain ⟨c, hcondition⟩ := hfits.exists_condition hplain
  exact ⟨part, c, hpart, hshows, hcondition⟩

end ShowsIn

/-- Nested evaluations have their warnings and failures in the source of the node. -/
def Places (source : String) (calls : NodeId → Span) (exec : Evaluator) : Prop :=
  ∀ {busy : NodeId → Prop} {m : Machine} {id : NodeId}, Ready calls busy m →
    ShowsIn source calls busy m.tree id → Placed source calls busy m (exec id m)

/-! ### Single steps -/

namespace Eval

variable {α : Type} {source : String} {calls : NodeId → Span} {busy : NodeId → Prop} {m : Machine}
  {id : NodeId}

section Node

variable (hready : Ready calls busy m) (hshows : ShowsIn source calls busy m.tree id)

include hready hshows

theorem placed_fail (cause : Fault) :
    Placed source calls busy m ((fail id cause : Eval α) m) :=
  .error hready.sound hshows.validIn

theorem placed_ofResult (result : Except Fault α) :
    Placed source calls busy m (ofResult id result m) := by
  cases result with
  | ok a => exact .pure hready.sound
  | error cause => exact placed_fail hready hshows cause

theorem placed_read (name : String) : Placed source calls busy m (read id name m) := by
  have hget : (get : Eval Machine) m = .ok m m := rfl
  unfold read
  rw [bind_eq hget]
  rcases m.frame.value? name with _ | v
  · exact placed_fail hready hshows _
  · exact .pure hready.sound

theorem placed_lookupCallee (name : String) :
    Placed source calls busy m (lookupCallee id name m) := by
  have hget : (get : Eval Machine) m = .ok m m := rfl
  unfold lookupCallee
  rw [bind_eq hget]
  rcases m.frame.get? name with _ | ⟨v⟩ | ⟨f⟩
  · rcases Builtin.lookup? name with _ | b
    · exact placed_fail hready hshows _
    · exact .pure hready.sound
  · exact placed_fail hready hshows _
  · exact .pure hready.sound

theorem placed_callHost (f : Definition) (given : List Value) :
    Placed source calls busy m (callHost id f given m) := by
  let m' : Machine := { m with hostCalls := ⟨f.serial, given⟩ :: m.hostCalls }
  have hlater : Later calls busy m m' :=
    ⟨hready.sound.congr rfl rfl rfl, Relation.ReflTransGen.refl, rfl, fun _ _ hf ↦ hf⟩
  have hshows' : ShowsIn source calls busy m'.tree id := hshows
  exact (placed_ofResult (hready.later hlater) hshows'
    (f.function.answer (m.history f.serial) given)).after hlater (.of_eq rfl)

theorem placed_convertObserved (v : Value) :
    Placed source calls busy m (convertObserved id v m) := by
  unfold convertObserved
  rcases v.truth? with _ | ⟨l, _ | length⟩
  · exact placed_fail hready hshows .emptyExtent
  · exact .pure hready.sound
  · exact .ok ⟨hready.sound.congr rfl rfl rfl, Relation.ReflTransGen.refl, rfl, fun _ _ hf ↦ hf⟩
      (.warn hshows.validIn ..)

end Node

theorem placed_assign (hready : Ready calls busy m) (name : String) (v : Value) :
    Placed source calls busy m (assign name v m) := by
  obtain ⟨m', hbind, hlater, hworld⟩ := hready.sound.bindValue name v busy
  have hassign : assign name v m = .ok () m' := by
    unfold assign
    rw [hbind]
  rw [hassign]
  exact .ok hlater (.of_eq (congrArg World.warnings hworld))

end Eval

end AdaptiveTree
