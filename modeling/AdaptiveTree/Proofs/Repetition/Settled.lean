import AdaptiveTree.Proofs.Reference.Relating
import AdaptiveTree.Proofs.Repetition.Confinement

/-!
Evaluation that leaves the tree as it is. A node is settled for a world if evaluating it there, or
in a world that is alike, changes nothing, as long as nothing below it was changed in between. A
node that is no conditional is settled if its children are, each for the world that the ones before
it leave.
-/

set_option autoImplicit false
set_option relaxedAutoImplicit false

namespace AdaptiveTree

open Machine (Later Sound)

/-- An evaluation that leaves the tree as it is. What its result means is told by `agrees`. -/
inductive Rests {α : Type} (calls : NodeId → Span) (agrees : α → World → Prop) (m : Machine) :
    EStateM.Result Exit Machine α → Prop
  | ok {a : α} {m' : Machine} (hsound : m'.Sound calls) (htree : m'.tree = m.tree)
      (hagrees : agrees a m'.world) : Rests calls agrees m (.ok a m')
  | error {exit : Exit} {m' : Machine} (htree : m'.tree = m.tree) :
    Rests calls agrees m (.error exit m')

/-- The result is that of a reference, in a world that is alike. -/
def Echoes {α : Type} (alike : World → World → Prop) (reference : EStateM.Result Halt World α)
    (a : α) (w : World) : Prop :=
  ∃ w', reference = .ok a w' ∧ alike w' w

/-- Evaluating `x` for the value of an expression leaves the tree as it is, in any world that is
like `w`. -/
def Settled (calls : NodeId → Span) (alike : World → World → Prop) (t : Tree) (w : World)
    (x : NodeId) (e : Expr) : Prop :=
  ∀ (limit : Nat) (m : Machine), m.Sound calls →
    Shows calls (fun _ ↦ False) m.tree x (.value e) → Tree.Spares t m.tree x → alike w m.world →
    (machineOf (Eval.execute limit x m)).tree = m.tree

/-- Each node is settled for the world in which it is evaluated after the ones before it. -/
def SettledEach (calls : NodeId → Span) (alike : World → World → Prop) (t : Tree) :
    World → List NodeId → List Expr → Prop
  | w, x :: xs, e :: es => Settled calls alike t w x e ∧
      ∀ v w', Reference.expr e w = .ok v w' → SettledEach calls alike t w' xs es
  | _, _, _ => True

variable {calls : NodeId → Span} {alike : World → World → Prop}
  {callee : Definition → Definition → Prop} {fault : Fault → Prop} {t t' : Tree} {w : World}
  {m m' : Machine} {x : NodeId} {xs : List NodeId} {k : NodeKind} {e : Expr} {es : List Expr}

namespace Rests

variable {α β : Type} {agrees : α → World → Prop} {agrees' : β → World → Prop}
  {result : EStateM.Result Exit Machine α}

theorem tree_eq (h : Rests calls agrees m result) : (machineOf result).tree = m.tree := by
  cases h with
  | ok _ htree _ | error htree => exact htree

theorem pure {a : α} (hsound : m.Sound calls) (hagrees : agrees a m.world) :
    Rests calls agrees m ((Pure.pure a : Eval α) m) :=
  .ok hsound rfl hagrees

/-- The tree may be compared with that of an earlier machine. -/
theorem of_tree_eq (h : Rests calls agrees m' result) (htree : m'.tree = m.tree) :
    Rests calls agrees m result := by
  cases h with
  | ok hsound htree' hagrees => exact .ok hsound (htree'.trans htree) hagrees
  | error htree' => exact .error (htree'.trans htree)

theorem bind {y : Eval α} {f : α → Eval β} (hy : Rests calls agrees m (y m))
    (hf : ∀ a m₁, m₁.Sound calls → m₁.tree = m.tree → agrees a m₁.world →
      Rests calls agrees' m₁ (f a m₁)) : Rests calls agrees' m ((y >>= f) m) := by
  show Rests calls agrees' m (EStateM.bind y f m)
  unfold EStateM.bind
  revert hy
  generalize y m = result
  intro hy
  cases hy with
  | ok hsound htree hagrees => exact (hf _ _ hsound htree hagrees).of_tree_eq htree
  | error htree => exact .error htree

end Rests

/-- An evaluation that follows a reference and leaves the tree as it is comes to what the reference
comes to in a world that is alike. -/
theorem Follows.rests {α : Type} {busy : NodeId → Prop} {reference : Reference.Run α}
    {result : EStateM.Result Exit Machine α}
    (h : Follows calls busy Same m (reference m.world) result)
    (htree : (machineOf result).tree = m.tree)
    (hmatches : Matches alike fault Eq (reference w) (reference m.world)) :
    Rests calls (Echoes alike (reference w)) m result := by
  cases h with
  | error | tooDeep => exact .error htree
  | ok hlater hagrees =>
    have href : reference m.world = _ := hagrees
    rw [href] at hmatches
    refine .ok hlater.sound htree ?_
    generalize reference w = reference at hmatches ⊢
    cases hmatches with
    | ok halike hsame => exact ⟨_, by rw [hsame], halike⟩

/-! ### Settled nodes -/

theorem Settled.later (h : Settled calls alike t w x e) (hspares : Tree.Spares t t' x) :
    Settled calls alike t' w x e :=
  fun limit m hsound hshows hspares' halike ↦
    h limit m hsound hshows (hspares.trans hspares') halike

/-- What a settled node comes to is what it came to in the world that it is settled for. -/
theorem Settled.rests (h : Settled calls alike t w x e) (hbridge : Bridge alike callee fault)
    (hsound : m.Sound calls) (hshows : Shows calls (fun _ ↦ False) m.tree x (.value e))
    (hspares : Tree.Spares t m.tree x) (halike : alike w m.world) (limit : Nat) :
    Rests calls (Echoes alike (Reference.expr e w)) m (Eval.execute limit x m) := by
  have hfollows := (Eval.simulates_execute calls limit).value hsound.ready hshows
  exact hfollows.rests (h limit m hsound hshows hspares halike)
    (Reference.matches_expr hbridge e w m.world halike)

theorem SettledEach.later (h : SettledEach calls alike t w xs es)
    (hspares : ∀ x ∈ xs, Tree.Spares t t' x) : SettledEach calls alike t' w xs es := by
  induction xs generalizing w es with
  | nil => trivial
  | cons x xs ih =>
    cases es with
    | nil => trivial
    | cons e es =>
      exact ⟨h.1.later (hspares x (List.mem_cons_self ..)), fun v w' href ↦
        ih (h.2 v w' href) fun y hy ↦ hspares y (List.mem_cons_of_mem _ hy)⟩

namespace Eval

/-! ### The parts of an evaluation -/

/-- What a node does before its children are evaluated: a call looks up what it calls. -/
def prepare (x : NodeId) : NodeKind → Eval (Option Callee)
  | .call name _ => do return some (← lookupCallee x name)
  | _ => pure none

/-- What a node that is no conditional does with the values of its children. -/
def finish (x : NodeId) (callee : Option Callee) : NodeKind → List Value → Eval Value
  | .constant v, _ => pure v
  | .read name, _ => read x name
  | .assign name _, [v] => do assign name v; return v
  | .sequence _, vs => pure (vs.getLastD .null)
  | .unary op _, [v] => pure (op.apply v)
  | .compare op _ _, [a, b] => pure (a.compareWith op b)
  | .call _ _, vs =>
    match callee with
    | some (.host f) => callHost x f vs
    | some (.builtin .ret) => do throw (.returned (← ofResult x (Builtin.returnValue vs)))
    | some (.builtin b) => ofResult x (b.answer vs)
    | none => pure .null
  | _, _ => pure .null

theorem inOrder_eq (exec : Evaluator) (ids : List NodeId) : ∀ last : Value,
    inOrder exec last ids = values exec ids >>= fun vs ↦ pure (vs.getLastD last) := by
  induction ids with
  | nil =>
    intro last
    rw [inOrder, values, pure_bind]
    rfl
  | cons id rest ih =>
    intro last
    rw [inOrder, values, bind_assoc]
    congr 1
    funext v
    rw [ih v, bind_assoc]
    simp only [pure_bind, List.getLastD_cons]

theorem values_one (exec : Evaluator) (id : NodeId) :
    values exec [id] = exec id >>= fun v ↦ pure [v] := by
  simp only [values, pure_bind]

theorem values_two (exec : Evaluator) (a b : NodeId) :
    values exec [a, b] = exec a >>= fun v ↦ exec b >>= fun u ↦ pure [v, u] := by
  simp only [values, pure_bind, bind_assoc]

/-- A node that is no conditional evaluates its children from left to right. -/
theorem step_fixed {exec : Evaluator} {id : NodeId} (hresolve : m.tree.resolve id = .ok x)
    (hx : m.tree.kind? x = some k) (hfixed : k.isFixed = true) : step exec id m =
      (prepare x k >>= fun callee ↦ values exec k.children >>= finish x callee k) m := by
  obtain ⟨n, hn, rfl⟩ := Tree.kind?_eq_some_iff.mp hx
  unfold step
  rw [bind_eq (ask_eq hresolve), bind_eq (ask_eq (Tree.kind_eq hn))]
  cases hkind : n.kind with
  | constant | read =>
    simp only [prepare, NodeKind.children, values, pure_bind]
    rfl
  | sequence items =>
    simp only [prepare, NodeKind.children, pure_bind, inOrder_eq]
    rfl
  | assign | unary =>
    simp only [prepare, NodeKind.children, values_one, pure_bind, bind_assoc]
    rfl
  | compare =>
    simp only [prepare, NodeKind.children, values_two, pure_bind, bind_assoc]
    rfl
  | call name args =>
    simp only [prepare, NodeKind.children, call, bind_assoc, pure_bind]
    refine congrFun (bind_congr fun callee ↦ bind_congr fun vs ↦ ?_) m
    cases callee with
    | host f => rfl
    | builtin b => cases b <;> rfl
  | convert | cond =>
    rw [hkind] at hfixed
    cases hfixed

end Eval

/-! ### What a node is evaluated from -/

namespace Expr

/-- What is evaluated for an expression that is no conditional, from left to right. -/
def operands : Expr → List Expr
  | unary _ e _ | assign _ e _ => [e]
  | compare _ left right _ => [left, right]
  | call _ args _ => args
  | block items _ => items
  | _ => []

end Expr

namespace NodeKind

/-- The name that a node binds. -/
def binds? : NodeKind → Option String
  | assign name _ => some name
  | _ => none

/-- The name that a node calls. -/
def calls? : NodeKind → Option String
  | call name _ => some name
  | _ => none

end NodeKind

/-- There is something to call under a name. -/
def World.Callable (w : World) (name : String) : Prop :=
  (∃ f, w.frame.get? name = some (.function f)) ∨
    w.frame.get? name = none ∧ Builtin.isName name = true

theorem World.Callable.of_alike {w' : World} {name : String} (hbridge : Bridge alike callee fault)
    (halike : alike w w') (h : w'.Callable name) : w.Callable name := by
  have hlinked := hbridge.linked halike name
  unfold Callable at h ⊢
  revert h hlinked
  generalize w.frame.get? name = binding
  generalize w'.frame.get? name = binding'
  intro h hlinked
  cases hlinked with
  | absent => exact h
  | value => simp at h
  | function => exact Or.inl ⟨_, rfl⟩

theorem Fits.parts_of_fixed {id : NodeId} {span : Span} {parts : List Part}
    (h : Fits calls id k span (.value e) parts) (hfixed : k.isFixed = true) :
    parts = e.operands.map .value := by
  cases h with
  | generic | noElse | twoBranch | const | specialized => cases hfixed
  | _ => rfl

theorem Shows.operands {busy : NodeId → Prop} (h : Shows calls busy t x (.value e))
    (hforest : t.Forest) (hx : t.kind? x = some k) (hfixed : k.isFixed = true) :
    List.Forall₂ (fun c e ↦ Shows calls busy t c (.value e)) k.children e.operands := by
  obtain ⟨n, hn, rfl⟩ := Tree.kind?_eq_some_iff.mp hx
  obtain ⟨parts, _, hfits, hbelow⟩ := h.children_at hforest hn
  obtain rfl := hfits.parts_of_fixed hfixed
  have hlength := hfits.length_eq
  rw [List.length_map] at hlength
  refine List.forall₂_iff_zip.mpr ⟨hlength, fun {c e} hmem ↦ ?_⟩
  refine (hbelow (c, .value e) ?_).outside
  rw [List.zip_map_right]
  exact List.mem_map.mpr ⟨(c, e), hmem, rfl⟩

namespace Eval

theorem prepare_eq (x : NodeId) (k : NodeKind) (m : Machine) :
    (∃ c, prepare x k m = .ok c m ∧ ∀ name, k.calls? = some name → m.world.Callable name) ∨
      ∃ exit, prepare x k m = .error exit m ∧
        ∃ name, k.calls? = some name ∧ ¬ m.world.Callable name := by
  cases k with
  | call name args =>
    have hmachine : (get : Eval Machine) m = .ok m m := rfl
    have hframe : m.world.frame = m.frame := rfl
    cases hget : m.frame.get? name with
    | none =>
      cases hbuiltin : Builtin.lookup? name with
      | none =>
        have hlookup : lookupCallee x name m = fail x (.undefinedFunction name) m := by
          rw [lookupCallee, bind_eq hmachine, hget, hbuiltin]
        refine Or.inr ⟨_, bind_error_eq hlookup, name, rfl, ?_⟩
        rw [World.Callable, hframe, hget, Builtin.isName, hbuiltin]
        simp
      | some b =>
        have hlookup : lookupCallee x name m = .ok (.builtin b) m := by
          rw [lookupCallee, bind_eq hmachine, hget, hbuiltin]
          rfl
        refine Or.inl ⟨_, bind_eq hlookup, fun other hother ↦ ?_⟩
        obtain rfl := Option.some.inj hother
        exact Or.inr ⟨hget, by rw [Builtin.isName, hbuiltin]; rfl⟩
    | some binding =>
      cases binding with
      | value v =>
        have hlookup : lookupCallee x name m = fail x (.notAFunction name) m := by
          rw [lookupCallee, bind_eq hmachine, hget]
        refine Or.inr ⟨_, bind_error_eq hlookup, name, rfl, ?_⟩
        rw [World.Callable, hframe, hget]
        simp
      | function f =>
        have hlookup : lookupCallee x name m = .ok (.host f) m := by
          rw [lookupCallee, bind_eq hmachine, hget]
          rfl
        refine Or.inl ⟨_, bind_eq hlookup, fun other hother ↦ ?_⟩
        obtain rfl := Option.some.inj hother
        exact Or.inl ⟨f, hget⟩
  | _ => exact Or.inl ⟨none, rfl, fun name hname ↦ by cases hname⟩

end Eval

/-- Binding a name changes the tree only if somebody waits for it. -/
theorem Machine.Sound.tree_bindValue (h : m.Sound calls) {name : String} (v : Value)
    (hnobody : name = "return" → ∀ y, ¬ m.tree.IsBuiltinTail y) :
    (m.bindValue name v).2.tree = m.tree := by
  have hsubs : m.watch.subscribers name = [] := by
    by_cases hname : name = "return"
    · have howners : m.watch.owners = [] := List.eq_nil_iff_forall_not_mem.mpr fun y hy ↦
        hnobody hname y ((h.mem_owners y).mp hy)
      rw [hname]
      exact List.map_eq_nil_iff.mp howners
    · exact h.others name hname
  obtain ⟨w', hnotify, _⟩ := m.watch.notify_eq name m.tree
  rw [hsubs] at hnotify
  unfold Machine.bindValue Machine.bind
  dsimp only
  split_ifs with hbuiltin
  · unfold Machine.notify
    rw [hnotify]
    rfl
  · rfl

namespace Eval

variable {c : Option Callee} {vs : List Value}

theorem rests_ofResult {α : Type} {agrees : α → World → Prop} (hsound : m.Sound calls)
    (result : Except Fault α) (hagrees : ∀ a, result = .ok a → agrees a m.world) :
    Rests calls agrees m (ofResult x result m) := by
  cases result with
  | ok a => exact .pure hsound (hagrees a rfl)
  | error cause => exact .error rfl

theorem rests_finish (hsound : m.Sound calls)
    (hbinds : k.binds? = some "return" → vs.length = 1 → ∀ y, ¬ m.tree.IsBuiltinTail y) :
    Rests calls (fun _ _ ↦ True) m (finish x c k vs m) := by
  have hpure (v : Value) : Rests calls (fun _ _ ↦ True) m ((pure v : Eval Value) m) :=
    .pure hsound trivial
  have hresult (result : Except Fault Value) :
      Rests calls (fun _ _ ↦ True) m (ofResult x result m) :=
    rests_ofResult hsound result fun _ _ ↦ trivial
  unfold finish
  split
  · exact hpure _
  · next name =>
    have hget : (get : Eval Machine) m = .ok m m := rfl
    rw [read, bind_eq hget]
    rcases m.frame.value? name with _ | v
    · exact .error rfl
    · exact hpure v
  · next name _ v =>
    obtain ⟨m', hbind, hlater, _⟩ := hsound.bindValue name v fun _ ↦ False
    have htree := hsound.tree_bindValue v fun hname ↦ hbinds (hname ▸ rfl) rfl
    have hassign : assign name v m = .ok () m' := by
      unfold assign
      rw [hbind]
    rw [hbind] at htree
    rw [bind_eq hassign]
    exact .ok hlater.sound htree trivial
  · exact hpure _
  · exact hpure _
  · exact hpure _
  · split
    · next f =>
      have hcall : callHost x f vs m = ofResult x (f.function.answer (m.history f.serial) vs)
        { m with hostCalls := ⟨f.serial, vs⟩ :: m.hostCalls } := rfl
      have hsound' :
          ({ m with hostCalls := ⟨f.serial, vs⟩ :: m.hostCalls } : Machine).Sound calls :=
        hsound.congr rfl rfl rfl
      rw [hcall]
      exact .of_tree_eq (rests_ofResult hsound' _ fun _ _ ↦ trivial) rfl
    · exact .bind (hresult (Builtin.returnValue vs)) fun v m₁ _ _ _ ↦ .error rfl
    · exact hresult _
    · exact hpure _
  · exact hpure _

/-- The values of settled nodes. -/
theorem rests_values (hbridge : Bridge alike callee fault) (limit : Nat) (es : List Expr) :
    ∀ {w : World} {m : Machine} {xs : List NodeId}, SettledEach calls alike t w xs es →
      m.Sound calls →
      List.Forall₂ (fun x e ↦ Shows calls (fun _ ↦ False) m.tree x (.value e)) xs es →
      (∀ x ∈ xs, Tree.Spares t m.tree x) → alike w m.world →
      Rests calls (Echoes alike (Reference.each es w)) m (values (execute limit) xs m) := by
  induction es with
  | nil =>
    intro w m xs _ hsound hshows _ halike
    cases hshows
    exact .pure hsound ⟨w, by rw [Reference.each]; rfl, halike⟩
  | cons e es ih =>
    intro w m xs hsettled hsound hshows hspares halike
    cases hshows with
    | @cons x _ xs _ hx hxs =>
      obtain ⟨hfirst, hothers⟩ := hsettled
      rw [values]
      refine .bind (hfirst.rests hbridge hsound hx (hspares x (List.mem_cons_self ..)) halike
        limit) fun v m₁ hsound₁ htree₁ hechoes ↦ ?_
      obtain ⟨w₁, href, halike₁⟩ := hechoes
      refine .bind (ih (hothers v w₁ href) hsound₁ (htree₁ ▸ hxs) (fun y hy ↦
        htree₁ ▸ hspares y (List.mem_cons_of_mem _ hy)) halike₁)
        fun vs m₂ hsound₂ _ hechoes ↦ ?_
      obtain ⟨w₂, hrefs, halike₂⟩ := hechoes
      refine .pure hsound₂ ⟨w₂, ?_, halike₂⟩
      rw [Reference.each, Reference.bind_eq href, Reference.bind_eq hrefs]
      rfl

end Eval

/-- A node that is no conditional is settled if its children are, as far as they are evaluated.
Assumes: if it binds `return`, there is no return tail left that waits for it. -/
theorem settled_fixed (hbridge : Bridge alike callee fault) (hx : t.kind? x = some k)
    (hfixed : k.isFixed = true)
    (hchildren : (∀ name, k.calls? = some name → w.Callable name) →
      SettledEach calls alike t w k.children e.operands)
    (hbinds : ∀ vs w', Reference.each e.operands w = .ok vs w' → k.binds? = some "return" →
      vs.length = 1 → ∀ y, ¬ t.IsBuiltinTail y) : Settled calls alike t w x e := by
  intro limit m hsound hshows hspares halike
  cases limit with
  | zero => rfl
  | succ limit =>
    have hx' := hspares.intact.kind?_eq hx
    have hbelow := hshows.operands hsound.forest hx' hfixed
    show (machineOf (Eval.step (Eval.execute limit) x m)).tree = m.tree
    rw [Eval.step_fixed (Tree.resolve_of_kind? hx') hx' hfixed]
    rcases Eval.prepare_eq x k m with ⟨c, hprepare, hcallable⟩ | ⟨exit, hprepare, _⟩
    · have hsettled := hchildren fun name hname ↦
        (hcallable name hname).of_alike hbridge halike
      rw [Eval.bind_eq hprepare]
      refine (Rests.bind (Eval.rests_values hbridge limit _ hsettled hsound hbelow
        (fun y hy ↦ hspares.child hx hy) halike) fun vs m₁ hsound₁ htree₁ ⟨w₁, href, _⟩ ↦
        Eval.rests_finish hsound₁ fun hreturn hlength ↦ ?_).tree_eq
      rw [htree₁]
      exact hspares.settled (hbinds vs w₁ href hreturn hlength)
    · rw [Eval.bind_error_eq hprepare]
      rfl

end AdaptiveTree
