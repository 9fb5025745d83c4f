import AdaptiveTree.Proofs.Machine.Watch
import AdaptiveTree.Proofs.Simulation.Programs
import AdaptiveTree.Proofs.Simulation.Rounds

/-!
Evaluation of any tree ends, whatever its nodes share and whoever waits for a name. A conditional
is given up once at most, unless a subscriber puts another one into its place, and every
subscriber runs once. So the loop of adaptations ends by itself, before its rounds run out, and
what is done when they do does not matter.
-/

set_option autoImplicit false
set_option relaxedAutoImplicit false

namespace AdaptiveTree

/-! ### Subscribers -/

/-- Whatever it is told, it changes a tree by operations that put no node into its own place. -/
def Subscription.Proper (s : Subscription) : Prop :=
  ∀ name t, Tree.Built t ((s.callback name).left t)

namespace Watch

variable {w : Watch} {t : Tree} {name : String}

def Proper (w : Watch) : Prop := ∀ name, ∀ s ∈ w.subscribers name, s.Proper

theorem proper_empty : empty.Proper := fun _ _ hs ↦ by cases hs

theorem Proper.subscribe (h : w.Proper) (name : String) (owner : NodeId)
    {callback : String → Edit Unit} (hcallback : ∀ name t, Tree.Built t ((callback name).left t)) :
    (w.subscribe name owner callback).Proper := by
  intro other s hs
  rw [subscribers_subscribe] at hs
  split_ifs at hs
  · rcases List.mem_append.mp hs with hs | hs
    · exact h name s hs
    · rw [List.mem_singleton.mp hs]
      exact hcallback
  · exact h other s hs

theorem Proper.notify (h : w.Proper) (name : String) (t : Tree) :
    (w.notify name t).1.Proper ∧ Tree.Built t (w.notify name t).2.1 := by
  obtain ⟨w', hnotify, hsubs, -⟩ := w.notify_eq name t
  rw [hnotify]
  constructor
  · intro other s hs
    rw [hsubs] at hs
    split_ifs at hs
    · cases hs
    · exact h other s hs
  · refine List.foldlRecOn (b := (t, none)) (w.subscribers name) (deliver name)
      (motive := fun soFar ↦ Tree.Built t soFar.1) (.refl t) fun soFar hbuilt s hs ↦ ?_
    have hcallback := h name s hs name soFar.1
    rw [Edit.left] at hcallback
    unfold deliver
    cases hresult : s.callback name soFar.1 with
    | ok a t' | error e t' =>
      rw [hresult] at hcallback
      exact hbuilt.trans hcallback

/-- Emptying what is entered under a name. -/
theorem foldr_setEntry_nil {entries : List (String × List Subscription)}
    {subs : List Subscription} (h : entries.lookup name = some subs) :
    (setEntry name [] entries).foldr (fun e n ↦ e.2.length + n) 0 + subs.length =
      entries.foldr (fun e n ↦ e.2.length + n) 0 := by
  induction entries with
  | nil => cases h
  | cons e rest ih =>
    obtain ⟨key, others⟩ := e
    rw [List.lookup_cons] at h
    by_cases hkey : key = name
    · subst hkey
      rw [beq_self_eq_true] at h
      obtain rfl := Option.some.inj h
      rw [setEntry, if_pos rfl, List.foldr_cons, List.foldr_cons]
      simp only [List.length_nil]
      omega
    · have hne : (name == key) = false := by simpa using Ne.symm hkey
      rw [hne] at h
      rw [setEntry, if_neg hkey, List.foldr_cons, List.foldr_cons, ← ih h]
      omega

/-- Either somebody is told, and not again, or nothing happens to the tree. -/
theorem pending_notify (w : Watch) (name : String) (t : Tree) :
    (w.notify name t).1.pending < w.pending ∨
      (w.notify name t).1.pending = w.pending ∧ (w.notify name t).2.1 = t := by
  unfold notify
  rcases hlookup : w.entries.lookup name with _ | subs
  · exact Or.inr ⟨rfl, rfl⟩
  · have hcount := foldr_setEntry_nil hlookup
    cases subs with
    | nil => exact Or.inr ⟨hcount, rfl⟩
    | cons s rest =>
      refine Or.inl ?_
      rw [List.length_cons] at hcount
      unfold pending
      dsimp only
      omega

end Watch

/-! ### What evaluation uses up -/

namespace Machine

/-- The tree was built further. Subscribers were told and are gone, or no conditional was replaced
that evaluation does not give up. -/
structure Calms (m m' : Machine) : Prop where
  built : Tree.Built m.tree m'.tree
  proper : m'.watch.Proper
  used : m'.watch.pending < m.watch.pending ∨
    m'.watch.pending = m.watch.pending ∧ ∀ x, m.tree.Kept x → m'.tree.Kept x

variable {m m' m'' : Machine} {rounds : Nat}

theorem Calms.trans (h : Calms m m') (h' : Calms m' m'') : Calms m m'' where
  built := h.built.trans h'.built
  proper := h'.proper
  used := by
    rcases h.used with hless | ⟨hsame, hkept⟩
    · refine Or.inl (Nat.lt_of_le_of_lt ?_ hless)
      exact h'.used.elim Nat.le_of_lt fun hsame ↦ Nat.le_of_eq hsame.1
    · rcases h'.used with hless' | ⟨hsame', hkept'⟩
      · exact Or.inl (hsame ▸ hless')
      · exact Or.inr ⟨hsame'.trans hsame, fun x hx ↦ hkept' x (hkept x hx)⟩

theorem Calms.pending_le (h : Calms m m') : m'.watch.pending ≤ m.watch.pending :=
  h.used.elim Nat.le_of_lt fun hsame ↦ Nat.le_of_eq hsame.1

theorem Calms.bindValue (h : m.watch.Proper) (name : String) (v : Value) :
    Calms m (m.bindValue name v).2 := by
  unfold Machine.bindValue Machine.bind
  dsimp only
  split_ifs
  · obtain ⟨hproper, hbuilt⟩ := h.notify name m.tree
    refine ⟨hbuilt, hproper, ?_⟩
    refine (m.watch.pending_notify name m.tree).imp_right fun ⟨hsame, htree⟩ ↦ ⟨hsame, ?_⟩
    intro x hx
    show Tree.Kept (m.watch.notify name m.tree).2.1 x
    rwa [htree]
  · exact ⟨.refl _, h, Or.inr ⟨rfl, fun _ hx ↦ hx⟩⟩

/-- There are more rounds for the loop than subscribers can make it take. -/
structure Fitting (rounds : Nat) (m : Machine) : Prop where
  proper : m.watch.Proper
  pending_le : m.watch.pending + 2 ≤ rounds

/-- The subscribers of an engine override return tails. -/
theorem Sound.proper {calls : NodeId → Span} (h : m.Sound calls) : m.watch.Proper := by
  intro name s hs
  by_cases hname : name = "return"
  · subst hname
    intro name t
    rw [h.callback s hs]
    exact .overrideReturn t s.owner (calls s.owner)
  · rw [h.others name hname] at hs
    cases hs

theorem course_calms (rounds : Nat) : Course (Fitting rounds) Calms where
  refl := fun h ↦ ⟨.refl _, h.proper, Or.inr ⟨rfl, fun _ hx ↦ hx⟩⟩
  trans := .trans
  keeps := fun h hcalms ↦
    ⟨hcalms.proper, Nat.le_trans (Nat.add_le_add_right hcalms.pending_le 2) h.pending_le⟩
  adapts := fun h hadapted ↦
    ⟨.of_adapted hadapted, h.proper, Or.inr ⟨rfl, fun _ hx ↦ hx.adapted hadapted⟩⟩
  binds := fun name v h ↦ .bindValue h.proper name v
  records := fun h htree hwatch _ ↦
    ⟨htree ▸ .refl _, hwatch ▸ h.proper, Or.inr ⟨by rw [hwatch], fun _ hx ↦ by rwa [htree]⟩⟩

/-- A loop of so many rounds started at a number goes on to its end. -/
def Enough (m : Machine) (node : NodeId) (rounds : Nat) : Prop :=
  m.watch.pending + 2 ≤ rounds ∨ m.tree.Kept node ∧ m.watch.pending + 1 ≤ rounds

end Machine

/-! ### The loop of adaptations -/

namespace Eval

variable {exec exec' : Evaluator} {m : Machine} {rounds : Nat}

/-- So many rounds of adapting a conditional, and what is done when it still misses after them. -/
def unroll (exec : Evaluator) (last : NodeId → Value → Eval Value) :
    Nat → NodeId → Value → Eval Value
  | 0 => last
  | rounds + 1 => adaptOnce exec (unroll exec last rounds)

theorem resume_eq_unroll (exec : Evaluator) (rounds : Nat) : resume exec rounds =
    unroll exec (fun node _ ↦ fail node (.brokenTree (.retired node))) rounds := by
  induction rounds with
  | zero => rfl
  | succ rounds ih => rw [resume_succ, ih, unroll]

/-- Two loops with rounds enough go the same way, whatever is done after their rounds. -/
theorem agrees_unroll (last last' : NodeId → Value → Eval Value)
    (hexec : ∀ id m, m.Fitting rounds → Agrees Machine.Calms m (exec id) (exec' id)) :
    ∀ (n n' : Nat) {m : Machine} (node : NodeId) (v : Value), m.Fitting rounds →
      m.Enough node n → m.Enough node n' →
      Agrees Machine.Calms m (unroll exec last n node v) (unroll exec' last' n' node v) := by
  intro n
  induction n with
  | zero =>
    intro n' m node v _ hn _
    rcases hn with hn | ⟨_, hn⟩ <;> cases hn
  | succ n ih =>
    rintro (_ | n') m node v hm hn hn'
    · rcases hn' with hn' | ⟨_, hn'⟩ <;> cases hn'
    refine agrees_adaptOnce (Machine.course_calms rounds) hexec node v hm ?_
    intro id form new t v m' hresolve hkind hreads hinstall hcalms hm'
    -- a number that is kept leads to no comparison that could be given up
    have hmore : ∀ {k : Nat}, m.Enough node (k + 1) → m.watch.pending + 1 ≤ k := by
      rintro k (hk | ⟨hkept, _⟩)
      · exact Nat.le_of_succ_le_succ hk
      · cases hreads.symm.trans (hkept.readsOperand_eq_false hresolve hkind)
    have henough : ∀ {k : Nat}, m.Enough node (k + 1) → m'.Enough new k := by
      intro k hk
      have hroom := hmore hk
      rcases hcalms.used with hless | ⟨hsame, hkept⟩
      · refine Or.inl (Nat.le_trans ?_ hroom)
        exact Nat.succ_le_succ hless
      · exact Or.inr ⟨hkept new (.installGeneric hinstall), by rw [hsame]; exact hroom⟩
    exact ih n' new v hm' (henough hn) (henough hn')

/-- The loop of evaluation and one with rounds enough. -/
theorem agrees_settle_unroll (last : NodeId → Value → Eval Value)
    (hexec : ∀ id m, m.Fitting rounds → Agrees Machine.Calms m (exec id) (exec' id))
    (node : NodeId) (v : Value) (hm : m.Fitting rounds) :
    Agrees Machine.Calms m (settle exec node v) (unroll exec' last rounds node v) := by
  have hagrees := agrees_unroll (fun node _ ↦ fail node (.brokenTree (.retired node))) last hexec
    (m.watch.pending + 2) rounds node v hm (Or.inl (Nat.le_refl _)) (Or.inl hm.pending_le)
  rw [← resume_eq_unroll] at hagrees
  exact ⟨by rw [settle_eq, hagrees.same], by rw [settle_eq]; exact hagrees.leads⟩

end Eval

/-! ### Watching an evaluation -/

/-- A way to look at an evaluation: how many rounds its loops may take, what they do then, and
whether to break off before a node is evaluated, given this node and those around it. -/
structure Observer where
  rounds : Nat
  last : NodeId → Value → Eval Value
  stop : List NodeId → Machine → Bool

namespace Observer

open Eval

variable {m : Machine} {o : Observer}

/-- Evaluation inside of the nodes that are being evaluated, as an observer has it. -/
def execute (o : Observer) : Nat → List NodeId → Evaluator
  | 0, _, node => fun m ↦ .error (.tooDeep (m.spanOf node)) m
  | limit + 1, around, node => fun m ↦
    if o.stop (node :: around) m then .error (.tooDeep .origin) m
    else stepWith (o.execute limit (node :: around))
      (unroll (o.execute limit (node :: around)) o.last o.rounds) node m

theorem execute_succ (o : Observer) (limit : Nat) (around : List NodeId) (node : NodeId)
    (m : Machine) : o.execute (limit + 1) around node m =
      if o.stop (node :: around) m then .error (.tooDeep .origin) m
      else stepWith (o.execute limit (node :: around))
        (unroll (o.execute limit (node :: around)) o.last o.rounds) node m := rfl

/-- The evaluation goes its way until it is broken off. -/
theorem agrees_execute (o : Observer) (limit : Nat) : ∀ (around : List NodeId) (node : NodeId)
    (m : Machine), m.Fitting o.rounds →
      Agrees Machine.Calms m (o.execute limit around node) (o.execute limit around node) := by
  induction limit with
  | zero => exact fun _ _ m hm ↦ ⟨rfl, (Machine.course_calms _).refl hm⟩
  | succ limit ih =>
    intro around node m hm
    refine ⟨rfl, ?_⟩
    rw [execute_succ]
    split_ifs
    · exact (Machine.course_calms _).refl hm
    · have hnested := ih (node :: around)
      exact (agrees_stepWith (Machine.course_calms _) hnested node hm fun node v m hm ↦
        agrees_unroll o.last o.last hnested o.rounds o.rounds node v hm (Or.inl hm.pending_le)
          (Or.inl hm.pending_le)).leads

/-- An observer that is content with `limit` nodes around each other does not show. -/
theorem agrees_execute_of_content (limit : Nat) : ∀ (around : List NodeId) (node : NodeId)
    (m : Machine), (∀ stack m, stack.length ≤ around.length + limit → o.stop stack m = false) →
      m.Fitting o.rounds →
      Agrees Machine.Calms m (Eval.execute limit node) (o.execute limit around node) := by
  induction limit with
  | zero => exact fun _ _ m _ hm ↦ ⟨rfl, (Machine.course_calms _).refl hm⟩
  | succ limit ih =>
    intro around node m hcontent hm
    have hnested : ∀ id m, m.Fitting o.rounds → Agrees Machine.Calms m (Eval.execute limit id)
        (o.execute limit (node :: around) id) := by
      refine fun id m ↦ ih (node :: around) id m fun stack m hlength ↦ hcontent stack m ?_
      rw [List.length_cons] at hlength
      omega
    have hstep := agrees_stepWith (Machine.course_calms _) hnested node hm fun node v m hm ↦
      agrees_settle_unroll o.last hnested node v hm
    rw [stepWith_settle] at hstep
    have hgoes : o.stop (node :: around) m = false :=
      hcontent (node :: around) m (by rw [List.length_cons]; omega)
    refine ⟨?_, hstep.leads⟩
    rw [execute_succ, hgoes, if_neg Bool.false_ne_true]
    exact hstep.same

end Observer

namespace Machine

open Eval

/-- The outcome of a program from the result of its evaluation. -/
def told (limit : Nat) : EStateM.Result Exit Machine Value → Except Failure Value × Machine
  | .ok v m => (.ok v, m)
  | .error exit m => (exit.outcome limit, m)

/-- All ways to evaluate a node come to the same with the observer and without. -/
structure Unaffected (o : Observer) (limit : Nat) (node : NodeId) (m : Machine) : Prop where
  execute : o.execute limit [] node m = Eval.execute limit node m
  scalarLogical : Eval.scalarLogical (o.execute limit []) node m =
    Eval.scalarLogical (Eval.execute limit) node m
  presentLogical : Eval.presentLogical (o.execute limit []) node m =
    Eval.presentLogical (Eval.execute limit) node m
  run : told limit (o.execute limit [] node m) = m.run limit node

/-- Wherever the observer breaks off, the loops of the tree end by themselves. -/
structure Searched (o : Observer) (limit : Nat) (node : NodeId) (m : Machine) : Prop where
  execute : (machineOf (o.execute limit [] node m)).tree.Searchable
  scalarLogical : (machineOf (Eval.scalarLogical (o.execute limit []) node m)).tree.Searchable
  presentLogical : (machineOf (Eval.presentLogical (o.execute limit []) node m)).tree.Searchable

variable {m : Machine} {o : Observer} {limit : Nat}

theorem unaffected_of_content
    (hcontent : ∀ stack m, stack.length ≤ limit → o.stop stack m = false)
    (hm : m.Fitting o.rounds) (node : NodeId) : m.Unaffected o limit node := by
  have hexec : ∀ id m, m.Fitting o.rounds →
      Agrees Calms m (Eval.execute limit id) (o.execute limit [] id) := by
    refine fun id m ↦ Observer.agrees_execute_of_content limit [] id m fun stack m hlength ↦ ?_
    rw [List.length_nil, Nat.zero_add] at hlength
    exact hcontent stack m hlength
  have hcourse := course_calms o.rounds
  refine ⟨(hexec node m hm).same, (agrees_scalarLogical hcourse hexec node hm).same,
    (agrees_presentLogical hcourse hexec node hm).same, ?_⟩
  rw [(hexec node m hm).same]
  unfold run told
  cases Eval.execute limit node m <;> rfl

/-- The loops of evaluation end before their rounds are over, no more than `limit` nodes are
evaluated inside each other, and the loops of the tree end all the while. Assumes: a tree made by
operations that put no node into its own place, subscribers that use no others, and two rounds
more than there are subscribers. -/
theorem evaluation_ends (operations : List Tree.Operation) (o : Observer) (m : Machine)
    (limit : Nat) (node : NodeId) (hproper : ∀ operation ∈ operations, operation.Proper)
    (htree : m.tree = Tree.after operations) (hwatch : m.watch.Proper)
    (hrounds : m.watch.pending + 2 ≤ o.rounds) :
    ((∀ stack m', stack.length ≤ limit → o.stop stack m' = false) →
      m.Unaffected o limit node) ∧ m.Searched o limit node := by
  have hm : m.Fitting o.rounds := ⟨hwatch, hrounds⟩
  have hcourse := course_calms o.rounds
  have hexec := o.agrees_execute limit []
  refine ⟨fun hcontent ↦ unaffected_of_content hcontent hm node, ?_⟩
  have hsearchable : ∀ m', Calms m m' → m'.tree.Searchable := fun m' hcalms ↦
    Tree.Built.searchable hproper (htree ▸ hcalms.built)
  exact ⟨hsearchable _ (hexec node m hm).leads,
    hsearchable _ (agrees_scalarLogical hcourse hexec node hm).leads,
    hsearchable _ (agrees_presentLogical hcourse hexec node hm).leads⟩

/-- A conditional that is its own branch. Its condition binds `return` and is no scalar. -/
def ownBranch : List Tree.Operation :=
  [.alloc (.constant (.ints [1, 2])) ⟨0, 1⟩, .alloc (.constant (.scalar (.int 1))) ⟨2, 3⟩,
    .alloc (.assign "return" 1) ⟨4, 5⟩, .alloc (.compare .eq 0 2) ⟨6, 7⟩,
    .alloc (.cond (.const 3 4 4 (.int 1))) ⟨8, 9⟩]

/-- The form that the generic conditional is put back into. -/
def formerly : NodeKind → NodeKind
  | .cond (.generic c t e) => .cond (.const c t e (.int 1))
  | kind => kind

def puttingBack : Machine := { empty with
  tree := Tree.after ownBranch
  watch := Watch.empty.subscribe "return" 4 fun _ ↦ Edit.renew 4 formerly "put back" }

/-- Stops if more than five evaluations are inside each other. -/
def threeRounds : Observer := ⟨3, fun _ _ ↦ pure .null, fun stack _ ↦ 5 < stack.length⟩

/-- Three rounds are enough here, and two are not. -/
theorem evaluation_ends_puttingBack :
    (puttingBack.run 5 4).1 = .error (.tooDeep 5 ⟨2, 3⟩) ∧
      (told 5 ({ threeRounds with rounds := 2 }.execute 5 [] 4 puttingBack)).1 = .ok .null ∧
      puttingBack.Unaffected threeRounds 5 4 ∧ puttingBack.Searched threeRounds 5 4 := by
  have hproper : ∀ operation ∈ ownBranch, operation.Proper := by
    simp [ownBranch, Tree.Operation.Proper]
  have hwatch : puttingBack.watch.Proper :=
    Watch.proper_empty.subscribe "return" 4 fun _ t ↦ .renew t 4 formerly "put back"
  obtain ⟨hunaffected, hsearched⟩ :=
    evaluation_ends ownBranch threeRounds puttingBack 5 4 hproper rfl hwatch (by decide)
  have hcontent : ∀ stack m', stack.length ≤ 5 → threeRounds.stop stack m' = false :=
    fun _ _ hlength ↦ decide_eq_false (Nat.not_lt.mpr hlength)
  exact ⟨by decide +kernel, by decide +kernel, hunaffected hcontent, hsearched⟩

end Machine

end AdaptiveTree
