import AdaptiveTree.Proofs.Machine.Sound
import AdaptiveTree.Proofs.Tree.Histories

/-!
What becomes of subscriptions when subscribing, telling, pruning, clearing, binding and changes of
the tree follow each other in any order. After any requests the subscriptions under a name are
those made for it and taken away by no request since, in the order in which they were made. So
each is told at most once, by the first request that tells of its name.
-/

set_option autoImplicit false
set_option relaxedAutoImplicit false

namespace AdaptiveTree

/-! ### Callbacks -/

/-- Why an edit fails, if it does. -/
def Edit.failure? {α : Type} (edit : Edit α) (t : Tree) : Option TreeError :=
  match edit t with
  | .ok _ _ => none
  | .error e _ => some e

namespace Subscription

/-- Runs callbacks one after the other, each on the tree that the one before it left, and gives
the failures in order. -/
def run (name : String) : List Subscription → Tree → Tree × List TreeError
  | [], t => (t, [])
  | s :: rest, t =>
    match run name rest ((s.callback name).left t) with
    | (t', failures) => (t', ((s.callback name).failure? t).toList ++ failures)

/-- The tree that all callbacks leave, and the first failure. -/
theorem foldl_deliver_eq (name : String) (subs : List Subscription) (t : Tree)
    (first : Option TreeError) : subs.foldl (Watch.deliver name) (t, first) =
      ((run name subs t).1, first.or (run name subs t).2.head?) := by
  induction subs generalizing t first with
  | nil => simp [run]
  | cons s rest ih =>
    have hdeliver : Watch.deliver name (t, first) s =
        ((s.callback name).left t, first.or ((s.callback name).failure? t)) := by
      unfold Watch.deliver Edit.left Edit.failure?
      dsimp only
      cases s.callback name t <;> simp
    rw [List.foldl_cons, hdeliver, ih, run]
    cases first with
    | some e => rfl
    | none => cases (s.callback name).failure? t <;> rfl

end Subscription

namespace Machine

/-! ### Requests -/

/-- What a machine can be asked for while nothing is evaluated. -/
inductive Request where
  | subscribe (name : String) (owner : NodeId) (callback : String → Edit Unit)
  | notify (name : String)
  | prune
  | clear
  | change (operation : Tree.Operation)
  | bind (name : String) (binding : Binding)
  | unbind (name : String)

namespace Request

/-- Everybody who waits for `name` is told that it is bound. -/
def Tells (name : String) : Request → Prop
  | notify other => other = name
  | bind other _ => other = name ∧ Builtin.isName other = true
  | _ => False

def isSubscribe : Request → Bool
  | subscribe .. => true
  | _ => false

/-- What is answered, and the machine afterwards. -/
def serve (m : Machine) : Request → Except TreeError Unit × Machine
  | subscribe name owner callback =>
    (.ok (), { m with watch := m.watch.subscribe name owner callback })
  | notify name => m.notify name
  | prune => (.ok (), { m with watch := m.watch.prune m.tree })
  | clear => (.ok (), { m with watch := m.watch.clear })
  | change operation => (.ok (), { m with tree := operation.apply m.tree })
  | bind name binding => m.bind name binding
  | unbind name => (.ok (), m.unbind name)

end Request

/-- The machine after some requests. -/
def served (requests : List Request) : Machine :=
  requests.foldl (fun m r ↦ (r.serve m).2) .empty

theorem served_append (requests : List Request) (r : Request) :
    served (requests ++ [r]) = (r.serve (served requests)).2 := by
  rw [served, List.foldl_concat]
  rfl

/-! ### Single requests -/

variable {m : Machine} {name other : String} {r : Request}

/-- The callbacks of some subscriptions to a name run in order, and what was entered under that
name is dropped. -/
structure Told (name : String) (subs : List Subscription) (m : Machine)
    (answer : Except TreeError Unit) (m' : Machine) : Prop where
  tree : m'.tree = (Subscription.run name subs m.tree).1
  /-- The first failure, if there is any. -/
  answer : answer = (Subscription.run name subs m.tree).2.head?.elim (.ok ()) .error
  delivered : m'.watch.delivered.toList = m.watch.delivered.toList ++
    subs.map fun s ↦ (s.serial, name)
  subscribers : ∀ other, m'.watch.subscribers other =
    if other = name then [] else m.watch.subscribers other
  issued : m'.watch.issued = m.watch.issued
  keys : (m.watch.entries.map Prod.fst).Nodup → (m'.watch.entries.map Prod.fst).Nodup

theorem told_notify (m : Machine) (name : String) :
    Told name (m.watch.subscribers name) m (m.notify name).1 (m.notify name).2 := by
  obtain ⟨w', hnotify, hsubs, hkeys⟩ := m.watch.notify_eq name m.tree
  have hwatch : w'.delivered.toList = m.watch.delivered.toList ++
      ((m.watch.subscribers name).map fun s ↦ (s.serial, name)) ∧ w'.issued = m.watch.issued := by
    obtain rfl : (m.watch.notify name m.tree).1 = w' := congrArg Prod.fst hnotify
    unfold Watch.notify Watch.subscribers
    cases m.watch.entries.lookup name <;> simp
  rw [Subscription.foldl_deliver_eq, Option.none_or] at hnotify
  have hmachine : m.notify name =
      ((Subscription.run name (m.watch.subscribers name) m.tree).2.head?.elim (.ok ()) .error,
        { m with watch := w', tree :=
          (Subscription.run name (m.watch.subscribers name) m.tree).1 }) := by
    unfold notify
    rw [hnotify]
  rw [hmachine]
  exact ⟨rfl, rfl, hwatch.1, hsubs, hwatch.2, hkeys⟩

/-- Telling by a request, which may bind the name first. -/
theorem Request.Tells.told (h : r.Tells name) (m : Machine) :
    Told name (m.watch.subscribers name) m (r.serve m).1 (r.serve m).2 := by
  cases r with
  | notify other =>
    obtain rfl : other = name := h
    exact told_notify m other
  | bind other binding =>
    obtain ⟨rfl, hbuiltin⟩ : other = name ∧ Builtin.isName other = true := h
    rw [serve, Machine.bind, if_pos hbuiltin]
    obtain ⟨htree, hanswer, hdelivered, hsubs, hissued, hkeys⟩ :=
      told_notify { m with frame := m.frame.insert other binding } other
    exact ⟨htree, hanswer, hdelivered, hsubs, hissued, hkeys⟩
  | _ => exact h.elim

/-- What a request that tells nobody does to the subscriptions. -/
inductive Request.Leaves (m m' : Machine) : Request → Prop
  | subscribe (name : String) (owner : NodeId) (callback : String → Edit Unit)
      (hsubs : ∀ other, m'.watch.subscribers other = if other = name
        then m.watch.subscribers name ++ [⟨m.watch.issued, owner, callback⟩]
        else m.watch.subscribers other)
      (hissued : m'.watch.issued = m.watch.issued + 1) :
    Leaves m m' (.subscribe name owner callback)
  | prune (hsubs : ∀ other, m'.watch.subscribers other =
        (m.watch.subscribers other).filter (Watch.hasOwner m.tree))
      (hissued : m'.watch.issued = m.watch.issued) : Leaves m m' .prune
  | clear (hsubs : ∀ other, m'.watch.subscribers other = [])
      (hissued : m'.watch.issued = m.watch.issued) : Leaves m m' .clear
  | same {r : Request} (hquiet : r.isSubscribe = false) (hprune : r ≠ .prune) (hclear : r ≠ .clear)
      (hwatch : m'.watch = m.watch) : Leaves m m' r

theorem Request.leaves (hkeys : (m.watch.entries.map Prod.fst).Nodup)
    (hquiet : ∀ name, ¬ r.Tells name) : r.Leaves m (r.serve m).2 ∧
      (r.serve m).2.watch.delivered = m.watch.delivered ∧
      ((r.serve m).2.watch.entries.map Prod.fst).Nodup := by
  cases r with
  | subscribe name owner callback =>
    exact ⟨.subscribe name owner callback (fun _ ↦ Watch.subscribers_subscribe) rfl, rfl,
      Watch.nodup_setEntry hkeys⟩
  | notify name => exact absurd rfl (hquiet name)
  | prune =>
    exact ⟨.prune (fun _ ↦ Watch.subscribers_prune hkeys m.tree) rfl, rfl,
      Watch.nodup_prune hkeys m.tree⟩
  | clear => exact ⟨.clear (fun _ ↦ rfl) rfl, rfl, List.nodup_nil⟩
  | change | unbind => exact ⟨.same rfl nofun nofun rfl, rfl, hkeys⟩
  | bind name binding =>
    have hbuiltin : ¬ Builtin.isName name = true := fun h ↦ hquiet name ⟨rfl, h⟩
    rw [serve, Machine.bind, if_neg hbuiltin]
    exact ⟨.same rfl nofun nofun rfl, rfl, hkeys⟩

/-! ### Who waits -/

/-- The subscription `s` to `name` was made by request `i` and taken away by no request between
it and request `n`. -/
structure Standing (requests : List Request) (name : String) (n i : Nat) (s : Subscription) :
    Prop where
  made : requests[i]? = some (.subscribe name s.owner s.callback)
  serial : s.serial = (requests.take i).countP Request.isSubscribe
  before : i < n
  untold : ∀ j r, i < j → j < n → requests[j]? = some r → ¬ r.Tells name
  uncleared : ∀ j, i < j → j < n → requests[j]? ≠ some .clear
  /-- No pruning found that the owner leads nowhere. -/
  owned : ∀ j, i < j → j < n → requests[j]? = some .prune →
    ∃ x, (served (requests.take j)).tree.resolve s.owner = .ok x

/-- The subscriptions to a name that stand, with the numbers of the requests that made them. -/
structure Roll (requests : List Request) (name : String) (n : Nat)
    (roll : List (Nat × Subscription)) : Prop where
  ordered : roll.Pairwise fun a b ↦ a.1 < b.1
  mem_iff : ∀ i s, (i, s) ∈ roll ↔ Standing requests name n i s

variable {requests : List Request} {n i : Nat} {s : Subscription}
  {roll : List (Nat × Subscription)}

/-- A subscription goes on standing unless the next request takes it away. -/
theorem standing_succ_iff (hr : requests[n]? = some r) (hi : i < n) :
    Standing requests name (n + 1) i s ↔ Standing requests name n i s ∧ ¬ r.Tells name ∧
      r ≠ .clear ∧ (r = .prune → ∃ x, (served (requests.take n)).tree.resolve s.owner = .ok x) := by
  constructor
  · intro h
    refine ⟨⟨h.made, h.serial, hi, fun j r hij hj ↦ h.untold j r hij (Nat.lt_succ_of_lt hj),
      fun j hij hj ↦ h.uncleared j hij (Nat.lt_succ_of_lt hj),
      fun j hij hj ↦ h.owned j hij (Nat.lt_succ_of_lt hj)⟩, ?_, ?_, ?_⟩
    · exact h.untold n r hi (Nat.lt_succ_self n) hr
    · rintro rfl
      exact h.uncleared n hi (Nat.lt_succ_self n) hr
    · rintro rfl
      exact h.owned n hi (Nat.lt_succ_self n) hr
  · rintro ⟨h, htells, hclear, hprune⟩
    have hlast {j : Nat} (hj : j < n + 1) : j < n ∨ j = n := Nat.lt_succ_iff_lt_or_eq.mp hj
    refine ⟨h.made, h.serial, Nat.lt_succ_of_lt hi, ?_, ?_, ?_⟩
    · intro j r' hij hj hr'
      rcases hlast hj with hj | rfl
      · exact h.untold j r' hij hj hr'
      · rwa [← Option.some.inj (hr.symm.trans hr')]
    · intro j hij hj hj'
      rcases hlast hj with hj | rfl
      · exact h.uncleared j hij hj hj'
      · exact hclear (Option.some.inj (hr.symm.trans hj'))
    · intro j hij hj hj'
      rcases hlast hj with hj | rfl
      · exact h.owned j hij hj hj'
      · exact hprune (Option.some.inj (hr.symm.trans hj'))

/-- A request has just made its own subscription. -/
theorem standing_last_iff (hr : requests[n]? = some r) : Standing requests name (n + 1) n s ↔
    r = .subscribe name s.owner s.callback ∧
      s.serial = (requests.take n).countP Request.isSubscribe := by
  constructor
  · intro h
    exact ⟨Option.some.inj (hr.symm.trans h.made), h.serial⟩
  · rintro ⟨rfl, hserial⟩
    refine ⟨hr, hserial, Nat.lt_succ_self n, ?_, ?_, ?_⟩ <;>
      · intros
        omega

theorem Standing.lt_succ_cases (h : Standing requests name (n + 1) i s) : i < n ∨ i = n :=
  Nat.lt_succ_iff_lt_or_eq.mp h.before

namespace Roll

theorem lt_of_mem (h : Roll requests name n roll) (hmem : (i, s) ∈ roll) : i < n :=
  ((h.mem_iff i s).mp hmem).before

/-- The request takes away those that do not pass a test. -/
theorem filter (h : Roll requests name n roll) (hr : requests[n]? = some r)
    (hother : r.isSubscribe = false) (keeps : Subscription → Bool)
    (hkeeps : ∀ s, keeps s = true ↔ ¬ r.Tells name ∧ r ≠ .clear ∧
      (r = .prune → ∃ x, (served (requests.take n)).tree.resolve s.owner = .ok x)) :
    Roll requests name (n + 1) (roll.filter fun p ↦ keeps p.2) where
  ordered := h.ordered.sublist List.filter_sublist
  mem_iff := fun i s ↦ by
    rw [List.mem_filter]
    constructor
    · rintro ⟨hmem, hkept⟩
      exact (standing_succ_iff hr (h.lt_of_mem hmem)).mpr
        ⟨(h.mem_iff i s).mp hmem, (hkeeps s).mp hkept⟩
    · intro hstanding
      rcases hstanding.lt_succ_cases with hi | rfl
      · obtain ⟨hold, hkept⟩ := (standing_succ_iff hr hi).mp hstanding
        exact ⟨(h.mem_iff i s).mpr hold, (hkeeps s).mpr hkept⟩
      · obtain ⟨rfl, _⟩ := (standing_last_iff hr).mp hstanding
        cases hother

/-- The request takes nothing away. -/
theorem keep (h : Roll requests name n roll) (hr : requests[n]? = some r)
    (hother : r.isSubscribe = false) (htells : ¬ r.Tells name) (hclear : r ≠ .clear)
    (hprune : r ≠ .prune) : Roll requests name (n + 1) roll := by
  have hfilter := h.filter hr hother (fun _ ↦ true) fun s ↦
    ⟨fun _ ↦ ⟨htells, hclear, fun h ↦ absurd h hprune⟩, fun _ ↦ rfl⟩
  rwa [List.filter_eq_self.mpr fun _ _ ↦ rfl] at hfilter

/-- The request takes everything away. -/
theorem empty (h : Roll requests name n roll) (hr : requests[n]? = some r)
    (hother : r.isSubscribe = false) (hgone : r.Tells name ∨ r = .clear) :
    Roll requests name (n + 1) [] := by
  have hfilter := h.filter hr hother (fun _ ↦ false) fun s ↦
    ⟨nofun, fun ⟨htells, hclear, _⟩ ↦ (hgone.elim htells hclear).elim⟩
  rwa [List.filter_eq_nil_iff.mpr fun _ _ ↦ Bool.false_ne_true] at hfilter

/-- The request subscribes to another name. -/
theorem skip (h : Roll requests name n roll) {owner : NodeId} {callback : String → Edit Unit}
    (hr : requests[n]? = some (.subscribe other owner callback)) (hother : name ≠ other) :
    Roll requests name (n + 1) roll where
  ordered := h.ordered
  mem_iff := fun i s ↦ by
    constructor
    · intro hmem
      exact (standing_succ_iff hr (h.lt_of_mem hmem)).mpr
        ⟨(h.mem_iff i s).mp hmem, id, nofun, nofun⟩
    · intro hstanding
      rcases hstanding.lt_succ_cases with hi | rfl
      · exact (h.mem_iff i s).mpr ((standing_succ_iff hr hi).mp hstanding).1
      · obtain ⟨hsame, _⟩ := (standing_last_iff hr).mp hstanding
        cases hsame
        exact absurd rfl hother

theorem subscribe (h : Roll requests name n roll) {owner : NodeId}
    {callback : String → Edit Unit}
    (hr : requests[n]? = some (.subscribe name owner callback)) :
    Roll requests name (n + 1)
      (roll ++ [(n, ⟨(requests.take n).countP Request.isSubscribe, owner, callback⟩)]) where
  ordered := by
    refine List.pairwise_append.mpr ⟨h.ordered, List.pairwise_singleton _ _, ?_⟩
    rintro ⟨i, s⟩ hmem b hb
    rw [List.mem_singleton.mp hb]
    exact h.lt_of_mem hmem
  mem_iff := fun i s ↦ by
    rw [List.mem_append, List.mem_singleton]
    constructor
    · rintro (hmem | heq)
      · exact (standing_succ_iff hr (h.lt_of_mem hmem)).mpr
          ⟨(h.mem_iff i s).mp hmem, id, nofun, nofun⟩
      · obtain ⟨rfl, rfl⟩ := Prod.mk.inj heq
        exact (standing_last_iff hr).mpr ⟨rfl, rfl⟩
    · intro hstanding
      rcases hstanding.lt_succ_cases with hi | rfl
      · exact Or.inl ((h.mem_iff i s).mpr ((standing_succ_iff hr hi).mp hstanding).1)
      · obtain ⟨hsame, hserial⟩ := (standing_last_iff hr).mp hstanding
        cases hsame
        exact Or.inr (by rw [← hserial])

end Roll

/-! ### Any requests -/

/-- What is entered in a watch is what stands. -/
structure Tallied (requests : List Request) (n : Nat) (m : Machine) : Prop where
  keys : (m.watch.entries.map Prod.fst).Nodup
  issued : m.watch.issued = (requests.take n).countP Request.isSubscribe
  roll : ∀ name, ∃ roll, Roll requests name n roll ∧
    m.watch.subscribers name = roll.map Prod.snd

theorem Tallied.filter {m' : Machine} (h : Tallied requests n m) (hm : m = served (requests.take n))
    (hr : requests[n]? = some .prune)
    (hsubs : ∀ other, m'.watch.subscribers other =
      (m.watch.subscribers other).filter (Watch.hasOwner m.tree)) (name : String) :
    ∃ roll, Roll requests name (n + 1) roll ∧
      m'.watch.subscribers name = roll.map Prod.snd := by
  obtain ⟨roll, hroll, hsame⟩ := h.roll name
  refine ⟨_, hroll.filter hr rfl (Watch.hasOwner m.tree) fun s ↦ ?_, ?_⟩
  · have howner : Watch.hasOwner m.tree s = true ↔ ∃ x, m.tree.resolve s.owner = .ok x := by
      unfold Watch.hasOwner
      cases m.tree.resolve s.owner <;> simp
    rw [howner, ← hm]
    exact ⟨fun h ↦ ⟨id, nofun, fun _ ↦ h⟩, fun h ↦ h.2.2 rfl⟩
  · rw [hsubs, hsame, List.filter_map]
    rfl

/-- One more request. -/
theorem Tallied.step (h : Tallied requests n m) (hm : m = served (requests.take n))
    (hr : requests[n]? = some r) : Tallied requests (n + 1) (r.serve m).2 := by
  have hcount : (requests.take (n + 1)).countP Request.isSubscribe =
      (requests.take n).countP Request.isSubscribe + if r.isSubscribe then 1 else 0 := by
    rw [List.take_add_one, hr, Option.toList_some, List.countP_append, List.countP_singleton]
  by_cases htells : ∃ name, r.Tells name
  · obtain ⟨name, htells⟩ := htells
    have hother : r.isSubscribe = false := by
      cases r with
      | subscribe => exact htells.elim
      | _ => rfl
    obtain ⟨_, _, _, hsubs, hissued, hkeys⟩ := htells.told m
    refine ⟨hkeys h.keys, by rw [hissued, h.issued, hcount, hother]; rfl, fun other ↦ ?_⟩
    obtain ⟨roll, hroll, hsame⟩ := h.roll other
    rw [hsubs]
    split_ifs with heq
    · exact ⟨[], hroll.empty hr hother (Or.inl (heq ▸ htells)), rfl⟩
    · refine ⟨roll, hroll.keep hr hother (fun htells' ↦ heq ?_) ?_ ?_, hsame⟩
      · cases r with
        | notify => exact htells'.symm.trans htells
        | bind => exact htells'.1.symm.trans htells.1
        | _ => exact htells.elim
      · rintro rfl
        exact htells
      · rintro rfl
        exact htells
  · have hquiet : ∀ name, ¬ r.Tells name := fun name h ↦ htells ⟨name, h⟩
    obtain ⟨hleaves, _, hkeys⟩ := Request.leaves (m := m) h.keys hquiet
    generalize (r.serve m).2 = m' at hleaves hkeys
    cases hleaves with
    | subscribe name owner callback hsubs hissued =>
      refine ⟨hkeys, by rw [hissued, h.issued, hcount]; rfl, fun other ↦ ?_⟩
      obtain ⟨roll, hroll, hsame⟩ := h.roll other
      rw [hsubs]
      split_ifs with heq
      · subst heq
        refine ⟨_, hroll.subscribe hr, ?_⟩
        rw [hsame, h.issued, List.map_append]
        rfl
      · exact ⟨roll, hroll.skip hr heq, hsame⟩
    | prune hsubs hissued =>
      exact ⟨hkeys, by rw [hissued, h.issued, hcount]; rfl, h.filter hm hr hsubs⟩
    | clear hsubs hissued =>
      refine ⟨hkeys, by rw [hissued, h.issued, hcount]; rfl, fun other ↦ ?_⟩
      obtain ⟨roll, hroll, _⟩ := h.roll other
      exact ⟨[], hroll.empty hr rfl (Or.inr rfl), hsubs other⟩
    | same hother hprune hclear hwatch =>
      rw [hwatch] at hkeys
      refine ⟨by rwa [hwatch], by rw [hwatch, h.issued, hcount, hother]; rfl, fun other ↦ ?_⟩
      obtain ⟨roll, hroll, hsame⟩ := h.roll other
      exact ⟨roll, hroll.keep hr hother (hquiet other) hclear hprune, by rw [hwatch, hsame]⟩

theorem served_take_succ (hr : requests[n]? = some r) :
    served (requests.take (n + 1)) = (r.serve (served (requests.take n))).2 := by
  rw [List.take_add_one, hr, Option.toList_some, served_append]

theorem tallied_served (requests : List Request) (hn : n ≤ requests.length) :
    Tallied requests n (served (requests.take n)) := by
  induction n with
  | zero =>
    refine ⟨List.nodup_nil, rfl, fun name ↦ ⟨[], ⟨List.Pairwise.nil, fun i s ↦ ?_⟩, rfl⟩⟩
    exact ⟨nofun, fun h ↦ absurd h.before (Nat.not_lt_zero i)⟩
  | succ n ih =>
    obtain ⟨r, hr⟩ : ∃ r, requests[n]? = some r := ⟨_, List.getElem?_eq_getElem hn⟩
    rw [served_take_succ hr]
    exact (ih (Nat.le_of_succ_le hn)).step rfl hr

/-! ### What was told -/

/-- Later subscriptions have greater numbers. -/
theorem Standing.serial_lt {name' : String} {n' i' : Nat} {s' : Subscription}
    (h : Standing requests name n i s) (h' : Standing requests name' n' i' s') (hlt : i < i') :
    s.serial < s'.serial := by
  have hfirst : (requests.take (i + 1)).countP Request.isSubscribe = s.serial + 1 := by
    rw [List.take_add_one, h.made, h.serial]
    simp [Request.isSubscribe]
  have hsub : (requests.take (i + 1)).Sublist (requests.take i') :=
    List.take_sublist_take_left hlt
  calc s.serial < s.serial + 1 := Nat.lt_succ_self _
    _ = (requests.take (i + 1)).countP Request.isSubscribe := hfirst.symm
    _ ≤ (requests.take i').countP Request.isSubscribe := hsub.countP_le
    _ = s'.serial := h'.serial.symm

/-- A number is given to one subscription only. -/
theorem Standing.eq_of_serial {name' : String} {n' i' : Nat} {s' : Subscription}
    (h : Standing requests name n i s) (h' : Standing requests name' n' i' s')
    (heq : s.serial = s'.serial) : i = i' ∧ name = name' := by
  have hi : i = i' := by
    rcases Nat.lt_trichotomy i i' with hlt | hi | hlt
    · exact absurd heq (Nat.ne_of_lt (h.serial_lt h' hlt))
    · exact hi
    · exact absurd heq.symm (Nat.ne_of_lt (h'.serial_lt h hlt))
  subst hi
  have hsame := Option.some.inj (h.made.symm.trans h'.made)
  injection hsame with hname
  exact ⟨rfl, hname⟩

/-- Everybody who was told had been waiting until then, and nobody was told twice. -/
structure Recorded (requests : List Request) (n : Nat) (record : List (Nat × String)) : Prop where
  distinct : (record.map Prod.fst).Nodup
  waited : ∀ k name, (k, name) ∈ record → ∃ n' i s r, n' < n ∧ requests[n']? = some r ∧
    r.Tells name ∧ Standing requests name n' i s ∧ s.serial = k

theorem Recorded.told {record : List (Nat × String)} (h : Recorded requests n record)
    (hr : requests[n]? = some r) (htells : r.Tells name) (hroll : Roll requests name n roll) :
    Recorded requests (n + 1)
      (record ++ (roll.map Prod.snd).map fun s ↦ (s.serial, name)) where
  distinct := by
    have hnew : (roll.map fun p ↦ p.2.serial).Nodup := by
      refine List.pairwise_map.mpr (hroll.ordered.imp_of_mem ?_)
      rintro ⟨i, s⟩ ⟨i', s'⟩ hmem hmem' hlt
      exact Nat.ne_of_lt (((hroll.mem_iff i s).mp hmem).serial_lt
        ((hroll.mem_iff i' s').mp hmem') hlt)
    have hserials : ((roll.map Prod.snd).map fun s ↦ (s.serial, name)).map Prod.fst =
        roll.map fun p ↦ p.2.serial := by
      simp only [List.map_map, Function.comp_def]
    rw [List.map_append, hserials]
    refine List.nodup_append.mpr ⟨h.distinct, hnew, ?_⟩
    rintro k hk _ hk' rfl
    obtain ⟨⟨_, name'⟩, hmem, rfl⟩ := List.mem_map.mp hk
    obtain ⟨⟨i, s⟩, hmem', hserial⟩ := List.mem_map.mp hk'
    obtain ⟨n', i', s', r', hn', hr', htells', hstanding', hserial'⟩ := h.waited _ _ hmem
    have hstanding := (hroll.mem_iff i s).mp hmem'
    obtain ⟨rfl, rfl⟩ := hstanding.eq_of_serial hstanding' (hserial.trans hserial'.symm)
    exact hstanding.untold n' r' hstanding'.before hn' hr' htells'
  waited := fun k other hmem ↦ by
    rcases List.mem_append.mp hmem with hmem | hmem
    · obtain ⟨n', i, s, r', hn', hrest⟩ := h.waited k other hmem
      exact ⟨n', i, s, r', Nat.lt_succ_of_lt hn', hrest⟩
    · rw [List.map_map] at hmem
      obtain ⟨⟨i, s⟩, hroll', heq⟩ := List.mem_map.mp hmem
      obtain ⟨rfl, rfl⟩ := Prod.mk.inj heq
      exact ⟨n, i, s, r, Nat.lt_succ_self n, hr, htells, (hroll.mem_iff i s).mp hroll', rfl⟩

theorem recorded_served (requests : List Request) (hn : n ≤ requests.length) :
    Recorded requests n (served (requests.take n)).watch.delivered.toList := by
  induction n with
  | zero => exact ⟨List.nodup_nil, nofun⟩
  | succ n ih =>
    obtain ⟨r, hr⟩ : ∃ r, requests[n]? = some r := ⟨_, List.getElem?_eq_getElem hn⟩
    have htallied := tallied_served requests (Nat.le_of_succ_le hn)
    have hrecorded := ih (Nat.le_of_succ_le hn)
    rw [served_take_succ hr]
    by_cases htells : ∃ name, r.Tells name
    · obtain ⟨name, htells⟩ := htells
      obtain ⟨roll, hroll, hsame⟩ := htallied.roll name
      rw [(htells.told _).delivered, hsame]
      exact hrecorded.told hr htells hroll
    · have hquiet : ∀ name, ¬ r.Tells name := fun name h ↦ htells ⟨name, h⟩
      rw [(Request.leaves htallied.keys hquiet).2.1]
      exact ⟨hrecorded.distinct, fun k name hmem ↦ by
        obtain ⟨n', i, s, r', hn', hrest⟩ := hrecorded.waited k name hmem
        exact ⟨n', i, s, r', Nat.lt_succ_of_lt hn', hrest⟩⟩

/-- How any requests are served. -/
structure Notifies (requests : List Request) : Prop where
  /-- No subscription is told twice. -/
  once : ((served requests).watch.delivered.toList.map Prod.fst).Nodup
  /-- A request that tells of a name runs the callbacks of those that stand, in the order of
  their subscription, and goes on after a failure. -/
  told : ∀ n r name, requests[n]? = some r → r.Tells name → ∃ roll, Roll requests name n roll ∧
    Told name (roll.map Prod.snd) (served (requests.take n)) (r.serve (served (requests.take n))).1
      (served (requests.take (n + 1)))
  /-- Nobody is told by any other request. -/
  silent : ∀ n r, requests[n]? = some r → (∀ name, ¬ r.Tells name) →
    (served (requests.take (n + 1))).watch.delivered =
      (served (requests.take n)).watch.delivered
  /-- A request that tells of one name changes no subscription to another one. -/
  others : ∀ n r name other, requests[n]? = some r → r.Tells name → other ≠ name →
    (served (requests.take (n + 1))).watch.subscribers other =
      (served (requests.take n)).watch.subscribers other
  /-- Binding a builtin's name is telling of it with the binding in place, and binding another
  name is nothing else. -/
  binds : ∀ n name binding, requests[n]? = some (.bind name binding) →
    (Request.bind name binding).serve (served (requests.take n)) =
      if Builtin.isName name then Request.serve { served (requests.take n) with
        frame := (served (requests.take n)).frame.insert name binding } (.notify name)
      else (.ok (), { served (requests.take n) with
        frame := (served (requests.take n)).frame.insert name binding })
  /-- The binding stays, whatever the callbacks answer. -/
  bound : ∀ n name binding other, requests[n]? = some (.bind name binding) →
    (served (requests.take (n + 1))).frame.get? other =
      if other = name then some binding else (served (requests.take n)).frame.get? other

theorem frame_bind (m : Machine) (name : String) (binding : Binding) :
    (m.bind name binding).2.frame = m.frame.insert name binding := by
  unfold Machine.bind notify
  dsimp only
  split_ifs <;> rfl

/-- Every subscription is told exactly once, by the first request that tells of its name, unless
it was cleared or pruned before that. -/
theorem notifies_always (requests : List Request) : Notifies requests where
  once := by
    have hrecorded := recorded_served requests (Nat.le_refl requests.length)
    rw [List.take_length] at hrecorded
    exact hrecorded.distinct
  told := fun n r name hr htells ↦ by
    obtain ⟨hn, _⟩ := List.getElem?_eq_some_iff.mp hr
    obtain ⟨roll, hroll, hsame⟩ := (tallied_served requests (Nat.le_of_lt hn)).roll name
    refine ⟨roll, hroll, ?_⟩
    rw [served_take_succ hr, ← hsame]
    exact htells.told _
  silent := fun n r hr hquiet ↦ by
    obtain ⟨hn, _⟩ := List.getElem?_eq_some_iff.mp hr
    rw [served_take_succ hr]
    exact (Request.leaves (tallied_served requests (Nat.le_of_lt hn)).keys hquiet).2.1
  others := fun n r name other hr htells hother ↦ by
    rw [served_take_succ hr, (htells.told _).subscribers, if_neg hother]
  binds := fun _ _ _ _ ↦ rfl
  bound := fun n name binding other hr ↦ by
    rw [served_take_succ hr]
    show ((served (requests.take n)).bind name binding).2.frame.get? other = _
    rw [frame_bind, Frame.get?_insert]

end Machine

end AdaptiveTree
