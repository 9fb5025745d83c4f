import AdaptiveTree.Proofs.Tree.Histories
import Mathlib.Data.Finset.Card

/-!
Following links as a loop without a bound. Every further link is younger, so the loop ends unless
it meets a node that is linked to itself, and it looks at no more slots than there are. Two
numbers that lead to the same node are together for good.
-/

set_option autoImplicit false
set_option relaxedAutoImplicit false

namespace AdaptiveTree.Tree

variable {t t' : Tree} {id a x : NodeId} {result : Except TreeError NodeId}

/-- The loop that follows links ends with a result when it is started at a number. -/
inductive Walks (t : Tree) : NodeId → Except TreeError NodeId → Prop where
  | live {id : NodeId} {n : Node} (h : t.slots[id]? = some (.live n)) : Walks t id (.ok id)
  | retired {id : NodeId} {link : Forward} {result : Except TreeError NodeId}
      (h : t.slots[id]? = some (.retired link)) (hrest : Walks t link.target result) :
      Walks t id result
  | discarded {id : NodeId} (h : t.slots[id]? = some .discarded) :
      Walks t id (.error (.retired id))
  | unknown {id : NodeId} (h : t.slots[id]? = none) : Walks t id (.error (.unknownNode id))

theorem walks_of_resolve (h : t.resolve id = .ok x) : t.Walks id (.ok x) := by
  have hwithin : ∀ (budget : Nat) (id : NodeId), t.resolveWithin budget id = .ok x →
      t.Walks id (.ok x) := by
    intro budget
    induction budget with
    | zero => intro id h; cases h
    | succ budget ih =>
      intro id h
      rw [resolveWithin] at h
      rcases hslot : t.slots[id]? with _ | n | link | _ <;> rw [hslot] at h
      · cases h
      · obtain rfl := Except.ok.inj h
        exact .live hslot
      · exact .retired hslot (ih link.target h)
      · cases h
  exact hwithin _ id h

/-- The loop never leaves a node that is linked to itself. -/
theorem Walks.target_ne (h : t.Walks id result) {link : Forward}
    (hlink : t.slots[id]? = some (.retired link)) : link.target ≠ id := by
  induction h with
  | live h | discarded h | unknown h => cases h.symm.trans hlink
  | retired h hrest ih =>
    obtain rfl := Slot.retired.inj (Option.some.inj (h.symm.trans hlink))
    intro hself
    rw [hself] at ih
    exact ih hlink rfl

/-! ### How far there is to go -/

/-- The numbers with links younger than a generation. -/
def younger (t : Tree) (generation : Nat) : Finset NodeId :=
  {i ∈ Finset.range t.slots.size | (t.forwarded? i).any fun link ↦ generation < link.generation}

theorem mem_younger {generation : Nat} {i : NodeId} : i ∈ t.younger generation ↔
    ∃ link, t.forwarded? i = some link ∧ generation < link.generation := by
  unfold younger
  rw [Finset.mem_filter, Finset.mem_range, Option.any_eq_true]
  simp only [decide_eq_true_eq]
  refine ⟨fun h ↦ h.2, fun h ↦ ⟨?_, h⟩⟩
  obtain ⟨link, hlink, _⟩ := h
  exact (Array.getElem?_eq_some_iff.mp (forwarded?_eq_some_iff.mp hlink)).1

theorem notMem_younger {i : NodeId} {link : Forward} (h : t.forwarded? i = some link) :
    i ∉ t.younger link.generation := by
  intro hmem
  obtain ⟨other, hother, hlt⟩ := mem_younger.mp hmem
  obtain rfl := Option.some.inj (h.symm.trans hother)
  exact Nat.lt_irrefl _ hlt

theorem card_younger_lt_size {i : NodeId} {link : Forward} (h : t.forwarded? i = some link) :
    (t.younger link.generation).card < t.slots.size := by
  have hlt : i < t.slots.size :=
    (Array.getElem?_eq_some_iff.mp (forwarded?_eq_some_iff.mp h)).1
  rw [← Finset.card_range t.slots.size]
  refine Finset.card_lt_card ((Finset.ssubset_iff_of_subset (Finset.filter_subset _ _)).mpr ?_)
  exact ⟨i, Finset.mem_range.mpr hlt, notMem_younger h⟩

theorem card_younger_lt {i : NodeId} {link : Forward} {generation : Nat}
    (h : t.forwarded? i = some link) (hgeneration : generation < link.generation) :
    (t.younger link.generation).card < (t.younger generation).card := by
  refine Finset.card_lt_card ((Finset.ssubset_iff_of_subset ?_).mpr ?_)
  · intro j hj
    obtain ⟨other, hother, hlt⟩ := mem_younger.mp hj
    exact mem_younger.mpr ⟨other, hother, Nat.lt_trans hgeneration hlt⟩
  · exact ⟨i, mem_younger.mpr ⟨link, h, hgeneration⟩, notMem_younger h⟩

/-- A bound on the links that can still be followed from a number. -/
def ahead (t : Tree) (id : NodeId) : Nat :=
  match t.forwarded? id with
  | some link => (t.younger link.generation).card + 1
  | none => 0

theorem ahead_le_size (t : Tree) (id : NodeId) : t.ahead id ≤ t.slots.size := by
  unfold ahead
  rcases h : t.forwarded? id with _ | link
  · exact Nat.zero_le _
  · exact card_younger_lt_size h

theorem Dated.ahead_lt (hdated : t.Dated) {link : Forward} (h : t.forwarded? id = some link)
    (hne : link.target ≠ id) : t.ahead link.target < t.ahead id := by
  unfold ahead
  rw [h]
  rcases hnext : t.forwarded? link.target with _ | next
  · exact Nat.succ_pos _
  · exact Nat.succ_lt_succ (card_younger_lt hnext (hdated.increasing id link next h hne hnext))

/-! ### The loop and its bound -/

/-- The bound is large enough wherever the loop ends. -/
theorem Walks.resolve_eq (hdated : t.Dated) (h : t.Walks id result) : t.resolve id = result := by
  have hwithin : ∀ budget, t.ahead id < budget → t.resolveWithin budget id = result := by
    induction h with
    | live h | discarded h | unknown h =>
      intro budget hbudget
      obtain ⟨budget, rfl⟩ := Nat.exists_eq_succ_of_ne_zero (Nat.ne_zero_of_lt hbudget)
      rw [Nat.succ_eq_add_one, resolveWithin, h]
    | retired h hrest ih =>
      intro budget hbudget
      obtain ⟨budget, rfl⟩ := Nat.exists_eq_succ_of_ne_zero (Nat.ne_zero_of_lt hbudget)
      rw [Nat.succ_eq_add_one, resolveWithin, h]
      have hless := hdated.ahead_lt (forwarded?_eq_some_iff.mpr h)
        ((Walks.retired h hrest).target_ne h)
      exact ih budget (Nat.lt_of_lt_of_le hless (Nat.le_of_lt_succ hbudget))
  exact hwithin _ (Nat.lt_succ_of_le (ahead_le_size t id))

theorem exists_walks (hdated : t.Dated) (hstraight : t.Straight) (id : NodeId) :
    ∃ result, t.Walks id result := by
  induction hahead : t.ahead id using Nat.strongRecOn generalizing id with
  | ind count ih =>
    rcases hslot : t.slots[id]? with _ | n | link | _
    · exact ⟨_, .unknown hslot⟩
    · exact ⟨_, .live hslot⟩
    · have hlink := forwarded?_eq_some_iff.mpr hslot
      have hless := hdated.ahead_lt hlink (hstraight id link hlink)
      obtain ⟨result, hrest⟩ := ih _ (hahead ▸ hless) link.target rfl
      exact ⟨result, .retired hslot hrest⟩
    · exact ⟨_, .discarded hslot⟩

/-- Assumes: no node that is linked to itself. -/
theorem walks_resolve (hdated : t.Dated) (hstraight : t.Straight) (id : NodeId) :
    t.Walks id (t.resolve id) := by
  obtain ⟨result, hwalks⟩ := exists_walks hdated hstraight id
  rwa [hwalks.resolve_eq hdated]

/-! ### Later -/

/-- The loop takes the way it took before, and goes on from where it stopped. -/
theorem Walks.persists (hpersists : Persists t t') (h : t.Walks id (.ok x))
    (hx : t'.Walks x result) : t'.Walks id result := by
  generalize hend : (Except.ok x : Except TreeError NodeId) = r at h
  induction h with
  | live h =>
    obtain rfl := Except.ok.inj hend
    exact hx
  | retired h _ ih => exact .retired (hpersists.retired h) (ih hend)
  | discarded h | unknown h => cases hend

theorem Walks.persists_retired (hpersists : Persists t t')
    (h : t.Walks id (.error (.retired x))) : t'.Walks id (.error (.retired x)) := by
  generalize hend : (Except.error (.retired x) : Except TreeError NodeId) = r at h
  induction h with
  | live h | unknown h => cases hend
  | retired h _ ih => exact .retired (hpersists.retired h) (ih hend)
  | discarded h =>
    obtain rfl := TreeError.retired.inj (Except.error.inj hend)
    exact .discarded (hpersists.discarded h)

/-- One link leads from a number to the other. -/
def Forwards (t : Tree) (a b : NodeId) : Prop :=
  ∃ generation, t.forwarded? a = some ⟨b, generation⟩

/-- An answer to where a number leads: the live or the discarded node at the end of the links, or
that the number is not in use. -/
def Ends (t : Tree) (id : NodeId) : Except TreeError NodeId → Prop
  | .ok x => Relation.ReflTransGen t.Forwards id x ∧ ∃ n, t.node? x = some n
  | .error (.retired x) =>
    Relation.ReflTransGen t.Forwards id x ∧ t.slots[x]? = some .discarded
  | .error (.unknownNode x) => x = id ∧ t.slots.size ≤ id
  | .error (.notAChild _ _) => False

theorem Walks.ends (hdated : t.Dated) (h : t.Walks id result) : t.Ends id result := by
  induction h with
  | live h => exact ⟨.refl, _, node?_eq_some_iff.mpr h⟩
  | discarded h => exact ⟨.refl, h⟩
  | unknown h => exact ⟨rfl, Array.getElem?_eq_none_iff.mp h⟩
  | @retired id link result h _ ih =>
    have hlink := forwarded?_eq_some_iff.mpr h
    have hstep : t.Forwards id link.target := ⟨link.generation, hlink⟩
    cases result with
    | ok x => exact ⟨.head hstep ih.1, ih.2⟩
    | error e =>
      cases e with
      | retired x => exact ⟨.head hstep ih.1, ih.2⟩
      | unknownNode x => exact absurd ih.2 (Nat.not_le.mpr (hdated.target_lt id link hlink))
      | notAChild => exact ih

/-! ### Every history -/

/-- What is never undone between a tree and the tree that later operations make of it. -/
structure Lasting (t t' : Tree) : Prop where
  /-- No slot is revived, and no link is changed. -/
  persists : Persists t t'
  size_le : t.slots.size ≤ t'.slots.size
  /-- No number is handed out twice. -/
  alloc_unused : ∀ kind span id t'', Edit.alloc kind span t' = .ok id t'' →
    t.slots[id]? = none ∧ t'.slots[id]? = none ∧ t''.slots.size = id + 1
  insertAbove_unused : ∀ parent child wrap reason id t'',
    Edit.insertAbove parent child wrap reason t' = .ok id t'' →
    t.slots[id]? = none ∧ t'.slots[id]? = none ∧ t''.slots.size = id + 1
  together : ∀ a b x, t.resolve a = .ok x → t.resolve b = .ok x → t'.resolve a = t'.resolve b
  /-- What leads nowhere leads nowhere ever after. -/
  failed : ∀ a e, a < t.slots.size → t.resolve a = .error e → t'.resolve a = .error e

/-- Following links comes to an end. -/
structure Traceable (t : Tree) : Prop where
  increasing : ∀ a b next, t.forwarded? a = some b → t.forwarded? b.target = some next →
    b.generation < next.generation
  /-- The loop ends for every number, with the answer that is given within the bound. -/
  walks : ∀ id, t.Walks id (t.resolve id)
  ends : ∀ id, t.Ends id (t.resolve id)

theorem traceable_of_dated (hdated : t.Dated) (hstraight : t.Straight) : t.Traceable where
  increasing := fun a b next hb hnext ↦
    hdated.increasing a b next hb (hstraight a b hb) hnext
  walks := walks_resolve hdated hstraight
  ends := fun id ↦ (walks_resolve hdated hstraight id).ends hdated

theorem lasting_of_traceable (h : t.Traceable) (hdated : t'.Dated) (h' : t'.Traceable)
    (hpersists : Persists t t') (hsize : t.slots.size ≤ t'.slots.size) : Lasting t t' where
  persists := hpersists
  size_le := hsize
  alloc_unused := fun kind span id t'' halloc ↦ by
    obtain ⟨rfl, rfl⟩ : t'.nextId = id ∧ t'.alloc kind span = t'' := by
      cases halloc
      exact ⟨rfl, rfl⟩
    exact ⟨Array.getElem?_eq_none hsize, Array.getElem?_eq_none (Nat.le_refl _),
      size_alloc t' kind span⟩
  insertAbove_unused := fun parent child wrap reason id t'' hinsert ↦ by
    rcases Edit.insertAbove_cases t' parent child wrap reason with ⟨e, he⟩ | ⟨u, hok, hinserted⟩
    · cases he.symm.trans hinsert
    · cases hok.symm.trans hinsert
      exact ⟨Array.getElem?_eq_none hsize, Array.getElem?_eq_none (Nat.le_refl _),
        hinserted.size_eq⟩
  together := fun a b x ha hb ↦ by
    have hgoes : ∀ c, t.resolve c = .ok x → t'.resolve c = t'.resolve x := fun c hc ↦
      ((walks_of_resolve hc).persists hpersists (h'.walks x)).resolve_eq hdated
    rw [hgoes a ha, hgoes b hb]
  failed := fun a e ha he ↦ by
    have hends := h.ends a
    have hwalks := h.walks a
    rw [he] at hends hwalks
    cases e with
    | retired x => exact (hwalks.persists_retired hpersists).resolve_eq hdated
    | unknownNode x => exact absurd hends.2 (Nat.not_le.mpr ha)
    | notAChild => exact hends.elim

/-- Assumes: no operation that puts a node into its own place. -/
theorem lasting_after (first more : List Operation)
    (hproper : ∀ operation ∈ first ++ more, operation.Proper) :
    Lasting (after first) (after (first ++ more)) ∧ (after first).Traceable := by
  have hfirst : (after first).Traceable := traceable_of_dated (dated_after first)
    (straight_after fun o ho ↦ hproper o (List.mem_append_left more ho))
  have hall : (after (first ++ more)).Traceable :=
    traceable_of_dated (dated_after _) (straight_after hproper)
  have hpersists := persists_operations more (after first)
  have hsize := size_le_operations more (after first)
  rw [← after_append] at hpersists hsize
  exact ⟨lasting_of_traceable hfirst (dated_after _) hall hpersists hsize, hfirst⟩

/-- Three nodes, each of which takes the place of the one before. -/
def relayed : List Operation :=
  [.alloc (.constant .null) ⟨0, 1⟩, .alloc (.constant .null) ⟨2, 3⟩, .replaceSelf 0 1 "first",
    .alloc (.constant .null) ⟨4, 5⟩, .replaceSelf 1 2 "second"]

theorem lasting_after_relayed :
    (after relayed).resolve 0 = .ok 2 ∧ (after relayed).resolve 1 = .ok 2 ∧
      (after (relayed ++ [.discard 2])).resolve 0 = .error (.retired 2) ∧
      (after (relayed ++ [.discard 2])).resolve 0 =
        (after (relayed ++ [.discard 2])).resolve 1 := by
  have hproper : ∀ operation ∈ relayed ++ [.discard 2], operation.Proper := by
    simp [relayed, Operation.Proper]
  obtain ⟨hlasting, -⟩ := lasting_after relayed [.discard 2] hproper
  have hzero : (after relayed).resolve 0 = .ok 2 := by decide +kernel
  have hone : (after relayed).resolve 1 = .ok 2 := by decide +kernel
  exact ⟨hzero, hone, by decide +kernel, hlasting.together 0 1 2 hzero hone⟩

end AdaptiveTree.Tree
