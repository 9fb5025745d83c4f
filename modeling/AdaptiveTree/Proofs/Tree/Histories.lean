import AdaptiveTree.Proofs.Tree.Splicing

/-!
Trees made by operations in any order and with any numbers. No operation touches a slot that is
not live, and each makes at most one link, younger than all before it, from a live node to a live
node. So on the way along links every next one is younger, except that a node that was put into
its own place is linked to itself.
-/

set_option autoImplicit false
set_option relaxedAutoImplicit false

namespace AdaptiveTree

/-- What an edit leaves of a tree, whether it fails or not. -/
def Edit.left {α : Type} (edit : Edit α) (t : Tree) : Tree :=
  match edit t with
  | .ok _ t' | .error _ t' => t'

theorem Edit.left_of_ok {α : Type} {e : Edit α} {a : α} {t t' : Tree} (h : e t = .ok a t') :
    e.left t = t' := by
  rw [left, h]

theorem Edit.left_of_error {α : Type} {e : Edit α} {err : TreeError} {t t' : Tree}
    (h : e t = .error err t') : e.left t = t' := by
  rw [left, h]

namespace Tree

/-- What a tree can be asked to do. -/
inductive Operation where
  | alloc (kind : NodeKind) (span : Span)
  | replaceChild (parent old new : NodeId) (reason : String)
  | replaceSelf (node new : NodeId) (reason : String)
  | insertAbove (parent child : NodeId) (wrap : NodeId → NodeKind) (reason : String)
  | discard (node : NodeId)
  | takeLog

namespace Operation

def apply (t : Tree) : Operation → Tree
  | alloc kind span => (Edit.alloc kind span).left t
  | replaceChild parent old new reason => (Edit.replaceChild parent old new reason).left t
  | replaceSelf node new reason => (Edit.replaceSelf node new reason).left t
  | insertAbove parent child wrap reason => (Edit.insertAbove parent child wrap reason).left t
  | discard node => t.discard node
  | takeLog => Edit.takeLog.left t

/-- No node is put into its own place. -/
def Proper : Operation → Prop
  | replaceChild _ old new _ | replaceSelf old new _ => old ≠ new
  | _ => True

end Operation

/-- A tree from its beginning. -/
def after (operations : List Operation) : Tree := operations.foldl Operation.apply empty

theorem after_append (first more : List Operation) :
    after (first ++ more) = more.foldl Operation.apply (after first) :=
  List.foldl_append

variable {t t' : Tree} {id : NodeId} {operation : Operation}

/-! ### One operation -/

/-- What one operation does to the slots that are not live. -/
structure Advances (operation : Operation) (t t' : Tree) : Prop where
  size_le : t.slots.size ≤ t'.slots.size
  persists : Persists t t'
  /-- No link is made, or one by putting a live node into the place of a live node. -/
  links : t.generation ≤ t'.generation ∧ (∀ i, t'.forwarded? i = t.forwarded? i) ∨
    ∃ old new, (∃ n, t.node? old = some n) ∧ (∃ m, t.node? new = some m) ∧
      (operation.Proper → old ≠ new) ∧ t'.generation = t.generation + 1 ∧
      ∀ i, t'.forwarded? i = if i = old then some ⟨new, t.generation + 1⟩ else t.forwarded? i

theorem Persists.forwarded?_eq_some (h : Persists t t') {link : Forward}
    (hlink : t.forwarded? id = some link) : t'.forwarded? id = some link :=
  forwarded?_eq_some_iff.mpr (h.retired (forwarded?_eq_some_iff.mp hlink))

theorem Persists.forwarded?_eq (h : Persists t t')
    (hlinks : ∀ link, t'.forwarded? id = some link → t.forwarded? id = some link) :
    t'.forwarded? id = t.forwarded? id := by
  rcases hlink : t'.forwarded? id with _ | link
  · rcases hold : t.forwarded? id with _ | link
    · rfl
    · cases hlink.symm.trans (h.forwarded?_eq_some hold)
  · exact (hlinks link hlink).symm

/-- An operation that makes no link at all. -/
theorem advances_of_unlinked (operation : Operation) (hsize : t.slots.size ≤ t'.slots.size)
    (hpersists : Persists t t') (hgeneration : t.generation ≤ t'.generation)
    (hlinks : ∀ i link, t'.forwarded? i = some link → t.forwarded? i = some link) :
    Advances operation t t' :=
  ⟨hsize, hpersists, Or.inl ⟨hgeneration, fun i ↦ hpersists.forwarded?_eq (hlinks i)⟩⟩

theorem advances_same (operation : Operation) (t : Tree) : Advances operation t t :=
  advances_of_unlinked operation (Nat.le_refl _) (Persists.refl t) (Nat.le_refl _)
    fun _ _ h ↦ h

theorem Spliced.advances {holder : Option NodeId} {old new : NodeId} {reason : String}
    (h : Spliced t holder old new reason t') (hproper : operation.Proper → old ≠ new) :
    Advances operation t t' where
  size_le := Nat.le_of_eq h.size_eq.symm
  persists := h.persists
  links := Or.inr ⟨old, new, h.live_old, h.live_new, hproper, h.generation_eq, h.forwarded?_eq⟩

theorem forwarded?_of_alloc {kind : NodeKind} {span : Span} {link : Forward}
    (h : (t.alloc kind span).forwarded? id = some link) : t.forwarded? id = some link := by
  have hpush : (t.slots.push (.live ⟨kind, span, none⟩))[id]? = some (.retired link) := by
    have hslot := forwarded?_eq_some_iff.mp h
    rw [alloc, slots_foldl_adopt] at hslot
    dsimp only at hslot
    split_ifs at hslot
    · obtain ⟨s, hs, hmap⟩ := Option.map_eq_some_iff.mp hslot
      cases s with
      | retired => rwa [← hmap]
      | live | discarded => cases hmap
    · exact hslot
  rw [Array.getElem?_push] at hpush
  split_ifs at hpush
  · cases hpush
  · exact forwarded?_eq_some_iff.mpr hpush

theorem Inserted.persists {parent child : NodeId} {wrap : NodeKind} {reason : String}
    (h : Inserted t parent child wrap reason t') : Persists t t' := by
  obtain ⟨n, _, hslots⟩ := h.slots_eq
  have hpersists := (persists_alloc t wrap n.span).trans
    (persists_seat (t.alloc wrap n.span) (some parent) child t.nextId)
  exact ⟨fun h ↦ hslots ▸ hpersists.retired h, fun h ↦ hslots ▸ hpersists.discarded h⟩

theorem Inserted.size_eq {parent child : NodeId} {wrap : NodeKind} {reason : String}
    (h : Inserted t parent child wrap reason t') : t'.slots.size = t.slots.size + 1 := by
  obtain ⟨n, _, hslots⟩ := h.slots_eq
  rw [hslots]
  exact (size_seat _ (some parent) child t.nextId).trans (size_alloc t wrap n.span)

theorem Inserted.forwarded?_eq {parent child : NodeId} {wrap : NodeKind} {reason : String}
    (h : Inserted t parent child wrap reason t') (i : NodeId) :
    t'.forwarded? i = t.forwarded? i := by
  obtain ⟨n, _, hslots⟩ := h.slots_eq
  refine h.persists.forwarded?_eq fun link hlink ↦ ?_
  have hseat : t'.forwarded? i = (t.alloc wrap n.span).forwarded? i := by
    have hsame := forwarded?_seat (t.alloc wrap n.span) (some parent) child t.nextId i
    rwa [Tree.forwarded?_eq, seat, ← hslots, ← Tree.forwarded?_eq] at hsame
  exact forwarded?_of_alloc (hseat.symm.trans hlink)

theorem Inserted.advances {parent child : NodeId} {wrap : NodeKind} {reason : String}
    (h : Inserted t parent child wrap reason t') : Advances operation t t' :=
  advances_of_unlinked operation (by rw [h.size_eq]; exact Nat.le_succ _) h.persists
    (by rw [h.generation_eq]; exact Nat.le_succ _)
    fun i _ hlink ↦ (h.forwarded?_eq i).symm.trans hlink

theorem forwarded?_discard (t : Tree) (node i : NodeId) :
    (t.discard node).forwarded? i = t.forwarded? i := by
  refine (persists_discardWithin _ t node).forwarded?_eq fun link hlink ↦ ?_
  have hslot := forwarded?_eq_some_iff.mp hlink
  rcases (discarded_discard t node).slot i with heq | ⟨hgone, _⟩
  · exact forwarded?_eq_some_iff.mpr (heq.symm.trans hslot)
  · cases hgone.symm.trans hslot

theorem advances_discard (t : Tree) (node : NodeId) :
    Advances operation t (t.discard node) :=
  advances_of_unlinked operation (Nat.le_of_eq (discarded_discard t node).size_eq.symm)
    (persists_discardWithin _ t node) (Nat.le_of_eq (discarded_discard t node).history.1.symm)
    fun i _ hlink ↦ (forwarded?_discard t node i).symm.trans hlink

theorem Operation.advances (operation : Operation) (t : Tree) :
    Advances operation t (operation.apply t) := by
  cases operation with
  | alloc kind span =>
    refine advances_of_unlinked _ (by simp [apply, Edit.left, Edit.alloc])
      (persists_alloc t kind span) (Nat.le_of_eq (generation_alloc t kind span).symm)
      fun i link hlink ↦ forwarded?_of_alloc hlink
  | replaceChild parent old new reason =>
    rcases Edit.replaceChild_cases t parent old new reason with ⟨e, he⟩ | ⟨t', hok, hspliced⟩
    · rw [apply, Edit.left_of_error he]
      exact advances_same _ t
    · rw [apply, Edit.left_of_ok hok]
      exact hspliced.advances fun h ↦ h
  | replaceSelf node new reason =>
    rcases Edit.replaceSelf_cases t node new reason with ⟨e, he⟩ | ⟨n, t', _, hok, hspliced⟩
    · rw [apply, Edit.left_of_error he]
      exact advances_same _ t
    · rw [apply, Edit.left_of_ok hok]
      exact hspliced.advances fun h ↦ h
  | insertAbove parent child wrap reason =>
    rcases Edit.insertAbove_cases t parent child wrap reason with ⟨e, he⟩ | ⟨t', hok, hinserted⟩
    · rw [apply, Edit.left_of_error he]
      exact advances_same _ t
    · rw [apply, Edit.left_of_ok hok]
      exact hinserted.advances
  | discard node => exact advances_discard t node
  | takeLog =>
    exact advances_of_unlinked _ (Nat.le_refl _) ⟨fun h ↦ h, fun h ↦ h⟩ (Nat.le_refl _)
      fun _ _ h ↦ h

/-! ### Any number of operations -/

theorem foldl_induction {P : Tree → Prop} (operations : List Operation)
    (hstep : ∀ t, ∀ operation ∈ operations, P t → P (operation.apply t)) :
    ∀ t, P t → P (operations.foldl Operation.apply t) := by
  induction operations with
  | nil => exact fun _ h ↦ h
  | cons operation rest ih =>
    intro t h
    exact ih (fun t o ho ↦ hstep t o (List.mem_cons_of_mem operation ho)) _
      (hstep t operation List.mem_cons_self h)

theorem persists_operations (operations : List Operation) (t : Tree) :
    Persists t (operations.foldl Operation.apply t) :=
  foldl_induction operations (fun u operation _ h ↦ h.trans (operation.advances u).persists) t
    (Persists.refl t)

theorem size_le_operations (operations : List Operation) (t : Tree) :
    t.slots.size ≤ (operations.foldl Operation.apply t).slots.size :=
  foldl_induction operations
    (fun u operation _ h ↦ Nat.le_trans h (operation.advances u).size_le) t (Nat.le_refl _)

/-- The links are as old as they say and lead to numbers in use. -/
structure Dated (t : Tree) : Prop where
  generation_le : ∀ id link, t.forwarded? id = some link → link.generation ≤ t.generation
  target_lt : ∀ id link, t.forwarded? id = some link → link.target < t.slots.size
  /-- A link found behind another one is younger. -/
  increasing : ∀ id link next, t.forwarded? id = some link → link.target ≠ id →
    t.forwarded? link.target = some next → link.generation < next.generation

theorem Dated.apply (h : t.Dated) (operation : Operation) : (operation.apply t).Dated := by
  obtain ⟨hsize, _, ⟨hgeneration, hsame⟩ | ⟨old, new, _, ⟨m, hnew⟩, _, hgeneration, hlinks⟩⟩ :=
    operation.advances t
  · constructor
    · intro id link hlink
      exact Nat.le_trans (h.generation_le id link ((hsame id).symm.trans hlink)) hgeneration
    · intro id link hlink
      exact Nat.lt_of_lt_of_le (h.target_lt id link ((hsame id).symm.trans hlink)) hsize
    · intro id link next hlink hne hnext
      rw [hsame] at hlink hnext
      exact h.increasing id link next hlink hne hnext
  · have hunlinked : t.forwarded? new = none := by
      rw [forwarded?_eq, node?_eq_some_iff.mp hnew]
      rfl
    constructor
    · intro id link hlink
      rw [hlinks] at hlink
      rw [hgeneration]
      split_ifs at hlink with hid
      · obtain rfl := Option.some.inj hlink
        exact Nat.le_refl _
      · exact Nat.le_succ_of_le (h.generation_le id link hlink)
    · intro id link hlink
      rw [hlinks] at hlink
      refine Nat.lt_of_lt_of_le ?_ hsize
      split_ifs at hlink with hid
      · obtain rfl := Option.some.inj hlink
        exact lt_size_of_node? hnew
      · exact h.target_lt id link hlink
    · intro id link next hlink hne hnext
      rw [hlinks] at hlink hnext
      split_ifs at hlink with hid
      · -- the new link leads to a node that was live, so nothing follows it
        obtain rfl := Option.some.inj hlink
        rw [if_neg fun heq ↦ hne (heq.trans hid.symm), hunlinked] at hnext
        cases hnext
      · split_ifs at hnext with htarget
        · obtain rfl := Option.some.inj hnext
          exact Nat.lt_succ_of_le (h.generation_le id link hlink)
        · exact h.increasing id link next hlink hne hnext

theorem dated_empty : empty.Dated := by
  constructor <;> intro id link <;> simp [forwarded?_eq, empty]

theorem dated_after (operations : List Operation) : (after operations).Dated :=
  foldl_induction operations (fun _ operation _ h ↦ h.apply operation) _ dated_empty

/-- No node is linked to itself. -/
def Straight (t : Tree) : Prop := ∀ id link, t.forwarded? id = some link → link.target ≠ id

theorem Straight.apply (h : t.Straight) (hproper : operation.Proper) :
    (operation.apply t).Straight := by
  intro id link hlink
  obtain ⟨_, _, ⟨_, hsame⟩ | ⟨old, new, _, _, hne, _, hlinks⟩⟩ := operation.advances t
  · exact h id link ((hsame id).symm.trans hlink)
  · rw [hlinks] at hlink
    split_ifs at hlink with hid
    · obtain rfl := Option.some.inj hlink
      rw [hid]
      exact (hne hproper).symm
    · exact h id link hlink

/-- Assumes: no operation that puts a node into its own place. -/
theorem straight_after {operations : List Operation} (hproper : ∀ o ∈ operations, o.Proper) :
    (after operations).Straight :=
  foldl_induction operations (fun _ o ho h ↦ h.apply (hproper o ho)) _
    fun id link h ↦ by simp [forwarded?_eq, empty] at h

end Tree

end AdaptiveTree
