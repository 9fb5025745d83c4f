import AdaptiveTree.Proofs.Tree.Slots

/-!
Following the links of a tree in which every link leads upwards. Such a chain ends before the
slots do, so `resolve` obeys the equations one would write for it without a budget, and what
a number led to stays on its way when more nodes are replaced.
-/

set_option autoImplicit false
set_option relaxedAutoImplicit false

namespace AdaptiveTree.Tree

variable {t t' : Tree} {id x : NodeId} {n : Node}

/-- Links lead to nodes that were allocated after the node they replaced. -/
def Ascending (t : Tree) : Prop :=
  ∀ id link, t.forwarded? id = some link → id < link.target ∧ link.target < t.slots.size

theorem resolve_of_node? (h : t.node? id = some n) : t.resolve id = .ok id := by
  simp [resolve, resolveWithin, node?_eq_some_iff.mp h]

/-- Any two budgets that cover the slots from a number on give the same answer. -/
theorem resolveWithin_congr (hascending : t.Ascending) :
    ∀ (first second : Nat) (id : NodeId), t.slots.size ≤ id + first →
      t.slots.size ≤ id + second →
      t.resolveWithin (first + 1) id = t.resolveWithin (second + 1) id := by
  intro first
  induction first with
  | zero =>
    intro second id hfirst _
    have hnone : t.slots[id]? = none := Array.getElem?_eq_none (by simpa using hfirst)
    simp [resolveWithin, hnone]
  | succ first ih =>
    intro second id hfirst hsecond
    rcases hslot : t.slots[id]? with _ | _ | link | _
    · simp [resolveWithin, hslot]
    · simp [resolveWithin, hslot]
    · have hid : id < t.slots.size := (Array.getElem?_eq_some_iff.mp hslot).1
      obtain ⟨hup, hbound⟩ := hascending id link (forwarded?_eq_some_iff.mpr hslot)
      obtain ⟨second, rfl⟩ : ∃ k, second = k + 1 := ⟨second - 1, by grind⟩
      have hrest := ih second link.target (by grind) (by grind)
      rw [resolveWithin, resolveWithin, hslot]
      exact hrest
    · simp [resolveWithin, hslot]

theorem resolve_of_retired (hascending : t.Ascending) {link : Forward}
    (h : t.slots[id]? = some (.retired link)) : t.resolve id = t.resolve link.target := by
  obtain ⟨hup, hbound⟩ := hascending id link (forwarded?_eq_some_iff.mpr h)
  obtain ⟨size, hsize⟩ : ∃ k, t.slots.size = k + 1 := ⟨t.slots.size - 1, by grind⟩
  have hrest := resolveWithin_congr hascending size (size + 1) link.target (by grind) (by grind)
  unfold resolve
  rw [hsize] at *
  rw [resolveWithin, h]
  exact hrest

theorem resolve_of_discarded (h : t.slots[id]? = some .discarded) :
    t.resolve id = .error (.retired id) := by
  simp [resolve, resolveWithin, h]

theorem exists_node?_of_resolveWithin {budget : Nat} :
    ∀ {id : NodeId}, t.resolveWithin budget id = .ok x → ∃ n, t.node? x = some n := by
  induction budget with
  | zero => intro id h; cases h
  | succ budget ih =>
    intro id h
    rw [resolveWithin] at h
    rcases hslot : t.slots[id]? with _ | n | link | _ <;> rw [hslot] at h
    · simp at h
    · obtain rfl := Except.ok.inj h
      exact ⟨n, node?_eq_some_iff.mpr hslot⟩
    · exact ih h
    · simp at h

theorem exists_node?_of_resolve (h : t.resolve id = .ok x) : ∃ n, t.node? x = some n :=
  exists_node?_of_resolveWithin h

theorem lt_size_of_resolve (h : t.resolve id = .ok x) : id < t.slots.size := by
  by_contra hid
  have hnone : t.slots[id]? = none := Array.getElem?_eq_none (Nat.not_lt.mp hid)
  rw [resolve, resolveWithin, hnone] at h
  simp at h

/-- Only the slots matter, not what is counted and logged. -/
theorem resolve_congr (h : t'.slots = t.slots) (id : NodeId) : t'.resolve id = t.resolve id := by
  have hwithin : ∀ (budget : Nat) (id : NodeId),
      t'.resolveWithin budget id = t.resolveWithin budget id := by
    intro budget
    induction budget with
    | zero => exact fun _ ↦ rfl
    | succ budget ih =>
      intro id
      rw [resolveWithin, resolveWithin, h]
      rcases t.slots[id]? with _ | _ | link | _
      · rfl
      · rfl
      · exact ih link.target
      · rfl
  rw [resolve, resolve, h, hwithin]

/-- What is dead in one tree is dead in the same way in the other. -/
structure Persists (t t' : Tree) : Prop where
  retired : ∀ {id : NodeId} {link : Forward}, t.slots[id]? = some (.retired link) →
    t'.slots[id]? = some (.retired link)
  discarded : ∀ {id : NodeId}, t.slots[id]? = some .discarded → t'.slots[id]? = some .discarded

theorem Persists.refl (t : Tree) : Persists t t := ⟨fun h ↦ h, fun h ↦ h⟩

theorem Persists.trans {t'' : Tree} (h : Persists t t') (h' : Persists t' t'') : Persists t t'' :=
  ⟨fun hid ↦ h'.retired (h.retired hid), fun hid ↦ h'.discarded (h.discarded hid)⟩

/-- A number goes on leading to whatever it led to before. -/
theorem Persists.resolve_eq (h : Persists t t') (hascending : t'.Ascending)
    (hresolve : t.resolve id = .ok x) : t'.resolve id = t'.resolve x := by
  have hwithin : ∀ (budget : Nat) (id : NodeId), t.resolveWithin budget id = .ok x →
      t'.resolve id = t'.resolve x := by
    intro budget
    induction budget with
    | zero => intro id hx; cases hx
    | succ budget ih =>
      intro id hx
      rw [resolveWithin] at hx
      rcases hslot : t.slots[id]? with _ | n | link | _ <;> rw [hslot] at hx
      · simp at hx
      · rw [Except.ok.inj hx]
      · rw [resolve_of_retired hascending (h.retired hslot)]
        exact ih link.target hx
      · simp at hx
  exact hwithin _ id hresolve

/-- A number that leads to a discarded node never leads anywhere again. -/
theorem Persists.resolve_eq_error (h : Persists t t') (hascending : t.Ascending)
    (hascending' : t'.Ascending) {e : TreeError} (hid : id < t.slots.size)
    (hresolve : t.resolve id = .error e) : t'.resolve id = .error e := by
  have hwithin : ∀ (budget : Nat) (id : NodeId), id < t.slots.size →
      t.slots.size ≤ id + budget → t.resolveWithin (budget + 1) id = .error e →
      t'.resolve id = .error e := by
    intro budget
    induction budget with
    | zero => intro id hid hbudget _; grind
    | succ budget ih =>
      intro id hid hbudget hx
      rw [resolveWithin] at hx
      rcases hslot : t.slots[id]? with _ | n | link | _ <;> rw [hslot] at hx
      · exact absurd (Array.getElem?_eq_none_iff.mp hslot) (Nat.not_le.mpr hid)
      · simp at hx
      · obtain ⟨hup, hbound⟩ := hascending id link (forwarded?_eq_some_iff.mpr hslot)
        rw [resolve_of_retired hascending' (h.retired hslot)]
        exact ih link.target hbound (by grind) hx
      · rw [← hx]
        exact resolve_of_discarded (h.discarded hslot)
  exact hwithin t.slots.size id hid (Nat.le_add_left _ _) hresolve

end AdaptiveTree.Tree
