import AdaptiveTree.Machine
import AdaptiveTree.Proofs.Tree.Links

/-!
Looking up subscriptions after the operations of a watch. Every name is entered at most once,
so what is kept under a name is told by the operations on that name alone.
-/

set_option autoImplicit false
set_option relaxedAutoImplicit false

namespace AdaptiveTree.Watch

variable {w : Watch} {entries : List (String × List Subscription)} {name other : String}
  {subs : List Subscription}

theorem lookup_setEntry :
    (setEntry name subs entries).lookup other =
      if other = name then some subs else entries.lookup other := by
  induction entries with
  | nil =>
    rw [setEntry, List.lookup_cons]
    split_ifs with h
    · simp [h]
    · have hne : (other == name) = false := by simpa using h
      rw [hne]
  | cons e rest ih =>
    obtain ⟨key, others⟩ := e
    rw [setEntry]
    by_cases hkey : key = name
    · subst hkey
      rw [if_pos rfl, List.lookup_cons, List.lookup_cons]
      split_ifs with h
      · simp [h]
      · have hne : (other == key) = false := by simpa using h
        rw [hne]
    · rw [if_neg hkey, List.lookup_cons, List.lookup_cons, ih]
      by_cases h : other = name
      · subst h
        have hne : (other == key) = false := by simpa using Ne.symm hkey
        simp [hne]
      · simp [h]

theorem keys_setEntry {key : String} (h : key ∈ (setEntry name subs entries).map Prod.fst) :
    key = name ∨ key ∈ entries.map Prod.fst := by
  induction entries with
  | nil => exact Or.inl (by simpa [setEntry] using h)
  | cons e rest ih =>
    rw [setEntry] at h
    split_ifs at h with hkey
    · rw [List.map_cons, List.mem_cons] at h ⊢
      exact h.imp_right Or.inr
    · rw [List.map_cons, List.mem_cons] at h ⊢
      rcases h with h | h
      · exact Or.inr (Or.inl h)
      · exact (ih h).imp_right Or.inr

theorem nodup_setEntry (h : (entries.map Prod.fst).Nodup) :
    ((setEntry name subs entries).map Prod.fst).Nodup := by
  induction entries with
  | nil => simp [setEntry]
  | cons e rest ih =>
    obtain ⟨hnot, hrest⟩ := List.nodup_cons.mp h
    rw [setEntry]
    split_ifs with hkey
    · subst hkey
      exact List.nodup_cons.mpr ⟨hnot, hrest⟩
    · refine List.nodup_cons.mpr ⟨fun hmem ↦ ?_, ih hrest⟩
      rcases keys_setEntry hmem with heq | hmem
      · exact hkey heq
      · exact hnot hmem

theorem subscribers_subscribe {owner : NodeId} {callback : String → Edit Unit} :
    (w.subscribe name owner callback).subscribers other =
      if other = name then w.subscribers name ++ [⟨w.issued, owner, callback⟩]
      else w.subscribers other := by
  unfold subscribe subscribers
  rw [lookup_setEntry]
  split_ifs <;> rfl

/-- Telling of a name empties what was entered under it, and the tree is changed by its
subscribers in the order of their entry. -/
theorem notify_eq (w : Watch) (name : String) (t : Tree) : ∃ w',
    w.notify name t = (w', (w.subscribers name).foldl (deliver name) (t, none)) ∧
      (∀ other, w'.subscribers other = if other = name then [] else w.subscribers other) ∧
      ((w.entries.map Prod.fst).Nodup → (w'.entries.map Prod.fst).Nodup) := by
  unfold notify
  rcases hlookup : w.entries.lookup name with _ | subs
  · have hnone : w.subscribers name = [] := by rw [subscribers, hlookup]; rfl
    refine ⟨w, ?_, ?_, id⟩
    · rw [hnone]
      rfl
    · intro other
      split_ifs with h
      · rw [h, hnone]
      · rfl
  · have hsome : w.subscribers name = subs := by rw [subscribers, hlookup]; rfl
    refine ⟨{ w with
      entries := setEntry name [] w.entries
      delivered := w.delivered ++ (subs.map fun s ↦ (s.serial, name)).toArray },
      ?_, fun other ↦ ?_, ?_⟩
    · rw [hsome]
    · unfold subscribers
      rw [lookup_setEntry]
      split_ifs <;> rfl
    · exact nodup_setEntry

theorem lookup_filter_nonempty (h : (entries.map Prod.fst).Nodup) :
    ((entries.filter fun e ↦ ! e.2.isEmpty).lookup name).getD [] =
      (entries.lookup name).getD [] := by
  induction entries with
  | nil => rfl
  | cons e rest ih =>
    obtain ⟨key, subs⟩ := e
    obtain ⟨hnot, hrest⟩ := List.nodup_cons.mp h
    by_cases hkey : name = key
    · subst hkey
      have hnone : ∀ l : List (String × List Subscription), name ∉ l.map Prod.fst →
          l.lookup name = none := by
        intro l hl
        refine List.lookup_eq_none_iff.mpr fun p hp ↦ ?_
        rw [bne_iff_ne]
        rintro rfl
        exact hl (List.mem_map_of_mem hp)
      cases subs with
      | nil =>
        have hgone : (rest.filter fun e ↦ ! e.2.isEmpty).lookup name = none :=
          hnone _ fun hmem ↦ hnot ((List.filter_sublist.map _).subset hmem)
        simp [hgone]
      | cons s others => simp
    · have hne : (name == key) = false := by simpa using hkey
      rw [List.lookup_cons, hne]
      cases subs with
      | nil => simpa using ih hrest
      | cons s others => simpa [List.lookup_cons, hne] using ih hrest

theorem lookup_map_snd (f : List Subscription → List Subscription) :
    (entries.map fun e ↦ (e.1, f e.2)).lookup name = (entries.lookup name).map f := by
  induction entries with
  | nil => rfl
  | cons e rest ih =>
    obtain ⟨key, subs⟩ := e
    rw [List.map_cons, List.lookup_cons, List.lookup_cons, ih]
    cases name == key <;> rfl

/-- Pruning keeps exactly the subscriptions whose owners are still there. -/
theorem subscribers_prune (h : (w.entries.map Prod.fst).Nodup) (t : Tree) :
    (w.prune t).subscribers name = (w.subscribers name).filter (hasOwner t) := by
  have hkeys : ((w.entries.map fun e ↦ (e.1, e.2.filter (hasOwner t))).map Prod.fst).Nodup := by
    rw [List.map_map]
    exact h
  unfold prune subscribers
  dsimp only
  rw [lookup_filter_nonempty hkeys, lookup_map_snd]
  rcases w.entries.lookup name with _ | subs <;> rfl

theorem nodup_prune (h : (w.entries.map Prod.fst).Nodup) (t : Tree) :
    ((w.prune t).entries.map Prod.fst).Nodup := by
  have hkeys : ((w.entries.map fun e ↦ (e.1, e.2.filter (hasOwner t))).map Prod.fst).Nodup := by
    rw [List.map_map]
    exact h
  exact hkeys.sublist (List.filter_sublist.map _)

end AdaptiveTree.Watch
