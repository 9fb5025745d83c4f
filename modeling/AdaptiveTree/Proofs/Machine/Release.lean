import AdaptiveTree.Engine
import AdaptiveTree.Proofs.Machine.Sound
import AdaptiveTree.Proofs.Reading.Shows
import AdaptiveTree.Proofs.Tree.Discarding

/-!
Releasing a program. Its root is discarded with all that hangs below it, and the subscriptions
of its return tails are pruned. Every other program shows what it showed before, and the number
of the one released leads nowhere.
-/

set_option autoImplicit false
set_option relaxedAutoImplicit false

namespace AdaptiveTree

variable {calls : NodeId → Span} {busy : NodeId → Prop} {t : Tree} {id x y : NodeId} {part : Part}

theorem Tree.IsRoot.discard (hforest : t.Forest) (hy : t.IsRoot y) (hne : y ≠ x) :
    (t.discard x).IsRoot y := by
  have hnot := Tree.not_reaches_root hforest hy hne
  obtain ⟨n, hn, hnone⟩ := hy
  exact ⟨n, Tree.node?_discard_eq_some_iff.mpr ⟨hn, hnot⟩, hnone⟩

/-- A number that leads to a node that is kept goes on leading there. -/
theorem Tree.resolve_discard (hforest : t.Forest) (hx : t.IsRoot x)
    (hresolve : t.resolve id = .ok y) (hnot : ¬ t.Reaches x y) :
    (t.discard x).resolve id = .ok y := by
  obtain ⟨n, hn⟩ := Tree.exists_node?_of_resolve hresolve
  rw [(Tree.persists_discard hforest hx).resolve_eq (hforest.discard hx).ascending hresolve]
  exact Tree.resolve_of_node? (Tree.node?_discard_eq_some_iff.mpr ⟨hn, hnot⟩)

theorem Shows.discard (h : Shows calls (fun _ ↦ False) t id part) (hforest : t.Forest)
    (hx : t.IsRoot x) (hresolve : t.resolve id = .ok y) (hy : t.IsRoot y) (hne : y ≠ x) :
    Shows calls (fun _ ↦ False) (t.discard x) id part := by
  have hroot : ∀ z, t.resolve id = .ok z → ¬ t.Reaches x z := by
    intro z hz
    obtain rfl := Except.ok.inj (hresolve.symm.trans hz)
    exact Tree.not_reaches_root hforest hy hne
  have havoid := h.avoid hforest (t.Reaches x)
    (fun _ hreach ↦ Tree.live_of_reaches hforest hx hreach)
    (fun _ _ hnames hreach ↦ Tree.reaches_of_names hforest hx hnames hreach) hroot
  have hkept : ∀ z n, t.node? z = some n →
      ¬ t.Occupied (fun y ↦ False ∨ t.Reaches x y) z → ¬ t.Reaches x z :=
    fun _ _ hn hnot hreach ↦ hnot (.of_live hn (Or.inr hreach))
  refine havoid.congr (fun _ hb ↦ absurd hb Tree.not_occupied_nobody) ?_ ?_ fun _ _ _ ↦ rfl
  · intro id z hz hnot
    obtain ⟨n, hn⟩ := Tree.exists_node?_of_resolve hz
    exact Tree.resolve_discard hforest hx hz (hkept z n hn hnot)
  · intro z n hn hnot
    exact ⟨n, Tree.node?_discard_eq_some_iff.mpr ⟨hn, hkept z n hn hnot⟩, rfl, rfl⟩

namespace Machine

variable {m : Machine} {t' : Tree}

/-- A tree from which nothing but whole slots was discarded. -/
theorem hasOwner_iff
    (hslots : ∀ x : NodeId, t'.slots[x]? = t.slots[x]? ∨ t'.slots[x]? = some Slot.discarded)
    {s : Subscription} (htail : t.IsBuiltinTail s.owner) :
    Watch.hasOwner t' s = true ↔ t'.IsBuiltinTail s.owner := by
  obtain ⟨n, hn, hkind⟩ := htail
  unfold Watch.hasOwner
  rcases hslots s.owner with heq | hgone
  · have hn' : t'.node? s.owner = some n := by
      rw [Tree.node?, heq]
      exact hn
    rw [Tree.resolve_of_node? hn', Tree.isBuiltinTail_iff hn']
    simp [hkind]
  · rw [Tree.resolve_of_discarded hgone]
    constructor
    · intro hlive
      simp at hlive
    · rintro ⟨n', hn', _⟩
      rw [Tree.node?, hgone] at hn'
      cases hn'

/-- Pruning the watch makes up for the return tails that a smaller tree has lost. -/
theorem Sound.prune (h : m.Sound calls) (hforest : t'.Forest)
    (hslots : ∀ x : NodeId, t'.slots[x]? = m.tree.slots[x]? ∨ t'.slots[x]? = some Slot.discarded) :
    ({ m with tree := t', watch := m.watch.prune t' } : Machine).Sound calls := by
  have hsubs : ∀ name, (m.watch.prune t').subscribers name =
      (m.watch.subscribers name).filter (Watch.hasOwner t') := fun _ ↦
    Watch.subscribers_prune h.keys t'
  have htail : ∀ s ∈ m.watch.subscribers "return", m.tree.IsBuiltinTail s.owner := fun s hs ↦
    (h.mem_owners s.owner).mp (List.mem_map_of_mem hs)
  have hleft : ∀ x, t'.IsBuiltinTail x → m.tree.IsBuiltinTail x := by
    rintro x ⟨n, hn, hkind⟩
    rcases hslots x with heq | hgone
    · refine ⟨n, ?_, hkind⟩
      rw [Tree.node?, ← heq]
      exact hn
    · rw [Tree.node?, hgone] at hn
      cases hn
  refine ⟨hforest, Watch.nodup_prune h.keys t', fun name hname ↦ ?_, ?_, fun x ↦ ?_,
    fun s hs ↦ ?_, fun hbound x hx ↦ h.unbound hbound x (hleft x hx)⟩
  · rw [hsubs, h.others name hname]
    rfl
  · show (List.map Subscription.owner ((m.watch.prune t').subscribers "return")).Nodup
    rw [hsubs]
    exact h.distinct.sublist (List.filter_sublist.map _)
  · show x ∈ List.map Subscription.owner ((m.watch.prune t').subscribers "return") ↔ _
    rw [hsubs, List.mem_map]
    constructor
    · rintro ⟨s, hs, rfl⟩
      obtain ⟨hmem, hlive⟩ := List.mem_filter.mp hs
      exact (hasOwner_iff hslots (htail s hmem)).mp hlive
    · intro hx
      obtain ⟨s, hs, rfl⟩ := List.mem_map.mp ((h.mem_owners x).mpr (hleft x hx))
      exact ⟨s, List.mem_filter.mpr ⟨hs, (hasOwner_iff hslots (htail s hs)).mpr hx⟩, rfl⟩
  · rw [hsubs] at hs
    exact h.callback s (List.mem_filter.mp hs).1

end Machine

namespace Engine

variable {e : Engine} {p : Program}

theorem release_of_resolve (hresolve : e.machine.tree.resolve p.root = .ok x) :
    (e.release p).machine = { e.machine with
      tree := e.machine.tree.discard x
      watch := e.machine.watch.prune (e.machine.tree.discard x) } := by
  unfold release
  dsimp only
  rw [hresolve]

/-- Releasing a program that is gone changes nothing that matters. -/
theorem release_of_error {err : TreeError} (hresolve : e.machine.tree.resolve p.root = .error err) :
    (e.release p).machine = { e.machine with
      watch := e.machine.watch.prune e.machine.tree } := by
  unfold release
  dsimp only
  rw [hresolve]

end Engine

end AdaptiveTree
