import AdaptiveTree.Proofs.Tree.Splicing

/-!
Splices of any tree are all or nothing. Whatever a splice needs to find it looks up before it
writes, and nothing that it writes takes away what it needs later; so one that fails leaves the
tree as it was, and one that succeeds is counted once and logged once.
-/

set_option autoImplicit false
set_option relaxedAutoImplicit false

namespace AdaptiveTree

theorem Tree.Spliced.log_eq {t t' : Tree} {holder : Option NodeId} {old new : NodeId}
    {reason : String} (h : Tree.Spliced t holder old new reason t') :
    ∃ oldKind newKind,
      t'.log = t.log.push ⟨t.generation + 1, old, new, oldKind, newKind, reason⟩ := by
  obtain ⟨n, m, -, -, hlog⟩ := h.retired.log_eq
  obtain ⟨hgeneration, hsame⟩ := Tree.history_seat t holder old new
  rw [hgeneration, hsame] at hlog
  exact ⟨_, _, hlog⟩

namespace Edit

/-- The edit fails and leaves the tree as it was, or it succeeds and is counted and logged as one
splice. -/
def Atomic (e : Edit NodeId) (t : Tree) : Prop :=
  match e t with
  | .error _ t' => t' = t
  | .ok _ t' => t'.generation = t.generation + 1 ∧
      ∃ event, t'.log = t.log.push event ∧ event.generation = t'.generation

variable {e : Edit NodeId} {t t' : Tree}

theorem atomic_of_error {err : TreeError} (h : e t = .error err t) : e.Atomic t := by
  rw [Atomic, h]

theorem atomic_of_ok {a : NodeId} {event : SpliceEvent} (h : e t = .ok a t')
    (hgeneration : t'.generation = t.generation + 1) (hlog : t'.log = t.log.push event)
    (hevent : event.generation = t.generation + 1) : e.Atomic t := by
  rw [Atomic, h]
  exact ⟨hgeneration, event, hlog, hevent.trans hgeneration.symm⟩

theorem atomic_of_spliced {a old new : NodeId} {holder : Option NodeId} {reason : String}
    (h : e t = .ok a t') (hspliced : Tree.Spliced t holder old new reason t') : e.Atomic t := by
  obtain ⟨_, _, hlog⟩ := hspliced.log_eq
  exact atomic_of_ok h hspliced.generation_eq hlog rfl

theorem splices_atomic (t : Tree) (reason : String) :
    (∀ parent old new, (replaceChild parent old new reason).Atomic t) ∧
    (∀ node new, (replaceSelf node new reason).Atomic t) ∧
    ∀ parent child wrap, (insertAbove parent child wrap reason).Atomic t := by
  refine ⟨fun parent old new ↦ ?_, fun node new ↦ ?_, fun parent child wrap ↦ ?_⟩
  · rcases replaceChild_cases t parent old new reason with ⟨_, herr⟩ | ⟨_, hok, hspliced⟩
    · exact atomic_of_error herr
    · exact atomic_of_spliced hok hspliced
  · rcases replaceSelf_cases t node new reason with ⟨_, herr⟩ | ⟨_, _, _, hok, hspliced⟩
    · exact atomic_of_error herr
    · exact atomic_of_spliced hok hspliced
  · rcases insertAbove_cases t parent child wrap reason with ⟨_, herr⟩ | ⟨t', hok, hinserted⟩
    · exact atomic_of_error herr
    · obtain ⟨n, hchild, _⟩ := hinserted.slots_eq
      obtain ⟨u, hu, -, hgeneration, _, _, hlog⟩ := insertAbove_eq hinserted.held hchild wrap reason
      exact atomic_of_ok hu hgeneration hlog rfl

end Edit

end AdaptiveTree
