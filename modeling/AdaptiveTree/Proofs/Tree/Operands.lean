import AdaptiveTree.Proofs.Tree.Evolution

/-!
Conditionals that read an operand instead of their condition. Lowering makes all of them: an
adaptation leaves those there were, in another form or given up, and brings about no new one.
-/

set_option autoImplicit false
set_option relaxedAutoImplicit false

namespace AdaptiveTree

namespace NodeKind

def readsOperand : NodeKind → Bool
  | cond form => form.readsOperand
  | _ => false

theorem readsOperand_of_shape {kind kind' : NodeKind} (h : kind.shape = kind'.shape) :
    kind.readsOperand = kind'.readsOperand := by
  cases kind' with
  | cond form =>
    obtain ⟨other, rfl, hsame⟩ := eq_cond_of_shape h
    exact hsame _ Conditional.readsOperand_withChildren
  | _ =>
    cases kind with
    | cond form => simp [shape, withChildren, children] at h
    | _ => rfl

end NodeKind

namespace Tree

variable {calls : NodeId → Span} {busy : NodeId → Prop} {t t' : Tree} {x x' : NodeId} {n : Node}

/-- A live conditional that evaluates only an operand of its condition. -/
def ReadsOperand (t : Tree) (x : NodeId) : Prop :=
  ∃ n, t.node? x = some n ∧ n.kind.readsOperand = true

theorem Recast.readsOperand_of {callSpan span : Span} {fresh : NodeId} {before after : NodeKind}
    {extra : Option (NodeKind × Span)} (h : Recast callSpan span fresh before after extra) :
    (after.readsOperand = true → before.readsOperand = true) ∧
      ∀ k s, extra = some (k, s) → k.readsOperand = false := by
  cases h with
  | addElse | override => exact ⟨fun hreads ↦ (nomatch hreads), by rintro _ _ ⟨⟩; rfl⟩
  | specialize => exact ⟨fun _ ↦ rfl, by simp⟩
  | relax | dropConstant | dropComparator | widen => exact ⟨fun hreads ↦ (nomatch hreads), by simp⟩

/-- What reads an operand afterwards is what a node that did so before has become. -/
def Inherited (t t' : Tree) : Prop :=
  ∀ x', t'.ReadsOperand x' → ∃ x, t.ReadsOperand x ∧ t'.resolve x = .ok x'

theorem Adaptation.inherited (h : Adaptation calls busy t t') (hforest : t.Forest) :
    t.Inherited t' := by
  rintro x' ⟨n', hn', hreads⟩
  have hlive := resolve_of_node? hn'
  have hevolves := h.evolves hforest
  cases h with
  | @replace old n kind extra hreplaced hrecast =>
    obtain ⟨hbefore, hextra⟩ := hrecast.readsOperand_of
    rcases hreplaced.cases_node? hn' with ⟨rfl, rfl⟩ | ⟨k, s, heq, _, rfl⟩ | ⟨m, hm, _, rfl⟩
    · exact ⟨old, ⟨n, hreplaced.node, hbefore hreads⟩,
        hreplaced.resolve_old hevolves.forest.ascending⟩
    · cases hreads.symm.trans (hextra k s heq)
    · have hsame := NodeKind.readsOperand_of_shape
        (shape_refit n m old (t.replacement extra) t.nextId x' kind extra)
      exact ⟨x', ⟨m, hm, hsame.symm.trans hreads⟩, hlive⟩
  | @wrap p n child mode form hwrapped =>
    rcases hwrapped.cases_node? hn' with ⟨rfl, rfl⟩ | ⟨rfl, rfl⟩ | ⟨rfl, rfl⟩ | ⟨_, _, hm⟩
    · cases hreads
    · have hsame := NodeKind.readsOperand_of_shape
        (NodeKind.shape_replaceChild n.kind form.cond t.nextId)
      exact ⟨x', ⟨n, hwrapped.node, hsame.symm.trans hreads⟩, hlive⟩
    · exact ⟨_, ⟨child, hwrapped.node_child, hreads⟩, hlive⟩
    · exact ⟨x', ⟨n', hm, hreads⟩, hlive⟩

theorem Adapts.inherited (h : Adapts calls busy t t') (hforest : t.Forest) : t.Inherited t' := by
  induction h with
  | refl =>
    rintro x ⟨n, hn, hreads⟩
    exact ⟨x, ⟨n, hn, hreads⟩, resolve_of_node? hn⟩
  | tail hsteps hstep ih =>
    have hforest' := (evolves hsteps hforest).forest
    have hevolves := hstep.evolves hforest'
    intro x'' hx''
    obtain ⟨x', hx', hresolve'⟩ := hstep.inherited hforest' x'' hx''
    obtain ⟨x, hx, hresolve⟩ := ih x' hx'
    exact ⟨x, hx, (hevolves.persists.resolve_eq hevolves.forest.ascending hresolve).trans hresolve'⟩

/-- Where all conditionals that read an operand are occupied, they stay so. -/
theorem Inherited.occupied {busy : NodeId → Prop} (h : t.Inherited t') (hpersists : Persists t t')
    (hascending : t'.Ascending) (hoccupied : ∀ x, t.ReadsOperand x → t.Occupied busy x) :
    ∀ x', t'.ReadsOperand x' → t'.Occupied busy x' := by
  intro x' hx'
  obtain ⟨x, hx, hresolve'⟩ := h x' hx'
  obtain ⟨y, hy, hresolve⟩ := hoccupied x hx
  exact ⟨y, hy, (hpersists.resolve_eq hascending hresolve).trans hresolve'⟩

end Tree

end AdaptiveTree
