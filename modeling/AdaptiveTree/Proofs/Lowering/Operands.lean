import AdaptiveTree.Proofs.Lowering.Programs
import AdaptiveTree.Proofs.Tree.Operands

/-!
Lowering without tests of equality with a constant. It adds no conditional that reads an operand
instead of its condition, whatever machine it is begun in.
-/

set_option autoImplicit false
set_option relaxedAutoImplicit false

namespace AdaptiveTree

theorem Tree.readsOperand_of_alloc {t : Tree} {kind : NodeKind} {span : Span} {x : NodeId}
    (h : (t.alloc kind span).ReadsOperand x) (hkind : kind.readsOperand = false) :
    t.ReadsOperand x := by
  obtain ⟨n, hn, hreads⟩ := h
  have hslot := node?_eq_some_iff.mp hn
  rw [alloc, slots_foldl_adopt] at hslot
  -- Being adopted does not change the kind of a node.
  have hpushed : ∃ n', (t.slots.push (.live ⟨kind, span, none⟩))[x]? = some (.live n') ∧
      n'.kind = n.kind := by
    split_ifs at hslot
    · obtain ⟨s, hs, hadopted⟩ := Option.map_eq_some_iff.mp hslot
      cases s with
      | live n' =>
        obtain rfl := Slot.live.inj hadopted
        exact ⟨n', hs, rfl⟩
      | _ => cases hadopted
    · exact ⟨n, hslot, rfl⟩
  obtain ⟨n', hn', hsame⟩ := hpushed
  rw [Array.getElem?_push] at hn'
  split_ifs at hn' with hlast
  · obtain rfl := Slot.live.inj (Option.some.inj hn')
    cases hkind.symm.trans ((congrArg NodeKind.readsOperand hsame).trans hreads)
  · exact ⟨n', node?_eq_some_iff.mpr hn', (congrArg NodeKind.readsOperand hsame).trans hreads⟩

namespace Lower

/-- Every conditional that reads an operand afterwards was there before. -/
def AddsNoOperand {α : Type} (x : Lower α) : Prop :=
  ∀ m y, (x m).2.tree.ReadsOperand y → m.tree.ReadsOperand y

namespace AddsNoOperand

variable {α β : Type}

theorem pure (a : α) : AddsNoOperand (Pure.pure a : Lower α) := fun _ _ h ↦ h

theorem bind {x : Lower α} {f : α → Lower β} (hx : AddsNoOperand x)
    (hf : ∀ a, AddsNoOperand (f a)) : AddsNoOperand (x >>= f) :=
  fun m y h ↦ hx m y (hf (x m).1 (x m).2 y h)

theorem get : AddsNoOperand (MonadState.get : Lower Machine) := fun _ _ h ↦ h

theorem alloc {kind : NodeKind} (hkind : kind.readsOperand = false) (span : Span) :
    AddsNoOperand (Lower.alloc kind span) :=
  fun _ _ h ↦ Tree.readsOperand_of_alloc h hkind

theorem watchReturn (node : NodeId) (callSpan : Span) :
    AddsNoOperand (Lower.watchReturn node callSpan) := fun _ _ h ↦ h

end AddsNoOperand

variable {options : CompilationOptions} (hoff : options.constantComparisons = false)

mutual

theorem addsNoOperand_expr (hoff : options.constantComparisons = false) :
    (e : Expr) → AddsNoOperand (expr options e)
  | .literal .. | .ident .. => by
    rw [expr]
    exact .alloc rfl _
  | .unary _ e _ | .assign _ e _ => by
    rw [expr]
    exact (addsNoOperand_expr hoff e).bind fun _ ↦ .alloc rfl _
  | .compare _ left right _ => by
    rw [expr]
    exact (addsNoOperand_expr hoff left).bind fun _ ↦
      (addsNoOperand_expr hoff right).bind fun _ ↦ .alloc rfl _
  | .call _ items _ | .block items _ => by
    rw [expr]
    exact (addsNoOperand_each hoff items).bind fun _ ↦ .alloc rfl _
  | .ifThen c t _ => by
    rw [expr, hoff]
    exact (addsNoOperand_expr hoff c).bind fun _ ↦
      (addsNoOperand_expr hoff t).bind fun _ ↦ .alloc rfl _
  | .ifElse c t e _ => by
    rw [expr, hoff]
    exact (addsNoOperand_expr hoff c).bind fun _ ↦ (addsNoOperand_expr hoff t).bind fun _ ↦
      (addsNoOperand_expr hoff e).bind fun _ ↦ .alloc rfl _

theorem addsNoOperand_each (hoff : options.constantComparisons = false) :
    (items : List Expr) → AddsNoOperand (each options items)
  | [] => by
    rw [each]
    exact .pure []
  | e :: rest => by
    rw [each]
    exact (addsNoOperand_expr hoff e).bind fun _ ↦
      (addsNoOperand_each hoff rest).bind fun _ ↦ .pure _

end

include hoff

theorem addsNoOperand_body (items : List Expr) : AddsNoOperand (body options items) := by
  cases items with
  | nil => exact .pure none
  | cons e rest =>
    exact (addsNoOperand_each hoff (e :: rest)).bind fun _ ↦
      (AddsNoOperand.alloc rfl _).bind fun _ ↦ .pure _

theorem addsNoOperand_returnTail (t : Expr.ReturnTail) (rest : NodeId) (span : Span) :
    AddsNoOperand (returnTail options t rest span) := by
  refine (addsNoOperand_expr hoff t.cond).bind fun _ ↦ (addsNoOperand_body hoff t.body).bind fun _ ↦
    (addsNoOperand_expr hoff t.arg).bind fun _ ↦ AddsNoOperand.get.bind fun m ↦ ?_
  split
  · exact (AddsNoOperand.alloc rfl _).bind fun _ ↦ .alloc rfl _
  · exact (AddsNoOperand.alloc rfl _).bind fun node ↦
      (AddsNoOperand.watchReturn node _).bind fun _ ↦ .pure node

theorem addsNoOperand_statements (items : List Expr) :
    AddsNoOperand (statements options items) := by
  induction items with
  | nil => exact .pure []
  | cons e rest ih =>
    rw [statements]
    split
    · exact ih.bind fun _ ↦ (AddsNoOperand.alloc rfl _).bind fun r ↦
        (addsNoOperand_returnTail hoff _ r e.span).bind fun _ ↦ .pure _
    · exact (addsNoOperand_expr hoff e).bind fun _ ↦ ih.bind fun _ ↦ .pure _

theorem addsNoOperand_program (source : Expr) : AddsNoOperand (program options source) := by
  cases source with
  | block items span => exact (addsNoOperand_statements hoff items).bind fun _ ↦ .alloc rfl _
  | _ => exact addsNoOperand_expr hoff _

end Lower

end AdaptiveTree
