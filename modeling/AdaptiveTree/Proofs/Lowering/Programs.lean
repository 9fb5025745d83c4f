import AdaptiveTree.Proofs.Lowering.Lowers

/-!
Lowering of whole programs: every expression is lowered to one root that stands for it, and a
program to one that stands for its statements. Return tails are the statements that are only
recognised if the options say so.
-/

set_option autoImplicit false
set_option relaxedAutoImplicit false

namespace AdaptiveTree

namespace Lower

theorem lowers_literal (l : Literal) (span : Span) :
    Lowers (alloc (.constant l.value) span) (fun id ↦ [id]) [.value (.literal l span)] := by
  intro calls m hsound
  exact ⟨_, calls, _, rfl, (Lowered.start hsound).alloc rfl (.literal l span)⟩

theorem eq_some_of_ite {α : Type} {b : Bool} {x : Option α} {a : α}
    (h : (if b then x else none) = some a) : x = some a := by
  split_ifs at h
  exact h

mutual

theorem lowers_expr (options : CompilationOptions) :
    (e : Expr) → Lowers (expr options e) (fun id ↦ [id]) [.value e]
  | .literal l span => by
    rw [expr]
    exact lowers_literal l span
  | .ident name span => by
    intro calls m hsound
    rw [expr]
    exact ⟨_, calls, _, rfl, (Lowered.start hsound).alloc rfl (.ident name span)⟩
  | .unary op e span => by
    intro calls m hsound
    obtain ⟨x, calls₁, m₁, hx, h₁⟩ := (Lowered.start hsound).and_then (lowers_expr options e)
    rw [expr, bind_eq hx]
    exact ⟨_, calls₁, _, rfl, Lowered.alloc h₁ rfl (.unary op x e span)⟩
  | .compare op left right span => by
    intro calls m hsound
    obtain ⟨x, calls₁, m₁, hx, h₁⟩ := (Lowered.start hsound).and_then (lowers_expr options left)
    obtain ⟨y, calls₂, m₂, hy, h₂⟩ := h₁.and_then (lowers_expr options right)
    rw [expr, bind_eq hx, bind_eq hy]
    exact ⟨_, calls₂, _, rfl, Lowered.alloc h₂ rfl (.compare op x y left right span)⟩
  | .call name args span => by
    intro calls m hsound
    obtain ⟨ids, calls₁, m₁, hids, h₁⟩ := (Lowered.start hsound).and_then (lowers_each options args)
    have hlength : ids.length = args.length := by simpa using h₁.roots.length_eq
    rw [expr, bind_eq hids]
    exact ⟨_, calls₁, _, rfl, Lowered.alloc h₁ rfl (.call name ids args span hlength)⟩
  | .assign name e span => by
    intro calls m hsound
    obtain ⟨x, calls₁, m₁, hx, h₁⟩ := (Lowered.start hsound).and_then (lowers_expr options e)
    rw [expr, bind_eq hx]
    exact ⟨_, calls₁, _, rfl, Lowered.alloc h₁ rfl (.assign name x e span)⟩
  | .ifThen c t span => by
    intro calls m hsound
    obtain ⟨x, calls₁, m₁, hx, h₁⟩ := (Lowered.start hsound).and_then (lowers_expr options c)
    obtain ⟨y, calls₂, m₂, hy, h₂⟩ := h₁.and_then (lowers_expr options t)
    rw [expr, bind_eq hx, bind_eq hy]
    cases hconstant : if options.constantComparisons then c.constantTested? else none with
    | none => exact ⟨_, calls₂, _, rfl, Lowered.alloc h₂.test rfl (.noElse x y c t span)⟩
    | some k =>
      obtain ⟨z, calls₃, m₃, hz, h₃⟩ := h₂.and_then (lowers_literal .null span)
      refine ⟨_, calls₃, _, bind_eq hz, Lowered.alloc h₃ rfl ?_⟩
      exact .const x y z (.missing c t span) (eq_some_of_ite hconstant)
  | .ifElse c t e span => by
    intro calls m hsound
    obtain ⟨x, calls₁, m₁, hx, h₁⟩ := (Lowered.start hsound).and_then (lowers_expr options c)
    obtain ⟨y, calls₂, m₂, hy, h₂⟩ := h₁.and_then (lowers_expr options t)
    obtain ⟨z, calls₃, m₃, hz, h₃⟩ := h₂.and_then (lowers_expr options e)
    rw [expr, bind_eq hx, bind_eq hy, bind_eq hz]
    cases hconstant : if options.constantComparisons then c.constantTested? else none with
    | none => exact ⟨_, calls₃, _, rfl, Lowered.alloc h₃.test rfl (.twoBranch x y z c t e span)⟩
    | some k =>
      refine ⟨_, calls₃, _, rfl, Lowered.alloc h₃ rfl ?_⟩
      exact .const x y z (.present c t e span) (eq_some_of_ite hconstant)
  | .block items span => by
    intro calls m hsound
    obtain ⟨ids, calls₁, m₁, hids, h₁⟩ :=
      (Lowered.start hsound).and_then (lowers_each options items)
    have hlength : ids.length = items.length := by simpa using h₁.roots.length_eq
    rw [expr, bind_eq hids]
    exact ⟨_, calls₁, _, rfl, Lowered.alloc h₁ rfl (.block ids items span hlength)⟩

theorem lowers_each (options : CompilationOptions) :
    (items : List Expr) → Lowers (each options items) id (items.map .value)
  | [] => by
    intro calls m hsound
    rw [each]
    exact ⟨[], calls, m, rfl, .start hsound⟩
  | e :: rest => by
    intro calls m hsound
    obtain ⟨x, calls₁, m₁, hx, h₁⟩ := (Lowered.start hsound).and_then (lowers_expr options e)
    obtain ⟨ids, calls₂, m₂, hids, h₂⟩ := h₁.and_then (lowers_each options rest)
    rw [each, bind_eq hx, bind_eq hids]
    exact ⟨_, calls₂, m₂, rfl, h₂⟩

end

/-! ### Return tails -/

theorem lowers_body (options : CompilationOptions) (items : List Expr) :
    Lowers (body options items) Option.toList (Part.ofBody items) := by
  intro calls m hsound
  cases items with
  | nil => exact ⟨none, calls, m, rfl, .start hsound⟩
  | cons e rest =>
    obtain ⟨ids, calls₁, m₁, hids, h₁⟩ :=
      (Lowered.start hsound).and_then (lowers_each options (e :: rest))
    have hlength : ids.length = (e :: rest).length := by simpa using h₁.roots.length_eq
    rw [body, bind_eq hids]
    exact ⟨_, calls₁, _, rfl, Lowered.alloc h₁ rfl (.block ids (e :: rest) _ hlength)⟩

/-- A return tail over its `rest`, which was lowered before. -/
theorem lowered_returnTail (options : CompilationOptions) (t : Expr.ReturnTail) (rest : List Expr)
    {restSpan : Span} (span : Span) {calls₀ calls : NodeId → Span} {m₀ m : Machine} {r : NodeId}
    (h : Lowered calls₀ m₀ calls m [r] [.statements rest restSpan]) :
    ∃ id calls' m', returnTail options t r span m = (id, m') ∧
      Lowered calls₀ m₀ calls' m' [id] [.tail t rest restSpan span] := by
  obtain ⟨c, calls₁, m₁, hc, h₁⟩ := h.and_then (lowers_expr options t.cond)
  obtain ⟨b, calls₂, m₂, hb, h₂⟩ := h₁.and_then (lowers_body options t.body)
  obtain ⟨a, calls₃, m₃, ha, h₃⟩ := lowers_expr options t.arg calls₂ m₂ h₂.grows.sound
  have hlength : b.toList.length = (Part.ofBody t.body).length := by
    simpa using h₂.roots.length_eq
  have hget : (get : Lower Machine) m₃ = (m₃, m₃) := rfl
  -- the statements behind the tail are lowered first, but are its last child
  have hall {x : NodeId} {p : Part} {calls' : NodeId → Span} {m' : Machine}
      (hx : Lowered calls₂ m₂ calls' m' [x] [p]) :
      Lowered calls₀ m₀ calls' m' (c :: b.toList ++ [x, r])
        (.test t.cond :: Part.ofBody t.body ++ [p, .statements rest restSpan]) := by
    have htest := (h₂.append hx).rotate.test
    simpa using htest
  unfold returnTail
  rw [bind_eq hc, bind_eq hb, bind_eq ha, bind_eq hget]
  cases hbound : m₃.frame.contains "return" with
  | true =>
    have harg : Lowered calls₂ m₂ calls₃ m₃ (NodeKind.call "return" [a]).children [.value t.arg] :=
      h₃
    have hcall := harg.alloc rfl (.call "return" [a] [t.arg] t.callSpan rfl)
    refine ⟨_, calls₃, _, rfl, Lowered.alloc (hall hcall) rfl ?_⟩
    exact .overridden c b m₃.tree.nextId r t rest restSpan span hlength
  | false =>
    obtain ⟨calls₄, h₄⟩ := Lowered.alloc_tail (hall h₃) rfl hbound fun calls' hcalls ↦
      .builtin c b a r t rest restSpan span hlength hcalls
    exact ⟨_, calls₄, _, rfl, h₄⟩

/-! ### Programs -/

theorem lowers_statements (options : CompilationOptions) (items : List Expr) :
    Lowers (statements options items) id
      (if options.returnTails then Part.ofStatements items else items.map .value) := by
  induction items with
  | nil =>
    intro calls m hsound
    have hnone : (if options.returnTails then Part.ofStatements [] else [].map .value) = [] := by
      split_ifs <;> rfl
    rw [hnone]
    exact ⟨[], calls, m, rfl, .start hsound⟩
  | cons e rest ih =>
    intro calls m hsound
    rw [statements]
    cases htail : if options.returnTails then e.returnTail? else none with
    | some t =>
      have hon : options.returnTails = true := by
        by_contra hoff
        rw [if_neg hoff] at htail
        simp at htail
      rw [if_pos hon] at ih htail ⊢
      obtain ⟨ids, calls₁, m₁, hids, h₁⟩ := (Lowered.start hsound).and_then ih
      have hlength : ids.length = (Part.ofStatements rest).length := h₁.roots.length_eq
      have h₂ := Lowered.alloc h₁ rfl
        (.statements ids rest (Expr.spanOf ⟨e.span.stop, e.span.stop⟩ rest) hlength)
      obtain ⟨x, calls₃, m₃, hx, h₃⟩ := lowered_returnTail options t rest e.span h₂
      refine ⟨[x], calls₃, m₃, ?_, ?_⟩
      · refine (bind_eq hids).trans ((bind_eq rfl).trans ?_)
        exact bind_eq hx
      · rw [Part.ofStatements, htail]
        exact h₃
    | none =>
      obtain ⟨x, calls₁, m₁, hx, h₁⟩ := (Lowered.start hsound).and_then (lowers_expr options e)
      obtain ⟨ids, calls₂, m₂, hids, h₂⟩ := h₁.and_then ih
      refine ⟨x :: ids, calls₂, m₂, ?_, ?_⟩
      · refine (bind_eq hx).trans ?_
        rw [bind_eq hids]
        rfl
      · have hparts : (if options.returnTails then Part.ofStatements (e :: rest)
            else (e :: rest).map .value) =
            .value e :: if options.returnTails then Part.ofStatements rest
              else rest.map .value := by
          split_ifs at htail ⊢
          · rw [Part.ofStatements, htail]
          · rfl
        rw [hparts]
        exact h₂

/-- A program is lowered to one root that stands for it. -/
theorem lowers_program (options : CompilationOptions) (program : Expr) :
    Lowers (Lower.program options program) (fun id ↦ [id]) [.ofProgram options program] := by
  cases program with
  | block items span =>
    intro calls m hsound
    obtain ⟨ids, calls₁, m₁, hids, h₁⟩ :=
      (Lowered.start hsound).and_then (lowers_statements options items)
    have hlength : ids.length = _ := h₁.roots.length_eq
    rw [Lower.program, bind_eq hids]
    refine ⟨_, calls₁, _, rfl, Lowered.alloc h₁ rfl ?_⟩
    rw [Part.ofProgram]
    split_ifs at hlength ⊢ with hon
    · exact .statements ids items span hlength
    · exact .block ids items span (by simpa using hlength)
  | _ => exact lowers_expr options _

end Lower

end AdaptiveTree
