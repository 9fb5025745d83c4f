import AdaptiveTree.Grammar.Program
import AdaptiveTree.Proofs.Grammar.Gathers
import AdaptiveTree.Proofs.Grammar.Grouping

/-!
Every integer literal is checked once. What a text is read as stands for the integer literals of
the text: it is the first of them that is out of range, or an expression that has them as its
integers, one for one and in this order. Operators and constructs put their parts together in the
order in which these are written, whatever applies to what.
-/

set_option autoImplicit false
set_option relaxedAutoImplicit false

namespace AdaptiveTree

namespace Expr

mutual

/-- The integers in an expression, from left to right, and where they stand. -/
def integers : Expr → List (Int32 × Span)
  | literal (.int i) span => [(i, span)]
  | literal _ _ | ident _ _ => []
  | unary _ e _ | assign _ e _ => e.integers
  | compare _ left right _ => left.integers ++ right.integers
  | call _ es _ | block es _ => integersOf es
  | ifThen c t _ => c.integers ++ t.integers
  | ifElse c t e _ => c.integers ++ (t.integers ++ e.integers)

/-- The integers in some expressions. -/
def integersOf : List Expr → List (Int32 × Span)
  | [] => []
  | e :: rest => e.integers ++ integersOf rest

end

end Expr

namespace Grammar

namespace IntegerLiteral

def isOversized (l : IntegerLiteral) : Bool := 2147483647 < l.value

def oversized (l : IntegerLiteral) : OversizedInteger := ⟨l.text, l.span⟩

/-- What an integer literal in range stands for. -/
def integer (l : IntegerLiteral) : Int32 × Span := (Int32.ofNat l.value, l.span)

end IntegerLiteral

/-- A result is the error for the first literal that is out of range, or all literals are in it. -/
def Checks {α : Type} (integers : α → List (Int32 × Span)) (x : Except OversizedInteger α)
    (ls : List IntegerLiteral) : Prop :=
  match ls.find? IntegerLiteral.isOversized with
  | some l => x = .error l.oversized
  | none => ∃ a, x = .ok a ∧ integers a = ls.map IntegerLiteral.integer

namespace Checks

variable {α β γ : Type} {ints : α → List (Int32 × Span)} {ints' : β → List (Int32 × Span)}
  {ints'' : γ → List (Int32 × Span)} {x : Except OversizedInteger α} {y : Except OversizedInteger β}
  {ls ls' : List IntegerLiteral}

theorem ok {a : α} (h : ints a = []) : Checks ints (.ok a) [] := ⟨a, rfl, h⟩

/-- What has nothing but one part. -/
theorem map (hx : Checks ints x ls) {f : α → γ} (hf : ∀ a, ints'' (f a) = ints a) :
    Checks ints'' (do return f (← x)) ls := by
  unfold Checks at hx ⊢
  split at hx
  · rw [hx]
    rfl
  · obtain ⟨a, rfl, ha⟩ := hx
    exact ⟨f a, rfl, (hf a).trans ha⟩

/-- What is made of two parts, the one behind the other. -/
theorem both (hx : Checks ints x ls) (hy : Checks ints' y ls') {f : α → β → γ}
    (hf : ∀ a b, ints'' (f a b) = ints a ++ ints' b) :
    Checks ints'' (do return f (← x) (← y)) (ls ++ ls') := by
  unfold Checks at hx hy ⊢
  rw [List.find?_append]
  split at hx
  · next hfirst =>
    rw [hfirst, hx]
    rfl
  · next hfirst =>
    obtain ⟨a, rfl, ha⟩ := hx
    rw [hfirst, Option.none_or]
    split at hy
    · rw [hy]
      rfl
    · obtain ⟨b, rfl, hb⟩ := hy
      exact ⟨f a b, rfl, by rw [hf, ha, hb, List.map_append]⟩

end Checks

/-- What a draft is read from has these integer literals. -/
abbrev Draft.Checks (d : Draft) (ls : List IntegerLiteral) : Prop :=
  Grammar.Checks Expr.integers d ls

variable {ls : List IntegerLiteral} {lss : List (List IntegerLiteral)} {d : Draft}

theorem checks_mapM {ds : List Draft} (h : List.Forall₂ Draft.Checks ds lss) :
    Checks Expr.integersOf (ds.mapM id) lss.flatten := by
  induction h with
  | nil => exact .ok rfl
  | cons hd _ ih =>
    rw [List.mapM_cons]
    exact hd.both ih fun _ _ ↦ rfl

theorem checks_ifDraft {cond thenBranch : Draft} {elseBranch : Option Draft} {span : Span}
    {ls' : List IntegerLiteral} (hcond : cond.Checks ls) (hthen : thenBranch.Checks ls')
    (helse : List.Forall₂ Draft.Checks elseBranch.toList lss) :
    (ifDraft cond thenBranch elseBranch span).Checks (ls ++ (ls' ++ lss.flatten)) := by
  cases elseBranch with
  | none =>
    cases helse
    rw [List.flatten_nil, List.append_nil]
    exact hcond.both hthen fun _ _ ↦ rfl
  | some branch =>
    obtain ⟨ls'', _, hbranch, hnil, rfl⟩ := List.forall₂_cons_left_iff.mp helse
    cases hnil
    let branches : Except OversizedInteger (Expr × Expr) := do return (← thenBranch, ← branch)
    have hbranches : Checks (fun es ↦ es.1.integers ++ es.2.integers) branches (ls' ++ ls'') :=
      hthen.both hbranch fun _ _ ↦ rfl
    have hall : Draft.Checks
        (do
          let c ← cond
          let es ← branches
          return .ifElse c es.1 es.2 span)
        (ls ++ (ls' ++ ls'')) :=
      hcond.both hbranches fun _ _ ↦ rfl
    rw [List.flatten_singleton]
    rcases cond with _ | c
    · exact hall
    rcases thenBranch with _ | t
    · exact hall
    rcases branch with _ | e
    · exact hall
    · exact hall

/-! ### Operators -/

/-- The operands of a sequence without their signs. -/
def Chain.terms (c : Chain) : List Draft := c.first.term :: c.rest.map fun o ↦ o.2.term

theorem Grouping.checks_draft (g : Grouping) (h : List.Forall₂ Draft.Checks g.flat.terms lss) :
    g.draft.Checks lss.flatten := by
  induction g generalizing lss with
  | term d =>
    obtain ⟨ls, _, hd, hnil, rfl⟩ := List.forall₂_cons_left_iff.mp h
    cases hnil
    rwa [List.flatten_singleton]
  | sign s g ih => exact (ih h).map fun _ ↦ rfl
  | compare op l r ihl ihr =>
    have hterms : (Grouping.compare op l r).flat.terms = l.flat.terms ++ r.flat.terms := by
      simp [Grouping.flat, Chain.terms]
    rw [hterms] at h
    have hleft := (List.forall₂_take_append _ _ _ h.flip).flip
    have hright := (List.forall₂_drop_append _ _ _ h.flip).flip
    have hboth := (ihl hleft).both (ihr hright) fun a b ↦
      (rfl : (Expr.compare op a b (a.span.combine b.span)).integers = a.integers ++ b.integers)
    rwa [← List.flatten_append, List.take_append_drop] at hboth

/-- However a sequence is grouped, its operands are checked from left to right. -/
theorem checks_toExpr {c : Chain} (h : List.Forall₂ Draft.Checks c.terms lss) :
    c.toExpr.Checks lss.flatten := by
  obtain ⟨g, -, rfl, hdraft⟩ := Grouping.exists_toExpr_eq c
  rw [hdraft]
  exact g.checks_draft h

end Grammar

end AdaptiveTree
