import AdaptiveTree.Proofs.Depth.Levels
import AdaptiveTree.Proofs.Reference.Relating

/-!
Levels in two worlds. What is nested in what depends only on values and on what the names mean, so
the levels are the same in worlds that evaluation cannot tell apart.
-/

set_option autoImplicit false
set_option relaxedAutoImplicit false

namespace AdaptiveTree.Reference

variable {alike : World → World → Prop} {callee : Definition → Definition → Prop}
  {fault : Fault → Prop} {f : Forms} {w w' : World}

theorem after_eq {α β : Type} {same : α → β → Prop} {result : EStateM.Result Halt World α}
    {result' : EStateM.Result Halt World β} (h : Matches alike fault same result result')
    {next : α → World → Nat} {next' : β → World → Nat}
    (hnext : ∀ a b w w', alike w w' → same a b → next a w = next' b w') :
    after next result = after next' result' := by
  cases h with
  | ok halike hsame => exact hnext _ _ _ _ halike hsame
  | raised | returned => rfl

/-- Both evaluations come to the same. -/
theorem after_eq_of_same {α : Type} {result result' : EStateM.Result Halt World α}
    (h : Matches alike fault Eq result result') {next : α → World → Nat}
    (hnext : ∀ a w w', alike w w' → next a w = next a w') :
    after next result = after next result' :=
  after_eq h fun a _ w w' halike hsame ↦ hsame ▸ hnext a w w' halike

variable (hbridge : Bridge alike callee fault)

include hbridge

theorem matches_test (c : Expr) (halike : alike w w') :
    Matches alike fault Eq (test c w) (test c w') :=
  matches_then (matches_expr hbridge c w w' halike) fun v _ _ halike ↦
    matches_truth hbridge c.span v halike

theorem matches_body (items : List Expr) (halike : alike w w') :
    Matches alike fault Eq (body items w) (body items w') :=
  matches_then (matches_inOrder hbridge items .null w w' halike) fun _ _ _ halike ↦ .ok halike rfl

omit hbridge

mutual

theorem levels_eq (hbridge : Bridge alike callee fault) (tested : Bool) : (e : Expr) →
    (w w' : World) → alike w w' → levels f tested e w = levels f tested e w'
  | .literal .., w, w', _ | .ident .., w, w', _ => by
    rw [levels, levels]
  | .unary _ e _, w, w', halike | .assign _ e _, w, w', halike => by
    rw [levels, levels, levels_eq hbridge false e w w' halike]
  | .compare op left right span, w, w', halike => by
    have hleft := levels_eq hbridge false left w w' halike
    have hright : after (fun _ w ↦ levels f false right w) (expr left w) =
        after (fun _ w ↦ levels f false right w) (expr left w') :=
      after_eq_of_same (matches_expr hbridge left w w' halike) fun _ w w' halike ↦
        levels_eq hbridge false right w w' halike
    rw [levels, levels, hleft, hright]
  | .call name args span, w, w', halike => by
    have hargs : after (fun _ w ↦ levelsEach f args w) (lookupCallee span name w) =
        after (fun _ w ↦ levelsEach f args w) (lookupCallee span name w') :=
      after_eq (matches_lookupCallee hbridge span name halike) fun _ _ w w' halike _ ↦
        levelsEach_eq hbridge args w w' halike
    rw [levels, levels, hargs]
  | .ifThen c t _, w, w', halike => by
    have hc := levels_eq hbridge true c w w' halike
    have hbranch : after (fun l w ↦ branchLevels (levels f false t w) 1 l) (test c w) =
        after (fun l w ↦ branchLevels (levels f false t w) 1 l) (test c w') :=
      after_eq_of_same (matches_test hbridge c halike) fun l w w' halike ↦ by
        rw [levels_eq hbridge false t w w' halike]
    rw [levels, levels, hc, hbranch]
  | .ifElse c t e _, w, w', halike => by
    have hc := levels_eq hbridge true c w w' halike
    have hbranch :
        after (fun l w ↦ branchLevels (levels f false t w) (levels f false e w) l) (test c w) =
          after (fun l w ↦ branchLevels (levels f false t w) (levels f false e w) l)
            (test c w') :=
      after_eq_of_same (matches_test hbridge c halike) fun l w w' halike ↦ by
        rw [levels_eq hbridge false t w w' halike, levels_eq hbridge false e w w' halike]
    rw [levels, levels, hc, hbranch]
  | .block items _, w, w', halike => by
    rw [levels, levels, levelsEach_eq hbridge items w w' halike]

theorem levelsEach_eq (hbridge : Bridge alike callee fault) : (items : List Expr) →
    (w w' : World) → alike w w' → levelsEach f items w = levelsEach f items w'
  | [], w, w', _ => by
    rw [levelsEach, levelsEach]
  | e :: rest, w, w', halike => by
    have hfirst := levels_eq hbridge false e w w' halike
    have hrest : after (fun _ w ↦ levelsEach f rest w) (expr e w) =
        after (fun _ w ↦ levelsEach f rest w) (expr e w') :=
      after_eq_of_same (matches_expr hbridge e w w' halike) fun _ w w' halike ↦
        levelsEach_eq hbridge rest w w' halike
    rw [levelsEach, levelsEach, hfirst, hrest]

end

include hbridge

theorem contains_eq (name : String) (halike : alike w w') :
    w.frame.contains name = w'.frame.contains name := by
  have hlinked := hbridge.linked halike name
  unfold Frame.contains
  revert hlinked
  generalize w.frame.get? name = binding
  generalize w'.frame.get? name = binding'
  intro hlinked
  cases hlinked <;> rfl

section Tail

variable {rest : World → Nat} (hrest : ∀ w w', alike w w' → rest w = rest w')

include hrest

theorem endLevels_eq (t : Expr.ReturnTail) (halike : alike w w') :
    endLevels f t rest w = endLevels f t rest w' := by
  have hcall : callLevels f t rest w = callLevels f t rest w' := by
    have hafter : after (fun _ w ↦ rest w) (expr (.call "return" [t.arg] t.callSpan) w) =
        after (fun _ w ↦ rest w) (expr (.call "return" [t.arg] t.callSpan) w') :=
      after_eq_of_same (matches_expr hbridge _ w w' halike) fun _ w w' halike ↦ hrest w w' halike
    rw [callLevels, callLevels, levels_eq hbridge false _ w w' halike, hafter]
  rw [endLevels, endLevels, contains_eq hbridge "return" halike, hcall,
    levels_eq hbridge false t.arg w w' halike]

theorem tailLevels_eq (t : Expr.ReturnTail) (l : Logical) (halike : alike w w') :
    tailLevels f t rest l w = tailLevels f t rest l w' := by
  have hbody : bodyLevels f t.body w = bodyLevels f t.body w' := by
    cases t.body with
    | nil => rfl
    | cons e others => rw [bodyLevels, bodyLevels, levelsEach_eq hbridge _ w w' halike]
  have hend : after (fun _ w ↦ endLevels f t rest w) (body t.body w) =
      after (fun _ w ↦ endLevels f t rest w) (body t.body w') :=
    after_eq_of_same (matches_body hbridge t.body halike) fun _ w w' halike ↦
      endLevels_eq hbridge hrest t halike
  rw [tailLevels, tailLevels, hbody, hend, hrest w w' halike]

end Tail

theorem statementLevels_eq (items : List Expr) (halike : alike w w') :
    statementLevels f items w = statementLevels f items w' := by
  induction items generalizing w w' with
  | nil => rw [statementLevels, statementLevels]
  | cons e rest ih =>
    rw [statementLevels, statementLevels]
    cases e.returnTail? with
    | some t =>
      have hafter : after (tailLevels f t fun w ↦ statementLevels f rest w + 1) (test t.cond w) =
          after (tailLevels f t fun w ↦ statementLevels f rest w + 1) (test t.cond w') :=
        after_eq_of_same (matches_test hbridge t.cond halike) fun l w w' halike ↦
          tailLevels_eq hbridge (fun w w' halike ↦ congrArg (· + 1) (ih halike)) t l halike
      dsimp only
      rw [levels_eq hbridge false t.cond w w' halike, hafter]
    | none =>
      have hafter : after (fun _ w ↦ statementLevels f rest w) (expr e w) =
          after (fun _ w ↦ statementLevels f rest w) (expr e w') :=
        after_eq_of_same (matches_expr hbridge e w w' halike) fun _ w w' halike ↦ ih halike
      dsimp only
      rw [levels_eq hbridge false e w w' halike, hafter]

/-- A program needs the same levels in both worlds. -/
theorem programLevels_eq (options : CompilationOptions) (source : Expr) (halike : alike w w') :
    programLevels f options source w = programLevels f options source w' := by
  cases source with
  | block items span =>
    rw [programLevels, programLevels, statementLevels_eq hbridge items halike,
      levels_eq hbridge false _ w w' halike]
  | _ => exact levels_eq hbridge false _ w w' halike

end AdaptiveTree.Reference
