import AdaptiveTree.Proofs.Places.Conditionals
import AdaptiveTree.Proofs.Depth.Run

/-!
Evaluation under any limit has its places in the source of the node. A run that is broken off at
the limit is broken off at a node of the program, so there is no exception for it.
-/

set_option autoImplicit false
set_option relaxedAutoImplicit false

namespace AdaptiveTree

namespace Eval

variable {source : String} {calls : NodeId → Span} {busy : NodeId → Prop} {exec : Evaluator}
  {m : Machine} {id : NodeId} {ids : List NodeId}

section Children

variable (hplaces : Places source calls exec)

include hplaces

theorem placed_values (hready : Ready calls busy m)
    (hshows : ∀ c ∈ ids, ShowsIn source calls busy m.tree c) :
    Placed source calls busy m (values exec ids m) := by
  induction ids generalizing m with
  | nil => exact .pure hready.sound
  | cons id rest ih =>
    obtain ⟨hfirst, hothers⟩ := List.forall_mem_cons.mp hshows
    exact (hplaces hready hfirst).bind fun v m₁ _ hlater ↦ .before <|
      ih (hready.later hlater) fun c hc ↦ (hothers c hc).later hready hlater

theorem placed_inOrder (hready : Ready calls busy m) (last : Value)
    (hshows : ∀ c ∈ ids, ShowsIn source calls busy m.tree c) :
    Placed source calls busy m (inOrder exec last ids m) := by
  induction ids generalizing m last with
  | nil => exact .pure hready.sound
  | cons id rest ih =>
    obtain ⟨hfirst, hothers⟩ := List.forall_mem_cons.mp hshows
    exact (hplaces hready hfirst).bind fun v m₁ _ hlater ↦
      ih (hready.later hlater) v fun c hc ↦ (hothers c hc).later hready hlater

theorem placed_call (hready : Ready calls busy m) (hshows : ShowsIn source calls busy m.tree id)
    (name : String) (hargs : ∀ c ∈ ids, ShowsIn source calls busy m.tree c) :
    Placed source calls busy m (call exec id name ids m) := by
  refine (placed_lookupCallee hready hshows name).bind fun callee m₁ _ hlater ↦ ?_
  have hready₁ := hready.later hlater
  refine (placed_values hplaces hready₁ fun c hc ↦ (hargs c hc).later hready hlater).bind
    fun given m₂ _ hlater₂ ↦ ?_
  have hready₂ := hready₁.later hlater₂
  have hshows₂ := (hshows.later hready hlater).later hready₁ hlater₂
  cases callee with
  | host f => exact placed_callHost hready₂ hshows₂ f given
  | builtin b =>
    cases b with
    | ret =>
      exact (placed_ofResult hready₂ hshows₂ (Builtin.returnValue given)).bind
        fun v m₃ _ hlater₃ ↦ .error hlater₃.sound trivial
    | combine | length | isNA => exact placed_ofResult hready₂ hshows₂ _

end Children

/-! ### One level -/

/-- Whatever a node stands for, its evaluation has its places in the source if the evaluation of
its children has. -/
theorem places_step (hexec : Simulates calls exec) (hplaces : Places source calls exec) :
    Places source calls (step exec) := by
  intro busy m id hready hshows
  obtain ⟨x, ⟨kind, span, parent⟩, hresolve, hnode, hshows', hbelow⟩ := hshows.children hready
  have hchild {c : NodeId} (hc : c ∈ kind.children) :
      Placed source calls busy m (exec c m) := hplaces hready (hbelow c hc)
  rw [step_eq hresolve hnode]
  cases kind with
  | constant v => exact .pure hready.sound
  | read name => exact placed_read hready hshows' name
  | assign name value =>
    refine (hchild (by simp [NodeKind.children])).bind fun v m₁ _ hlater ↦ ?_
    exact (placed_assign (hready.later hlater) name v).bind fun _ m₂ _ hlater₂ ↦
      .pure hlater₂.sound
  | sequence items => exact placed_inOrder hplaces hready .null hbelow
  | unary op operand => exact (hchild (by simp [NodeKind.children])).before
  | compare op left right =>
    have hright := hbelow right (by simp [NodeKind.children])
    exact (hchild (by simp [NodeKind.children])).bind fun a m₁ _ hlater ↦
      (hplaces (hready.later hlater) (hright.later hready hlater)).before
  | call name args => exact placed_call hplaces hready hshows' name hbelow
  | convert input mode =>
    obtain ⟨part, hpart, hshows'⟩ := hshows'
    obtain ⟨parts, _, hfits, _⟩ := hshows'.children_at hready.sound.forest hnode
    obtain ⟨e, rfl⟩ := hfits.exists_of_convert
    exact (placed_convert hexec hplaces hready hpart hnode rfl hshows').before
  | cond form => exact placed_conditional hexec hplaces hready hshows' hnode rfl

theorem places_execute (source : String) (calls : NodeId → Span) (limit : Nat) :
    Places source calls (execute limit) := by
  induction limit with
  | zero => exact fun hready hshows ↦ .error hready.sound hshows.validIn
  | succ limit ih => exact places_step (simulates_execute calls limit) ih

end Eval

namespace Machine

variable {source : String} {calls : NodeId → Span} {m : Machine} {id : NodeId}

/-- The warnings of a run and its failure have their places in the source of the node. -/
theorem placed_run (limit : Nat) (h : m.Sound calls)
    (hshows : ShowsIn source calls (fun _ ↦ False) m.tree id) :
    m.WarnsIn source (m.run limit id).2 ∧
      ∀ failure, (m.run limit id).1 = .error failure → failure.span.ValidIn source := by
  have hplaced := Eval.places_execute source calls limit h.ready hshows
  rw [run_eq]
  refine ⟨hplaced.warns, fun failure hfailure ↦ ?_⟩
  unfold run at hfailure
  cases hresult : Eval.execute limit id m with
  | ok v m' =>
    rw [hresult] at hfailure
    cases hfailure
  | error exit m' =>
    have hexit := hplaced.exit exit m' hresult
    rw [hresult] at hfailure
    cases exit with
    | raised | tooDeep =>
      obtain rfl := Except.error.inj hfailure
      exact hexit
    | returned => cases hfailure

end Machine

end AdaptiveTree
