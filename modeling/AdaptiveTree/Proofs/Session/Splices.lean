import AdaptiveTree.Proofs.Reading.Shown
import AdaptiveTree.Proofs.Session.Ownership
import AdaptiveTree.Proofs.Tree.Ledger
import Mathlib.Algebra.Order.BigOperators.Group.List
import Mathlib.Algebra.Order.Ring.Nat

/-!
The splices of an engine's whole history. A chronicle keeps the splices that were taken from the
log, and the sites of the conditionals as they were lowered. Every splice belongs to one site, and
none has more than three, whatever was run with whatever values.
-/

set_option autoImplicit false
set_option relaxedAutoImplicit false

namespace AdaptiveTree

/-! ### The account while programs run -/

namespace Tree

variable {calls : NodeId → Span} {busy : NodeId → Prop} {t t' : Tree} {taken : List SpliceEvent}
  {sites : List Site}

/-- Adapting a tree keeps the account with the splices that it logs. -/
theorem Ledger.adapts (h : t.Ledger (taken ++ t.log.toList) sites) (hforest : t.Forest)
    (hshown : t.Shown calls) (hadapts : Adapts calls busy t t') :
    t'.Ledger (taken ++ t'.log.toList) sites := by
  induction hadapts with
  | refl => exact h
  | @tail mid last hpath hstep ih =>
    have hforest' := (Adapts.evolves hpath hforest).forest
    obtain ⟨e, owner, hspends⟩ :=
      hstep.spends hforest' ((hshown.adapts hforest hpath).stepsTest hforest')
    have hlog : taken ++ last.log.toList = taken ++ mid.log.toList ++ [e] := by
      rw [hspends.log, Array.toList_push, List.append_assoc]
    rw [hlog]
    exact ih.spend hspends

theorem ledger_empty : Tree.empty.Ledger [] [] where
  counted := rfl
  bounded := fun _ he ↦ nomatch he
  distinct := List.nodup_nil
  standing := fun _ hs ↦ nomatch hs
  balanced := fun _ hs ↦ nomatch hs
  covers := fun x form hx ↦ by
    obtain ⟨n, hn, _⟩ := kind?_eq_some_iff.mp hx
    cases hn
  settled := .nil

end Tree

/-! ### Chronicles -/

/-- Releasing a program does not change what was lowered. -/
theorem Issue.map_source_releaseAt {α : Type} (f : Expr → α) (index : Nat) (issues : List Issue) :
    (Issue.releaseAt index issues).map (fun i ↦ f i.source) = issues.map fun i ↦ f i.source := by
  refine List.ext_getElem? fun a ↦ ?_
  rw [List.getElem?_map, List.getElem?_map, Issue.releaseAt, List.getElem?_modify]
  rcases issues[a]? with _ | i
  · rfl
  · by_cases ha : index = a <;> simp [ha]

namespace Session

variable {s : Session} {calls : NodeId → Span}

/-- How many `if` expressions were lowered. -/
def conditionals (s : Session) : Nat := (s.issues.map fun i ↦ i.source.conditionals).sum

theorem Covered.shown (h : s.Covered) (hvalid : Valid calls s.engine.machine s.issues) :
    s.engine.machine.tree.Shown calls := by
  intro x hx
  obtain ⟨i, hi, hkept, hresolve⟩ := h x hx
  obtain ⟨y, hy⟩ := hvalid.present i hi hkept
  exact ⟨i.options, i.source, hy.shows.resolved hresolve⟩

/-- The sites that came with a program that one session has and the session before it had not. -/
def sitesMade (s s' : Session) : List Site :=
  if s.issues.length < s'.issues.length then
    s'.engine.machine.tree.sitesFrom s.engine.machine.tree.slots.size
  else []

theorem sitesMade_of_length_eq {s' : Session} (h : s'.issues.length = s.issues.length) :
    s.sitesMade s' = [] := if_neg (Nat.not_lt_of_le (Nat.le_of_eq h))

end Session

/-- A session with what its own state does not remember. -/
structure Chronicle where
  session : Session
  /-- The splices that were taken from the log. -/
  taken : List SpliceEvent
  /-- All conditionals, as they stood when they were lowered. -/
  sites : List Site

namespace Chronicle

def new (options : EngineOptions) : Chronicle := ⟨.new options, [], []⟩

/-- All splices so far. -/
def splices (k : Chronicle) : List SpliceEvent :=
  k.taken ++ k.session.engine.machine.tree.log.toList

def step (k : Chronicle) (c : Command) : Chronicle where
  session := k.session.step c
  taken := match c with
    | .takeSplices => k.splices
    | _ => k.taken
  sites := k.sites ++ k.session.sitesMade (k.session.step c)

def after (options : EngineOptions) (commands : List Command) : Chronicle :=
  commands.foldl step (new options)

theorem session_after (options : EngineOptions) (commands : List Command) :
    (after options commands).session = Session.after options commands :=
  (List.foldl_hom Chronicle.session fun _ _ ↦ rfl).symm

structure Balanced (k : Chronicle) : Prop where
  covered : k.session.Covered
  ledger : k.session.engine.machine.tree.Ledger k.splices k.sites
  complete : k.sites.length = k.session.conditionals

namespace Balanced

variable {k : Chronicle} {c : Command} {calls : NodeId → Span} {s' : Session}

theorem new (options : EngineOptions) : (Chronicle.new options).Balanced where
  covered := Session.covered_after options []
  ledger := Tree.ledger_empty
  complete := rfl

/-- What a command makes of a session is entered without touching the splices already taken. -/
theorem moves (h : k.Balanced) (hvalid : Valid calls k.session.engine.machine k.session.issues)
    (hc : c ≠ .takeSplices) (hmoves : k.session.Moves calls c s') :
    Balanced ⟨s', k.taken, k.sites ++ k.session.sitesMade s'⟩ := by
  have hforest := hvalid.sound.forest
  have hshown := h.covered.shown hvalid
  have hcovered := h.covered.moves hvalid hmoves
  cases hmoves with
  | @evaluates m' hlater | @defines _ m' _ hlater =>
    have hnone : k.session.sitesMade
        ⟨{ k.session.engine with machine := m' }, k.session.issues⟩ = [] :=
      Session.sitesMade_of_length_eq rfl
    rw [hnone, List.append_nil]
    exact ⟨hcovered, h.ledger.adapts hforest hshown hlater.adapts, h.complete⟩
  | @makes calls' m' i hkept hlowered =>
    have hgrows := hlowered.grows
    obtain ⟨hgeneration, hlog⟩ := hgrows.history
    have hshown' := hcovered.shown (hvalid.lowered hkept hlowered)
    have hsplices : k.taken ++ m'.tree.log.toList = k.splices := by
      rw [hlog]
      rfl
    have hmade : k.session.sitesMade
        ⟨{ k.session.engine with machine := m' }, k.session.issues ++ [i]⟩ =
          m'.tree.sitesFrom k.session.engine.machine.tree.slots.size := by
      refine if_pos ?_
      rw [List.length_append]
      exact Nat.lt_succ_self _
    rw [hmade]
    refine ⟨hcovered, ?_, ?_⟩
    · show m'.tree.Ledger (k.taken ++ m'.tree.log.toList) _
      rw [hsplices]
      exact h.ledger.grow hforest hgrows.sound.forest hgrows.size_le
        (fun x hx ↦ hgrows.node?_eq hx) hgeneration
        (hshown'.budgetAt_le hgrows.sound.forest)
    · show (k.sites ++ _).length = ((k.session.issues ++ [i]).map _).sum
      rw [List.length_append, h.complete, hlowered.sites, List.map_append, List.sum_append,
        Part.conditionalsIn_cons, Part.conditionals_ofProgram]
      rfl
  | @releases index i x hi hpresent =>
    have hmachine := Engine.release_of_resolve (e := k.session.engine) hpresent.resolve
    have hlog := (Tree.discarded_discard k.session.engine.machine.tree x).history.2
    have hsplices : k.taken ++ (k.session.engine.machine.tree.discard x).log.toList =
        k.splices := by
      rw [hlog]
      rfl
    have hnone : k.session.sitesMade ⟨k.session.engine.release i.program,
        Issue.releaseAt index k.session.issues⟩ = [] :=
      Session.sitesMade_of_length_eq (List.length_modify ..)
    rw [hnone, List.append_nil]
    refine ⟨hcovered, ?_, ?_⟩
    · show (k.session.engine.release i.program).machine.tree.Ledger
        (k.taken ++ (k.session.engine.release i.program).machine.tree.log.toList) k.sites
      rw [hmachine, hsplices]
      exact h.ledger.discard hforest hpresent.isRoot
    · show k.sites.length = ((Issue.releaseAt index k.session.issues).map _).sum
      rw [h.complete, Issue.map_source_releaseAt]
      rfl
  | takes heq => exact absurd heq hc

theorem takeSplices (h : k.Balanced)
    (hvalid : Valid calls k.session.engine.machine k.session.issues) :
    (k.step .takeSplices).Balanced := by
  have hcovered := h.covered.moves hvalid (Session.step_moves hvalid .takeSplices)
  have hnone : k.session.sitesMade (k.session.step .takeSplices) = [] :=
    Session.sitesMade_of_length_eq rfl
  have hsites : (k.step .takeSplices).sites = k.sites := by
    show k.sites ++ _ = k.sites
    rw [hnone, List.append_nil]
  have hsplices : (k.step .takeSplices).splices = k.splices := List.append_nil _
  refine ⟨hcovered, ?_, ?_⟩
  · rw [hsites, hsplices]
    obtain ⟨hcounted, hbounded, hdistinct, hstanding, hbalanced, hcovers, hsettled⟩ := h.ledger
    exact ⟨hcounted, hbounded, hdistinct, hstanding, hbalanced, hcovers, hsettled⟩
  · rw [hsites]
    exact h.complete

theorem step (h : k.Balanced) (hvalid : Valid calls k.session.engine.machine k.session.issues)
    (c : Command) : (k.step c).Balanced := by
  by_cases hc : c = .takeSplices
  · rw [hc]
    exact h.takeSplices hvalid
  · have htaken : k.step c =
        ⟨k.session.step c, k.taken, k.sites ++ k.session.sitesMade (k.session.step c)⟩ := by
      cases c <;> first | rfl | exact absurd rfl hc
    rw [htaken]
    exact h.moves hvalid hc (Session.step_moves hvalid c)

end Balanced

theorem balanced_after (options : EngineOptions) (commands : List Command) :
    (after options commands).Balanced := by
  refine (List.foldlRecOn commands Chronicle.step
    (motive := fun k ↦ (∃ calls, Valid calls k.session.engine.machine k.session.issues) ∧
      k.Balanced) ⟨⟨fun _ ↦ .origin, .new _⟩, .new options⟩ ?_).2
  rintro k ⟨⟨calls, hvalid⟩, hk⟩ c _
  exact ⟨Session.valid_step hvalid c, hk.step hvalid c⟩

/-- Every splice so far belongs to one conditional that was lowered, and none has had more than
three. -/
structure Settled (k : Chronicle) : Prop where
  counted : k.splices.length = k.session.engine.machine.tree.generation
  distinct : k.sites.Nodup
  complete : k.sites.length = k.session.conditionals
  shared : (k.sites.flatMap fun s ↦ s.events k.splices).Perm k.splices
  bounded : ∀ s ∈ k.sites, (s.events k.splices).length ≤ 3

theorem Balanced.settled {k : Chronicle} (h : k.Balanced) : k.Settled where
  counted := h.ledger.counted
  distinct := .of_map _ h.ledger.distinct
  complete := h.complete
  shared := h.ledger.settled
  bounded := fun s hs ↦ Nat.le_of_add_right_le (h.ledger.balanced s hs)

theorem Settled.generation_le {k : Chronicle} (h : k.Settled) :
    k.session.engine.machine.tree.generation ≤ 3 * k.session.conditionals := by
  calc k.session.engine.machine.tree.generation
      = (k.sites.flatMap fun s ↦ s.events k.splices).length :=
        h.counted.symm.trans h.shared.length_eq.symm
    _ = (k.sites.map fun s ↦ (s.events k.splices).length).sum := List.length_flatMap
    _ ≤ (k.sites.map fun s ↦ (s.events k.splices).length).length • 3 := by
        refine List.sum_le_card_nsmul _ 3 fun n hn ↦ ?_
        obtain ⟨s, hs, rfl⟩ := List.mem_map.mp hn
        exact h.bounded s hs
    _ = 3 * k.session.conditionals := by
        rw [List.length_map, h.complete, nsmul_eq_mul, Nat.cast_id, Nat.mul_comm]

end Chronicle

namespace Session

/-- No history splices more than three times for each `if` that it lowers, nor for any one. -/
theorem splices_settled (options : EngineOptions) (commands : List Command) :
    (after options commands).engine.machine.tree.generation ≤
        3 * (after options commands).conditionals ∧
      (Chronicle.after options commands).session = after options commands ∧
      (Chronicle.after options commands).Settled := by
  have hsettled := (Chronicle.balanced_after options commands).settled
  have hbound := hsettled.generation_le
  have hsession := Chronicle.session_after options commands
  rw [hsession] at hbound
  exact ⟨hbound, hsession, hsettled⟩

end Session

end AdaptiveTree
