import AdaptiveTree.Proofs.Session.History
import AdaptiveTree.Proofs.Simulation.Cuts

/-!
Who waits for `return`. After any history, and in the middle of any run, the subscriptions under
`return` are those of the live return tails that rely on its own meaning, one for each; as soon
as `return` is bound there are none left.
-/

set_option autoImplicit false
set_option relaxedAutoImplicit false

namespace AdaptiveTree

namespace Machine

/-- The watch is complete and exact about `return`. -/
structure Watched (m : Machine) : Prop where
  /-- No return tail waits twice. -/
  distinct : ((m.watch.subscribers "return").map Subscription.owner).Nodup
  /-- Whoever waits is a live return tail that relies on the builtin, and all of those wait. -/
  owners : ∀ x, x ∈ (m.watch.subscribers "return").map Subscription.owner ↔
    ∃ c body arg rest, m.tree.kind x = .ok (.cond (.returnBuiltin c body arg rest))
  unbound : m.frame.contains "return" = true → ∀ x c body arg rest,
    m.tree.kind x ≠ .ok (.cond (.returnBuiltin c body arg rest))
  unwatched : m.frame.contains "return" = true → m.watch.subscribers "return" = []

theorem isBuiltinTail_iff_kind {t : Tree} {x : NodeId} : t.IsBuiltinTail x ↔
    ∃ c body arg rest, t.kind x = .ok (.cond (.returnBuiltin c body arg rest)) := by
  constructor
  · rintro ⟨n, hn, htail⟩
    obtain ⟨c, body, arg, rest, hkind⟩ := NodeKind.isBuiltinTail_eq_true_iff.mp htail
    exact ⟨c, body, arg, rest, by rw [Tree.kind_eq hn, hkind]⟩
  · rintro ⟨c, body, arg, rest, hkind⟩
    obtain ⟨n, hn, hkind⟩ := Tree.kind_eq_ok hkind
    exact ⟨n, hn, by rw [hkind]; rfl⟩

theorem Sound.watched {calls : NodeId → Span} {m : Machine} (h : m.Sound calls) : m.Watched where
  distinct := h.distinct
  owners := fun x ↦ (h.mem_owners x).trans isBuiltinTail_iff_kind
  unbound := fun hbound x c body arg rest hkind ↦
    h.unbound hbound x (isBuiltinTail_iff_kind.mpr ⟨c, body, arg, rest, hkind⟩)
  unwatched := fun hbound ↦ by
    have hnone : ∀ s, s ∉ m.watch.subscribers "return" := fun s hs ↦
      h.unbound hbound s.owner ((h.mem_owners s.owner).mp (List.mem_map_of_mem hs))
    exact List.eq_nil_iff_forall_not_mem.mpr hnone

end Machine

namespace Session

/-- A run that may be broken off is the whole run, or it ends in a machine to stop in. -/
theorem interrupted_eq_or_stops (s : Session) (stop : Machine → Bool) (maxDepth index : Nat) :
    s.interrupted stop maxDepth index = (s.step (.run (some maxDepth) index)).engine.machine ∨
      stop (s.interrupted stop maxDepth index) = true := by
  unfold interrupted
  cases hissue : s.issues[index]? with
  | none =>
    rw [step_run_of_none hissue]
    exact Or.inl rfl
  | some i =>
    rw [step_run_of_some hissue, Option.getD_some]
    unfold Engine.runWith
    dsimp only
    cases hresolve : s.engine.machine.tree.resolve i.program.root with
    | error e => exact Or.inl rfl
    | ok root =>
      have hwhole := Machine.run_eq s.engine.machine maxDepth root
      rcases Eval.cuts_executeUntil stop maxDepth root s.engine.machine with
        heq | ⟨m, hleft, hstop⟩
      · exact Or.inl ((congrArg machineOf heq).trans hwhole.symm)
      · exact Or.inr ((congrArg (stop ∘ machineOf) hleft).trans hstop)

/-- After any history, and after any binding in the middle of a run that follows it. -/
theorem watched_always (options : EngineOptions) (commands : List Command)
    (stop : Machine → Bool) (maxDepth index : Nat) :
    (after options commands).engine.machine.Watched ∧
      ((after options commands).interrupted stop maxDepth index).Watched := by
  obtain ⟨calls, hvalid⟩ := valid_after options commands
  exact ⟨hvalid.sound.watched, (valid_interrupted hvalid stop maxDepth index).sound.watched⟩

end Session

end AdaptiveTree
