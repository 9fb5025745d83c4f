import Mathlib.Data.List.Range
import AdaptiveTree.Proofs.Tree.Atomicity
import AdaptiveTree.Proofs.Tree.Histories

/-!
The logs of a tree tell its whole history. What was taken of the log on the way and what it still
holds are, one after the other, the splices numbered from one without a gap. A link that a node left
behind has its one event among them; every other event tells of a node that was put above another
one, which stayed.
-/

set_option autoImplicit false
set_option relaxedAutoImplicit false

namespace AdaptiveTree.Tree

variable {t t' : Tree} {operation : Operation} {event : SpliceEvent}

/-! ### What is handed over -/

/-- The events that an operation hands over. -/
def Operation.handed (t : Tree) : Operation → List SpliceEvent
  | takeLog =>
    match Edit.takeLog t with
    | .ok events _ => events.toList
    | .error _ _ => []
  | _ => []

/-- The events handed over in the course of operations on a tree. -/
def drained : Tree → List Operation → List SpliceEvent
  | _, [] => []
  | t, operation :: rest => operation.handed t ++ drained (operation.apply t) rest

/-- All that was ever logged: the logs taken on the way and the log as it stands. -/
def chronicle (operations : List Operation) : List SpliceEvent :=
  drained empty operations ++ (after operations).log.toList

theorem drained_append (t : Tree) (first more : List Operation) :
    drained t (first ++ more) =
      drained t first ++ drained (first.foldl Operation.apply t) more := by
  induction first generalizing t with
  | nil => rfl
  | cons operation rest ih => rw [List.cons_append, drained, ih, drained, List.append_assoc]; rfl

theorem after_concat (operations : List Operation) (operation : Operation) :
    after (operations ++ [operation]) = operation.apply (after operations) :=
  after_append operations [operation]

/-! ### One operation -/

/-- An operation that makes no splice. -/
structure Silent (operation : Operation) (t t' : Tree) : Prop where
  events_eq : operation.handed t ++ t'.log.toList = t.log.toList
  generation_eq : t'.generation = t.generation
  links_eq : ∀ i, t'.forwarded? i = t.forwarded? i

/-- An operation that makes a splice. -/
structure Logs (operation : Operation) (t : Tree) (event : SpliceEvent) (t' : Tree) : Prop where
  events_eq : operation.handed t ++ t'.log.toList = t.log.toList ++ [event]
  number_eq : event.generation = t.generation + 1
  generation_eq : t'.generation = t.generation + 1

/-- The event tells of a live node that left a link to another one. -/
structure Replaces (t : Tree) (event : SpliceEvent) (t' : Tree) : Prop where
  unlinked : t.forwarded? event.old = none
  links_eq : ∀ i, t'.forwarded? i =
    if i = event.old then some ⟨event.new, event.generation⟩ else t.forwarded? i

/-- The event tells of a node that was built over another one, which stayed. -/
structure Wraps (operation : Operation) (t : Tree) (event : SpliceEvent) (t' : Tree) : Prop where
  inserted : ∃ parent wrap reason, operation = .insertAbove parent event.old wrap reason ∧
    Edit.insertAbove parent event.old wrap reason t = .ok event.new t' ∧
    t'.kind event.new = .ok (wrap event.old)
  stays : t'.isLive event.old = true
  links_eq : ∀ i, t'.forwarded? i = t.forwarded? i

theorem silent_same (t : Tree) (h : operation.handed t = []) : Silent operation t t :=
  ⟨by rw [h, List.nil_append], rfl, fun _ ↦ rfl⟩

theorem Spliced.logs {holder : Option NodeId} {old new : NodeId} {reason : String}
    (h : Spliced t holder old new reason t') (operation : Operation)
    (hhanded : operation.handed t = []) :
    ∃ event, Logs operation t event t' ∧ Replaces t event t' := by
  obtain ⟨oldKind, newKind, hlog⟩ := h.log_eq
  obtain ⟨n, hold⟩ := h.live_old
  refine ⟨⟨t.generation + 1, old, new, oldKind, newKind, reason⟩,
    ⟨?_, rfl, h.generation_eq⟩, ⟨?_, h.forwarded?_eq⟩⟩
  · rw [hhanded, hlog, List.nil_append, Array.toList_push]
  · rw [Tree.forwarded?_eq, node?_eq_some_iff.mp hold]
    rfl

theorem logs_insertAbove {parent child : NodeId} {wrap : NodeId → NodeKind} {reason : String}
    (hok : Edit.insertAbove parent child wrap reason t = .ok t.nextId t')
    (h : Inserted t parent child (wrap child) reason t') :
    ∃ event, Logs (.insertAbove parent child wrap reason) t event t' ∧
      Wraps (.insertAbove parent child wrap reason) t event t' := by
  obtain ⟨n, hchild, hslots⟩ := h.slots_eq
  obtain ⟨u, hu, -, hgeneration, childKind, wrapKind, hlog⟩ :=
    Edit.insertAbove_eq h.held hchild wrap reason
  obtain ⟨-, rfl⟩ := EStateM.Result.ok.inj (hu.symm.trans hok)
  refine ⟨⟨t.generation + 1, child, t.nextId, childKind, wrapKind, reason⟩,
    ⟨?_, rfl, hgeneration⟩, ⟨parent, wrap, reason, rfl, hok, ?_⟩, ?_, h.forwarded?_eq⟩
  · rw [hlog, Array.toList_push]
    rfl
  · -- the slot that is overwritten is one of `parent`, which was there before
    obtain ⟨k, hparent, -⟩ := h.held
    have hne : parent ≠ t.nextId := Nat.ne_of_lt (lt_size_of_node? hparent)
    obtain ⟨p, hnew⟩ := exists_node?_alloc_nextId t (wrap child) n.span
    have hnode := node?_hung parent child t.nextId hnew
    rw [node?, ← hslots, ← node?] at hnode
    rw [kind_eq hnode]
    simp [seated, hne]
  · obtain ⟨p, hchild'⟩ := exists_node?_alloc (wrap child) n.span hchild
    have hnode := node?_hung parent child t.nextId hchild'
    rw [node?, ← hslots, ← node?] at hnode
    exact isLive_iff.mpr ⟨_, hnode⟩

/-- What an operation adds to the history: nothing, a link with its event, or a node above. -/
theorem Operation.logs_cases (operation : Operation) (t : Tree) :
    Silent operation t (operation.apply t) ∨
      ∃ event, Logs operation t event (operation.apply t) ∧
        (Replaces t event (operation.apply t) ∨ Wraps operation t event (operation.apply t)) := by
  cases operation with
  | alloc kind span =>
    refine .inl ⟨congrArg Array.toList (log_alloc t kind span), generation_alloc t kind span,
      fun i ↦ (persists_alloc t kind span).forwarded?_eq fun link ↦ forwarded?_of_alloc⟩
  | replaceChild parent old new reason =>
    rcases Edit.replaceChild_cases t parent old new reason with ⟨e, he⟩ | ⟨t', hok, hspliced⟩
    · rw [apply, Edit.left_of_error he]
      exact .inl (silent_same t rfl)
    · rw [apply, Edit.left_of_ok hok]
      obtain ⟨event, hlogs, hreplaces⟩ := hspliced.logs (.replaceChild parent old new reason) rfl
      exact .inr ⟨event, hlogs, .inl hreplaces⟩
  | replaceSelf node new reason =>
    rcases Edit.replaceSelf_cases t node new reason with ⟨e, he⟩ | ⟨n, t', _, hok, hspliced⟩
    · rw [apply, Edit.left_of_error he]
      exact .inl (silent_same t rfl)
    · rw [apply, Edit.left_of_ok hok]
      obtain ⟨event, hlogs, hreplaces⟩ := hspliced.logs (.replaceSelf node new reason) rfl
      exact .inr ⟨event, hlogs, .inl hreplaces⟩
  | insertAbove parent child wrap reason =>
    rcases Edit.insertAbove_cases t parent child wrap reason with ⟨e, he⟩ | ⟨t', hok, hinserted⟩
    · rw [apply, Edit.left_of_error he]
      exact .inl (silent_same t rfl)
    · rw [apply, Edit.left_of_ok hok]
      obtain ⟨event, hlogs, hwraps⟩ := logs_insertAbove hok hinserted
      exact .inr ⟨event, hlogs, .inr hwraps⟩
  | discard node =>
    obtain ⟨hgeneration, hlog⟩ := (discarded_discard t node).history
    exact .inl ⟨congrArg Array.toList hlog, hgeneration, forwarded?_discard t node⟩
  | takeLog => exact .inl ⟨List.append_nil _, rfl, fun _ ↦ rfl⟩

/-! ### Any number of operations -/

theorem Silent.chronicle_eq {operations : List Operation}
    (h : Silent operation (after operations) (operation.apply (after operations))) :
    chronicle (operations ++ [operation]) = chronicle operations := by
  rw [chronicle, chronicle, drained_append, after_concat, drained, drained, List.append_nil,
    List.append_assoc]
  exact congrArg _ h.events_eq

theorem Logs.chronicle_eq {operations : List Operation}
    (h : Logs operation (after operations) event (operation.apply (after operations))) :
    chronicle (operations ++ [operation]) = chronicle operations ++ [event] := by
  rw [chronicle, chronicle, drained_append, after_concat, drained, drained, List.append_nil,
    List.append_assoc, List.append_assoc]
  exact congrArg _ h.events_eq

/-- One of the operations put a node above another one, and the event tells of that. -/
def PutAbove (operations : List Operation) (event : SpliceEvent) : Prop :=
  ∃ before operation more, operations = before ++ operation :: more ∧
    Wraps operation (after before) event (after (before ++ [operation])) ∧
    (after (before ++ [operation])).generation = event.generation

theorem PutAbove.concat {operations : List Operation} (h : PutAbove operations event)
    (operation : Operation) : PutAbove (operations ++ [operation]) event := by
  obtain ⟨before, made, more, rfl, hwraps, hgeneration⟩ := h
  exact ⟨before, made, more ++ [operation], by simp, hwraps, hgeneration⟩

/-- The number of an event is its place in the history. -/
theorem numbers_chronicle (operations : List Operation) :
    (chronicle operations).map SpliceEvent.generation =
      List.range' 1 (after operations).generation := by
  induction operations using List.reverseRecOn with
  | nil => rfl
  | append_singleton operations operation ih =>
    rcases operation.logs_cases (after operations) with hsilent | ⟨event, hlogs, -⟩
    · rw [hsilent.chronicle_eq, after_concat, hsilent.generation_eq, ih]
    · rw [hlogs.chronicle_eq, after_concat, hlogs.generation_eq, List.map_append, ih,
        List.range'_1_concat, List.map_singleton, hlogs.number_eq, Nat.add_comm]

/-- Every link was logged when it was made. -/
theorem exists_mem_chronicle {operations : List Operation} {id : NodeId} {link : Forward}
    (h : (after operations).forwarded? id = some link) :
    ∃ event ∈ chronicle operations,
      event.generation = link.generation ∧ event.old = id ∧ event.new = link.target := by
  induction operations using List.reverseRecOn with
  | nil => simp [after, forwarded?_eq, empty] at h
  | append_singleton operations operation ih =>
    rw [after_concat] at h
    rcases operation.logs_cases (after operations) with hsilent | ⟨event, hlogs, hevent⟩
    · rw [hsilent.links_eq] at h
      rw [hsilent.chronicle_eq]
      exact ih h
    · rw [hlogs.chronicle_eq]
      have hbefore : (after operations).forwarded? id = some link →
          ∃ earlier ∈ chronicle operations ++ [event], earlier.generation = link.generation ∧
            earlier.old = id ∧ earlier.new = link.target := fun h ↦ by
        obtain ⟨earlier, hmem, hfields⟩ := ih h
        exact ⟨earlier, List.mem_append_left _ hmem, hfields⟩
      rcases hevent with hreplaces | hwraps
      · rw [hreplaces.links_eq] at h
        split_ifs at h with hid
        · obtain rfl := Option.some.inj h
          exact ⟨event, List.mem_append_right _ (List.mem_singleton.mpr rfl), rfl, hid.symm, rfl⟩
        · exact hbefore h
      · rw [hwraps.links_eq] at h
        exact hbefore h

/-- Every event tells of a link that is still there, or of a node put above another one. -/
theorem linked_or_putAbove {operations : List Operation} (h : event ∈ chronicle operations) :
    (after operations).forwarded? event.old = some ⟨event.new, event.generation⟩ ∨
      PutAbove operations event := by
  induction operations using List.reverseRecOn with
  | nil => cases h
  | append_singleton operations operation ih =>
    have hbefore (hmem : event ∈ chronicle operations) :
        (operation.apply (after operations)).forwarded? event.old =
          some ⟨event.new, event.generation⟩ ∨ PutAbove (operations ++ [operation]) event :=
      (ih hmem).imp (operation.advances (after operations)).persists.forwarded?_eq_some
        fun hput ↦ hput.concat operation
    rw [after_concat]
    rcases operation.logs_cases (after operations) with hsilent | ⟨latest, hlogs, hlatest⟩
    · rw [hsilent.chronicle_eq] at h
      exact hbefore h
    · rw [hlogs.chronicle_eq] at h
      rcases List.mem_append.mp h with hmem | hmem
      · exact hbefore hmem
      · obtain rfl := List.mem_singleton.mp hmem
        rcases hlatest with hreplaces | hwraps
        · exact .inl (by rw [hreplaces.links_eq, if_pos rfl])
        · refine .inr ⟨operations, operation, [], rfl, ?_, ?_⟩
          · rw [after_concat]
            exact hwraps
          · rw [after_concat, hlogs.generation_eq, hlogs.number_eq]

/-- The history that the logs tell has no gap, and nothing is missing in it or told twice. -/
structure Complete (operations : List Operation) : Prop where
  numbered : (chronicle operations).map SpliceEvent.generation =
    List.range' 1 (after operations).generation
  retired : ∀ id link, (after operations).forwarded? id = some link →
    (chronicle operations).countP (fun event ↦ event.generation = link.generation ∧
      event.old = id ∧ event.new = link.target) = 1
  others : ∀ event ∈ chronicle operations,
    (after operations).forwarded? event.old = some ⟨event.new, event.generation⟩ ∨
      PutAbove operations event

theorem chronicle_complete (operations : List Operation) : Complete operations where
  numbered := numbers_chronicle operations
  retired id link h := by
    obtain ⟨event, hmem, hfields⟩ := exists_mem_chronicle h
    -- no other event has the same number
    have hdistinct : ((chronicle operations).map SpliceEvent.generation).Nodup := by
      rw [numbers_chronicle]
      exact List.nodup_range'
    have hmost :
        (chronicle operations).countP (fun event ↦ event.generation = link.generation) ≤ 1 := by
      have hcount := List.nodup_iff_count_le_one.mp hdistinct link.generation
      rw [List.count, List.countP_map] at hcount
      exact hcount
    refine Nat.le_antisymm (Nat.le_trans (List.countP_mono_left ?_) hmost) ?_
    · intro earlier _ hearlier
      simp only [decide_eq_true_eq] at hearlier ⊢
      exact hearlier.1
    · exact List.countP_pos_iff.mpr ⟨event, hmem, decide_eq_true hfields⟩
  others _ h := linked_or_putAbove h

/-- A node is put above another one, the log is taken, a splice is refused, and a root gives way. -/
example : (chronicle [.alloc (.constant .null) ⟨1, 2⟩, .alloc (.unary .neg 0) ⟨0, 2⟩,
    .insertAbove 1 0 (.convert · .generic) "wrap", .takeLog, .replaceChild 0 1 2 "refused",
    .alloc (.constant .null) ⟨0, 2⟩, .replaceSelf 1 3 "swap"]).map
      (fun event ↦ (event.generation, event.old, event.new)) = [(1, 0, 2), (2, 1, 3)] := by
  decide +kernel

end AdaptiveTree.Tree
