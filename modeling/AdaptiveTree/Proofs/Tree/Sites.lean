import AdaptiveTree.Proofs.Tree.Slots

/-!
Conditionals followed through splices. The site of a conditional is its node with the node of
its condition; a splice moves it along, and is one of its own if it replaced the node or put a
conversion step in the place of the condition.
-/

set_option autoImplicit false
set_option relaxedAutoImplicit false

namespace AdaptiveTree

/-- A conditional with its condition, as they stand in a tree. -/
structure Site where
  node : NodeId
  cond : NodeId
  deriving DecidableEq, Repr

namespace SpliceEvent

/-- The names of conversion steps. -/
def stepNames : List String :=
  [ConvertMode.logical, .integer, .double, .generic].map fun mode ↦ (NodeKind.convert 0 mode).name

/-- Whether a splice put in a conversion step: above another node or instead of another step. -/
def isStep (e : SpliceEvent) : Bool := stepNames.contains e.newKind

theorem isStep_of_convert {e : SpliceEvent} {mode : ConvertMode}
    (h : e.newKind = (NodeKind.convert 0 mode).name) : e.isStep = true := by
  rw [isStep, h]
  cases mode <;> rfl

theorem isStep_of_cond {e : SpliceEvent} {form : Conditional}
    (h : e.newKind = (NodeKind.cond form).name) : e.isStep = false := by
  rw [isStep, h]
  cases form <;> rfl

end SpliceEvent

namespace Site

variable {s : Site} {e : SpliceEvent}

/-- Whether a splice rewrites this conditional or converts its condition. -/
def takes (s : Site) (e : SpliceEvent) : Bool := if e.isStep then e.old = s.cond else e.old = s.node

/-- The site after a splice. A step that is put above the node itself leaves the node where it
is; whatever takes the place of the condition is the condition. -/
def follow (s : Site) (e : SpliceEvent) : Site where
  node := if e.isStep = false ∧ e.old = s.node then e.new else s.node
  cond := if e.old = s.cond then e.new else s.cond

/-- The site after some splices. -/
def after (s : Site) (splices : List SpliceEvent) : Site := splices.foldl follow s

/-- The splices that rewrite this conditional or convert its condition. -/
def events (s : Site) : List SpliceEvent → List SpliceEvent
  | [] => []
  | e :: rest => if s.takes e then e :: (s.follow e).events rest else (s.follow e).events rest

theorem after_concat (s : Site) (splices : List SpliceEvent) (e : SpliceEvent) :
    s.after (splices ++ [e]) = (s.after splices).follow e := by
  rw [after, List.foldl_append]
  rfl

theorem events_concat (s : Site) (splices : List SpliceEvent) (e : SpliceEvent) :
    s.events (splices ++ [e]) =
      s.events splices ++ if (s.after splices).takes e then [e] else [] := by
  induction splices generalizing s with
  | nil => rfl
  | cons first rest ih =>
    have hrest := ih (s.follow first)
    have hafter : s.after (first :: rest) = (s.follow first).after rest := rfl
    rw [List.cons_append, events, events, hrest, hafter]
    cases s.takes first <;> rfl

/-- Splices at other nodes leave a site alone. -/
theorem of_others {splices : List SpliceEvent}
    (h : ∀ e ∈ splices, e.old ≠ s.node ∧ e.old ≠ s.cond) :
    s.after splices = s ∧ s.events splices = [] := by
  induction splices with
  | nil => exact ⟨rfl, rfl⟩
  | cons e rest ih =>
    obtain ⟨hnode, hcond⟩ := h e (List.mem_cons_self ..)
    have hfollow : s.follow e = s := by simp [follow, hnode, hcond]
    have htakes : s.takes e = false := by simp [takes, hnode, hcond]
    obtain ⟨hafter, hevents⟩ := ih fun e' he' ↦ h e' (List.mem_cons_of_mem e he')
    rw [after, List.foldl_cons, hfollow, events, htakes, hfollow]
    exact ⟨hafter, hevents⟩

end Site

namespace Tree

variable {t t' : Tree} {x : NodeId} {start : Nat} {s : Site} {form : Conditional}

/-- The kind of a live node. -/
def kind? (t : Tree) (x : NodeId) : Option NodeKind := (t.node? x).map Node.kind

theorem kind?_eq_some_iff {k : NodeKind} :
    t.kind? x = some k ↔ ∃ n, t.node? x = some n ∧ n.kind = k :=
  Option.map_eq_some_iff

/-- The site of a live conditional. -/
def site? (t : Tree) (x : NodeId) : Option Site :=
  match t.kind? x with
  | some (.cond form) => some ⟨x, form.cond⟩
  | _ => none

theorem site?_eq_some_iff :
    t.site? x = some s ↔ ∃ form, t.kind? x = some (.cond form) ∧ s = ⟨x, form.cond⟩ := by
  unfold site?
  split
  · next form hkind => simp [hkind, eq_comm]
  · next hother =>
    constructor
    · simp
    · rintro ⟨form, hkind, _⟩
      exact absurd hkind (hother form)

theorem site?_of_cond (h : t.kind? x = some (.cond form)) : t.site? x = some ⟨x, form.cond⟩ :=
  site?_eq_some_iff.mpr ⟨form, h, rfl⟩

theorem node_of_site? (h : t.site? x = some s) : s.node = x := by
  obtain ⟨form, _, rfl⟩ := site?_eq_some_iff.mp h
  rfl

/-- The sites of the live conditionals that were allocated from a number on. -/
def sitesFrom (t : Tree) (start : Nat) : List Site :=
  (List.range' start (t.slots.size - start)).filterMap t.site?

theorem mem_sitesFrom_iff : s ∈ t.sitesFrom start ↔ start ≤ s.node ∧ t.site? s.node = some s := by
  unfold sitesFrom
  rw [List.mem_filterMap]
  constructor
  · rintro ⟨x, hx, hs⟩
    rw [node_of_site? hs]
    exact ⟨(List.mem_range'_1.mp hx).1, hs⟩
  · rintro ⟨hstart, hs⟩
    obtain ⟨form, hkind, _⟩ := site?_eq_some_iff.mp hs
    obtain ⟨n, hn, _⟩ := kind?_eq_some_iff.mp hkind
    have hlt : s.node < t.slots.size := lt_size_of_node? hn
    refine ⟨s.node, List.mem_range'_1.mpr ⟨hstart, ?_⟩, hs⟩
    rw [Nat.add_sub_cancel' (Nat.le_trans hstart (Nat.le_of_lt hlt))]
    exact hlt

theorem nodup_sitesFrom (t : Tree) (start : Nat) : ((t.sitesFrom start).map Site.node).Nodup := by
  refine List.pairwise_map.mpr (List.pairwise_filterMap.mpr ?_)
  have hdistinct : (List.range' start (t.slots.size - start)).Nodup := List.nodup_range' ..
  refine hdistinct.imp fun hne s hs s' hs' ↦ ?_
  rw [node_of_site? hs, node_of_site? hs']
  exact hne

/-- A tree that grows behind a number keeps the sites up to there. -/
theorem sitesFrom_of_grown (hsize : t.slots.size ≤ t'.slots.size)
    (hsame : ∀ x, x < t.slots.size → t'.site? x = t.site? x) (hstart : start ≤ t.slots.size) :
    t'.sitesFrom start = t.sitesFrom start ++ t'.sitesFrom t.slots.size := by
  have hrange : List.range' start (t'.slots.size - start) =
      List.range' start (t.slots.size - start) ++
        List.range' t.slots.size (t'.slots.size - t.slots.size) := by
    have hlength : t'.slots.size - start =
        t.slots.size - start + (t'.slots.size - t.slots.size) := by omega
    rw [hlength, ← List.range'_append_1, Nat.add_sub_cancel' hstart]
  rw [sitesFrom, hrange, List.filterMap_append]
  congr 1
  refine List.filterMap_congr fun x hx ↦ hsame x ?_
  have hbound := (List.mem_range'_1.mp hx).2
  rwa [Nat.add_sub_cancel' hstart] at hbound

section Alloc

variable {kind : NodeKind} (span : Span) (hchildren : ∀ c ∈ kind.children, c < t.slots.size)

include hchildren

theorem kind?_alloc :
    (t.alloc kind span).kind? x = if x = t.nextId then some kind else t.kind? x := by
  rw [kind?, t.node?_alloc kind span hchildren]
  split_ifs
  · rfl
  · rw [Option.map_map]
    rfl
  · rfl

/-- Allocating a conditional adds one site. -/
theorem length_sitesFrom_alloc (hstart : start ≤ t.slots.size) :
    ((t.alloc kind span).sitesFrom start).length =
      (t.sitesFrom start).length + kind.isConditional.toNat := by
  have hsame : ∀ x, x < t.slots.size → (t.alloc kind span).site? x = t.site? x := by
    intro x hx
    have hne : x ≠ t.nextId := Nat.ne_of_lt hx
    rw [site?, site?, kind?_alloc span hchildren, if_neg hne]
  have hnew : (t.alloc kind span).kind? t.slots.size = some kind :=
    (kind?_alloc span hchildren).trans (if_pos rfl)
  have hone : ((t.alloc kind span).sitesFrom t.slots.size).length = kind.isConditional.toNat := by
    have hrange : List.range' t.slots.size ((t.alloc kind span).slots.size - t.slots.size) =
        [t.slots.size] := by
      rw [size_alloc, Nat.add_sub_cancel_left]
      rfl
    rw [sitesFrom, hrange, List.filterMap_cons, List.filterMap_nil, site?, hnew]
    cases kind <;> rfl
  rw [sitesFrom_of_grown (by rw [size_alloc]; exact Nat.le_succ _) hsame hstart,
    List.length_append, hone]

end Alloc

end Tree

end AdaptiveTree
