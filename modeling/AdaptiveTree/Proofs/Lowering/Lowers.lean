import AdaptiveTree.Proofs.Lowering.Grows
import AdaptiveTree.Proofs.Reading.Conditionals

/-!
What lowering leaves behind. A program is lowered to one new root that shows its source, in a
machine that is still sound: a return tail is entered where `return` is watched as soon as it is
there.
-/

set_option autoImplicit false
set_option relaxedAutoImplicit false

namespace AdaptiveTree

open Machine (Sound)

/-- A machine with roots that were lowered since it was another one. -/
structure Lowered (calls₀ : NodeId → Span) (m₀ : Machine) (calls : NodeId → Span) (m : Machine)
    (ids : List NodeId) (parts : List Part) : Prop where
  grows : Grows calls₀ calls m₀ m
  roots : Roots calls m₀.tree.slots.size m.tree ids parts
  /-- No other roots came about. -/
  rooted : ∀ c, m.tree.IsRoot c → m₀.tree.IsRoot c ∨ c ∈ ids
  /-- One conditional was allocated for every `if` expression. -/
  sites : (m.tree.sitesFrom m₀.tree.slots.size).length = Part.conditionalsIn parts

/-- Lowering that leaves roots for the given parts in any sound machine. -/
def Lowers {α : Type} (x : Lower α) (idsOf : α → List NodeId) (parts : List Part) : Prop :=
  ∀ (calls : NodeId → Span) (m : Machine), m.Sound calls →
    ∃ a calls' m', x m = (a, m') ∧ Lowered calls m calls' m' (idsOf a) parts

namespace Lower

theorem bind_eq {α β : Type} {x : Lower α} {f : α → Lower β} {m m' : Machine} {a : α}
    (h : x m = (a, m')) : (x >>= f) m = f a m' := by
  show (match x m with | (a, m') => f a m') = f a m'
  rw [h]

end Lower

namespace Lowered

variable {calls₀ calls : NodeId → Span} {m₀ m : Machine} {kind : NodeKind} {span : Span}
  {ids : List NodeId} {part : Part} {parts parts' : List Part}

theorem start (h : m.Sound calls) : Lowered calls m calls m [] [] :=
  ⟨.refl h, .nil, fun _ hc ↦ Or.inl hc, by rw [Tree.sitesFrom, Nat.sub_self]; rfl⟩

theorem append {calls' : NodeId → Span} {m' : Machine} {others : List NodeId}
    (h : Lowered calls₀ m₀ calls m ids parts) (h' : Lowered calls m calls' m' others parts') :
    Lowered calls₀ m₀ calls' m' (ids ++ others) (parts ++ parts') where
  grows := h.grows.trans h'.grows
  roots := h.roots.extend h'.grows h.grows.size_le h'.roots
  rooted := fun c hc ↦ by
    rcases h'.rooted c hc with hc | hc
    · exact (h.rooted c hc).imp_right (List.mem_append_left others)
    · exact Or.inr (List.mem_append_right ids hc)
  sites := by
    rw [h'.grows.sitesFrom_eq h.grows.size_le, List.length_append, h.sites, h'.sites,
      Part.conditionalsIn_append]

theorem and_then {α : Type} {x : Lower α} {idsOf : α → List NodeId}
    (h : Lowered calls₀ m₀ calls m ids parts) (hx : Lowers x idsOf parts') :
    ∃ a calls' m', x m = (a, m') ∧
      Lowered calls₀ m₀ calls' m' (ids ++ idsOf a) (parts ++ parts') := by
  obtain ⟨a, calls', m', hrun, hlowered⟩ := hx calls m h.grows.sound
  exact ⟨a, calls', m', hrun, h.append hlowered⟩

/-- The root lowered first may come last among the children of a node. -/
theorem rotate {id : NodeId} (h : Lowered calls₀ m₀ calls m (id :: ids) (part :: parts)) :
    Lowered calls₀ m₀ calls m (ids ++ [id]) (parts ++ [part]) where
  grows := h.grows
  roots := h.roots.rotate
  rooted := fun c hc ↦ (h.rooted c hc).imp_right fun hmem ↦ by
    rw [List.mem_append, List.mem_singleton]
    exact (List.mem_cons.mp hmem).symm
  sites := by
    rw [h.sites, Part.conditionalsIn_append, Part.conditionalsIn_cons, Nat.add_comm]
    rfl

/-- The first root may also be read as a condition. -/
theorem test {id : NodeId} {e : Expr}
    (h : Lowered calls₀ m₀ calls m (id :: ids) (.value e :: parts)) :
    Lowered calls₀ m₀ calls m (id :: ids) (.test e :: parts) :=
  ⟨h.grows, h.roots.test, h.rooted, h.sites⟩

/-- A node allocated over what was lowered. -/
theorem allocated {calls' : NodeId → Span} {m' : Machine}
    (h : Lowered calls₀ m₀ calls m kind.children parts) (hsound : m'.Sound calls')
    (htree : m'.tree = m.tree.alloc kind span) (hworld : m'.world = m.world)
    (hdefined : m'.defined = m.defined)
    (hcalls : ∀ x, x < m.tree.slots.size → calls' x = calls x)
    (hfits : Fits calls' m.tree.nextId kind span part parts) :
    Lowered calls₀ m₀ calls' m' [m.tree.nextId] [part] := by
  have hsize : m.tree.slots.size ≤ m'.tree.slots.size := by
    rw [htree, Tree.size_alloc]
    exact Nat.le_succ _
  refine ⟨⟨hsound, Nat.le_trans h.grows.size_le hsize, ?_, fun i hi ↦ ?_, fun i hi ↦ ?_,
    hworld.trans h.grows.world, hdefined.trans h.grows.defined⟩, ?_, fun c hc ↦ ?_, ?_⟩
  · rw [htree, Tree.generation_alloc, Tree.log_alloc]
    exact h.grows.history
  · rw [htree, slots_alloc_of_lt h.roots h.grows.size_le hi, h.grows.slots i hi]
  · rw [hcalls i (Nat.lt_of_lt_of_le hi h.grows.size_le), h.grows.calls_eq i hi]
  · rw [htree]
    exact h.roots.alloc h.grows.sound.forest h.grows.size_le hcalls hfits
  · rw [htree] at hc
    rcases Tree.isRoot_of_alloc h.roots.isRoot hc with rfl | ⟨hroot, hnot⟩
    · exact Or.inr (List.mem_singleton.mpr rfl)
    · exact Or.inl ((h.rooted c hroot).resolve_right hnot)
  · rw [htree, Tree.length_sitesFrom_alloc span (fun c hc ↦ h.roots.lt_size hc) h.grows.size_le,
      h.sites, Part.conditionalsIn_cons, hfits.conditionals_eq, Nat.add_comm]
    rfl

/-- Allocating a node that is no return tail over what was lowered. -/
theorem alloc (h : Lowered calls₀ m₀ calls m kind.children parts)
    (hplain : kind.isBuiltinTail = false)
    (hfits : Fits calls m.tree.nextId kind span part parts) :
    Lowered calls₀ m₀ calls { m with tree := m.tree.alloc kind span } [m.tree.nextId] [part] := by
  have hsound := h.grows.sound
  have htails : ∀ x, (m.tree.alloc kind span).IsBuiltinTail x ↔ m.tree.IsBuiltinTail x := by
    intro x
    rw [isBuiltinTail_alloc h.roots.isRoot]
    simp [hplain]
  exact h.allocated ⟨hsound.forest.alloc h.roots.isRoot h.roots.nodup, hsound.keys, hsound.others,
    hsound.distinct, fun x ↦ (hsound.mem_owners x).trans (htails x).symm, hsound.callback,
    fun hbound x hx ↦ hsound.unbound hbound x ((htails x).mp hx)⟩ rfl rfl rfl (fun _ _ ↦ rfl) hfits

/-- The machine in which a return tail was allocated and entered where `return` is watched. -/
def watchingTail (m : Machine) (kind : NodeKind) (span callSpan : Span) : Machine :=
  { m with
    tree := m.tree.alloc kind span
    watch := m.watch.subscribe "return" m.tree.nextId fun _ ↦
      Edit.overrideReturn m.tree.nextId callSpan }

theorem subscribers_watchingTail (m : Machine) (kind : NodeKind) (span callSpan : Span) :
    (watchingTail m kind span callSpan).watch.subscribers "return" =
      m.watch.subscribers "return" ++ [⟨m.watch.issued, m.tree.nextId, fun _ ↦
        Edit.overrideReturn m.tree.nextId callSpan⟩] := by
  rw [watchingTail, Watch.subscribers_subscribe, if_pos rfl]

/-- Assumes: `return` is not bound. -/
theorem sound_watchingTail (h : Lowered calls₀ m₀ calls m kind.children parts)
    (htail : kind.isBuiltinTail = true) (hunbound : m.frame.contains "return" = false)
    {callSpan : Span} {calls' : NodeId → Span} (hnew : calls' m.tree.nextId = callSpan)
    (hold : ∀ x, x < m.tree.slots.size → calls' x = calls x) :
    (watchingTail m kind span callSpan).Sound calls' := by
  have hsound := h.grows.sound
  have hsubs := subscribers_watchingTail m kind span callSpan
  have howners : (watchingTail m kind span callSpan).watch.owners =
      m.watch.owners ++ [m.tree.nextId] := by
    rw [Watch.owners, hsubs, List.map_append]
    rfl
  have hlt : ∀ x, x ∈ m.watch.owners → x < m.tree.slots.size := by
    intro x hx
    obtain ⟨n, hn, _⟩ := (hsound.mem_owners x).mp hx
    exact Tree.lt_size_of_node? hn
  refine ⟨hsound.forest.alloc h.roots.isRoot h.roots.nodup, Watch.nodup_setEntry hsound.keys,
    fun name hname ↦ ?_, ?_, fun x ↦ ?_, fun s hs ↦ ?_, fun hbound ↦ ?_⟩
  · rw [watchingTail, Watch.subscribers_subscribe, if_neg hname, hsound.others name hname]
  · rw [howners]
    refine List.nodup_append.mpr ⟨hsound.distinct, List.nodup_singleton _, fun a ha b hb heq ↦ ?_⟩
    rw [List.mem_singleton.mp hb] at heq
    exact Nat.ne_of_lt (hlt a ha) heq
  · rw [howners, watchingTail, isBuiltinTail_alloc h.roots.isRoot, List.mem_append,
      List.mem_singleton, hsound.mem_owners, or_comm]
    simp [htail]
  · rw [hsubs, List.mem_append, List.mem_singleton] at hs
    rcases hs with hs | rfl
    · rw [hold s.owner (hlt _ (List.mem_map_of_mem hs))]
      exact hsound.callback s hs
    · rw [hnew]
  · cases hbound.symm.trans hunbound

/-- Allocating a return tail and entering it. Assumes: `return` is not bound. -/
theorem alloc_tail (h : Lowered calls₀ m₀ calls m kind.children parts)
    (htail : kind.isBuiltinTail = true) (hunbound : m.frame.contains "return" = false)
    {callSpan : Span} (hfits : ∀ calls', calls' m.tree.nextId = callSpan →
      Fits calls' m.tree.nextId kind span part parts) :
    ∃ calls', Lowered calls₀ m₀ calls' (watchingTail m kind span callSpan) [m.tree.nextId]
      [part] := by
  let calls' := Function.update calls m.tree.nextId callSpan
  have hnew : calls' m.tree.nextId = callSpan := Function.update_self ..
  have hold : ∀ x, x < m.tree.slots.size → calls' x = calls x := fun x hx ↦
    Function.update_of_ne (Nat.ne_of_lt hx) ..
  exact ⟨calls', h.allocated (h.sound_watchingTail htail hunbound hnew hold) rfl rfl rfl hold
    (hfits calls' hnew)⟩

end Lowered

end AdaptiveTree
