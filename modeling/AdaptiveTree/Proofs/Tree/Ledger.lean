import AdaptiveTree.Proofs.Tree.Discarding
import AdaptiveTree.Proofs.Tree.Spending
import Mathlib.Data.List.Perm.Basic

/-!
The account of a tree's splices. Every conditional that was ever lowered has its site, every
splice is taken by exactly one of them, and what a site has taken and can still take comes to
three splices at most. Splicing, growing and discarding keep the account.
-/

set_option autoImplicit false
set_option relaxedAutoImplicit false

namespace AdaptiveTree

/-- Of different elements one is picked by what tells it from the others. -/
theorem flatMap_eq_singleton {α β : Type} [DecidableEq β] {f : α → β} {l : List α}
    (hnodup : (l.map f).Nodup) {p : α → Bool} {b : β} (hp : ∀ x ∈ l, p x = true ↔ f x = b) {a : α}
    (ha : a ∈ l) (hb : f a = b) {γ : Type} (c : γ) :
    (l.flatMap fun x ↦ if p x then [c] else []) = [c] := by
  induction l with
  | nil => cases ha
  | cons x rest ih =>
    obtain ⟨hx, hrest⟩ := List.nodup_cons.mp hnodup
    have hothers : ∀ y ∈ rest, p y = true ↔ f y = b := fun y hy ↦ hp y (List.mem_cons_of_mem x hy)
    rw [List.flatMap_cons]
    by_cases hfx : f x = b
    · have hnone : (rest.flatMap fun x ↦ if p x then [c] else []) = [] := by
        refine List.flatMap_eq_nil_iff.mpr fun y hy ↦ if_neg fun hpy ↦ hx ?_
        rw [hfx, ← (hothers y hy).mp hpy]
        exact List.mem_map_of_mem hy
      rw [if_pos ((hp x (List.mem_cons_self ..)).mpr hfx), hnone]
      rfl
    · have hmem : a ∈ rest := (List.mem_cons.mp ha).resolve_left fun hax ↦ hfx (hax ▸ hb)
      rw [if_neg fun hpx ↦ hfx ((hp x (List.mem_cons_self ..)).mp hpx)]
      exact ih hrest hothers hmem

namespace Tree

variable {t t' : Tree} {x owner : NodeId} {e : SpliceEvent} {splices : List SpliceEvent}
  {sites : List Site} {s : Site}

theorem Gone.kind?_eq (h : t.Gone x) : t.kind? x = none := by
  rw [kind?, h.2]
  rfl

/-- Where a site is after all splices: at a live conditional, or discarded with its condition. -/
def Stands (t : Tree) (s : Site) : Prop :=
  t.site? s.node = some s ∨ t.Gone s.node ∧ t.Gone s.cond

theorem Stands.lt_size (h : t.Stands s) : s.node < t.slots.size := by
  rcases h with hsite | ⟨⟨hlt, _⟩, _⟩
  · obtain ⟨form, hkind, _⟩ := site?_eq_some_iff.mp hsite
    obtain ⟨n, hn, _⟩ := kind?_eq_some_iff.mp hkind
    exact lt_size_of_node? hn
  · exact hlt

theorem Stands.site?_eq (h : t.Stands s) {form : Conditional}
    (hkind : t.kind? s.node = some (.cond form)) : s = ⟨s.node, form.cond⟩ := by
  rcases h with hsite | ⟨hgone, _⟩
  · exact Option.some.inj (hsite.symm.trans (site?_of_cond hkind))
  · cases hgone.kind?_eq.symm.trans hkind

structure Ledger (t : Tree) (splices : List SpliceEvent) (sites : List Site) : Prop where
  counted : splices.length = t.generation
  bounded : ∀ e ∈ splices, e.old < t.slots.size
  distinct : (sites.map fun s ↦ (s.after splices).node).Nodup
  standing : ∀ s ∈ sites, t.Stands (s.after splices)
  balanced : ∀ s ∈ sites, (s.events splices).length + t.budgetAt (s.after splices).node ≤ 3
  covers : ∀ x form, t.kind? x = some (.cond form) → ∃ s ∈ sites, (s.after splices).node = x
  settled : (sites.flatMap fun s ↦ s.events splices).Perm splices

/-! ### Splicing -/

namespace Spends

/-- A conditional that is gone takes no part in any splice. -/
theorem of_gone (h : t.Spends e owner t') (hnode : t.Gone s.node) (hcond : t.Gone s.cond) :
    s.follow e = s ∧ s.takes e = false ∧ s.node ≠ owner := by
  obtain ⟨k, hk⟩ := h.live
  obtain ⟨form, hform⟩ := h.owned
  have hne : ∀ x, t.Gone x → e.old ≠ x := by
    rintro _ hgone rfl
    cases hgone.kind?_eq.symm.trans hk
  refine ⟨?_, ?_, ?_⟩
  · simp [Site.follow, hne _ hnode, hne _ hcond]
  · simp [Site.takes, hne _ hnode, hne _ hcond]
  · rintro rfl
    cases hnode.kind?_eq.symm.trans hform

theorem takes_iff (h : t.Spends e owner t') (hstands : t.Stands s) :
    s.takes e = true ↔ s.node = owner := by
  rcases hstands with hsite | ⟨hnode, hcond⟩
  · obtain ⟨form, hkind, hs⟩ := site?_eq_some_iff.mp hsite
    rw [hs]
    exact h.takes _ form hkind
  · obtain ⟨_, htakes, hne⟩ := h.of_gone hnode hcond
    simp [htakes, hne]

theorem stands (h : t.Spends e owner t') (hstands : t.Stands s) : t'.Stands (s.follow e) := by
  rcases hstands with hsite | ⟨hnode, hcond⟩
  · obtain ⟨form, hkind, hs⟩ := site?_eq_some_iff.mp hsite
    rw [hs]
    exact Or.inl (h.follow _ form hkind)
  · rw [(h.of_gone hnode hcond).1]
    exact Or.inr ⟨h.gone _ hnode, h.gone _ hcond⟩

theorem budgetAt_le (h : t.Spends e owner t') (hstands : t.Stands s) :
    t'.budgetAt (s.follow e).node + (if s.takes e then 1 else 0) ≤ t.budgetAt s.node := by
  have htakes : (if s.takes e then 1 else 0) = if s.node = owner then 1 else 0 :=
    if_congr (h.takes_iff hstands) rfl rfl
  rw [htakes]
  rcases hstands with hsite | ⟨hnode, hcond⟩
  · obtain ⟨form, hkind, hs⟩ := site?_eq_some_iff.mp hsite
    have hbudget := h.budget _ form hkind
    rw [← hs] at hbudget
    exact hbudget
  · obtain ⟨hfollow, _, hne⟩ := h.of_gone hnode hcond
    rw [hfollow, if_neg hne, budgetAt, (h.gone _ hnode).kind?_eq]
    exact Nat.zero_le _

end Spends

namespace Ledger

theorem spend (h : t.Ledger splices sites) (hspends : t.Spends e owner t') :
    t'.Ledger (splices ++ [e]) sites where
  counted := by
    rw [List.length_append, h.counted, hspends.generation]
    rfl
  bounded := fun e' he' ↦ by
    rcases List.mem_append.mp he' with he' | he'
    · exact Nat.lt_of_lt_of_le (h.bounded e' he') hspends.size_le
    · rw [List.mem_singleton.mp he']
      obtain ⟨k, hk⟩ := hspends.live
      obtain ⟨n, hn, _⟩ := kind?_eq_some_iff.mp hk
      exact Nat.lt_of_lt_of_le (lt_size_of_node? hn) hspends.size_le
  distinct := by
    have hmap : (sites.map fun s ↦ (s.after (splices ++ [e])).node) =
        (sites.map fun s ↦ (s.after splices).node).map fun x ↦
          if e.isStep = false ∧ e.old = x then e.new else x := by
      rw [List.map_map]
      refine List.map_congr_left fun s _ ↦ ?_
      rw [Site.after_concat]
      rfl
    have hlt : ∀ x ∈ sites.map fun s ↦ (s.after splices).node, x ≠ e.new := by
      intro x hx
      obtain ⟨s, hs, rfl⟩ := List.mem_map.mp hx
      exact Nat.ne_of_lt (Nat.lt_of_lt_of_le (h.standing s hs).lt_size hspends.fresh)
    rw [hmap]
    refine List.Nodup.map_on (fun x hx y hy heq ↦ ?_) h.distinct
    split_ifs at heq with hxo hyo hyo
    · exact hxo.2.symm.trans hyo.2
    · exact absurd heq.symm (hlt y hy)
    · exact absurd heq (hlt x hx)
    · exact heq
  standing := fun s hs ↦ by
    rw [Site.after_concat]
    exact hspends.stands (h.standing s hs)
  balanced := fun s hs ↦ by
    have hbudget := hspends.budgetAt_le (h.standing s hs)
    have hbalanced := h.balanced s hs
    rw [Site.after_concat, Site.events_concat, List.length_append]
    split_ifs at hbudget ⊢ <;> simp only [List.length_singleton, List.length_nil] <;> omega
  covers := fun x' form' hx' ↦ by
    obtain ⟨x, form, hx, hfollow⟩ := hspends.arises x' form' hx'
    obtain ⟨s, hs, rfl⟩ := h.covers x form hx
    refine ⟨s, hs, ?_⟩
    rw [Site.after_concat, (h.standing s hs).site?_eq hx]
    exact hfollow
  settled := by
    obtain ⟨form, hform⟩ := hspends.owned
    obtain ⟨s, hs, howner⟩ := h.covers owner form hform
    have hone := flatMap_eq_singleton h.distinct
      (fun s hs ↦ hspends.takes_iff (h.standing s hs)) hs howner e
    have hevents : (sites.flatMap fun s ↦ s.events (splices ++ [e])) = sites.flatMap fun s ↦
        s.events splices ++ if (s.after splices).takes e then [e] else [] :=
      List.flatMap_congr fun s _ ↦ s.events_concat splices e
    rw [hevents]
    refine (List.flatMap_append_perm sites _ _).symm.trans ?_
    rw [hone]
    exact h.settled.append_right [e]

end Ledger

/-! ### Growing and discarding -/

/-- A budget is read off the conditional and what hangs below it. -/
theorem budgetAt_congr (hforest : t.Forest) {form : Conditional}
    (hx : t.kind? x = some (.cond form))
    (hsame : ∀ y k, t.Reaches x y → t.kind? y = some k → t'.kind? y = some k) :
    t'.budgetAt x = t.budgetAt x := by
  obtain ⟨hnames, k, hk⟩ := hforest.mem_cond hx
  have hreach : t.Reaches x form.cond := Relation.ReflTransGen.single hnames
  have hk' := hsame _ k hreach hk
  rw [budgetAt_of_cond hx, budgetAt_of_cond (hsame x _ Relation.ReflTransGen.refl hx)]
  congr 1
  cases hplain : k.isConversion with
  | false => rw [conversions_of_plain hk hplain, conversions_of_plain hk' hplain]
  | true =>
    obtain ⟨input, mode, rfl⟩ := NodeKind.exists_eq_convert hplain
    obtain ⟨hnames', k', hinput⟩ := hforest.kind?_child hk (List.mem_singleton.mpr rfl)
    rw [conversions_of_convert hk, conversions_of_convert hk', compares, compares, hinput,
      hsame input k' (hreach.tail hnames') hinput]

namespace Ledger

section Grow

variable (hforest : t.Forest) (hforest' : t'.Forest) (hsize : t.slots.size ≤ t'.slots.size)
  (hnode : ∀ x, x < t.slots.size → t'.node? x = t.node? x)

include hforest hforest' hnode

/-- A fresh conditional has a fresh condition. -/
theorem le_of_mem_sitesFrom (hs : s ∈ t'.sitesFrom t.slots.size) :
    t.slots.size ≤ s.node ∧ t.slots.size ≤ s.cond := by
  obtain ⟨hfresh, hsite⟩ := mem_sitesFrom_iff.mp hs
  obtain ⟨form, hkind, hform⟩ := site?_eq_some_iff.mp hsite
  refine ⟨hfresh, Nat.le_of_not_lt fun hlt ↦ ?_⟩
  have hparent := (hforest'.owned s.node form.cond).mp (hforest'.mem_cond hkind).1
  rw [hform] at hlt
  rw [parent?, hnode _ hlt] at hparent
  obtain ⟨n, hn, _⟩ := (hforest.owned s.node form.cond).mpr hparent
  exact Nat.lt_irrefl _ (Nat.lt_of_lt_of_le (lt_size_of_node? hn) hfresh)

include hsize in
/-- Assumes: nodes only added, none of them with a budget of more than three splices. -/
theorem grow (h : t.Ledger splices sites) (hgeneration : t'.generation = t.generation)
    (hbudget : ∀ x, t'.budgetAt x ≤ 3) :
    t'.Ledger splices (sites ++ t'.sitesFrom t.slots.size) := by
  have hkept : ∀ x k, t.kind? x = some k → t'.kind? x = some k := by
    intro x k hx
    obtain ⟨n, hn, rfl⟩ := kind?_eq_some_iff.mp hx
    exact kind?_eq_some_iff.mpr ⟨n, (hnode x (lt_size_of_node? hn)).trans hn, rfl⟩
  have hgone : ∀ x, t.Gone x → t'.Gone x := fun x hx ↦
    ⟨Nat.lt_of_lt_of_le hx.1 hsize, (hnode x hx.1).trans hx.2⟩
  have hfresh : ∀ s ∈ t'.sitesFrom t.slots.size,
      s.after splices = s ∧ s.events splices = [] := by
    intro s hs
    obtain ⟨hle, hle'⟩ := le_of_mem_sitesFrom hforest hforest' hnode hs
    refine Site.of_others fun e he ↦ ⟨?_, ?_⟩
    · exact Nat.ne_of_lt (Nat.lt_of_lt_of_le (h.bounded e he) hle)
    · exact Nat.ne_of_lt (Nat.lt_of_lt_of_le (h.bounded e he) hle')
  refine ⟨h.counted.trans hgeneration.symm,
    fun e he ↦ Nat.lt_of_lt_of_le (h.bounded e he) hsize, ?_, fun s hs ↦ ?_, fun s hs ↦ ?_,
    fun x form hx ↦ ?_, ?_⟩
  · have hnew : ((t'.sitesFrom t.slots.size).map fun s ↦ (s.after splices).node) =
        (t'.sitesFrom t.slots.size).map Site.node :=
      List.map_congr_left fun s hs ↦ congrArg Site.node (hfresh s hs).1
    rw [List.map_append, hnew]
    refine List.nodup_append.mpr ⟨h.distinct, nodup_sitesFrom _ _, fun x hx y hy heq ↦ ?_⟩
    obtain ⟨s, hs, rfl⟩ := List.mem_map.mp hx
    obtain ⟨s', hs', rfl⟩ := List.mem_map.mp hy
    have hlt := (h.standing s hs).lt_size
    rw [heq] at hlt
    exact Nat.lt_irrefl _ (Nat.lt_of_lt_of_le hlt (mem_sitesFrom_iff.mp hs').1)
  · rcases List.mem_append.mp hs with hs | hs
    · rcases h.standing s hs with hsite | ⟨hgoneNode, hgoneCond⟩
      · obtain ⟨form, hkind, hform⟩ := site?_eq_some_iff.mp hsite
        exact Or.inl (site?_eq_some_iff.mpr ⟨form, hkept _ _ hkind, hform⟩)
      · exact Or.inr ⟨hgone _ hgoneNode, hgone _ hgoneCond⟩
    · rw [(hfresh s hs).1]
      exact Or.inl (mem_sitesFrom_iff.mp hs).2
  · rcases List.mem_append.mp hs with hs | hs
    · refine Nat.le_trans (Nat.add_le_add_left (Nat.le_of_eq ?_) _) (h.balanced s hs)
      rcases h.standing s hs with hsite | ⟨hgoneNode, _⟩
      · obtain ⟨form, hkind, _⟩ := site?_eq_some_iff.mp hsite
        exact budgetAt_congr hforest hkind fun y k _ hy ↦ hkept y k hy
      · rw [budgetAt, budgetAt, hgoneNode.kind?_eq, (hgone _ hgoneNode).kind?_eq]
    · rw [(hfresh s hs).2, List.length_nil, Nat.zero_add]
      exact hbudget _
  · by_cases hlt : x < t.slots.size
    · have hold : t.kind? x = some (.cond form) := by
        rw [kind?, ← hnode x hlt]
        exact hx
      obtain ⟨s, hs, hsx⟩ := h.covers x form hold
      exact ⟨s, List.mem_append_left _ hs, hsx⟩
    · have hmem : (⟨x, form.cond⟩ : Site) ∈ t'.sitesFrom t.slots.size :=
        mem_sitesFrom_iff.mpr ⟨Nat.le_of_not_lt hlt, site?_of_cond hx⟩
      refine ⟨_, List.mem_append_right _ hmem, ?_⟩
      rw [(hfresh _ hmem).1]
  · have hnone : ((t'.sitesFrom t.slots.size).flatMap fun s ↦ s.events splices) = [] :=
      List.flatMap_eq_nil_iff.mpr fun s hs ↦ (hfresh s hs).2
    rw [List.flatMap_append, hnone, List.append_nil]
    exact h.settled

end Grow

theorem discard (h : t.Ledger splices sites) (hforest : t.Forest) (hx : t.IsRoot x) :
    (t.discard x).Ledger splices sites := by
  have hdiscarded := discarded_discard t x
  have hkept : ∀ y k, ¬ t.Reaches x y → t.kind? y = some k → (t.discard x).kind? y = some k := by
    intro y k hnot hy
    obtain ⟨n, hn, rfl⟩ := kind?_eq_some_iff.mp hy
    exact kind?_eq_some_iff.mpr ⟨n, node?_discard_eq_some_iff.mpr ⟨hn, hnot⟩, rfl⟩
  have hgone : ∀ y, t.Gone y → (t.discard x).Gone y := fun y ↦
    gone_of_persists (persists_discard hforest hx) (Nat.le_of_eq hdiscarded.size_eq.symm)
  have hreached : ∀ y k, t.Reaches x y → t.kind? y = some k → (t.discard x).Gone y := by
    intro y k hreach hy
    obtain ⟨n, hn, _⟩ := kind?_eq_some_iff.mp hy
    refine ⟨?_, node?_discard_of_reaches hreach⟩
    rw [hdiscarded.size_eq]
    exact lt_size_of_node? hn
  have hup : ∀ y z, t.Reaches y z → t.Reaches x z → t.Reaches x y := by
    intro y z hyz hreach
    induction hyz with
    | refl => exact hreach
    | tail _ hnames ih => exact ih (reaches_of_names hforest hx hnames hreach)
  refine ⟨h.counted.trans hdiscarded.history.1.symm, fun e he ↦ ?_, h.distinct, fun s hs ↦ ?_,
    fun s hs ↦ ?_, fun y form hy ↦ ?_, h.settled⟩
  · rw [hdiscarded.size_eq]
    exact h.bounded e he
  · rcases h.standing s hs with hsite | ⟨hgoneNode, hgoneCond⟩
    · obtain ⟨form, hkind, hform⟩ := site?_eq_some_iff.mp hsite
      by_cases hreach : t.Reaches x (s.after splices).node
      · obtain ⟨hnames, k, hk⟩ := hforest.mem_cond hkind
        refine Or.inr ⟨hreached _ _ hreach hkind, ?_⟩
        rw [hform]
        exact hreached _ k (hreach.tail hnames) hk
      · exact Or.inl (site?_eq_some_iff.mpr ⟨form, hkept _ _ hreach hkind, hform⟩)
    · exact Or.inr ⟨hgone _ hgoneNode, hgone _ hgoneCond⟩
  · refine Nat.le_trans (Nat.add_le_add_left ?_ _) (h.balanced s hs)
    rcases h.standing s hs with hsite | ⟨hgoneNode, _⟩
    · obtain ⟨form, hkind, _⟩ := site?_eq_some_iff.mp hsite
      by_cases hreach : t.Reaches x (s.after splices).node
      · rw [budgetAt, (hreached _ _ hreach hkind).kind?_eq]
        exact Nat.zero_le _
      · exact Nat.le_of_eq (budgetAt_congr hforest hkind fun y k hbelow hy ↦
          hkept y k (fun hy ↦ hreach (hup _ y hbelow hy)) hy)
    · rw [budgetAt, (hgone _ hgoneNode).kind?_eq]
      exact Nat.zero_le _
  · obtain ⟨n, hn, hkind⟩ := kind?_eq_some_iff.mp hy
    exact h.covers y form
      (kind?_eq_some_iff.mpr ⟨n, (node?_discard_eq_some_iff.mp hn).1, hkind⟩)

end Ledger

end Tree

end AdaptiveTree
