import AdaptiveTree.Grammar.Precedence
import Mathlib.Data.List.Basic

/-!
The rule of precedence, said of trees. A grouping of a sequence of operands and operators tells
what each operator applies to. It follows the rule if no minus applies to a comparison and if no
comparison has a negation anywhere in its left operand, or another comparison for its right one. So
a negation reaches to the end of the sequence, and comparisons associate to the left. Every sequence
has exactly one grouping that follows the rule, and the expression that the sequence is climbed to
is the one so grouped.
-/

set_option autoImplicit false
set_option relaxedAutoImplicit false

namespace AdaptiveTree.Grammar

/-- A sequence of operands and operators, and what each of its operators applies to. -/
inductive Grouping where
  | term (d : Draft)
  | sign (s : Sign) (operand : Grouping)
  | compare (op : CompareOp) (left right : Grouping)

attribute [ext] Operand Chain

namespace Grouping

/-- The expression so grouped. -/
def draft : Grouping → Draft
  | term d => d
  | sign s g => .sign s g.draft
  | compare op l r => .compare op l.draft r.draft

/-- The sequence, which does not tell how it is grouped. -/
def flat : Grouping → Chain
  | term d => ⟨⟨[], d⟩, []⟩
  | sign s g => ⟨⟨s :: g.flat.first.signs, g.flat.first.term⟩, g.flat.rest⟩
  | compare op l r => ⟨l.flat.first, l.flat.rest ++ (op, r.flat.first) :: r.flat.rest⟩

def isComparison : Grouping → Bool
  | compare .. => true
  | _ => false

/-- A negation stands in the sequence, not counting what stands inside of its terms. -/
def hasNegation : Grouping → Bool
  | term _ => false
  | sign s g => s.op = .not || g.hasNegation
  | compare _ l r => l.hasNegation || r.hasNegation

/-- The rule of precedence. -/
inductive Ruled : Grouping → Prop
  | term (d : Draft) : Ruled (term d)
  /-- A minus applies to the operand that follows, which can be a negation as a whole. -/
  | neg {s : Sign} {g : Grouping} (hs : s.op = .neg) (hoperand : g.isComparison = false)
      (hg : Ruled g) : Ruled (sign s g)
  /-- A negation applies to anything. -/
  | not {s : Sign} {g : Grouping} (hs : s.op = .not) (hg : Ruled g) : Ruled (sign s g)
  /-- Nothing follows on a negation, and comparisons associate to the left. -/
  | compare {op : CompareOp} {l r : Grouping} (hleft : l.hasNegation = false)
      (hright : r.isComparison = false) (hl : Ruled l) (hr : Ruled r) : Ruled (compare op l r)

/-! ### There is one grouping at most -/

variable {g g' l r : Grouping} {s : Sign} {op : CompareOp}

theorem flat_sign_inj {s' : Sign} :
    (sign s g).flat = (sign s' g').flat ↔ s = s' ∧ g.flat = g'.flat := by
  constructor
  · intro h
    obtain ⟨hfirst, hrest⟩ := Chain.mk.inj h
    obtain ⟨hsigns, hterm⟩ := Operand.mk.inj hfirst
    obtain ⟨hs, hsigns⟩ := List.cons.inj hsigns
    exact ⟨hs, Chain.ext (Operand.ext hsigns hterm) hrest⟩
  · rintro ⟨rfl, hflat⟩
    rw [flat, flat, hflat]

theorem rest_flat_compare_ne_nil : (compare op l r).flat.rest ≠ [] :=
  List.append_ne_nil_of_right_ne_nil _ (List.cons_ne_nil _ _)

theorem op_of_not_hasNegation (h : g.hasNegation = false) :
    (∀ s ∈ g.flat.first.signs, s.op ≠ .not) ∧
      ∀ o ∈ g.flat.rest, ∀ s ∈ o.2.signs, s.op ≠ .not := by
  induction g with
  | term d => simp [flat]
  | sign s g ih =>
    simp only [hasNegation, Bool.or_eq_false_iff, decide_eq_false_iff_not] at h
    obtain ⟨hfirst, hrest⟩ := ih h.2
    exact ⟨List.forall_mem_cons.mpr ⟨h.1, hfirst⟩, hrest⟩
  | compare op l r ihl ihr =>
    simp only [hasNegation, Bool.or_eq_false_iff] at h
    obtain ⟨hfirst, hrest⟩ := ihl h.1
    obtain ⟨hfirst', hrest'⟩ := ihr h.2
    exact ⟨hfirst, List.forall_mem_append.mpr ⟨hrest, List.forall_mem_cons.mpr ⟨hfirst', hrest'⟩⟩⟩

/-- What is no comparison has comparisons behind its first operand only below a negation. -/
theorem Ruled.rest_eq_nil_or (h : g.Ruled) (hoperand : g.isComparison = false) :
    g.flat.rest = [] ∨ ∃ s ∈ g.flat.first.signs, s.op = .not := by
  induction h with
  | term d => exact .inl rfl
  | neg hs hcomparison _ ih =>
    refine (ih hcomparison).imp id ?_
    rintro ⟨s, hmem, hop⟩
    exact ⟨s, List.mem_cons_of_mem _ hmem, hop⟩
  | not hs => exact .inr ⟨_, List.mem_cons_self, hs⟩
  | compare => cases hoperand

/-- A sign in front of a sequence that is grouped as a comparison belongs to its first operand. -/
theorem Ruled.flat_sign_ne (h : (sign s g).Ruled) (hleft : l.hasNegation = false) :
    (Grouping.sign s g).flat ≠ (Grouping.compare op l r).flat := by
  intro heq
  rcases h.rest_eq_nil_or rfl with hrest | ⟨t, ht, hop⟩
  · rw [heq] at hrest
    exact rest_flat_compare_ne_nil hrest
  · rw [heq] at ht
    exact (op_of_not_hasNegation hleft).1 t ht hop

/-- A sign in front of a sequence applies to what follows it in any grouping. -/
theorem Ruled.of_flat_sign (h : (sign s g).Ruled) (h' : g'.Ruled)
    (heq : (sign s g).flat = g'.flat) :
    ∃ operand, g' = sign s operand ∧ operand.Ruled ∧ g.flat = operand.flat := by
  cases h' with
  | term d => cases heq
  | neg hs hoperand hg =>
    obtain ⟨rfl, hflat⟩ := flat_sign_inj.mp heq
    exact ⟨_, rfl, hg, hflat⟩
  | not hs hg =>
    obtain ⟨rfl, hflat⟩ := flat_sign_inj.mp heq
    exact ⟨_, rfl, hg, hflat⟩
  | compare hleft => exact absurd heq (h.flat_sign_ne hleft)

/-- No later comparison than the one that a sequence is split at can be split at instead: it would
be in the right operand, so below a negation. -/
theorem Ruled.not_split_behind {l' : Grouping} {op' : CompareOp} {first : Operand}
    {more rest : Tail} (hr : r.Ruled) (hright : r.isComparison = false)
    (hleft : l'.hasNegation = false)
    (hbefore : l'.flat.rest = l.flat.rest ++ (op, r.flat.first) :: more)
    (hbehind : r.flat.rest = more ++ (op', first) :: rest) : False := by
  rcases hr.rest_eq_nil_or hright with hnil | ⟨s, hs, hop⟩
  · rw [hnil] at hbehind
    exact List.append_ne_nil_of_right_ne_nil _ (List.cons_ne_nil _ _) hbehind.symm
  · refine (op_of_not_hasNegation hleft).2 (op, r.flat.first) ?_ s hs hop
    rw [hbefore]
    exact List.mem_append_right _ List.mem_cons_self

theorem Ruled.split_unique {l' r' : Grouping} {op' : CompareOp} (hl : l.hasNegation = false)
    (hr : r.Ruled) (hright : r.isComparison = false) (hl' : l'.hasNegation = false)
    (hr' : r'.Ruled) (hright' : r'.isComparison = false)
    (h : (Grouping.compare op l r).flat = (Grouping.compare op' l' r').flat) :
    l.flat = l'.flat ∧ op = op' ∧ r.flat = r'.flat := by
  obtain ⟨hfirst, hrest⟩ := Chain.mk.inj h
  rcases List.append_eq_append_iff.mp hrest with ⟨more, hmore, hr₁⟩ | ⟨more, hmore, hr₁⟩
  · cases more with
    | nil =>
      obtain ⟨heq, hbehind⟩ := List.cons.inj hr₁
      obtain ⟨hop, hoperand⟩ := Prod.mk.inj heq
      exact ⟨Chain.ext hfirst (by simpa using hmore.symm), hop, Chain.ext hoperand hbehind⟩
    | cons o more =>
      obtain ⟨rfl, hbehind⟩ := List.cons.inj hr₁
      exact (hr.not_split_behind hright hl' hmore hbehind).elim
  · cases more with
    | nil =>
      obtain ⟨heq, hbehind⟩ := List.cons.inj hr₁
      obtain ⟨hop, hoperand⟩ := Prod.mk.inj heq
      exact ⟨Chain.ext hfirst (by simpa using hmore), hop.symm,
        Chain.ext hoperand.symm hbehind.symm⟩
    | cons o more =>
      obtain ⟨rfl, hbehind⟩ := List.cons.inj hr₁
      exact (hr'.not_split_behind hright' hl hmore hbehind).elim

/-- A sequence has one grouping at most. -/
theorem Ruled.eq_of_flat_eq (h : g.Ruled) (h' : g'.Ruled) (heq : g.flat = g'.flat) : g = g' := by
  induction h generalizing g' with
  | term d =>
    cases h' with
    | term d' => exact congrArg Grouping.term (Operand.mk.inj (Chain.mk.inj heq).1).2
    | neg hs hoperand hg => cases heq
    | not hs hg => cases heq
    | compare => exact absurd (congrArg Chain.rest heq.symm) rest_flat_compare_ne_nil
  | neg hs hoperand hg ih =>
    obtain ⟨operand, rfl, hoperand', hflat⟩ := (neg hs hoperand hg).of_flat_sign h' heq
    rw [ih hoperand' hflat]
  | not hs hg ih =>
    obtain ⟨operand, rfl, hoperand, hflat⟩ := (not hs hg).of_flat_sign h' heq
    rw [ih hoperand hflat]
  | compare hleft hright hl hr ihl ihr =>
    cases h' with
    | term d => exact absurd (congrArg Chain.rest heq) rest_flat_compare_ne_nil
    | neg hs hoperand hg => exact absurd heq.symm ((neg hs hoperand hg).flat_sign_ne hleft)
    | not hs hg => exact absurd heq.symm ((not hs hg).flat_sign_ne hleft)
    | compare hleft' hright' hl' hr' =>
      obtain ⟨hbefore, rfl, hbehind⟩ := split_unique hleft hr hright hleft' hr' hright' heq
      rw [ihl hl' hbefore, ihr hr' hbehind]

/-! ### There is one, and it is climbed to -/

/-- How deep climbing the comparisons behind an operand goes. -/
def reach (rest : Tail) : Nat := rest.foldr (fun o n ↦ o.2.signs.length + 2 + n) 0

theorem reach_cons (op : CompareOp) (o : Operand) (rest : Tail) :
    reach ((op, o) :: rest) = o.signs.length + 2 + reach rest := rfl

theorem reach_append (before rest : Tail) : reach (before ++ rest) = reach before + reach rest := by
  induction before with
  | nil => simp [reach]
  | cons o before ih =>
    obtain ⟨op, o⟩ := o
    rw [List.cons_append, reach_cons, reach_cons, ih]
    omega

theorem depth_eq (c : Chain) : c.depth = c.first.signs.length + 2 + reach c.rest := by
  obtain ⟨first, rest⟩ := c
  unfold Chain.depth
  induction rest with
  | nil => rfl
  | cons o rest ih =>
    obtain ⟨op, o⟩ := o
    rw [List.foldr_cons, ih, reach_cons]
    dsimp only
    omega

/-- What was climbed of a sequence is grouped by the rule, as an operand where the operator in
front binds as tight as a comparison; otherwise, and behind a negation, nothing is left over. -/
structure Climbed (power : Nat) (c : Chain) (result : Draft × Tail) (g : Grouping) : Prop where
  ruled : g.Ruled
  draft_eq : result.1 = g.draft
  first_eq : g.flat.first = c.first
  rest_eq : g.flat.rest ++ result.2 = c.rest
  operand : comparePower ≤ power → g.isComparison = false
  left : result.2 ≠ [] → comparePower ≤ power ∧ g.hasNegation = false

section Climbed

variable {depth power : Nat} {c : Chain} {result : Draft × Tail} {rest : Tail}

theorem Climbed.reach_le (h : Climbed power c result g) : reach result.2 ≤ reach c.rest := by
  rw [← h.rest_eq, reach_append]
  exact Nat.le_add_left _ _

/-- A minus was climbed behind for an operand, a negation for all that is left. -/
theorem Climbed.ruled_sign (h : Climbed (signPower s.op - 1) c result g) : (sign s g).Ruled := by
  cases hs : s.op with
  | neg =>
    rw [hs] at h
    exact .neg hs (h.operand (by decide)) h.ruled
  | not => exact .not hs h.ruled

theorem Climbed.hasNegation_sign (h : Climbed (signPower s.op - 1) c result g)
    (hleft : result.2 ≠ []) : (sign s g).hasNegation = false := by
  obtain ⟨hpower, hnegation⟩ := h.left hleft
  cases hs : s.op with
  | neg => simp [hasNegation, hs, hnegation]
  | not =>
    rw [hs] at hpower
    exact absurd hpower (by decide)

/-- Climbing up to a depth groups what is read by the rule. -/
def Climbs (depth : Nat) : Prop :=
  ∀ (power : Nat) (signs : List Sign) (term : Draft) (rest : Tail),
    signs.length + 2 + reach rest ≤ depth →
    ∃ g, Climbed power ⟨⟨signs, term⟩, rest⟩ (climb depth power signs term rest) g

/-- So does extending what is grouped by the rule, if nothing is left over behind a negation. -/
def Extends (depth : Nat) : Prop :=
  ∀ (power : Nat) (g : Grouping) (rest : Tail), 1 + reach rest ≤ depth → g.Ruled →
    (comparePower ≤ power → g.isComparison = false) → (rest ≠ [] → g.hasNegation = false) →
    ∃ g', Climbed power ⟨g.flat.first, g.flat.rest ++ rest⟩ (extend depth power g.draft rest) g'

theorem Climbs.succ (hclimb : Climbs depth) (hextend : Extends depth) : Climbs (depth + 1) := by
  intro power signs term rest hdepth
  cases signs with
  | nil =>
    rw [List.length_nil] at hdepth
    rw [climb]
    exact hextend power (.term term) rest (by omega) (.term term) (fun _ ↦ rfl) (fun _ ↦ rfl)
  | cons s signs =>
    rw [List.length_cons] at hdepth
    rw [climb]
    obtain ⟨g, hg⟩ := hclimb (signPower s.op - 1) signs term rest (by omega)
    generalize climb depth (signPower s.op - 1) signs term rest = result at hg ⊢
    obtain ⟨operand, left⟩ := result
    have hreach : reach left ≤ reach rest := hg.reach_le
    obtain ⟨g', hg'⟩ := hextend power (sign s g) left (by omega) hg.ruled_sign (fun _ ↦ rfl)
      hg.hasNegation_sign
    have hchain : Chain.mk (sign s g).flat.first ((sign s g).flat.rest ++ left) =
        ⟨⟨s :: signs, term⟩, rest⟩ := by
      rw [flat, hg.first_eq, hg.rest_eq]
    have hdraft : operand = g.draft := hg.draft_eq
    rw [hchain, draft, ← hdraft] at hg'
    exact ⟨g', hg'⟩

theorem Extends.succ (hclimb : Climbs depth) (hextend : Extends depth) : Extends (depth + 1) := by
  intro power g rest hdepth hg hoperand hnegation
  cases rest with
  | nil =>
    rw [extend]
    exact ⟨g, hg, rfl, rfl, rfl, hoperand, fun h ↦ absurd rfl h⟩
  | cons o rest =>
    obtain ⟨op, right⟩ := o
    specialize hnegation (List.cons_ne_nil _ _)
    rw [reach_cons] at hdepth
    rw [extend]
    by_cases hpower : power < comparePower
    · rw [if_pos hpower]
      obtain ⟨r, hr⟩ := hclimb comparePower right.signs right.term rest (by omega)
      generalize climb depth comparePower right.signs right.term rest = result at hr ⊢
      obtain ⟨operand, left⟩ := result
      have hreach : reach left ≤ reach rest := hr.reach_le
      obtain ⟨g', hg'⟩ := hextend power (compare op g r) left (by omega)
        (.compare hnegation (hr.operand (Nat.le_refl _)) hg hr.ruled)
        (fun h ↦ absurd hpower (Nat.not_lt_of_le h))
        (fun h ↦ by rw [hasNegation, hnegation, (hr.left h).2, Bool.or_false])
      have hchain : Chain.mk (compare op g r).flat.first ((compare op g r).flat.rest ++ left) =
          ⟨g.flat.first, g.flat.rest ++ (op, right) :: rest⟩ := by
        rw [flat, hr.first_eq, List.append_assoc, List.cons_append, hr.rest_eq]
      have hdraft : operand = r.draft := hr.draft_eq
      rw [hchain, draft, ← hdraft] at hg'
      exact ⟨g', hg'⟩
    · rw [if_neg hpower]
      exact ⟨g, hg, rfl, rfl, rfl, hoperand, fun _ ↦ ⟨Nat.le_of_not_lt hpower, hnegation⟩⟩

theorem climbs_and_extends (depth : Nat) : Climbs depth ∧ Extends depth := by
  induction depth with
  | zero =>
    refine ⟨fun _ _ _ _ h ↦ ?_, fun _ _ _ h ↦ ?_⟩
    · omega
    · omega
  | succ depth ih => exact ⟨ih.1.succ ih.2, Extends.succ ih.1 ih.2⟩

end Climbed

/-- A sequence has a grouping, and is read as the expression so grouped. -/
theorem exists_toExpr_eq (c : Chain) :
    ∃ g : Grouping, g.Ruled ∧ g.flat = c ∧ c.toExpr = g.draft := by
  obtain ⟨g, hg⟩ := (climbs_and_extends c.depth).1 0 c.first.signs c.first.term c.rest
    (Nat.le_of_eq (depth_eq c).symm)
  have hall : (climb c.depth 0 c.first.signs c.first.term c.rest).2 = [] := by
    by_contra hleft
    exact absurd (hg.left hleft).1 (by decide)
  refine ⟨g, hg.ruled, Chain.ext hg.first_eq ?_, hg.draft_eq⟩
  rw [← hg.rest_eq, hall, List.append_nil]

theorem Ruled.toExpr_flat (h : g.Ruled) : g.flat.toExpr = g.draft := by
  obtain ⟨g', hg', hflat, hdraft⟩ := exists_toExpr_eq g.flat
  rw [hdraft, hg'.eq_of_flat_eq h hflat]

end Grouping

end AdaptiveTree.Grammar
