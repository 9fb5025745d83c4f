import Mathlib.Algebra.BigOperators.Group.List.Basic
import AdaptiveTree.Proofs.Grammar.Grouping
import AdaptiveTree.Proofs.Grammar.RoundTrip

/-!
Sequences of operands and operators as texts. An operand is written as it is where nothing behind
it can be mistaken for a part of it, and in parentheses otherwise. What is read of such a text is
the sequence, its spans apart, so it is grouped by the rule of precedence; with the parentheses
that the rule puts, the same is read.
-/

set_option autoImplicit false
set_option relaxedAutoImplicit false

namespace AdaptiveTree

theorem Expr.span_bare (e : Expr) : e.bare.span = .origin := by
  cases e <;> rfl

/-- The text of an expression as an operand. -/
def Expr.asOperand (e : Expr) : List Char := if e.isAtomic then e.printed else enclosed e.printed

namespace Grammar

variable {limit bound : Nat} {inner : Inner} {rest : List Char} {c : Chain} {e : Expr}

/-! ### Sequences without their spans -/

def Draft.bare (d : Draft) : Draft := d.map Expr.bare

def Sign.bare (s : Sign) : Sign := ⟨s.op, 0⟩

def Operand.bare (o : Operand) : Operand := ⟨o.signs.map Sign.bare, o.term.bare⟩

def Chain.bare (c : Chain) : Chain := ⟨c.first.bare, c.rest.map fun o ↦ (o.1, o.2.bare)⟩

theorem Draft.shows_iff {d : Draft} : d.Shows e ↔ d.bare = .ok e.bare := by
  constructor
  · rintro ⟨e', rfl, he⟩
    rw [← he]
    rfl
  · intro h
    cases d with
    | error literal => cases h
    | ok e' => exact ⟨e', rfl, Except.ok.inj h⟩

theorem Draft.bare_sign (s : Sign) (d : Draft) : (Draft.sign s d).bare = .sign s.bare d.bare := by
  cases d with
  | error literal => rfl
  | ok e =>
    change (.ok (.unary s.op e.bare .origin) : Draft) =
      .ok (.unary s.op e.bare ⟨0, e.bare.span.stop⟩)
    rw [Expr.span_bare]
    rfl

theorem Draft.bare_compare (op : CompareOp) (a b : Draft) :
    (Draft.compare op a b).bare = .compare op a.bare b.bare := by
  cases a with
  | error literal => rfl
  | ok a =>
    cases b with
    | error literal => rfl
    | ok b =>
      change (.ok (.compare op a.bare b.bare .origin) : Draft) =
        .ok (.compare op a.bare b.bare (a.bare.span.combine b.bare.span))
      rw [Expr.span_bare, Expr.span_bare]
      rfl

namespace Grouping

variable {g : Grouping}

def bare : Grouping → Grouping
  | term d => term d.bare
  | sign s g => sign s.bare g.bare
  | compare op l r => compare op l.bare r.bare

theorem draft_bare (g : Grouping) : g.bare.draft = g.draft.bare := by
  induction g with
  | term d => rfl
  | sign s g ih => rw [bare, draft, draft, ih, Draft.bare_sign]
  | compare op l r ihl ihr => rw [bare, draft, draft, ihl, ihr, Draft.bare_compare]

theorem flat_bare (g : Grouping) : g.bare.flat = g.flat.bare := by
  induction g with
  | term d => rfl
  | sign s g ih => simp [bare, flat, ih, Chain.bare, Operand.bare]
  | compare op l r ihl ihr => simp [bare, flat, ihl, ihr, Chain.bare, Operand.bare]

theorem isComparison_bare (g : Grouping) : g.bare.isComparison = g.isComparison := by
  cases g <;> rfl

theorem hasNegation_bare (g : Grouping) : g.bare.hasNegation = g.hasNegation := by
  induction g with
  | term d => rfl
  | sign s g ih => simp [bare, hasNegation, ih, Sign.bare]
  | compare op l r ihl ihr => simp [bare, hasNegation, ihl, ihr]

theorem Ruled.bare (h : g.Ruled) : g.bare.Ruled := by
  induction h with
  | term d => exact .term d.bare
  | neg hs hoperand _ ih => exact .neg hs ((isComparison_bare _).trans hoperand) ih
  | not hs _ ih => exact .not hs ih
  | compare hleft hright _ _ ihl ihr =>
    exact .compare ((hasNegation_bare _).trans hleft) ((isComparison_bare _).trans hright) ihl ihr

end Grouping

/-- What a sequence is read as depends on its spans by the spans of what is read. -/
theorem Chain.toExpr_bare (c : Chain) : c.bare.toExpr = c.toExpr.bare := by
  obtain ⟨g, hg, rfl, hdraft⟩ := Grouping.exists_toExpr_eq c
  rw [hdraft, ← g.draft_bare, ← g.flat_bare, hg.bare.toExpr_flat]

/-! ### Sequences that have a text -/

def Draft.isWritable : Draft → Bool
  | .ok e => e.isWritable false
  | .error _ => false

/-- Every operand of the sequence has a text. -/
def Chain.isWritable (c : Chain) : Bool :=
  c.first.term.isWritable && c.rest.all (·.2.term.isWritable)

/-- The text of what stands as an operand. -/
def Draft.printed : Draft → List Char
  | .ok e => e.asOperand
  | .error literal => literal.text.toList

def Operand.printed (o : Operand) : List Char :=
  o.signs.flatMap (fun s ↦ s.op.symbol.toList) ++ o.term.printed

/-- The text of what follows on the first operand. -/
def Chain.further (rest : Tail) : List Char :=
  rest.flatMap fun o ↦ ' ' :: o.1.symbol.toList ++ ' ' :: o.2.printed

/-- The text of a sequence. -/
def Chain.printed (c : Chain) : List Char := c.first.printed ++ further c.rest

theorem Draft.exists_of_isWritable {d : Draft} (h : d.isWritable = true) :
    ∃ e, d = .ok e ∧ e.isWritable false = true := by
  cases d with
  | error literal => cases h
  | ok e => exact ⟨e, rfl, h⟩

theorem Draft.isWritable_sign (s : Sign) (d : Draft) :
    (Draft.sign s d).isWritable = d.isWritable := by
  cases d <;> rfl

theorem Draft.isWritable_compare (op : CompareOp) (a b : Draft) :
    (Draft.compare op a b).isWritable = (a.isWritable && b.isWritable) := by
  cases a with
  | error literal => rfl
  | ok a =>
    cases b with
    | error literal => exact (Bool.and_false _).symm
    | ok b => rfl

namespace Grouping

theorem isWritable_flat (g : Grouping) : g.flat.isWritable = g.draft.isWritable := by
  induction g with
  | term d => simp [Chain.isWritable, flat, draft]
  | sign s g ih => rw [draft, Draft.isWritable_sign, ← ih]; rfl
  | compare op l r ihl ihr =>
    rw [draft, Draft.isWritable_compare, ← ihl, ← ihr]
    simp [Chain.isWritable, flat, Bool.and_assoc]

/-- With parentheses around what each operator applies to. -/
def parenthesised : Grouping → Chain
  | term d => ⟨⟨[], d⟩, []⟩
  | sign s g => ⟨⟨[s], g.parenthesised.toExpr⟩, []⟩
  | compare op l r => ⟨⟨[], l.parenthesised.toExpr⟩, [(op, ⟨[], r.parenthesised.toExpr⟩)]⟩

/-- Parentheses around what each operator applies to leave no choice. -/
theorem toExpr_parenthesised (g : Grouping) : g.parenthesised.toExpr = g.draft := by
  induction g with
  | term d => rfl
  | sign s g ih => rw [parenthesised, toExpr_sign, ih, draft]
  | compare op l r ihl ihr => rw [parenthesised, toExpr_compare, ihl, ihr, draft]

theorem isWritable_parenthesised (g : Grouping) :
    g.parenthesised.isWritable = g.draft.isWritable := by
  cases g with
  | term d => simp [Chain.isWritable, parenthesised, draft]
  | sign s g =>
    rw [draft, Draft.isWritable_sign]
    simp [Chain.isWritable, parenthesised, toExpr_parenthesised]
  | compare op l r =>
    rw [draft, Draft.isWritable_compare]
    simp [Chain.isWritable, parenthesised, toExpr_parenthesised]

end Grouping

/-! ### Reading the text of a sequence -/

theorem isAssign_of_isWritable (he : e.isWritable false = true) :
    e.isWritable true = true ∧ e.isAssign = false := by
  cases e with
  | assign n v s => simp [Expr.isWritable] at he
  | _ => exact ⟨he, rfl⟩

/-- An operand begins with nothing that is skipped and with no separator. -/
theorem solid_asOperand (he : e.isWritable false = true) (rest : List Char) :
    Solid (e.asOperand ++ rest) ∧ ';' ∉ (e.asOperand ++ rest).head? := by
  unfold Expr.asOperand
  split_ifs
  · exact solid_printed he rest
  · refine ⟨?_, by rintro ⟨⟩⟩
    rintro c ⟨⟩
    decide

theorem no_sign_asOperand (he : e.isWritable false = true) (rest : List Char) :
    ∀ c ∈ (e.asOperand ++ rest).head?, c ≠ '!' ∧ c ≠ '-' := by
  unfold Expr.asOperand
  split_ifs with hatomic
  · refine no_sign_printed he ?_ rest
    rintro op x s rfl
    cases hatomic
  · rintro c ⟨⟩
    decide

theorem asOperand_ne_nil (he : e.isWritable false = true) : e.asOperand ≠ [] := by
  unfold Expr.asOperand
  split_ifs
  · exact printed_ne_nil he
  · exact List.cons_ne_nil _ _

theorem head_sign (s : Sign) (signs : List Sign) (term : Draft) (rest : List Char) :
    ∃ c tail, Operand.printed ⟨s :: signs, term⟩ ++ rest = c :: tail ∧ (c = '!' ∨ c = '-') := by
  rw [Operand.printed, List.flatMap_cons]
  cases s.op with
  | not => exact ⟨'!', _, rfl, .inl rfl⟩
  | neg => exact ⟨'-', _, rfl, .inr rfl⟩

theorem solid_operand {o : Operand} (ho : o.term.isWritable = true) (rest : List Char) :
    Solid (o.printed ++ rest) ∧ ';' ∉ (o.printed ++ rest).head? := by
  obtain ⟨signs, term⟩ := o
  obtain ⟨e, rfl, he⟩ := Draft.exists_of_isWritable ho
  cases signs with
  | nil => exact solid_asOperand he rest
  | cons s signs =>
    obtain ⟨c, tail, htext, hc⟩ := head_sign s signs (.ok e) rest
    rw [htext]
    constructor
    · rintro _ ⟨⟩
      rcases hc with rfl | rfl <;> decide
    · rintro ⟨⟩
      rcases hc with hc | hc <;> cases hc

theorem printed_operand_ne_nil {o : Operand} (ho : o.term.isWritable = true) :
    o.printed ≠ [] := by
  obtain ⟨signs, term⟩ := o
  obtain ⟨e, rfl, he⟩ := Draft.exists_of_isWritable ho
  exact List.append_ne_nil_of_right_ne_nil _ (asOperand_ne_nil he)

theorem length_symbols (ops : List UnaryOp) :
    (ops.flatMap fun op ↦ op.symbol.toList).length = ops.length := by
  induction ops with
  | nil => rfl
  | cons op ops ih =>
    rw [List.flatMap_cons, List.length_append, ih, List.length_cons, Nat.add_comm]
    cases op <;> rfl

theorem map_bare_signs (signs : List Sign) :
    signs.map Sign.bare = (signs.map Sign.op).map fun op ↦ ⟨op, 0⟩ := by
  rw [List.map_map]
  rfl

/-- A comparison ends what stands in front of it. -/
theorem apart_comparison (op : CompareOp) (tail : List Char) :
    Apart (' ' :: op.symbol.toList ++ ' ' :: tail) where
  bounded := by
    rintro c ⟨⟩
    rfl
  uncalled := by
    rw [List.cons_append, skipped_symbol]
    cases op <;> rintro ⟨⟩

/-- A comparison that is written with a blank behind it is no arrow. -/
theorem not_arrow_comparison (op : CompareOp) (tail : List Char) :
    ¬ "<-".toList <+: skipped (' ' :: op.symbol.toList ++ ' ' :: tail) := by
  rw [List.cons_append, skipped_symbol]
  rintro ⟨more, hmore⟩
  cases op <;> cases hmore

theorem apart_further (others : Tail) (hends : Ends rest) :
    Apart (Chain.further others ++ rest) := by
  cases others with
  | nil => exact hends.apart
  | cons o others =>
    rw [Chain.further, List.flatMap_cons, List.append_assoc, List.append_assoc]
    exact apart_comparison o.1 _

theorem not_arrow_further (others : Tail) (hends : Ends rest) :
    ¬ "<-".toList <+: skipped (Chain.further others ++ rest) := by
  cases others with
  | nil => exact hends.closed.not_arrow
  | cons o others =>
    rw [Chain.further, List.flatMap_cons, List.append_assoc, List.append_assoc]
    exact not_arrow_comparison o.1 _

theorem length_le_further (others : Tail) : others.length ≤ (Chain.further others).length := by
  rw [Chain.further, List.length_flatMap, ← List.length_map]
  refine List.length_le_sum_of_one_le _ fun n hn ↦ ?_
  obtain ⟨o, -, rfl⟩ := List.mem_map.mp hn
  simp

theorem length_printed_le_further {others : Tail} {o : CompareOp × Operand} (ho : o ∈ others) :
    o.2.printed.length ≤ (Chain.further others).length := by
  obtain ⟨before, after, rfl⟩ := List.append_of_mem ho
  simp only [Chain.further, List.flatMap_append, List.flatMap_cons, List.length_append,
    List.length_cons]
  omega

namespace Recovers

theorem primary_asOperand (h : Recovers inner bound) (hlimit : bound ≤ limit)
    (he : e.isWritable false = true) (hlength : e.asOperand.length ≤ bound + 1)
    (hapart : Apart rest) :
    Reads (primary limit inner) (e.asOperand ++ rest) fun d r ↦
      skipped r = skipped rest ∧ d.Shows e := by
  unfold Expr.asOperand at hlength ⊢
  split_ifs at hlength ⊢ with hatomic
  · exact h.primary_atomic hlimit he hatomic hlength hapart
  · rw [length_enclosed] at hlength
    exact (h.primary_enclosed he (by omega) rest).mono fun d r ⟨hr, hd⟩ ↦ ⟨by rw [hr], hd⟩

theorem operand_printed (h : Recovers inner bound) (hlimit : bound ≤ limit) {o : Operand}
    (ho : o.term.isWritable = true) (hlength : o.printed.length ≤ bound + 1)
    (hapart : Apart rest) :
    Reads (operand limit inner) (o.printed ++ rest) fun o' r ↦
      skipped r = skipped rest ∧ o'.bare = o.bare := by
  obtain ⟨signs, term⟩ := o
  obtain ⟨e, rfl, he⟩ := Draft.exists_of_isWritable ho
  have hprinted : Operand.printed ⟨signs, .ok e⟩ =
      (signs.map Sign.op).flatMap (fun op ↦ op.symbol.toList) ++ e.asOperand := by
    rw [List.flatMap_map]
    rfl
  rw [hprinted, List.length_append, length_symbols, List.length_map] at hlength
  have hsome := List.length_pos_iff.mpr (asOperand_ne_nil he)
  rw [hprinted, List.append_assoc]
  refine (Reads.operand (signs.map Sign.op) (h.primary_asOperand hlimit he (by omega) hapart)
    ?_ (solid_asOperand he rest).1 (no_sign_asOperand he rest)).mono ?_
  · rw [List.length_map]
    omega
  · rintro ⟨signs', term⟩ r ⟨hops, hr, hterm⟩
    refine ⟨hr, Operand.ext ?_ (Draft.shows_iff.mp hterm)⟩
    change signs'.map Sign.bare = signs.map Sign.bare
    rw [map_bare_signs, hops, ← map_bare_signs]

/-- A sequence in front of its end. -/
theorem expression_chain (h : Recovers inner bound) (hlimit : bound ≤ limit)
    (hc : c.isWritable = true) (hlength : c.printed.length ≤ bound + 1) (hends : Ends rest) :
    Reads (Grammar.expression limit inner) (c.printed ++ rest) fun d r ↦
      skipped r = skipped rest ∧ d.bare = c.toExpr.bare := by
  obtain ⟨hfirst, hothers⟩ := (Bool.and_eq_true _ _).mp hc
  rw [List.all_eq_true] at hothers
  rw [Chain.printed, List.length_append] at hlength
  have hcount := length_le_further c.rest
  rw [Chain.printed, List.append_assoc]
  refine (Reads.expression_chain c.rest Prod.fst (fun o ↦ o.2.printed)
    (F := Apart) (P := fun o ↦ o.bare = c.first.bare) (Q := fun x o ↦ o.bare = x.2.bare)
    hends.closed.quiet hends.apart (fun x _ tail ↦ ?_) ?_
    (h.operand_printed hlimit hfirst (by omega) (apart_further c.rest hends)) ?_).mono ?_
  · rw [List.append_assoc]
    exact apart_comparison x.1 _
  · have hsome := List.length_pos_iff.mpr (printed_operand_ne_nil hfirst)
    omega
  · intro x hx tail hapart
    have hle := length_printed_le_further hx
    exact ⟨(solid_operand (hothers x hx) tail).1,
      h.operand_printed hlimit (hothers x hx) (by omega) hapart⟩
  · rintro _ r ⟨hr, o, os, ho, hos, rfl⟩
    refine ⟨hr, ?_⟩
    have hbare : (Chain.mk o os).bare = c.bare := by
      refine Chain.ext ho ?_
      change os.map (fun o ↦ (o.1, o.2.bare)) = c.rest.map fun o ↦ (o.1, o.2.bare)
      rw [← List.forall₂_eq_eq_eq, List.forall₂_map_left_iff, List.forall₂_map_right_iff]
      exact hos.flip.imp fun o x ⟨hop, ho⟩ ↦ Prod.ext hop ho
    rw [← Chain.toExpr_bare, ← Chain.toExpr_bare, hbare]

end Recovers

/-- No assignment begins like a sequence. -/
theorem fails_assignment_chain (hc : c.isWritable = true) (hends : Ends rest) :
    Fails (assignment limit inner) (c.printed ++ rest) := by
  obtain ⟨⟨signs, term⟩, others⟩ := c
  obtain ⟨hfirst, -⟩ := (Bool.and_eq_true _ _).mp hc
  obtain ⟨e, rfl, he⟩ := Draft.exists_of_isWritable hfirst
  rw [Chain.printed, List.append_assoc]
  cases signs with
  | cons s signs =>
    obtain ⟨c, tail, htext, hc⟩ := head_sign s signs (.ok e) (Chain.further others ++ rest)
    rw [htext]
    refine .assignment (Fails.name_of_head ?_)
    rintro _ ⟨⟩
    rcases hc with rfl | rfl <;> decide
  | nil =>
    change Fails _ (e.asOperand ++ (Chain.further others ++ rest))
    unfold Expr.asOperand
    split_ifs with hatomic
    · obtain ⟨hstatement, hassign⟩ := isAssign_of_isWritable he
      exact Recovers.fails_assignment hstatement hassign (apart_further others hends).bounded
        (not_arrow_further others hends)
    · refine .assignment (Fails.name_of_head ?_)
      rintro c ⟨⟩
      decide

theorem parse_printed (hc : c.isWritable = true) (he : c.toExpr = .ok e) :
    ∃ e', parse (String.ofList c.printed) = .ok e' ∧ e'.bare = (Expr.block [e] .origin).bare := by
  refine parse_of_statement (fun rest hends ↦ ?_) fun rest hends ↦ ?_
  · rw [String.toList_ofList, Chain.printed, List.append_assoc]
    exact solid_operand ((Bool.and_eq_true _ _).mp hc).1 _
  · rw [String.toList_ofList, String.length_ofList]
    refine .statement (fails_assignment_chain hc hends) ?_
    have hread := (recovers_language c.printed.length).expression_chain
      (Nat.le_succ _) hc (Nat.le_succ _) hends
    refine hread.mono fun d r ⟨hr, hd⟩ ↦ ⟨hr, Draft.shows_iff.mpr ?_⟩
    rw [hd, he]
    rfl

/-- The rule of precedence: a sequence of operands and operators is read as the one grouping of it
that follows the rule, and with the parentheses that the rule puts it is read the same. -/
theorem toExpr_ruled (c : Chain) :
    ∃ g : Grouping, g.Ruled ∧ g.flat = c ∧ (∀ g' : Grouping, g'.Ruled → g'.flat = c → g' = g) ∧
      c.toExpr = g.draft ∧ g.parenthesised.toExpr = g.draft ∧
      (c.isWritable = true → ∃ e tree tree', g.draft = .ok e ∧
        parse (String.ofList c.printed) = .ok tree ∧
        parse (String.ofList g.parenthesised.printed) = .ok tree' ∧
        tree.bare = (Expr.block [e] .origin).bare ∧ tree'.bare = tree.bare) := by
  obtain ⟨g, hg, rfl, hdraft⟩ := Grouping.exists_toExpr_eq c
  refine ⟨g, hg, rfl, fun g' hg' heq ↦ hg'.eq_of_flat_eq hg heq, hdraft, g.toExpr_parenthesised,
    fun hc ↦ ?_⟩
  have hwritable : g.draft.isWritable = true := by rwa [← g.isWritable_flat]
  obtain ⟨e, he, -⟩ := Draft.exists_of_isWritable hwritable
  obtain ⟨tree, hparse, htree⟩ := parse_printed hc (hdraft.trans he)
  obtain ⟨tree', hparse', htree'⟩ := parse_printed (g.isWritable_parenthesised.trans hwritable)
    (g.toExpr_parenthesised.trans he)
  exact ⟨e, tree, tree', he, hparse, hparse', htree, htree'.trans htree.symm⟩

/-- Comparisons on both sides of a third one, with a minus on an operand and one on a negation. -/
def signsAndComparisons : Grouping :=
  let name (n : String) : Grouping := .term (.ok (.ident n .origin))
  .compare .eq (.compare .lt (name "a") (.sign ⟨.neg, 0⟩ (name "b")))
    (.sign ⟨.neg, 0⟩ (.sign ⟨.not, 0⟩ (.compare .ge (name "c") (name "d"))))

theorem toExpr_ruled_signsAndComparisons :
    signsAndComparisons.flat.isWritable = true ∧
    signsAndComparisons.flat.toExpr = signsAndComparisons.draft ∧
    ∃ e tree tree', signsAndComparisons.draft = .ok e ∧
      parse "a < -b == -!c >= d" = .ok tree ∧
      parse "((a) < (-(b))) == (-(!((c) >= (d))))" = .ok tree' ∧
      tree.bare = (Expr.block [e] .origin).bare ∧ tree'.bare = tree.bare := by
  have hruled : signsAndComparisons.Ruled :=
    .compare rfl rfl (.compare rfl rfl (.term _) (.neg rfl rfl (.term _)))
      (.neg rfl rfl (.not rfl (.compare rfl rfl (.term _) (.term _))))
  have hwritable : signsAndComparisons.flat.isWritable = true := by decide +kernel
  have htext : String.ofList signsAndComparisons.flat.printed = "a < -b == -!c >= d" := by
    decide +kernel
  have htext' : String.ofList signsAndComparisons.parenthesised.printed =
      "((a) < (-(b))) == (-(!((c) >= (d))))" := by
    decide +kernel
  obtain ⟨g, -, -, hunique, hdraft, -, hparse⟩ := toExpr_ruled signsAndComparisons.flat
  obtain rfl := hunique _ hruled rfl
  have hparses := hparse hwritable
  rw [htext, htext'] at hparses
  exact ⟨hwritable, hdraft, hparses⟩

end Grammar

end AdaptiveTree
