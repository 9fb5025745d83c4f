import AdaptiveTree.Grammar.Program
import AdaptiveTree.Proofs.Grammar.Literals

/-!
Reading undoes printing. The induction is on the bound of the language, which every construct
lowers by one before it reads what stands inside it, and so by less than the text gets shorter.
Three statements go together: about an expression in front of its end, about a statement there,
and about a branch, behind which an `else` may follow.
-/

set_option autoImplicit false
set_option relaxedAutoImplicit false

namespace AdaptiveTree.Grammar

open Token (Bounded IsName)

variable {bound limit : Nat} {inner : Inner} {rest : List Char} {e : Expr}

/-! ### Lengths -/

theorem length_enclosed (chars : List Char) : (enclosed chars).length = chars.length + 2 := by
  simp [enclosed]

theorem enclosed_append (chars rest : List Char) :
    enclosed chars ++ rest = '(' :: (chars ++ ')' :: rest) := by
  simp [enclosed]

theorem length_le_intercalate {γ : Type} (text : γ → List Char) (between : List Char)
    {items : List γ} {x : γ} (hx : x ∈ items) :
    (text x).length ≤ (between.intercalate (items.map text)).length := by
  induction items with
  | nil => simp at hx
  | cons y ys ih =>
    cases ys with
    | nil =>
      obtain rfl : x = y := by simpa using hx
      simp
    | cons z zs =>
      rw [List.map_cons, List.map_cons, List.intercalate_cons_cons, ← List.map_cons]
      simp only [List.length_append]
      rcases List.mem_cons.mp hx with rfl | hx
      · omega
      · have := ih hx
        omega

theorem count_le_intercalate {γ : Type} (text : γ → List Char) (between : List Char)
    (items : List γ) (htext : ∀ x ∈ items, text x ≠ []) :
    items.length ≤ (between.intercalate (items.map text)).length := by
  induction items with
  | nil => exact Nat.zero_le _
  | cons x xs ih =>
    have hx := List.length_pos_iff.mpr (htext x (by simp))
    cases xs with
    | nil => simpa [Nat.succ_le_iff] using hx
    | cons y ys =>
      have h := ih fun z hz ↦ htext z (List.mem_cons_of_mem x hz)
      rw [List.map_cons, List.map_cons, List.intercalate_cons_cons, ← List.map_cons]
      simp only [List.length_append, List.length_cons] at h hx ⊢
      omega

theorem isWritable_of_not_isAssign (he : e.isWritable true = true) (hassign : e.isAssign = false) :
    e.isWritable false = true := by
  cases e with
  | assign n v s => simp [Expr.isAssign] at hassign
  | _ => simpa [Expr.isWritable] using he

theorem solid_asBranch (he : e.isWritable true = true) (rest : List Char) :
    Solid (e.asBranch e.printed ++ rest) := by
  unfold Expr.asBranch
  split_ifs
  · exact (solid_printed he rest).1
  · rintro c ⟨⟩
    decide

/-! ### The statements of the induction -/

/-- What is read in front of a text that is left, up to what is skipped there. -/
def ReadsTo (p : Reader Draft) (chars rest : List Char) (e : Expr) : Prop :=
  Reads p (chars ++ rest) fun d r ↦ skipped r = skipped rest ∧ d.Shows e

/-- An operand that is no operator is an expression. -/
theorem ReadsTo.expression {chars : List Char} (hsolid : Solid (chars ++ rest))
    (hsign : ∀ c ∈ (chars ++ rest).head?, c ≠ '!' ∧ c ≠ '-') (hquiet : Quiet rest)
    (hread : Reads (primary limit inner) (chars ++ rest) fun d r ↦
      skipped r = skipped rest ∧ d.Shows e) :
    ReadsTo (Grammar.expression limit inner) chars rest e := by
  have hoperand := Reads.operand [] hread (Nat.zero_le limit) hsolid hsign
  refine (Reads.expression_operand (P := fun o ↦ o.signs = [] ∧ o.term.Shows e) hquiet
    (hoperand.mono fun o r ⟨hops, hr, ho⟩ ↦ ⟨hr, List.map_eq_nil_iff.mp hops, ho⟩)).mono ?_
  rintro _ r ⟨hr, ⟨_, term⟩, ⟨rfl, hterm⟩, rfl⟩
  exact ⟨hr, hterm⟩

/-- A sign in front of an operand. -/
theorem ReadsTo.sign {op : UnaryOp} {span : Span} {chars : List Char} (hlimit : 0 < limit)
    (hsolid : Solid (chars ++ rest)) (hsign : ∀ c ∈ (chars ++ rest).head?, c ≠ '!' ∧ c ≠ '-')
    (hquiet : Quiet rest)
    (hread : Reads (primary limit inner) (chars ++ rest) fun d r ↦
      skipped r = skipped rest ∧ d.Shows e) :
    ReadsTo (Grammar.expression limit inner) (op.symbol.toList ++ chars) rest
      (.unary op e span) := by
  have hoperand := Reads.operand [op] hread hlimit hsolid hsign
  have htext : [op].flatMap (fun op ↦ op.symbol.toList) ++ (chars ++ rest) =
      op.symbol.toList ++ chars ++ rest := by
    simp
  rw [htext] at hoperand
  refine (Reads.expression_operand (P := fun o ↦ o.signs.map Sign.op = [op] ∧ o.term.Shows e)
    hquiet (hoperand.mono fun o r ⟨hops, hr, ho⟩ ↦ ⟨hr, hops, ho⟩)).mono ?_
  rintro _ r ⟨hr, ⟨signs, term⟩, ⟨hops, hx⟩, rfl⟩
  obtain ⟨sign, rfl, rfl⟩ : ∃ sign, signs = [sign] ∧ sign.op = op := by
    simpa using List.map_eq_singleton_iff.mp hops
  exact ⟨hr, by rw [toExpr_sign]; exact hx.sign⟩

/-- An expression where a statement is expected: no assignment begins like it. -/
theorem ReadsTo.statement {chars : List Char}
    (hassign : Fails (assignment limit inner) (chars ++ rest))
    (hread : ReadsTo (Grammar.expression limit inner) chars rest e) :
    ReadsTo (Grammar.statement limit inner) chars rest e := .orElse_right hassign hread

/-- What the readers inside of a construct make of printed text up to a length. -/
structure Recovers (inner : Inner) (bound : Nat) : Prop where
  expression : ∀ e : Expr, e.isWritable false = true → e.printed.length ≤ bound →
    ∀ rest, Ends rest → ReadsTo inner.expression e.printed rest e
  argument : ∀ e : Expr, e.isWritable false = true → (enclosed e.printed).length ≤ bound →
    ∀ rest, Quiet rest → ReadsTo inner.expression (enclosed e.printed) rest e
  statement : ∀ e : Expr, e.isWritable true = true → e.printed.length ≤ bound →
    ∀ rest, Ends rest → ReadsTo inner.statement e.printed rest e
  branch : ∀ e : Expr, e.isWritable true = true → (e.asBranch e.printed).length ≤ bound →
    ∀ rest, Quiet rest → ReadsTo inner.statement (e.asBranch e.printed) rest e
  ends : ∀ rest, Closed rest → Fails inner.expression rest ∧ Fails inner.statement rest

namespace Recovers

/-- An expression in parentheses, whatever stands behind it. -/
theorem primary_enclosed (h : Recovers inner bound) (he : e.isWritable false = true)
    (hlength : e.printed.length ≤ bound) (rest : List Char) :
    Reads (primary limit inner) (enclosed e.printed ++ rest) fun d r ↦ r = rest ∧ d.Shows e := by
  have hclosed := closed_parenthesis rest
  have hsolid := (solid_printed he (')' :: rest)).1
  rw [enclosed_append]
  refine .primary_parenthesised (.parenthesised (by rwa [hsolid.skipped_eq]) ?_)
  rw [hsolid.skipped_eq]
  refine (h.expression e he hlength _ hclosed.ends).mono fun d r ⟨hr, hd⟩ ↦ ⟨?_, hd⟩
  rw [hr, hclosed.solid.skipped_eq]

theorem operand_enclosed (h : Recovers inner bound) (he : e.isWritable false = true)
    (hlength : e.printed.length ≤ bound) (rest : List Char) :
    Reads (operand limit inner) (enclosed e.printed ++ rest) fun o r ↦
      r = rest ∧ o.signs = [] ∧ o.term.Shows e := by
  refine (Reads.operand [] (h.primary_enclosed he hlength rest) (Nat.zero_le _) ?_
    ?_).mono fun o r ⟨hops, hr, ho⟩ ↦ ⟨hr, List.map_eq_nil_iff.mp hops, ho⟩
  · rw [enclosed_append]
    rintro c ⟨⟩
    decide
  · rw [enclosed_append]
    rintro c ⟨⟩
    decide

/-- A conditional up to where an `else` may follow. -/
theorem ifExpression (h : Recovers inner bound) {c t : Expr} {behind : List Char}
    {R : Option Draft → List Char → Prop} (hc : c.isWritable false = true)
    (ht : t.isWritable true = true) (hlength : c.printed.length ≤ bound)
    (hlength' : (t.asBranch t.printed).length ≤ bound) (hquiet : Quiet behind)
    (helse : Reads (Reader.optional (elseClause limit inner)) (skipped behind) R) :
    Reads (ifExpression limit inner)
      ("if (".toList ++ (c.printed ++ ')' :: ' ' :: (t.asBranch t.printed ++ behind)))
      fun d r ↦ ∃ c' t' e' span, c'.Shows c ∧ t'.Shows t ∧ R e' r ∧ d = ifDraft c' t' e' span := by
  have hclosed := closed_parenthesis (' ' :: (t.asBranch t.printed ++ behind))
  refine .ifExpression (solid_printed hc _).1 (solid_asBranch ht behind) ?_
    (h.branch t ht hlength' behind hquiet) helse
  refine (h.expression c hc hlength _ hclosed.ends).mono fun d r ⟨hr, hd⟩ ↦ ⟨?_, hd⟩
  rw [hr, hclosed.solid.skipped_eq]

/-! ### One construct after the other -/

section Primary

variable (h : Recovers inner bound) (hlimit : bound ≤ limit)

include h

include hlimit in
theorem primary_call {callee : String} {args : List Expr} {s : Span}
    (he : (Expr.call callee args s).isWritable false = true)
    (hlength : (Expr.call callee args s).printed.length ≤ bound + 1) (rest : List Char) :
    Reads (primary limit inner) ((Expr.call callee args s).printed ++ rest) fun d r ↦
      skipped r = skipped rest ∧ d.Shows (.call callee args s) := by
  simp only [Expr.isWritable, Bool.and_eq_true, decide_eq_true_eq, Expr.allWritable_iff] at he
  obtain ⟨hcallee, hargs⟩ := he
  simp only [Expr.printed_call, List.length_append, length_enclosed]
    at hlength
  have hcount := count_le_intercalate (fun e : Expr ↦ enclosed e.printed)
    ", ".toList args (by simp [enclosed])
  rw [Expr.printed_call, List.append_assoc, enclosed_append]
  refine .primary_call hcallee ((Reads.call (Q := fun e d ↦ d.Shows e) hcallee ?_ ?_ ?_).mono ?_)
  · intro y hy tail hclosed
    have hle := length_le_intercalate (fun e : Expr ↦ enclosed e.printed) ", ".toList hy
    refine ⟨?_, h.argument y (hargs y hy) (by omega) tail hclosed.skipped.quiet⟩
    rintro c ⟨⟩
    decide
  · exact (h.ends _ (closed_parenthesis rest)).1
  · omega
  · rintro d r ⟨rfl, ds, span, hds, rfl⟩
    obtain ⟨es, hes, hbare⟩ := shows_mapM hds
    refine ⟨rfl, .call callee es span, by rw [hes]; rfl, ?_⟩
    simp only [Expr.bare, Expr.bareAll_eq_map, hbare]

theorem primary_ifThen {c t : Expr} {s : Span} (he : (Expr.ifThen c t s).isWritable false = true)
    (hlength : (Expr.ifThen c t s).printed.length ≤ bound + 1) (hends : Ends rest) :
    Reads (primary limit inner) ((Expr.ifThen c t s).printed ++ rest) fun d r ↦
      skipped r = skipped rest ∧ d.Shows (.ifThen c t s) := by
  simp only [Expr.isWritable, Bool.and_eq_true] at he
  have hif : "if (".toList.length + ") ".toList.length = 6 := rfl
  have htext : (Expr.ifThen c t s).printed ++ rest = "if (".toList ++
      (c.printed ++ ')' :: ' ' :: (t.asBranch t.printed ++ rest)) := by
    simp [Expr.printed_ifThen]
  simp only [Expr.printed_ifThen, List.length_append] at hlength
  have hlast : Reads (Reader.optional (elseClause limit inner)) (skipped rest)
      fun b r ↦ b = none ∧ skipped r = skipped rest := by
    refine .optional_none (.elseClause hends.closed.solid fun hmem ↦ ?_)
      ⟨rfl, skipped_skipped rest⟩
    exact absurd (hends.closed.head _ hmem).1 (by decide)
  rw [htext]
  refine .orElse_left ((h.ifExpression he.1 he.2 (by omega) (by omega) hends.closed.quiet
    hlast).mono ?_)
  rintro d r ⟨c', t', _, span, hc, ht, ⟨rfl, hr⟩, rfl⟩
  exact ⟨hr, ifDraft_shows hc ht⟩

theorem primary_ifElse {c t b : Expr} {s : Span}
    (he : (Expr.ifElse c t b s).isWritable false = true)
    (hlength : (Expr.ifElse c t b s).printed.length ≤ bound + 1) (hends : Ends rest) :
    Reads (primary limit inner) ((Expr.ifElse c t b s).printed ++ rest) fun d r ↦
      skipped r = skipped rest ∧ d.Shows (.ifElse c t b s) := by
  simp only [Expr.isWritable, Bool.and_eq_true] at he
  obtain ⟨⟨hc, ht⟩, hb⟩ := he
  have hif : "if (".toList.length + ") ".toList.length + " else ".toList.length = 12 := rfl
  have htext : (Expr.ifElse c t b s).printed ++ rest = "if (".toList ++
      (c.printed ++ ')' :: ' ' :: (t.asBranch t.printed ++
        (" else ".toList ++ (b.asBranch b.printed ++ rest)))) := by
    simp [Expr.printed_ifElse]
  simp only [Expr.printed_ifElse, List.length_append] at hlength
  have helse : skipped (" else ".toList ++ (b.asBranch b.printed ++ rest)) =
      "else ".toList ++ (b.asBranch b.printed ++ rest) :=
    (skipped_blank _).trans (skipped_cons _ (by decide) (by decide) (by decide))
  have hquiet : Quiet (" else ".toList ++ (b.asBranch b.printed ++ rest)) := by
    unfold Quiet
    rw [helse]
    rintro c ⟨⟩
    decide
  have hlast : Reads (Reader.optional (elseClause limit inner))
      (skipped (" else ".toList ++ (b.asBranch b.printed ++ rest)))
      fun b' r ↦ ∃ d, b' = some d ∧ skipped r = skipped rest ∧ d.Shows b := by
    rw [helse]
    exact .optional_some ((Reads.elseClause (solid_asBranch hb rest)
      (h.branch b hb (by omega) rest hends.closed.quiet)).mono fun d r hd ↦ ⟨d, rfl, hd⟩)
  rw [htext]
  refine .orElse_left ((h.ifExpression hc ht (by omega) (by omega) hquiet hlast).mono ?_)
  rintro d r ⟨c', t', _, span, hc, ht, ⟨b', rfl, hr, hb⟩, rfl⟩
  exact ⟨hr, ifDraft_else_shows hc ht hb⟩

include hlimit in
theorem primary_block {items : List Expr} {s : Span}
    (he : (Expr.block items s).isWritable false = true)
    (hlength : (Expr.block items s).printed.length ≤ bound + 1) (rest : List Char) :
    Reads (primary limit inner) ((Expr.block items s).printed ++ rest) fun d r ↦
      skipped r = skipped rest ∧ d.Shows (.block items s) := by
  rw [Expr.isWritable, Expr.allWritable_iff] at he
  simp only [Expr.printed_block, List.length_append] at hlength
  have hcount := count_le_intercalate Expr.printed "; ".toList items
    fun y hy ↦ printed_ne_nil (he y hy)
  have htext : (Expr.block items s).printed ++ rest = "\x7b ".toList ++
      ("; ".toList.intercalate (items.map Expr.printed) ++ ' ' :: '\x7d' :: rest) := by
    simp [Expr.printed_block]
  have hclosed : Closed ('\x7d' :: rest) := by
    rintro c ⟨⟩
    exact .inr (.inl rfl)
  have hbraces : "\x7b ".toList.length + " \x7d".toList.length = 4 := rfl
  rw [htext]
  refine .primary_block ((Reads.block (Q := fun e d ↦ d.Shows e) ?_ (h.ends _ hclosed).2 ?_).mono
    ?_)
  · intro y hy tail hends
    obtain ⟨hsolid, hsemicolon⟩ := solid_printed (he y hy) tail
    have hle := length_le_intercalate Expr.printed "; ".toList hy
    exact ⟨hsolid, hsemicolon, h.statement y (he y hy) (by omega) tail hends⟩
  · omega
  · rintro d r ⟨rfl, ds, span, hds, rfl⟩
    obtain ⟨es, hes, hbare⟩ := shows_mapM hds
    refine ⟨rfl, .block es span, by rw [hes]; rfl, ?_⟩
    simp only [Expr.bare, Expr.bareAll_eq_map, hbare]

include hlimit in
/-- What can stand as an operand as it is. -/
theorem primary_atomic (he : e.isWritable false = true) (hatomic : e.isAtomic = true)
    (hlength : e.printed.length ≤ bound + 1) (hapart : Apart rest) :
    Reads (primary limit inner) (e.printed ++ rest) fun d r ↦
      skipped r = skipped rest ∧ d.Shows e := by
  cases e with
  | literal l s =>
    exact (Reads.primary_written he hapart.bounded).mono fun _ _ ⟨hr, hd⟩ ↦ ⟨by rw [hr], hd⟩
  | ident n s =>
    exact (Reads.primary_ident (of_decide_eq_true he) hapart).mono fun _ _ ⟨hr, hd⟩ ↦
      ⟨by rw [hr], hd⟩
  | call => exact primary_call h hlimit he hlength rest
  | block => exact primary_block h hlimit he hlength rest
  | _ => cases hatomic

include hlimit in
/-- Everything that is no operator, in front of its end. -/
theorem primary_printed (he : e.isWritable false = true)
    (hlength : e.printed.length ≤ bound + 1) (hends : Ends rest)
    (hunary : ∀ op x s, e ≠ .unary op x s) (hcompare : ∀ op a b s, e ≠ .compare op a b s) :
    Reads (primary limit inner) (e.printed ++ rest) fun d r ↦
      skipped r = skipped rest ∧ d.Shows e := by
  cases e with
  | unary op x s => exact absurd rfl (hunary op x s)
  | compare op a b s => exact absurd rfl (hcompare op a b s)
  | assign n v s => simp [Expr.isWritable] at he
  | ifThen => exact primary_ifThen h he hlength hends
  | ifElse => exact primary_ifElse h he hlength hends
  | _ => exact primary_atomic h hlimit he rfl hlength hends.apart

end Primary

theorem expression_enclosed (h : Recovers inner bound) (he : e.isWritable false = true)
    (hlength : e.printed.length ≤ bound) (hquiet : Quiet rest) :
    ReadsTo (Grammar.expression limit inner) (enclosed e.printed) rest e := by
  refine .expression ?_ ?_ hquiet ((h.primary_enclosed he hlength rest).mono
    fun _ _ ⟨hr, hd⟩ ↦ ⟨by rw [hr], hd⟩)
  · rintro c ⟨⟩
    decide
  · rintro c ⟨⟩
    decide

theorem expression_printed (h : Recovers inner bound) (he : e.isWritable false = true)
    (hlength : e.printed.length ≤ bound + 1) (hlimit : bound < limit) (hends : Ends rest) :
    ReadsTo (Grammar.expression limit inner) e.printed rest e := by
  have hquiet := hends.closed.quiet
  have hterm (hunary : ∀ op x s, e ≠ .unary op x s) (hcompare : ∀ op a b s, e ≠ .compare op a b s) :
      ReadsTo (Grammar.expression limit inner) e.printed rest e :=
    .expression (solid_printed he rest).1 (no_sign_printed he hunary rest) hquiet
      (h.primary_printed hlimit.le he hlength hends hunary hcompare)
  cases e with
  | unary op x s =>
    simp only [Expr.printed_unary, List.length_append, length_enclosed] at hlength
    refine .sign (Nat.zero_lt_of_lt hlimit) (by rintro c ⟨⟩; decide)
      (by rintro c ⟨⟩; decide) hquiet ?_
    exact (h.primary_enclosed (e := x) he (by omega) rest).mono fun _ _ ⟨hr, hd⟩ ↦
      ⟨by rw [hr], hd⟩
  | compare op a b s =>
    simp only [Expr.isWritable, Bool.and_eq_true] at he
    simp only [Expr.printed_compare, List.length_append, List.length_cons,
      length_enclosed] at hlength
    have htext : (Expr.compare op a b s).printed ++ rest = enclosed a.printed ++
        ([b].flatMap (fun b ↦ ' ' :: op.symbol.toList ++ ' ' :: enclosed b.printed) ++ rest) := by
      simp [Expr.printed_compare]
    unfold ReadsTo
    rw [htext]
    refine (Reads.expression_chain [b] (fun _ ↦ op) (fun b ↦ enclosed b.printed) (F := fun _ ↦ True)
      (P := fun o ↦ o.signs = [] ∧ o.term.Shows a)
      (Q := fun b o ↦ o.signs = [] ∧ o.term.Shows b) hquiet trivial (fun _ _ _ ↦ trivial)
      (Nat.succ_le_of_lt (Nat.zero_lt_of_lt hlimit))
      ((h.operand_enclosed he.1 (by omega) _).mono fun o r hread ↦ ⟨by rw [hread.1], hread.2⟩)
      ?_).mono ?_
    · intro x hx tail _
      obtain rfl := List.mem_singleton.mp hx
      refine ⟨by rintro c ⟨⟩; decide, (h.operand_enclosed he.2 (by omega) tail).mono ?_⟩
      exact fun o r hread ↦ ⟨by rw [hread.1], hread.2⟩
    · rintro _ r ⟨hr, ⟨_, x⟩, os, ⟨rfl, ha⟩, hos, rfl⟩
      obtain ⟨⟨_, _, y⟩, _, ⟨rfl, rfl, hb⟩, hnil, rfl⟩ := List.forall₂_cons_left_iff.mp hos
      obtain rfl := List.forall₂_nil_left_iff.mp hnil
      exact ⟨hr, by rw [toExpr_compare]; exact ha.compare hb⟩
  | _ => exact hterm (by simp) (by simp)

/-- An assignment, whatever stands behind its value. -/
theorem statement_assign (h : Recovers inner bound) {n : String} {v : Expr} {s : Span}
    (he : (Expr.assign n v s).isWritable true = true)
    (hlength : (Expr.assign n v s).printed.length ≤ bound + 1) (hquiet : Quiet rest) :
    ReadsTo (Grammar.statement limit inner) (Expr.assign n v s).printed rest (.assign n v s) := by
  simp only [Expr.isWritable, Bool.and_eq_true, decide_eq_true_eq] at he
  obtain ⟨⟨-, hn⟩, hv⟩ := he
  have harrow : " <- ".toList.length = 4 := rfl
  simp only [Expr.printed_assign, List.length_append] at hlength
  have htext : (Expr.assign n v s).printed ++ rest =
      n.toList ++ (" <- ".toList ++ (v.asBranch v.printed ++ rest)) := by
    simp [Expr.printed_assign]
  unfold ReadsTo
  rw [htext]
  refine .orElse_left ((Reads.assignment hn (solid_asBranch hv rest)
    (h.branch v hv (by omega) rest hquiet)).mono ?_)
  rintro d r ⟨_, span, ⟨hr, v', rfl, hv'⟩, rfl⟩
  exact ⟨hr, .assign n v' span, rfl, by simp only [Expr.bare, hv']⟩

/-- What begins an expression that is no assignment begins no assignment. -/
theorem fails_assignment (he : e.isWritable true = true) (hassign : e.isAssign = false)
    (hbounded : Bounded rest) (harrow : ¬ "<-".toList <+: skipped rest) :
    Fails (assignment limit inner) (e.printed ++ rest) := by
  have hhead {chars : List Char} {c : Char} (hc : c.isAlphanum = false ∧ c ≠ '.') :
      Fails (assignment limit inner) (c :: chars) := by
    refine .assignment (Fails.name_of_head ?_)
    rintro _ ⟨⟩
    exact hc
  have hkeyword (chars : List Char) : Fails (assignment limit inner) ("if (".toList ++ chars) :=
    .assignment (Token.name?_eq_none_of_keyword (w := "if") (by decide) (by decide)
      (show Bounded (' ' :: '(' :: chars) by rintro c ⟨⟩; rfl))
  cases e with
  | literal l s => exact .assignment (name?_written he hbounded)
  | ident n s => exact .assignment_name (of_decide_eq_true he) hbounded harrow
  | unary op x s => cases op <;> exact hhead (by decide)
  | compare op a b s => exact hhead (by decide)
  | call callee args s =>
    simp only [Expr.isWritable, Bool.and_eq_true, decide_eq_true_eq] at he
    rw [Expr.printed_call, List.append_assoc, enclosed_append]
    refine .assignment_name he.1 (by rintro c ⟨⟩; rfl) ?_
    rintro ⟨tail, ⟨⟩⟩
  | assign n v s => cases hassign
  | ifThen c t s =>
    rw [Expr.printed_ifThen]
    simp only [List.append_assoc]
    exact hkeyword _
  | ifElse c t b s =>
    rw [Expr.printed_ifElse]
    simp only [List.append_assoc]
    exact hkeyword _
  | block items s => exact hhead (by decide)

/-- One construct further out, a character more can be read. -/
theorem succ (h : Recovers inner bound) (hlimit : bound < limit) :
    Recovers ⟨Grammar.statement limit inner, Grammar.expression limit inner⟩ (bound + 1) where
  expression e he hlength rest hends := h.expression_printed he hlength hlimit hends
  argument e he hlength rest hquiet := by
    rw [length_enclosed] at hlength
    exact h.expression_enclosed he (by omega) hquiet
  statement e he hlength rest hends := by
    cases hassign : e.isAssign with
    | true =>
      obtain ⟨n, v, s, rfl⟩ : ∃ n v s, e = .assign n v s := by
        cases e <;> simp_all [Expr.isAssign]
      exact h.statement_assign he hlength hends.closed.quiet
    | false =>
      exact .statement (fails_assignment he hassign hends.bounded hends.closed.not_arrow)
        (h.expression_printed (isWritable_of_not_isAssign he hassign) hlength hlimit hends)
  branch e he hlength rest hquiet := by
    unfold Expr.asBranch at hlength ⊢
    split_ifs at hlength ⊢ with hassign
    · obtain ⟨n, v, s, rfl⟩ : ∃ n v s, e = .assign n v s := by
        cases e <;> simp_all [Expr.isAssign]
      exact h.statement_assign he hlength hquiet
    · rw [length_enclosed] at hlength
      refine .statement (.assignment (Fails.name_of_head ?_)) (h.expression_enclosed
        (isWritable_of_not_isAssign he (Bool.eq_false_iff.mpr hassign)) (by omega) hquiet)
      rintro c ⟨⟩
      decide
  ends rest hclosed := ⟨.expression hclosed, .statement hclosed⟩

end Recovers

theorem recovers_language (bound : Nat) : Recovers (language bound) bound := by
  induction bound with
  | zero =>
    refine ⟨fun e he hlength ↦ ?_, fun e _ hlength ↦ ?_, fun e he hlength ↦ ?_,
      fun e he hlength ↦ ?_, fun rest _ ↦ ⟨fun _ ↦ rfl, fun _ ↦ rfl⟩⟩
    · exact absurd (List.length_eq_zero_iff.mp (Nat.le_zero.mp hlength)) (printed_ne_nil he)
    · simp [length_enclosed] at hlength
    · exact absurd (List.length_eq_zero_iff.mp (Nat.le_zero.mp hlength)) (printed_ne_nil he)
    · unfold Expr.asBranch at hlength
      split_ifs at hlength
      · exact absurd (List.length_eq_zero_iff.mp (Nat.le_zero.mp hlength)) (printed_ne_nil he)
      · simp [length_enclosed] at hlength
  | succ bound ih => exact ih.succ (Nat.lt_succ_self bound)

/-! ### Programs -/

/-- Statements up to the end of the text are a program. -/
theorem Reads.program {γ : Type} (text : γ → List Char) (items : List γ) {Q : γ → Draft → Prop}
    (hitem : ∀ y ∈ items, ∀ tail, Ends tail → Solid (text y ++ tail) ∧
      ';' ∉ (text y ++ tail).head? ∧
      Reads (language bound).statement (text y ++ tail) fun d r ↦ skipped r = skipped tail ∧ Q y d)
    (hlimit : items.length ≤ bound) :
    Reads (program bound) ("; ".toList.intercalate (items.map text)) fun ds _ ↦
      List.Forall₂ Q items ds := by
  have hclosed : Closed [] := by rintro c ⟨⟩
  have hread := Reads.statements hitem hclosed.ends (by rintro ⟨⟩)
    ((recovers_language bound).ends [] hclosed).2 hlimit
  rw [List.append_nil] at hread
  refine .expecting (.bind (.skip (R := fun _ r ↦ r = skipped _) rfl) ?_)
  rintro _ _ rfl
  refine hread.bind fun ds r ⟨hr, hds⟩ ↦ ?_
  refine .bind (.skip (R := fun _ s ↦ s = []) hr) ?_
  rintro _ _ rfl
  refine .bind (.expecting (R := fun _ _ ↦ True) fun n ↦ ⟨(), ⟨n, []⟩, rfl, trivial⟩) ?_
  exact fun _ _ _ ↦ .pure hds

/-- What is made of a text whose statements are drafts of some expressions. -/
theorem parse_of_reads {source : String} {items : List Expr}
    (hread : Reads (program (source.length + 1)) source.toList
      fun ds _ ↦ List.Forall₂ (fun e d ↦ Draft.Shows d e) items ds) (span : Span) :
    ∃ e, parse source = .ok e ∧ e.bare = (Expr.block items span).bare := by
  obtain ⟨ds, c, hout, hds⟩ := hread 0
  obtain ⟨es, hes, hbare⟩ := shows_mapM hds
  have hstart : Cursor.start source = ⟨0, source.toList⟩ := rfl
  refine ⟨.block es ⟨0, source.utf8ByteSize⟩, ?_, ?_⟩
  · unfold parse
    simp only [hstart, hout, hes]
  · simp only [Expr.bare, Expr.bareAll_eq_map, hbare]

/-- What must be shown of a text to have it read as a program of one statement. -/
theorem parse_of_statement {source : String} {e : Expr}
    (hsolid : ∀ rest, Ends rest → Solid (source.toList ++ rest) ∧
      ';' ∉ (source.toList ++ rest).head?)
    (hread : ∀ rest, Ends rest →
      ReadsTo (language (source.length + 1)).statement source.toList rest e) :
    ∃ e', parse source = .ok e' ∧ e'.bare = (Expr.block [e] .origin).bare := by
  refine parse_of_reads ?_ .origin
  have htext : source.toList = "; ".toList.intercalate ([e].map fun _ ↦ source.toList) := by simp
  rw [htext]
  refine .program (fun _ ↦ source.toList) [e] (fun y hy tail hends ↦ ?_) (by simp)
  obtain rfl := List.mem_singleton.mp hy
  exact ⟨(hsolid tail hends).1, (hsolid tail hends).2, hread tail hends⟩

/-- Parsing undoes printing: a program is read back from its canonical text, its spans apart. -/
theorem parse_programText {items : List Expr} {span : Span}
    (h : (Expr.block items span).isWritable true = true) :
    ∃ e, parse (Expr.programText items) = .ok e ∧ e.bare = (Expr.block items span).bare := by
  rw [Expr.isWritable, Expr.allWritable_iff] at h
  have htext : (Expr.programText items).toList =
      "; ".toList.intercalate (items.map Expr.printed) := by
    rw [Expr.programText, String.toList_ofList, Expr.printedAll_eq_map]
  have hlength : (Expr.programText items).length =
      ("; ".toList.intercalate (items.map Expr.printed)).length := by
    rw [← htext, String.length_toList]
  have hcount := count_le_intercalate Expr.printed "; ".toList items
    fun y hy ↦ printed_ne_nil (h y hy)
  refine parse_of_reads ?_ span
  rw [htext]
  refine .program Expr.printed items (fun y hy tail hends ↦ ?_) (by omega)
  obtain ⟨hsolid, hsemicolon⟩ := solid_printed (h y hy) tail
  have hle := length_le_intercalate Expr.printed "; ".toList hy
  exact ⟨hsolid, hsemicolon, (recovers_language _).statement y (h y hy) (by omega) tail hends⟩

/-- An assignment in a branch, a block as an argument, and a name that begins like a keyword. -/
def callInBranch : List Expr :=
  [.assign "x" (.unary .neg (.literal (.int 5) .origin) .origin) .origin,
    .ifElse (.compare .lt (.ident "x" .origin) (.literal (.logical .na) .origin) .origin)
      (.assign "y" (.call "iffy" [.literal (.logical .yes) .origin,
        .block [.literal .null .origin, .ident ".z" .origin] .origin] .origin) .origin)
      (.literal (.double (.ofNatBits 0x3FB999999999999A)) .origin) .origin]

theorem parse_programText_callInBranch :
    (Expr.block callInBranch .origin).isWritable true = true ∧
    Expr.programText callInBranch = "x <- (-(5L)); if ((x) < (NA)) " ++
      "y <- (iffy((TRUE), (\x7b NULL; .z \x7d))) else (0.1)" ∧
    ∃ e, parse (Expr.programText callInBranch) = .ok e ∧
      e.bare = (Expr.block callInBranch .origin).bare := by
  have hwritable : (Expr.block callInBranch .origin).isWritable true = true := by decide +kernel
  exact ⟨hwritable, by decide +kernel, parse_programText hwritable⟩

end AdaptiveTree.Grammar
