import AdaptiveTree.Proofs.Grammar.Agrees
import AdaptiveTree.Proofs.Grammar.Numbers

/-!
Both ways of reading agree. Whatever a matcher leaves as pairs is converted to the draft that the
reader of the same construct has there, so no conversion misses a pair, meets one of an unknown rule
or finds an operator out of place.
-/

set_option autoImplicit false
set_option relaxedAutoImplicit false

namespace AdaptiveTree.Grammar

open Token

variable {α : Type} {c : Cursor}

/-! ### Tokens -/

theorem textBetween_advance {taken rest : List Char} (h : c.rest = taken ++ rest) :
    textBetween c (c.advance taken rest) = String.ofList taken := by
  have hlength : c.rest.length - (c.advance taken rest).rest.length = taken.length := by
    rw [h, List.length_append, Cursor.advance, Nat.add_sub_cancel]
  rw [textBetween, hlength, h, List.take_left]

theorem Agrees.lexeme (scan : List Char → Option (α × List Char × List Char)) :
    Agrees (fun _ b c' ↦ ∃ rest, scan c.rest = some (b.1, b.2, rest) ∧ c' = c.advance b.2 rest)
      (Reader.lexeme scan c) (Reader.lexeme scan c) := by
  unfold Reader.lexeme
  split
  · exact .fails _
  · next hscan => exact .reads _ ⟨_, hscan, rfl⟩

theorem agrees_word (w : String) (l : Literal) :
    Agrees (fun _ l' c' ↦ l' = l ∧ textBetween c c' = w)
      (Reader.lexeme (keyword? w) c) (wordLiteral w l c) := by
  refine (Agrees.lexeme (keyword? w)).map_right ?_
  rintro _ ⟨_, taken⟩ _ ⟨rest, hscan, rfl⟩
  refine ⟨rfl, ?_⟩
  rw [textBetween_advance (keyword?_split hscan)]
  unfold keyword? at hscan
  split_ifs at hscan with hword
  obtain ⟨rfl, -⟩ := by simpa using hscan
  rw [hword, String.ofList_toList]

/-! ### What is read as one expression -/

/-- The one pair that stands for a draft. -/
def OnePair (pairs : List Pair) (d : Draft) : Prop := ∃ p, pairs = [p] ∧ p.Yields d

theorem OnePair.of_convert {p : Pair} {d : Draft} (haffix : p.rule.affix? = none)
    (hkeyword : p.rule ≠ .elseKeyword) (h : convert p = conversion d) : OnePair [p] d :=
  ⟨p, rfl, haffix, hkeyword, h⟩

theorem agrees_namedLiteral : Agrees
    (fun pairs l c' ↦ OnePair pairs (.ok (.literal l ⟨c.offset, c'.offset⟩)))
    (Reader.firstOf [Matcher.null, Matcher.na, Matcher.boolean] c) (namedLiteral c) := by
  refine .firstOf (.cons ?_ (.cons ?_ (.cons ?_ .nil)))
  · refine (Agrees.token (agrees_word "NULL" .null)).mono ?_
    rintro _ _ c' ⟨rfl, _, rfl, -⟩
    exact .of_convert rfl nofun rfl
  · refine (Agrees.token (agrees_word "NA" (.logical .na))).mono ?_
    rintro _ _ c' ⟨rfl, _, rfl, -⟩
    exact .of_convert rfl nofun rfl
  · have hword (w : String) (l : Logical) (hw : (if w = "TRUE" then Logical.yes else .no) = l) :
        Agrees (fun _ l' c' ↦
          l' = .logical (if textBetween c c' = "TRUE" then Logical.yes else .no))
          (Reader.lexeme (keyword? w) c) (wordLiteral w (.logical l) c) :=
      (agrees_word w (.logical l)).mono fun _ _ c' ⟨hl, htext⟩ ↦ by rw [hl, htext, hw]
    refine (Agrees.token (.orElse (hword "TRUE" .yes rfl) (hword "FALSE" .no rfl))).mono ?_
    rintro _ _ c' ⟨rfl, _, rfl⟩
    exact .of_convert rfl nofun rfl

theorem agrees_integer :
    Agrees (fun pairs d _ ↦ OnePair pairs d) (Matcher.integer c) (integer c) := by
  refine (Agrees.token (Agrees.lexeme integer?)).spanned.map_right ?_
  rintro _ ⟨⟨n, taken⟩, span⟩ c' ⟨⟨rfl, _, rest, hscan, hc'⟩, hspan⟩
  dsimp only at hscan hc' hspan ⊢
  subst hspan hc'
  rw [textBetween_advance (integer?_split hscan)]
  exact .of_convert rfl nofun (congrArg (ExceptT.mk ∘ some) (convertInteger_eq hscan))

theorem agrees_double : Agrees (fun pairs d _ ↦ OnePair pairs d) (Matcher.double c) (double c) := by
  refine (Agrees.token (Agrees.lexeme double?)).spanned.map_right ?_
  rintro _ ⟨⟨⟨digits, power⟩, taken⟩, span⟩ c' ⟨⟨rfl, _, rest, hscan, hc'⟩, hspan⟩
  dsimp only at hscan hc' hspan ⊢
  subst hspan hc'
  rw [textBetween_advance (double?_split hscan)]
  exact .of_convert rfl nofun (congrArg (ExceptT.mk ∘ some) (convertDouble_eq hscan))

theorem agrees_literal :
    Agrees (fun pairs d _ ↦ OnePair pairs d) (Matcher.literal c) (literal c) := by
  refine .firstOf (.cons ?_ (.cons agrees_integer (.cons agrees_double .nil)))
  refine agrees_namedLiteral.spanned.map_right ?_
  rintro pairs ⟨l, _⟩ c' ⟨hpairs, rfl⟩
  exact hpairs

theorem agrees_ident : Agrees
    (fun pairs n c' ↦ pairs = [.mk .ident n ⟨c.offset, c'.offset⟩ []])
    (Matcher.ident c) (name c) := by
  refine (Agrees.token (Agrees.lexeme name?)).map_right ?_
  rintro _ ⟨n, taken⟩ _ ⟨rfl, _, rest, hscan, rfl⟩
  rw [textBetween_advance (name?_split hscan)]
  unfold name? at hscan
  split_ifs at hscan
  obtain ⟨rfl, rfl, -⟩ := by simpa using hscan
  rfl

theorem agrees_identifier :
    Agrees (fun pairs d _ ↦ OnePair pairs d) (Matcher.ident c) (identifier c) := by
  refine agrees_ident.spanned.map_right ?_
  rintro _ ⟨n, _⟩ c' ⟨rfl, rfl⟩
  exact .of_convert rfl nofun rfl

/-! ### Operators -/

theorem agrees_sign (c : Cursor) : Agrees (fun pairs s _ ↦ ∃ p, pairs = [p] ∧ p.Signs s)
    (Matcher.sign c) (sign c) := by
  have hsign (op : UnaryOp) (symbol : String) : Agrees
      (fun pairs op' _ ↦ ∃ p, pairs = [p] ∧ p.Signs ⟨op', c.offset⟩)
      (Matcher.token (.ofSign op) .unaryOperator (Reader.symbol symbol) c)
      (Reader.expecting .unaryOperator (do Reader.symbol symbol; return op) c) := by
    refine (Agrees.token ((Agrees.refl _).map_right (S := fun _ op' _ ↦ op' = op) ?_)).mono ?_
    · exact fun _ _ _ _ ↦ rfl
    · rintro _ _ c' ⟨rfl, _, rfl⟩
      exact ⟨_, rfl, rfl, rfl⟩
  have hsigns := Agrees.firstOf (.cons (hsign .not "!") (.cons (hsign .neg "-") .nil))
  exact hsigns.map_right (g := fun op ↦ Sign.mk op c.offset) fun _ _ _ h ↦ h

theorem agrees_comparisonOp : Agrees
    (fun pairs op _ ↦ ∃ p, pairs = [p] ∧ p.rule = .ofComparison op)
    (Matcher.comparisonOp c) (comparisonOp c) := by
  have hcomparison (op : CompareOp) : Agrees
      (fun pairs op _ ↦ ∃ p, pairs = [p] ∧ p.rule = .ofComparison op)
      (Matcher.comparison op c) (comparison op c) := by
    refine (Agrees.token ((Agrees.refl _).map_right (S := fun _ op' _ ↦ op' = op) ?_)).mono ?_
    · exact fun _ _ _ _ ↦ rfl
    · rintro _ _ c' ⟨rfl, _, rfl⟩
      exact ⟨_, rfl, rfl⟩
  refine .firstOf (.cons (hcomparison .eq) (.cons (hcomparison .ne) (.cons (hcomparison .le)
    (.cons (hcomparison .ge) (.cons ?_ (.cons (hcomparison .gt) .nil))))))
  refine (Agrees.token (Agrees.behind (R := fun _ op' _ ↦ op' = .lt) fun _ c₁ ↦
    (Agrees.refl _).map_right fun _ _ _ _ ↦ rfl)).mono ?_
  rintro _ _ c' ⟨rfl, _, rfl⟩
  exact ⟨_, rfl, rfl⟩

/-! ### Constructs -/

/-- The pair stands for a draft as an expression, which it is the rule for. -/
structure ExpressionPair (p : Pair) (d : Draft) : Prop where
  rule_eq : p.rule = .expression
  convert_eq : convertChain (convertTerms p.inner) = conversion d

theorem ExpressionPair.yields {p : Pair} {d : Draft} (h : ExpressionPair p d) : p.Yields d := by
  obtain ⟨rule, text, span, inner⟩ := p
  obtain ⟨rfl, hconvert⟩ := h
  exact ⟨rfl, nofun, hconvert⟩

theorem convertAll_eq {ps : List Pair} {ds : List Draft} (h : List.Forall₂ Pair.Yields ps ds) :
    convertAll ps = conversion (ds.mapM id) := by
  induction h with
  | nil => rfl
  | cons hp _ ih =>
    rw [convertAll, List.mapM_cons, hp.convert_eq, ih, conversion_bind]
    simp only [conversion_bind, conversion_pure, id]

theorem convertArguments_eq {ps : List Pair} {ds : List Draft}
    (h : List.Forall₂ ExpressionPair ps ds) :
    convertArguments ps = conversion (ds.mapM id) := by
  induction h with
  | nil => rfl
  | @cons p d ps ds hp _ ih =>
    obtain ⟨rule, text, span, inner⟩ := p
    have hconvert : convertChain (convertTerms inner) = conversion d := hp.convert_eq
    rw [convertArguments, List.mapM_cons, hconvert, ih, conversion_bind]
    simp only [conversion_bind, conversion_pure, id]

/-- Matches that leave one pair each, joined. -/
theorem forall₂_flatten {R : Pair → α → Prop} {pss : List (List Pair)} {as : List α}
    (h : List.Forall₂ (fun pairs a ↦ ∃ p, pairs = [p] ∧ R p a) pss as) :
    List.Forall₂ R pss.flatten as := by
  induction h with
  | nil => exact .nil
  | cons hp _ ih =>
    obtain ⟨p, rfl, hR⟩ := hp
    exact .cons hR ih

/-- Both ways of reading what may stand inside a construct agree. -/
structure AgreeInside (inside : Matcher.Inside) (inner : Inner) : Prop where
  statement : ∀ c, Agrees (fun pairs d _ ↦ OnePair pairs d) (inside.statement c) (inner.statement c)
  expression : ∀ c, Agrees (fun pairs d _ ↦ ∃ p, pairs = [p] ∧ ExpressionPair p d)
    (inside.expression c) (inner.expression c)

theorem agrees_statements {matcher : Matcher} {statement : Reader Draft}
    (h : ∀ c, Agrees (fun pairs d _ ↦ OnePair pairs d) (matcher c) (statement c)) (limit : Nat)
    (c : Cursor) : Agrees
      (fun pairs ds _ ↦ ∃ text span inner, pairs = [.mk .statements text span inner] ∧
        List.Forall₂ Pair.Yields inner ds)
      (Matcher.statements limit matcher c) (statements limit statement c) := by
  refine (Agrees.rule (R := fun inner ds _ ↦ List.Forall₂ Pair.Yields inner ds)
    (.expecting (.behind fun _ c₁ ↦ .behind fun _ c₂ ↦ ?_))).mono
    fun pairs ds c' ⟨inner, hpairs, hall⟩ ↦ ⟨_, _, inner, hpairs, hall⟩
  refine Agrees.bind (R := fun items ds _ ↦ List.Forall₂ Pair.Yields (items.getD []) (ds.getD []))
    (.optional ?_ .nil) fun items ds c₃ hitems ↦ .behind fun _ c₄ ↦ .behind fun _ c₅ ↦
      .pure hitems
  refine (h c₂).bind fun first d c₃ hfirst ↦ .behind fun _ c₄ ↦ ?_
  refine (Agrees.many (R := OnePair) (fun c ↦ ?_) limit c₄).bind fun others ds c₅ hothers ↦ .pure ?_
  · exact .behind fun _ c₁ ↦ .behind fun _ c₂ ↦ h c₂
  · obtain ⟨p, rfl, hp⟩ := hfirst
    exact .cons hp (forall₂_flatten hothers)

theorem conversion_ifThen (cond thenBranch : Draft) (span : Span) :
    conversion (ifDraft cond thenBranch none span) = (do
      let c ← conversion cond
      let t ← conversion thenBranch
      return .ifThen c t span) := by
  simp only [ifDraft, conversion_bind, conversion_pure]

theorem conversion_ifElse (cond thenBranch branch : Draft) (span : Span) :
    conversion (ifDraft cond thenBranch (some branch) span) = (do
      let c ← conversion cond
      let t ← conversion thenBranch
      return .ifElse c t (← conversion branch) span) := by
  simp only [ifDraft, conversion_bind, conversion_pure]

/-- The pairs of the clause for a second branch, if there is one. -/
inductive ClausePairs : List Pair → Option Draft → Prop
  | nil : ClausePairs [] none
  | cons {text : String} {span : Span} {inner : List Pair} {d : Draft}
      (h : convertBranch span inner = conversion d) :
      ClausePairs [.mk .elseClause text span inner] (some d)

section Constructs

variable {inside : Matcher.Inside} {inner : Inner} (h : AgreeInside inside inner) (limit : Nat)

include h

theorem agrees_block (c : Cursor) : Agrees (fun pairs d _ ↦ OnePair pairs d)
    (Matcher.block limit inside c) (block limit inner c) := by
  refine (Agrees.rule_spanned (R := fun inner ds _ ↦ ∃ text span items,
    inner = [.mk .statements text span items] ∧ List.Forall₂ Pair.Yields items ds)
    (.expecting (.behind fun _ c₁ ↦ .behind fun _ c₂ ↦ ?_))).map_right ?_
  · exact (agrees_statements h.statement limit c₂).bind fun items ds c₃ hitems ↦
      .behind fun _ c₄ ↦ .behind fun _ c₅ ↦ .pure hitems
  · rintro _ ⟨ds, span⟩ c' ⟨text, _, rfl, _, _, items, rfl, hitems⟩
    refine .of_convert rfl nofun ?_
    rw [conversion_bind, ← convertAll_eq hitems]
    rfl

theorem agrees_arguments (c : Cursor) :
    Agrees (fun pairs ds _ ↦ List.Forall₂ ExpressionPair pairs ds)
      (Matcher.arguments limit inside c) (arguments limit inner c) := by
  refine (h.expression c).bind fun first d c₁ hfirst ↦ .behind fun _ c₂ ↦ ?_
  refine (Agrees.many (R := fun pairs d ↦ ∃ p, pairs = [p] ∧ ExpressionPair p d) (fun c ↦ ?_) limit
    c₂).bind fun others ds c₃ hothers ↦ .pure ?_
  · exact .behind fun _ _ ↦ .behind fun _ _ ↦ .behind fun _ _ ↦ .behind fun _ c₁ ↦ h.expression c₁
  · obtain ⟨p, rfl, hp⟩ := hfirst
    exact .cons hp (forall₂_flatten hothers)

theorem agrees_call (c : Cursor) : Agrees (fun pairs d _ ↦ OnePair pairs d)
    (Matcher.call limit inside c) (call limit inner c) := by
  refine (Agrees.rule_spanned (R := fun inner a _ ↦ ∃ callee args, inner = callee :: args ∧
    callee.text = a.1 ∧ List.Forall₂ ExpressionPair args a.2) (.expecting ?_)).map_right ?_
  · refine agrees_ident.bind fun callee n c₁ hcallee ↦ .behind fun _ c₂ ↦ .behind fun _ c₃ ↦
      .behind fun _ c₄ ↦ ?_
    refine Agrees.bind
      (R := fun args ds _ ↦ List.Forall₂ ExpressionPair (args.getD []) (ds.getD []))
      (.optional (agrees_arguments h limit c₄) .nil) fun args ds c₅ hargs ↦ ?_
    refine .behind fun _ c₆ ↦ .behind fun _ c₇ ↦ .pure ?_
    rw [hcallee]
    exact ⟨_, _, rfl, rfl, hargs⟩
  · rintro _ ⟨⟨callee, ds⟩, span⟩ c' ⟨text, _, rfl, p, args, rfl, rfl, hargs⟩
    refine .of_convert rfl nofun ?_
    rw [conversion_bind, ← convertArguments_eq hargs]
    rfl

theorem agrees_elseClause (c : Cursor) : Agrees
    (fun pairs d _ ↦ ∃ text span inner, pairs = [.mk .elseClause text span inner] ∧
      convertBranch span inner = conversion d)
    (Matcher.elseClause limit inside c) (elseClause limit inner c) := by
  refine (Agrees.rule (R := fun inner d _ ↦ ∀ span, convertBranch span inner = conversion d)
    (.expecting (.behind fun _ c₁ ↦ .behind fun _ c₂ ↦ ?_))).mono
    fun pairs d c' ⟨inner, hpairs, hbranch⟩ ↦ ⟨_, _, inner, hpairs, hbranch _⟩
  refine (Agrees.token (Agrees.lexeme _)).bind fun keyword _ c₃ hkeyword ↦ .behind fun _ c₄ ↦ ?_
  obtain ⟨rfl, -⟩ := hkeyword
  refine (h.statement c₄).map_left fun branch d c₅ hbranch span ↦ ?_
  obtain ⟨⟨rule, text, place, inner⟩, rfl, hp⟩ := hbranch
  have hkeyword : rule ≠ .elseKeyword := hp.keyword
  rw [List.singleton_append, convertBranch, if_pos rfl, convertBranch, if_neg hkeyword]
  exact hp.convert_eq

theorem agrees_ifExpression (c : Cursor) : Agrees (fun pairs d _ ↦ OnePair pairs d)
    (Matcher.ifExpression limit inside c) (ifExpression limit inner c) := by
  refine (Agrees.rule_spanned (R := fun inner a _ ↦ ∃ cond thenBranch clauses,
    inner = cond :: thenBranch :: clauses ∧ ExpressionPair cond a.1 ∧ thenBranch.Yields a.2.1 ∧
      ClausePairs clauses a.2.2) (.expecting ?_)).map_right ?_
  · refine .behind fun _ c₁ ↦ .behind fun _ c₂ ↦ .behind fun _ c₃ ↦ .behind fun _ c₄ ↦ ?_
    refine (h.expression c₄).bind fun cond d c₅ hcond ↦ ?_
    refine .behind fun _ c₆ ↦ .behind fun _ c₇ ↦ .behind fun _ c₈ ↦ ?_
    refine (h.statement c₈).bind fun thenBranch d' c₉ hthen ↦ .behind fun _ c₁₀ ↦ ?_
    refine Agrees.bind (R := fun clause branch _ ↦ ClausePairs (clause.getD []) branch)
      (.optional ((agrees_elseClause h limit c₁₀).mono ?_) .nil) fun clause branch c₁₁ hclause ↦
        .pure ?_
    · rintro _ d c' ⟨text, span, inner, rfl, hbranch⟩
      exact .cons hbranch
    · obtain ⟨p, rfl, hp⟩ := hcond
      obtain ⟨q, rfl, hq⟩ := hthen
      exact ⟨p, q, _, rfl, hp, hq, hclause⟩
  · rintro _ ⟨⟨cond, thenBranch, elseBranch⟩, span⟩ c'
      ⟨text, _, rfl, ⟨rule, ctext, cspan, condInner⟩, q, clauses, rfl, hcond, hthen, hclauses⟩
    refine .of_convert rfl nofun ?_
    have hcondition : convertChain (convertTerms condInner) = conversion cond := hcond.convert_eq
    cases hclauses with
    | nil =>
      change (do
        let c ← convertChain (convertTerms condInner)
        let t ← convert q
        return Expr.ifThen c t span) = _
      rw [hcondition, hthen.convert_eq, ← conversion_ifThen]
    | @cons _ clauseSpan clauseInner branch hbranch =>
      change (do
        let c ← convertChain (convertTerms condInner)
        let t ← convert q
        return Expr.ifElse c t (← convertBranch clauseSpan clauseInner) span) = _
      rw [hcondition, hthen.convert_eq, hbranch, ← conversion_ifElse]

theorem agrees_parenthesised (c : Cursor) : Agrees (fun pairs d _ ↦ OnePair pairs d)
    (Matcher.parenthesised limit inside c) (parenthesised limit inner c) := by
  refine .behind fun _ c₁ ↦ .behind fun _ c₂ ↦ ?_
  refine (h.expression c₂).bind fun e d c₃ he ↦ .behind fun _ c₄ ↦ .behind fun _ c₅ ↦ .pure ?_
  obtain ⟨p, rfl, hp⟩ := he
  exact ⟨p, rfl, hp.yields⟩

theorem agrees_primary (c : Cursor) : Agrees (fun pairs d _ ↦ OnePair pairs d)
    (Matcher.primary limit inside c) (primary limit inner c) :=
  .firstOf (.cons (agrees_ifExpression h limit c) (.cons (agrees_block h limit c)
    (.cons (agrees_call h limit c) (.cons agrees_literal (.cons agrees_identifier
      (.cons (agrees_parenthesised h limit c) .nil))))))

theorem agrees_operand (c : Cursor) : Agrees (fun pairs o _ ↦ OperandPairs pairs o)
    (Matcher.operand limit inside c) (operand limit inner c) := by
  refine (Agrees.many agrees_sign limit c).bind fun signPairs signs c₁ hsigns ↦
    .behind fun _ c₂ ↦ (agrees_primary h limit c₂).bind fun term d c₃ hterm ↦ .pure ?_
  obtain ⟨p, rfl, hp⟩ := hterm
  exact ⟨signPairs.flatten, p, rfl, forall₂_flatten hsigns, hp⟩

theorem agrees_expression (c : Cursor) : Agrees
    (fun pairs d _ ↦ ∃ p, pairs = [p] ∧ ExpressionPair p d)
    (Matcher.expression limit inside c) (expression limit inner c) := by
  refine (Agrees.rule (R := fun inner d _ ↦ convertChain (convertTerms inner) = conversion d)
    (.expecting ?_)).mono fun pairs d c' ⟨inner, hpairs, hinner⟩ ↦ ⟨_, hpairs, rfl, hinner⟩
  refine (agrees_operand h limit c).bind fun first o c₁ hfirst ↦ .behind fun _ c₂ ↦ ?_
  refine (Agrees.many (R := ComparisonPairs) (fun c ↦ ?_) limit c₂).bind fun behind rest c₃ hrest ↦
    .pure (convertChain_eq hfirst hrest)
  refine agrees_comparisonOp.bind fun op _ c₁ hop ↦ .behind fun _ c₂ ↦ ?_
  refine (agrees_operand h limit c₂).bind fun right o c₃ hright ↦ .pure ?_
  obtain ⟨p, rfl, hp⟩ := hop
  exact ⟨p, right, rfl, hp, hright⟩

theorem agrees_assignment (c : Cursor) : Agrees (fun pairs d _ ↦ OnePair pairs d)
    (Matcher.assignment limit inside c) (assignment limit inner c) := by
  refine (Agrees.rule_spanned (R := fun inner a _ ↦ ∃ target value, inner = [target, value] ∧
    target.text = a.1 ∧ value.Yields a.2) (.expecting ?_)).map_right ?_
  · refine agrees_ident.bind fun target n c₁ htarget ↦ .behind fun _ c₂ ↦ .behind fun _ c₃ ↦
      .behind fun _ c₄ ↦ (h.statement c₄).bind fun value d c₅ hvalue ↦ .pure ?_
    obtain ⟨p, rfl, hp⟩ := hvalue
    rw [htarget]
    exact ⟨_, p, rfl, rfl, hp⟩
  · rintro _ ⟨⟨target, d⟩, span⟩ c' ⟨text, _, rfl, p, value, rfl, rfl, hvalue⟩
    refine .of_convert rfl nofun ?_
    rw [conversion_bind, ← hvalue.convert_eq]
    rfl

theorem agrees_statement (c : Cursor) : Agrees (fun pairs d _ ↦ OnePair pairs d)
    (Matcher.statement limit inside c) (statement limit inner c) :=
  .orElse (agrees_assignment h limit c) ((agrees_expression h limit c).mono
    fun _ _ _ ⟨p, hpairs, hp⟩ ↦ ⟨p, hpairs, hp.yields⟩)

end Constructs

/-! ### Programs -/

theorem agree_language (bound : Nat) : AgreeInside (Matcher.language bound) (language bound) := by
  induction bound with
  | zero => exact ⟨fun _ ↦ .fails id, fun _ ↦ .fails id⟩
  | succ bound ih => exact ⟨agrees_statement ih (bound + 1), agrees_expression ih (bound + 1)⟩

/-- The pairs of a program: one for its statements inside of one for the whole. -/
def ProgramPairs (pairs : List Pair) (ds : List Draft) : Prop :=
  ∃ main statements others, pairs = [main] ∧ main.inner = statements :: others ∧
    List.Forall₂ Pair.Yields statements.inner ds

theorem agrees_program (bound : Nat) (c : Cursor) :
    Agrees (fun pairs ds _ ↦ ProgramPairs pairs ds) (Matcher.main bound c) (program bound c) := by
  refine (Agrees.rule (R := fun inner ds _ ↦ ∃ statements others,
    inner = statements :: others ∧ List.Forall₂ Pair.Yields statements.inner ds)
    (.expecting (.behind fun _ c₁ ↦ ?_))).mono ?_
  · refine (agrees_statements (agree_language bound).statement bound c₁).bind
      fun items ds c₂ hitems ↦ .behind fun _ c₃ ↦
        (Agrees.token (.refl _)).bind fun stop _ c₄ _ ↦ .pure ?_
    obtain ⟨text, span, inner, rfl, hall⟩ := hitems
    exact ⟨_, stop, rfl, hall⟩
  · rintro _ ds c' ⟨inner, rfl, statements, others, rfl, hall⟩
    exact ⟨_, statements, others, rfl, rfl, hall⟩

/-! ### Errors -/

theorem behindPrefix?_append (start text : String) :
    behindPrefix? start (start ++ text) = some text := by
  have hprefix : start.toList.isPrefixOf (start ++ text).toList = true := by
    rw [String.toList_append]
    exact List.isPrefixOf_iff_prefix.mpr (List.prefix_append _ _)
  rw [behindPrefix?, if_pos hprefix, String.toList_append, List.drop_left, String.ofList_toList]

/-- A failure as an error of some kind. -/
def ParseFailure.toParseError : ParseFailure → ParseError
  | unexpected expected offset =>
    ⟨.unexpectedToken (Expected.inWords expected) found, ⟨offset, offset⟩⟩
  | invalidNumber l => ⟨.invalidNumber l.text, l.span⟩

theorem toParseError_toCustomError (l : OversizedInteger) :
    l.toCustomError.toParseError = (ParseFailure.invalidNumber l).toParseError := by
  rw [OversizedInteger.toCustomError, CustomError.toParseError, CustomError.invalidNumber,
    behindPrefix?_append]
  rfl

theorem convertProgram_eq {pairs : List Pair} {ds : List Draft} (h : ProgramPairs pairs ds)
    (source : String) : convertProgram source pairs = some (match ds.mapM id with
      | .error l => .error (ParseFailure.invalidNumber l).toParseError
      | .ok es => .ok (.block es ⟨0, source.utf8ByteSize⟩)) := by
  obtain ⟨main, statements, others, rfl, hinner, hall⟩ := h
  unfold convertProgram
  dsimp only
  rw [hinner]
  dsimp only
  rw [convertAll_eq hall]
  cases ds.mapM id with
  | error l => exact congrArg (some ∘ Except.error) (toParseError_toCustomError l)
  | ok es => rfl

/-- Reading a source in two steps has the result that reading it in one has. -/
theorem parsePairs_eq (source : String) :
    parsePairs source = some ((parse source).mapError ParseFailure.toParseError) := by
  have hagrees := agrees_program (source.length + 1) (.start source)
  unfold parsePairs parse
  dsimp only
  generalize Matcher.main (source.length + 1) (.start source) = r at hagrees ⊢
  generalize program (source.length + 1) (.start source) = s at hagrees ⊢
  cases hagrees with
  | fails => rfl
  | @reads pairs ds c trail h =>
    dsimp only
    rw [convertProgram_eq h]
    cases ds.mapM id <;> rfl

end AdaptiveTree.Grammar
