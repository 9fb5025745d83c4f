import AdaptiveTree.Proofs.Grammar.Agrees
import AdaptiveTree.Proofs.Grammar.Checked

/-!
Bounds that are never reached. What stands inside a construct begins behind its first character, and
whatever is repeated takes a character each time, so a source is read the same with any two bounds
above its length: with the same result, and with the same attempts on the record.
-/

set_option autoImplicit false
set_option relaxedAutoImplicit false

namespace AdaptiveTree.Grammar

open Token

variable {α β : Type} {c : Cursor} {m k : Nat}

/-- Two readings that are the same and leave fewer than `m` characters. -/
abbrev Alike (m : Nat) (r s : Reading α) : Prop :=
  Agrees (fun a b c' ↦ a = b ∧ c'.rest.length < m) r s

namespace Alike

variable {p q : Reader α}

theorem eq {r s : Reading α} (h : Alike m r s) : r = s := by
  cases h with
  | fails => rfl
  | reads _ h => rw [h.1]

theorem weaken {r s : Reading α} (h : Alike m r s) (hle : m ≤ k) : Alike k r s :=
  h.mono fun _ _ _ ⟨ha, hm⟩ ↦ ⟨ha, hm.trans_le hle⟩

theorem pure {a : α} (h : c.rest.length < m) :
    Alike m ((Pure.pure a : Reader α) c) ((Pure.pure a : Reader α) c) :=
  Agrees.pure ⟨rfl, h⟩

theorem bind {f g : α → Reader β} (hp : Alike k (p c) (q c))
    (hf : ∀ a c', c'.rest.length < k → Alike m (f a c') (g a c')) :
    Alike m ((p >>= f) c) ((q >>= g) c) :=
  Agrees.bind hp fun a _ c' ⟨ha, hk⟩ ↦ ha ▸ hf a c' hk

theorem optional (hp : Alike m (p c) (q c)) (hc : c.rest.length < m) :
    Alike m (Reader.optional p c) (Reader.optional q c) :=
  Agrees.optional (hp.mono fun _ _ _ ⟨ha, hm⟩ ↦ ⟨congrArg some ha, hm⟩) ⟨rfl, hc⟩

theorem offset : Alike (c.rest.length + 1) (Reader.offset c) (Reader.offset c) :=
  .reads id ⟨rfl, Nat.lt_succ_self _⟩

theorem spanned (hp : Alike m (p c) (q c)) :
    Alike m (Reader.spanned p c) (Reader.spanned q c) := by
  change Alike m ((p >>= fun a ↦ Reader.offset >>= fun stop ↦
      Pure.pure (a, Span.mk c.offset stop)) c)
    ((q >>= fun a ↦ Reader.offset >>= fun stop ↦ Pure.pure (a, Span.mk c.offset stop)) c)
  exact hp.bind fun a c₁ hc₁ ↦ offset.bind fun stop c₂ hc₂ ↦ .pure (by omega)

theorem skip : Alike (c.rest.length + 1) (Reader.skip c) (Reader.skip c) := by
  refine .reads id ⟨rfl, Nat.lt_succ_of_le ?_⟩
  obtain ⟨chars, hrest, -⟩ := precedes_skipFrom false c.offset c.rest
  have hlength := congrArg List.length hrest
  rw [List.length_append] at hlength
  exact (Nat.le_add_left _ _).trans_eq hlength.symm

/-- Exactly the given characters, of which there is one at least. -/
theorem text {chars : List Char} (hsome : chars ≠ []) :
    Alike c.rest.length (Reader.text chars c) (Reader.text chars c) := by
  unfold Reader.text
  split_ifs with hprefix
  · refine .reads id ⟨rfl, ?_⟩
    have hle := (List.isPrefixOf_iff_prefix.mp hprefix).length_le
    have hpos := List.length_pos_iff.mpr hsome
    simp only [Cursor.advance, List.length_drop]
    omega
  · exact .fails id

theorem symbol {s : String} (hsome : s.toList ≠ []) :
    Alike c.rest.length (Reader.symbol s c) (Reader.symbol s c) :=
  text hsome

theorem lexeme {scan : List Char → Option (α × List Char × List Char)}
    (hscan : ∀ {a taken rest}, scan c.rest = some (a, taken, rest) →
      c.rest = taken ++ rest ∧ taken ≠ []) :
    Alike c.rest.length (Reader.lexeme scan c) (Reader.lexeme scan c) := by
  unfold Reader.lexeme
  split
  · exact .fails id
  · next a taken rest hresult =>
    obtain ⟨hrest, hsome⟩ := hscan hresult
    refine .reads id ⟨rfl, ?_⟩
    have hpos := List.length_pos_iff.mpr hsome
    rw [hrest, List.length_append]
    simp only [Cursor.advance]
    omega

/-! ### Repetitions -/

/-- What takes a character each time is repeated fewer times than there are characters. -/
theorem repeated {limit limit' : Nat}
    (hp : ∀ c', c'.rest.length ≤ c.rest.length → Alike c'.rest.length (p c') (q c'))
    (hl : c.rest.length < limit) (hl' : c.rest.length < limit') :
    Alike (c.rest.length + 1) (Reader.repeated p limit c) (Reader.repeated q limit' c) := by
  induction limit generalizing limit' c with
  | zero => exact absurd hl (Nat.not_lt_zero _)
  | succ limit ih =>
    cases limit' with
    | zero => exact absurd hl' (Nat.not_lt_zero _)
    | succ limit' =>
      -- a round takes one off both limits and a character at least, so the limits stay ahead
      refine Agrees.orElse ?_ (Alike.pure (Nat.lt_succ_self _))
      refine skip.bind fun _ c₁ hc₁ ↦ (hp c₁ (by omega)).bind fun a c₂ hc₂ ↦ ?_
      exact (ih (fun c' hc' ↦ hp c' (by omega)) (by omega) (by omega)).bind
        fun others c₃ hc₃ ↦ .pure (by omega)

theorem many {limit limit' : Nat}
    (hp : ∀ c', c'.rest.length ≤ c.rest.length → Alike c'.rest.length (p c') (q c'))
    (hl : c.rest.length ≤ limit) (hl' : c.rest.length ≤ limit') :
    Alike (c.rest.length + 1) (Reader.many limit p c) (Reader.many limit' q c) := by
  refine Agrees.orElse ?_ (Alike.pure (Nat.lt_succ_self _))
  refine (hp c le_rfl).bind fun a c₁ hc₁ ↦ ?_
  exact (repeated (fun c' hc' ↦ hp c' (by omega)) (by omega) (by omega)).bind
    fun others c₂ hc₂ ↦ .pure (by omega)

end Alike

/-! ### Tokens -/

theorem alike_word {w : String} (hw : w.toList ≠ []) :
    Alike c.rest.length (Reader.lexeme (keyword? w) c) (Reader.lexeme (keyword? w) c) :=
  .lexeme fun h ↦ ⟨keyword?_split h, keyword?_ne_nil hw h⟩

theorem alike_name : Alike c.rest.length (name c) (name c) :=
  Alike.bind (Agrees.expecting (Alike.lexeme fun h ↦ ⟨name?_split h, name?_ne_nil h⟩))
    fun _ _ hc₁ ↦ .pure hc₁

theorem alike_identifier : Alike c.rest.length (identifier c) (identifier c) :=
  (Alike.spanned alike_name).bind fun _ _ hc₁ ↦ .pure hc₁

theorem alike_integer : Alike c.rest.length (integer c) (integer c) :=
  Alike.bind (.spanned (Agrees.expecting (Alike.lexeme fun h ↦
    ⟨integer?_split h, integer?_ne_nil h⟩))) fun _ _ hc₁ ↦ .pure hc₁

theorem alike_double : Alike c.rest.length (double c) (double c) :=
  Alike.bind (.spanned (Agrees.expecting (Alike.lexeme fun h ↦
    ⟨double?_split h, double?_ne_nil h⟩))) fun _ _ hc₁ ↦ .pure hc₁

theorem alike_namedLiteral : Alike c.rest.length (namedLiteral c) (namedLiteral c) := by
  have hword {w : String} {l : Literal} (hw : w.toList ≠ []) :
      Alike c.rest.length (wordLiteral w l c) (wordLiteral w l c) :=
    (alike_word hw).bind fun _ _ hc₁ ↦ .pure hc₁
  exact Agrees.firstOf (.cons (.expecting (hword (by decide))) (.cons
    (.expecting (hword (by decide))) (.cons (.expecting (.orElse (hword (by decide))
      (hword (by decide)))) .nil)))

theorem alike_literal : Alike c.rest.length (literal c) (literal c) :=
  Agrees.firstOf (.cons ((Alike.spanned alike_namedLiteral).bind fun _ _ hc₁ ↦ .pure hc₁)
    (.cons alike_integer (.cons alike_double .nil)))

theorem alike_sign : Alike c.rest.length (sign c) (sign c) := by
  refine Alike.offset.bind fun start c₁ hc₁ ↦ ?_
  have hsign {s : String} {op : UnaryOp} (hs : s.toList ≠ []) : Alike c₁.rest.length
      (Reader.expecting .unaryOperator (do Reader.symbol s; return op) c₁)
      (Reader.expecting .unaryOperator (do Reader.symbol s; return op) c₁) :=
    Agrees.expecting ((Alike.symbol hs).bind fun _ _ hc₂ ↦ .pure hc₂)
  exact Alike.bind (Agrees.firstOf (.cons (hsign (by decide)) (.cons (hsign (by decide)) .nil)))
    fun _ c₂ hc₂ ↦ .pure (by omega)

theorem alike_comparisonOp : Alike c.rest.length (comparisonOp c) (comparisonOp c) := by
  have hcomparison (op : CompareOp) : Alike c.rest.length (comparison op c) (comparison op c) :=
    Agrees.expecting ((Alike.symbol (by cases op <;> decide)).bind fun _ _ hc₁ ↦ .pure hc₁)
  have harrow : Alike (c.rest.length + 1) (notArrow c) (notArrow c) := by
    unfold notArrow
    split_ifs
    · exact .fails id
    · exact .pure (Nat.lt_succ_self _)
  refine Agrees.firstOf (.cons (hcomparison .eq) (.cons (hcomparison .ne) (.cons (hcomparison .le)
    (.cons (hcomparison .ge) (.cons ?_ (.cons (hcomparison .gt) .nil))))))
  exact Agrees.expecting (harrow.bind fun _ c₁ hc₁ ↦ (Alike.symbol (by decide)).bind
    fun _ c₂ hc₂ ↦ .pure (by omega))

theorem alike_lineEnd : Alike c.rest.length (lineEnd c) (lineEnd c) :=
  Agrees.firstOf (.cons (Alike.symbol (by decide)) (.cons (Alike.symbol (by decide))
    (.cons (Alike.symbol (by decide)) .nil)))

theorem alike_separator : Alike c.rest.length (separator c) (separator c) :=
  Agrees.orElse (Alike.symbol (by decide)) alike_lineEnd

/-! ### Constructs -/

/-- Readers of what may stand inside a construct that are alike in front of fewer than `k`
characters. -/
structure AlikeInside (k : Nat) (inner inner' : Inner) : Prop where
  statement : ∀ c, c.rest.length < k →
    Alike c.rest.length (inner.statement c) (inner'.statement c)
  expression : ∀ c, c.rest.length < k →
    Alike c.rest.length (inner.expression c) (inner'.expression c)

section Constructs

variable {limit limit' : Nat} {inner inner' : Inner}

section Limits

variable (hl : c.rest.length ≤ limit) (hl' : c.rest.length ≤ limit')

include hl hl'

theorem alike_lineEnds : Alike (c.rest.length + 1) (lineEnds limit c) (lineEnds limit' c) :=
  Alike.skip.bind fun _ c₁ hc₁ ↦
    (Alike.many (fun _ _ ↦ alike_lineEnd) (by omega) (by omega)).bind fun _ c₂ hc₂ ↦
      Alike.skip.weaken (by omega)

theorem alike_separators : Alike c.rest.length (separators limit c) (separators limit' c) :=
  alike_separator.bind fun _ c₁ hc₁ ↦ Alike.skip.bind fun _ c₂ hc₂ ↦
    (Alike.many (fun _ _ ↦ alike_separator) (by omega) (by omega)).bind fun _ c₃ hc₃ ↦
      .pure (by omega)

theorem alike_statements {statement statement' : Reader Draft}
    (h : ∀ c', c'.rest.length ≤ c.rest.length →
      Alike c'.rest.length (statement c') (statement' c')) :
    Alike (c.rest.length + 1) (statements limit statement c) (statements limit' statement' c) := by
  refine Agrees.expecting ((Alike.many (fun _ _ ↦ alike_separator) hl hl').bind fun _ c₁ hc₁ ↦ ?_)
  refine Alike.skip.bind fun _ c₂ hc₂ ↦ ?_
  refine Alike.bind (k := c₂.rest.length + 1) (.optional ?_ (Nat.lt_succ_self _))
    fun items c₃ hc₃ ↦ ?_
  · refine (h c₂ (by omega)).bind fun first c₃ hc₃ ↦ Alike.skip.bind fun _ c₄ hc₄ ↦ ?_
    refine (Alike.many (fun c hc ↦ ?_) (by omega) (by omega)).bind fun others c₅ hc₅ ↦
      .pure (by omega)
    exact (alike_separators (by omega) (by omega)).bind fun _ c₁ hc₁ ↦
      Alike.skip.bind fun _ c₂ hc₂ ↦ (h c₂ (by omega)).weaken (by omega)
  · exact Alike.skip.bind fun _ c₄ hc₄ ↦
      (Alike.many (fun _ _ ↦ alike_separator) (by omega) (by omega)).bind fun _ c₅ hc₅ ↦
        .pure (by omega)

end Limits

variable (h : AlikeInside k inner inner')

include h

theorem alike_arguments (hl : k ≤ limit) (hl' : k ≤ limit') (hc : c.rest.length < k) :
    Alike c.rest.length (arguments limit inner c) (arguments limit' inner' c) := by
  refine (h.expression c hc).bind fun first c₁ hc₁ ↦ Alike.skip.bind fun _ c₂ hc₂ ↦ ?_
  refine (Alike.many (fun c hc ↦ ?_) (by omega) (by omega)).bind fun others c₃ hc₃ ↦
    .pure (by omega)
  refine (Alike.many (fun _ _ ↦ alike_lineEnd) (by omega) (by omega)).bind fun _ c₁ hc₁ ↦ ?_
  refine Alike.skip.bind fun _ c₂ hc₂ ↦ (Alike.symbol (by decide)).bind fun _ c₃ hc₃ ↦ ?_
  exact (alike_lineEnds (by omega) (by omega)).bind fun _ c₄ hc₄ ↦
    (h.expression c₄ (by omega)).weaken (by omega)

variable (hl : k < limit) (hl' : k < limit') (hc : c.rest.length ≤ k)

include hl hl' hc

theorem alike_block : Alike c.rest.length (block limit inner c) (block limit' inner' c) := by
  refine Alike.bind (.spanned (Agrees.expecting ?_)) fun _ _ hc₁ ↦ .pure hc₁
  refine (Alike.symbol (by decide)).bind fun _ c₁ hc₁ ↦ Alike.skip.bind fun _ c₂ hc₂ ↦ ?_
  refine (alike_statements (by omega) (by omega) fun c hc ↦ h.statement c (by omega)).bind
    fun items c₃ hc₃ ↦ ?_
  exact Alike.skip.bind fun _ c₄ hc₄ ↦ (Alike.symbol (by decide)).bind fun _ c₅ hc₅ ↦
    .pure (by omega)

theorem alike_call : Alike c.rest.length (call limit inner c) (call limit' inner' c) := by
  refine Alike.bind (.spanned (Agrees.expecting ?_)) fun _ _ hc₁ ↦ .pure hc₁
  refine alike_name.bind fun callee c₁ hc₁ ↦ Alike.skip.bind fun _ c₂ hc₂ ↦ ?_
  refine (Alike.symbol (by decide)).bind fun _ c₃ hc₃ ↦ ?_
  refine (alike_lineEnds (by omega) (by omega)).bind fun _ c₄ hc₄ ↦ ?_
  refine Alike.bind (k := c₄.rest.length + 1) (.optional ?_ (Nat.lt_succ_self _))
    fun args c₅ hc₅ ↦ ?_
  · exact (alike_arguments h (by omega) (by omega) (by omega)).weaken (Nat.le_succ _)
  · exact (alike_lineEnds (by omega) (by omega)).bind fun _ c₆ hc₆ ↦
      (Alike.symbol (by decide)).bind fun _ c₇ hc₇ ↦ .pure (by omega)

theorem alike_elseClause :
    Alike c.rest.length (elseClause limit inner c) (elseClause limit' inner' c) := by
  refine Agrees.expecting ((Alike.many (fun _ _ ↦ alike_lineEnd) (by omega) (by omega)).bind
    fun _ c₁ hc₁ ↦ Alike.skip.bind fun _ c₂ hc₂ ↦ ?_)
  refine Alike.bind (Agrees.expecting (alike_word (by decide))) fun _ c₃ hc₃ ↦ ?_
  exact (alike_lineEnds (by omega) (by omega)).bind fun _ c₄ hc₄ ↦
    (h.statement c₄ (by omega)).weaken (by omega)

theorem alike_ifExpression :
    Alike c.rest.length (ifExpression limit inner c) (ifExpression limit' inner' c) := by
  refine Alike.bind (.spanned (Agrees.expecting ?_)) fun _ _ hc₁ ↦ .pure hc₁
  refine (Alike.symbol (by decide)).bind fun _ c₁ hc₁ ↦ Alike.skip.bind fun _ c₂ hc₂ ↦ ?_
  refine (Alike.symbol (by decide)).bind fun _ c₃ hc₃ ↦ ?_
  refine (alike_lineEnds (by omega) (by omega)).bind fun _ c₄ hc₄ ↦ ?_
  refine (h.expression c₄ (by omega)).bind fun cond c₅ hc₅ ↦ ?_
  refine (alike_lineEnds (by omega) (by omega)).bind fun _ c₆ hc₆ ↦ ?_
  refine (Alike.symbol (by decide)).bind fun _ c₇ hc₇ ↦ ?_
  refine (alike_lineEnds (by omega) (by omega)).bind fun _ c₈ hc₈ ↦ ?_
  refine (h.statement c₈ (by omega)).bind fun thenBranch c₉ hc₉ ↦ ?_
  refine Alike.skip.bind fun _ c₁₀ hc₁₀ ↦ ?_
  refine Alike.bind (k := c₁₀.rest.length + 1) (.optional ?_ (Nat.lt_succ_self _))
    fun elseBranch c₁₁ hc₁₁ ↦ .pure (by omega)
  exact (alike_elseClause h hl hl' (by omega)).weaken (Nat.le_succ _)

theorem alike_parenthesised :
    Alike c.rest.length (parenthesised limit inner c) (parenthesised limit' inner' c) := by
  refine (Alike.symbol (by decide)).bind fun _ c₁ hc₁ ↦ ?_
  refine (alike_lineEnds (by omega) (by omega)).bind fun _ c₂ hc₂ ↦ ?_
  refine (h.expression c₂ (by omega)).bind fun e c₃ hc₃ ↦ ?_
  exact (alike_lineEnds (by omega) (by omega)).bind fun _ c₄ hc₄ ↦
    (Alike.symbol (by decide)).bind fun _ c₅ hc₅ ↦ .pure (by omega)

theorem alike_primary : Alike c.rest.length (primary limit inner c) (primary limit' inner' c) :=
  Agrees.firstOf (.cons (alike_ifExpression h hl hl' hc) (.cons (alike_block h hl hl' hc)
    (.cons (alike_call h hl hl' hc) (.cons alike_literal (.cons alike_identifier
      (.cons (alike_parenthesised h hl hl' hc) .nil))))))

theorem alike_operand : Alike c.rest.length (operand limit inner c) (operand limit' inner' c) := by
  refine (Alike.many (fun _ _ ↦ alike_sign) (by omega) (by omega)).bind fun signs c₁ hc₁ ↦ ?_
  refine Alike.skip.bind fun _ c₂ hc₂ ↦ ?_
  exact (alike_primary h hl hl' (by omega)).bind fun term c₃ hc₃ ↦ .pure (by omega)

theorem alike_expression :
    Alike c.rest.length (expression limit inner c) (expression limit' inner' c) := by
  refine Agrees.expecting ((alike_operand h hl hl' hc).bind fun first c₁ hc₁ ↦ ?_)
  refine Alike.skip.bind fun _ c₂ hc₂ ↦ ?_
  refine (Alike.many (fun c hc ↦ ?_) (by omega) (by omega)).bind fun rest c₃ hc₃ ↦
    .pure (by omega)
  refine alike_comparisonOp.bind fun op c₁ hc₁ ↦ ?_
  refine (alike_lineEnds (by omega) (by omega)).bind fun _ c₂ hc₂ ↦ ?_
  exact (alike_operand h hl hl' (by omega)).bind fun right c₃ hc₃ ↦ .pure (by omega)

theorem alike_assignment :
    Alike c.rest.length (assignment limit inner c) (assignment limit' inner' c) := by
  refine Alike.bind (.spanned (Agrees.expecting ?_)) fun _ _ hc₁ ↦ .pure hc₁
  refine alike_name.bind fun target c₁ hc₁ ↦ Alike.skip.bind fun _ c₂ hc₂ ↦ ?_
  refine (Alike.symbol (by decide)).bind fun _ c₃ hc₃ ↦ ?_
  refine (alike_lineEnds (by omega) (by omega)).bind fun _ c₄ hc₄ ↦ ?_
  exact (h.statement c₄ (by omega)).bind fun value c₅ hc₅ ↦ .pure (by omega)

theorem alike_statement :
    Alike c.rest.length (statement limit inner c) (statement limit' inner' c) :=
  Agrees.orElse (alike_assignment h hl hl' hc) (alike_expression h hl hl' hc)

end Constructs

/-! ### Programs -/

variable {bound bound' : Nat}

/-- In front of fewer characters than either bound, both are as good. The induction is on the number
of characters, since each nesting needs one less. -/
theorem alike_language (hk : k ≤ bound) (hk' : k ≤ bound') :
    AlikeInside k (language bound) (language bound') := by
  induction k generalizing bound bound' with
  | zero => exact ⟨fun _ hc ↦ by omega, fun _ hc ↦ by omega⟩
  | succ k ih =>
    obtain ⟨bound, rfl⟩ := Nat.exists_eq_add_one_of_ne_zero (Nat.ne_zero_of_lt hk)
    obtain ⟨bound', rfl⟩ := Nat.exists_eq_add_one_of_ne_zero (Nat.ne_zero_of_lt hk')
    have h := ih (Nat.le_of_succ_le_succ hk) (Nat.le_of_succ_le_succ hk')
    exact ⟨fun c hc ↦ alike_statement h hk hk' (Nat.le_of_lt_succ hc),
      fun c hc ↦ alike_expression h hk hk' (Nat.le_of_lt_succ hc)⟩

/-- Two bounds above the number of characters read the same. -/
theorem program_eq (hbound : c.rest.length < bound) (hbound' : c.rest.length < bound') :
    program bound c = program bound' c := by
  have h := alike_language (k := c.rest.length + 1) hbound hbound'
  refine Alike.eq (m := c.rest.length + 1) (Agrees.expecting (Alike.skip.bind fun _ c₁ hc₁ ↦ ?_))
  refine (alike_statements (by omega) (by omega) fun c hc ↦ h.statement c (by omega)).bind
    fun items c₂ hc₂ ↦ Alike.skip.bind fun _ c₃ hc₃ ↦ ?_
  refine Alike.bind (k := c₃.rest.length + 1) (Agrees.expecting ?_) fun _ c₄ hc₄ ↦ .pure (by omega)
  unfold endOfInput
  split_ifs
  · exact .reads id ⟨rfl, Nat.lt_succ_self _⟩
  · exact .fails id

end AdaptiveTree.Grammar
