import AdaptiveTree.Proofs.Grammar.Drafts

/-!
Every reader checks the integer literals that it gathers. Where words and numbers stand the reader
takes the whole lexeme, and signs and brackets belong to no lexeme but themselves; the word in front
of a condition is one because a parenthesis follows it.
-/

set_option autoImplicit false
set_option relaxedAutoImplicit false

namespace AdaptiveTree.Grammar

open Token

variable {c : Cursor} {chars rest : List Char}

/-! ### Words -/

namespace Token

theorem startsName_of_isAlpha {d : Char} (h : d.isAlpha = true) (rest : List Char) :
    startsName (d :: rest) = true := by
  unfold startsName
  split
  · next heq =>
    rw [(List.cons.inj heq).1] at h
    exact absurd h (by decide)
  · rfl
  · next heq =>
    rwa [(List.cons.inj heq).1] at h
  · next heq => cases heq

theorem keyword?_ne_nil {w : String} {a : Unit} {taken : List Char} (hw : w.toList ≠ [])
    (h : keyword? w chars = some (a, taken, rest)) : taken ≠ [] := by
  unfold keyword? at h
  split_ifs at h with hword
  obtain ⟨rfl, -⟩ := by simpa using h
  exact hword ▸ hw

theorem integer?_ne_nil {n : Nat} {taken : List Char}
    (h : integer? chars = some (n, taken, rest)) : taken ≠ [] := by
  obtain ⟨digits, -, -, -, rfl, -⟩ := integer?_spec h
  simp

theorem mantissa?_ne_nil {taken : List Char} {a : List Char × Nat}
    (h : mantissa? chars = some (a, taken, rest)) : taken ≠ [] := by
  unfold mantissa? at h
  dsimp only at h
  split at h
  · split at h
    · cases h
    · obtain ⟨-, rfl, -⟩ := by simpa using h
      exact List.cons_ne_nil _ _
  · cases h
  · obtain ⟨-, rfl, -⟩ := by simpa using h
    simp
  · obtain ⟨-, rfl, -⟩ := by simpa using h
    assumption

theorem double?_ne_nil {taken : List Char} {a : Nat × Int}
    (h : double? chars = some (a, taken, rest)) : taken ≠ [] := by
  unfold double? at h
  split at h
  · cases h
  · next hmantissa =>
    have hsome := mantissa?_ne_nil hmantissa
    split at h
    · obtain ⟨-, rfl, -⟩ := by simpa using h
      exact hsome
    · obtain ⟨-, rfl, -⟩ := by simpa using h
      simp [hsome]

/-- A word that begins like a name is passed over as a whole. -/
theorem pass_word (h : startsName chars = true) :
    chars = word chars ++ chars.dropWhile isNameChar ∧ word chars ≠ [] ∧
      leading chars = word chars ∧ integer? chars = none := by
  refine ⟨List.takeWhile_append_dropWhile.symm, ?_, leading_word h,
    integer?_eq_none_of_startsName h⟩
  obtain ⟨d, rest, rfl, hhead⟩ := startsName_head h
  have hd : isNameChar d = true := by
    rcases hhead with halpha | rfl
    · simp [isNameChar, Char.isAlphanum, halpha]
    · rfl
  rw [word, List.takeWhile_cons, if_pos hd]
  exact List.cons_ne_nil _ _

theorem name?_ne_nil {n : String} {taken : List Char} (h : name? chars = some (n, taken, rest)) :
    taken ≠ [] := by
  unfold name? at h
  split_ifs at h with hname
  obtain ⟨-, rfl, -⟩ := by simpa using h
  exact (pass_word (by simp_all)).2.1

end Token

namespace Barren

theorem symbol {s : String} (h : s.toList.all isPlain = true) : Barren c (Reader.symbol s c) :=
  text h

theorem keyword {w : String} (hw : w.toList.head?.any Char.isAlpha = true) :
    Barren c (Reader.lexeme (keyword? w) c) := by
  refine lexeme fun {a taken rest} h ↦ ?_
  unfold keyword? at h
  split_ifs at h with hword
  obtain ⟨rfl, rfl⟩ := by simpa using h
  refine pass_word ?_
  cases hrest : c.rest with
  | nil =>
    rw [← hword, hrest] at hw
    cases hw
  | cons d rest =>
    refine startsName_of_isAlpha ?_ rest
    rw [← hword, word, hrest, List.head?_takeWhile, List.head?_cons] at hw
    by_cases hd : isNameChar d = true
    · simpa [hd] using hw
    · simp [hd] at hw

theorem name : Barren c (Grammar.name c) := by
  refine (Gathers.expecting (lexeme fun {a taken rest} h ↦ ?_)).behind fun _ _ ↦ .pure rfl
  unfold name? at h
  split_ifs at h with hname
  obtain ⟨-, rfl, rfl⟩ := by simpa using h
  exact pass_word (by simp_all)

end Barren

/-- A name character in front of a text is not skipped. -/
theorem bounded_of_skipFrom {n : Nat} {d : Char} (hd : isNameChar d = false)
    (h : (skipFrom false n chars).rest = d :: rest) : Bounded chars := by
  cases chars with
  | nil => cases h
  | cons e chars =>
    rintro _ ⟨⟩
    by_contra hname
    rw [skipFrom, if_neg, if_neg] at h
    · obtain ⟨rfl, -⟩ := List.cons.inj h
      exact hname hd
    · rintro rfl
      exact hname rfl
    · intro hblank
      rcases (by simpa using hblank : e = ' ' ∨ e = '\t') with rfl | rfl <;> exact hname rfl

/-- The word in front of a condition is a whole word, as a parenthesis follows it. -/
theorem Gathers.condition {α : Type} {f : Reader α} {Q : α → List IntegerLiteral → Prop}
    (hf : ∀ c', Gathers c' Q (f c')) :
    Gathers c Q ((Reader.symbol "if" >>= fun _ ↦ Reader.skip >>= fun _ ↦
      Reader.symbol "(" >>= fun _ ↦ f) c) := by
  intro a c' hout
  obtain ⟨_, c₁, hword, hout₁⟩ := bind_outcome hout
  obtain ⟨_, c₂, hskip, hout₂⟩ := bind_outcome hout₁
  obtain ⟨_, c₃, hopen, hout₃⟩ := bind_outcome hout₂
  obtain ⟨rest, hrest, hc₁⟩ := text_outcome hword
  obtain ⟨_, hskipped, rfl⟩ := Gathers.skip () c₂ hskip
  obtain ⟨_, hopened, rfl⟩ := Barren.symbol (by decide) () c₃ hopen
  obtain ⟨ls, hls, hQ⟩ := hf c₃ a c' hout₃
  have hif : "if".toList = ['i', 'f'] := by decide
  rw [hif] at hrest hc₁
  have hbounded : Bounded rest := by
    obtain ⟨_, hrest₂, -⟩ := text_outcome hopen
    cases hskip
    rw [hc₁] at hrest₂
    exact bounded_of_skipFrom (by decide) hrest₂
  have hstarts : startsName c.rest = true := by
    rw [hrest]
    exact startsName_of_isAlpha (by decide) _
  have hleading : leading c.rest = ['i', 'f'] := by
    rw [leading_word hstarts, hrest]
    exact word_append (List.all_eq_true.mp rfl) hbounded
  have hpassed : c.integers = c₁.integers := by
    rw [hc₁]
    exact c.integers_advance _ _ hrest (List.cons_ne_nil _ _) hleading
      (integer?_eq_none_of_startsName hstarts)
  exact ⟨ls, by rw [hpassed, hskipped, hopened, hls]; rfl, hQ⟩

/-! ### Literals -/

/-- A reader of drafts that check what they are read from. -/
abbrev Checked (p : Reader Draft) : Prop := ∀ c, Gathers c Draft.Checks (p c)

theorem checks_integer (n : Nat) (taken : List Char) (span : Span) :
    (integerDraft n taken span).Checks [⟨n, String.ofList taken, span⟩] := by
  unfold integerDraft Draft.Checks Checks
  rw [List.find?_singleton]
  by_cases hn : n < 2147483648
  · rw [if_pos hn, if_neg (by simp [IntegerLiteral.isOversized]; omega)]
    exact ⟨_, rfl, rfl⟩
  · rw [if_neg hn, if_pos (by simp [IntegerLiteral.isOversized]; omega)]
    rfl

theorem integer_outcome (c : Cursor) : (integer c).outcome =
    (integer? c.rest).map fun (n, taken, rest) ↦
      (integerDraft n taken ⟨c.offset, c.offset + byteLength taken⟩, c.advance taken rest) := by
  change (Reader.bind (Reader.bind Reader.offset fun start ↦
    Reader.bind (Reader.expecting .literal (Reader.lexeme integer?)) fun a ↦
      Reader.bind Reader.offset fun stop ↦ Reader.pure (a, Span.mk start stop))
    (fun a ↦ Reader.pure (integerDraft a.1.1 a.1.2 a.2)) c).outcome = _
  cases h : integer? c.rest <;>
    simp [Reader.bind, Reader.offset, Reader.expecting, Reader.lexeme, h, Reader.pure,
      Cursor.advance]

theorem checked_integer : Checked integer := by
  intro c d c' hout
  rw [integer_outcome, Option.map_eq_some_iff] at hout
  obtain ⟨⟨n, taken, rest⟩, hinteger, hread⟩ := hout
  cases hread
  refine ⟨_, ?_, checks_integer _ _ _⟩
  rw [c.integers_lexeme _ _ (integer?_split hinteger) (integer?_ne_nil hinteger)
    (leading_integer hinteger), leadingInteger, hinteger]

/-- What is read as a double is no integer literal: that was tried before. -/
theorem gathers_double (h : integer? c.rest = none) : Gathers c Draft.Checks (double c) := by
  refine Gathers.bind (Gathers.spanned (Gathers.expecting (Barren.lexeme ?_))) ?_
  · intro a taken rest hscan
    exact ⟨double?_split hscan, double?_ne_nil hscan, leading_double h hscan, h⟩
  · rintro ⟨⟨⟨digits, power⟩, taken⟩, span⟩ _ c₁ rfl
    exact .pure (.ok rfl)

theorem gathers_namedLiteral : Gathers c
    (fun l ls ↦ ls = [] ∧ ∀ span, (Expr.literal l span).integers = []) (namedLiteral c) := by
  have hword {w : String} {l : Literal} (hw : w.toList.head?.any Char.isAlpha = true)
      (hl : ∀ span, (Expr.literal l span).integers = []) : Gathers c
      (fun l ls ↦ ls = [] ∧ ∀ span, (Expr.literal l span).integers = []) (wordLiteral w l c) :=
    (Barren.keyword hw).behind fun _ _ ↦ .pure ⟨rfl, hl⟩
  refine .firstOf fun p hp ↦ ?_
  simp only [List.mem_cons, List.not_mem_nil, or_false] at hp
  rcases hp with rfl | rfl | rfl
  · exact .expecting (hword (by decide) fun _ ↦ rfl)
  · exact .expecting (hword (by decide) fun _ ↦ rfl)
  · exact .expecting (.orElse (hword (by decide) fun _ ↦ rfl)
      fun _ ↦ hword (by decide) fun _ ↦ rfl)

theorem checked_literal : Checked literal := by
  intro c
  refine Gathers.orElse ?_ fun _ ↦ Gathers.orElse (checked_integer c) fun hnone ↦ gathers_double ?_
  · refine Gathers.bind (Gathers.spanned gathers_namedLiteral) ?_
    rintro ⟨l, span⟩ ls c₁ ⟨rfl, hl⟩
    exact .pure (.ok (hl span))
  · rw [integer_outcome, Option.map_eq_none_iff] at hnone
    exact hnone

theorem checked_identifier : Checked identifier := by
  intro c
  refine Gathers.bind (Gathers.spanned Barren.name) ?_
  rintro ⟨n, span⟩ ls c₁ rfl
  exact .pure (.ok rfl)

/-! ### What stands between expressions -/

theorem barren_lineEnd (c : Cursor) : Barren c (lineEnd c) := by
  refine .firstOf fun p hp ↦ ?_
  simp only [List.mem_cons, List.not_mem_nil, or_false] at hp
  rcases hp with rfl | rfl | rfl <;> exact Barren.symbol (by decide)

theorem barren_separator (c : Cursor) : Barren c (separator c) :=
  .orElse (Barren.symbol (by decide)) fun _ ↦ barren_lineEnd c

theorem barren_lineEnds (limit : Nat) (c : Cursor) : Barren c (lineEnds limit c) :=
  Gathers.skip.behind fun _ _ ↦ (Barren.many barren_lineEnd limit _).behind fun _ _ ↦ Gathers.skip

theorem barren_separators (limit : Nat) (c : Cursor) : Barren c (separators limit c) :=
  (barren_separator c).behind fun _ _ ↦ Gathers.skip.behind fun _ _ ↦
    (Barren.many barren_separator limit _).behind fun _ _ ↦ .pure rfl

theorem barren_sign (c : Cursor) : Barren c (sign c) := by
  have hstart : Barren c (Reader.offset c) := by
    rintro _ _ ⟨⟩
    exact ⟨[], rfl, rfl⟩
  refine hstart.behind fun start c₁ ↦ Gathers.behind (.firstOf fun p hp ↦ ?_) fun op c₂ ↦ .pure rfl
  simp only [List.mem_cons, List.not_mem_nil, or_false] at hp
  rcases hp with rfl | rfl <;>
    exact .expecting ((Barren.symbol (by decide)).behind fun _ _ ↦ .pure rfl)

theorem barren_comparisonOp (c : Cursor) : Barren c (comparisonOp c) := by
  have hcomparison (op : CompareOp) : Barren c (comparison op c) :=
    .expecting ((Barren.symbol (by cases op <;> decide)).behind fun _ _ ↦ .pure rfl)
  have harrow : Barren c (notArrow c) := by
    unfold notArrow
    split_ifs
    · exact Gathers.fail
    · exact .pure rfl
  refine .firstOf fun p hp ↦ ?_
  simp only [List.mem_cons, List.not_mem_nil, or_false] at hp
  rcases hp with rfl | rfl | rfl | rfl | rfl | rfl
  · exact hcomparison _
  · exact hcomparison _
  · exact hcomparison _
  · exact hcomparison _
  · exact .expecting (harrow.behind fun _ _ ↦ (Barren.symbol (by decide)).behind
      fun _ _ ↦ .pure rfl)
  · exact hcomparison _

/-! ### Constructs -/

/-- Drafts one behind the other check what they are read from together. -/
def ChecksAll (ds : List Draft) (ls : List IntegerLiteral) : Prop :=
  ∃ lss, ls = lss.flatten ∧ List.Forall₂ Draft.Checks ds lss

namespace ChecksAll

variable {d : Draft} {ds : List Draft} {ls ls' : List IntegerLiteral}

theorem nil : ChecksAll [] [] := ⟨[], rfl, .nil⟩

theorem cons (hd : d.Checks ls) (hds : ChecksAll ds ls') : ChecksAll (d :: ds) (ls ++ ls') := by
  obtain ⟨lss, rfl, hall⟩ := hds
  exact ⟨ls :: lss, rfl, .cons hd hall⟩

theorem mapM (h : ChecksAll ds ls) : Checks Expr.integersOf (ds.mapM id) ls := by
  obtain ⟨lss, rfl, hall⟩ := h
  exact checks_mapM hall

end ChecksAll

theorem gathers_many {p : Reader Draft} (hp : Checked p) (limit : Nat) (c : Cursor) :
    Gathers c ChecksAll (Reader.many limit p c) :=
  Gathers.many hp limit c

/-- What may stand inside a construct. -/
structure CheckedInner (inner : Inner) : Prop where
  statement : Checked inner.statement
  expression : Checked inner.expression

theorem gathers_statements {statement : Reader Draft} (h : Checked statement) (limit : Nat)
    (c : Cursor) : Gathers c ChecksAll (statements limit statement c) := by
  refine .expecting ((Barren.many barren_separator limit c).behind fun _ c₁ ↦ ?_)
  refine Gathers.skip.behind fun _ c₂ ↦ ?_
  refine Gathers.bind (Q := fun items ls ↦ ChecksAll (items.getD []) ls) (.optional ?_ .nil) ?_
  · refine (h c₂).bind fun d ls c₃ hd ↦ Gathers.skip.behind fun _ c₄ ↦ ?_
    refine (gathers_many (fun c ↦ ?_) limit c₄).bind fun ds ls' c₅ hds ↦ .pure ?_
    · exact (barren_separators limit c).behind fun _ _ ↦ Gathers.skip.behind fun _ c' ↦ h c'
    · rw [List.append_nil]
      exact .cons hd hds
  · intro items ls c₃ hitems
    refine Gathers.skip.behind fun _ c₄ ↦ (Barren.many barren_separator limit c₄).behind
      fun _ _ ↦ .pure ?_
    rwa [List.append_nil]

section Constructs

variable {inner : Inner} (h : CheckedInner inner) (limit : Nat)

include h

theorem checked_block : Checked (block limit inner) := by
  intro c
  refine Gathers.bind (Gathers.spanned (Q := ChecksAll) (.expecting ?_)) ?_
  · refine (Barren.symbol (by decide)).behind fun _ c₁ ↦ Gathers.skip.behind fun _ c₂ ↦ ?_
    refine (gathers_statements h.statement limit c₂).bind fun items ls c₃ hitems ↦ ?_
    refine Gathers.skip.behind fun _ c₄ ↦ (Barren.symbol (by decide)).behind fun _ _ ↦ .pure ?_
    rwa [List.append_nil]
  · rintro ⟨items, span⟩ ls c₁ hitems
    refine .pure ?_
    rw [List.append_nil]
    exact hitems.mapM.map fun _ ↦ rfl

theorem gathers_arguments (c : Cursor) : Gathers c ChecksAll (arguments limit inner c) := by
  refine (h.expression c).bind fun d ls c₁ hd ↦ Gathers.skip.behind fun _ c₂ ↦ ?_
  refine (gathers_many (fun c ↦ ?_) limit c₂).bind fun ds ls' c₃ hds ↦ .pure ?_
  · refine (Barren.many barren_lineEnd limit c).behind fun _ _ ↦ Gathers.skip.behind fun _ _ ↦ ?_
    refine (Barren.symbol (by decide)).behind fun _ c₁ ↦ ?_
    exact (barren_lineEnds limit c₁).behind fun _ c₂ ↦ h.expression c₂
  · rw [List.append_nil]
    exact .cons hd hds

theorem checked_call : Checked (call limit inner) := by
  intro c
  refine Gathers.bind (Gathers.spanned (Q := fun a ↦ ChecksAll a.2) (.expecting ?_)) ?_
  · refine Barren.name.behind fun callee c₁ ↦ Gathers.skip.behind fun _ c₂ ↦ ?_
    refine (Barren.symbol (by decide)).behind fun _ c₃ ↦ ?_
    refine (barren_lineEnds limit c₃).behind fun _ c₄ ↦ ?_
    refine Gathers.bind (Q := fun args ls ↦ ChecksAll (args.getD []) ls)
      (.optional (gathers_arguments h limit c₄) .nil) fun args ls c₅ hargs ↦ ?_
    refine (barren_lineEnds limit c₅).behind fun _ c₆ ↦ ?_
    refine (Barren.symbol (by decide)).behind fun _ _ ↦ .pure ?_
    rwa [List.append_nil]
  · rintro ⟨⟨callee, args⟩, span⟩ ls c₁ hargs
    refine .pure ?_
    rw [List.append_nil]
    exact hargs.mapM.map fun _ ↦ rfl

theorem checked_elseClause : Checked (elseClause limit inner) := by
  intro c
  refine .expecting ((Barren.many barren_lineEnd limit c).behind fun _ c₁ ↦ ?_)
  refine Gathers.skip.behind fun _ c₂ ↦ ?_
  refine Gathers.behind (.expecting (Barren.keyword (by decide))) fun _ c₃ ↦ ?_
  exact (barren_lineEnds limit c₃).behind fun _ c₄ ↦ h.statement c₄

theorem checked_ifExpression : Checked (ifExpression limit inner) := by
  intro c
  refine Gathers.bind (Gathers.spanned (Q := fun a ls ↦ ∃ ls₁ ls₂ lss, a.1.Checks ls₁ ∧
    a.2.1.Checks ls₂ ∧ List.Forall₂ Draft.Checks a.2.2.toList lss ∧
    ls = ls₁ ++ (ls₂ ++ lss.flatten)) (.expecting (.condition fun c₁ ↦ ?_))) ?_
  · refine (barren_lineEnds limit c₁).behind fun _ c₂ ↦ ?_
    refine (h.expression c₂).bind fun cond ls₁ c₃ hcond ↦ ?_
    refine (barren_lineEnds limit c₃).behind fun _ c₄ ↦ ?_
    refine (Barren.symbol (by decide)).behind fun _ c₅ ↦ ?_
    refine (barren_lineEnds limit c₅).behind fun _ c₆ ↦ ?_
    refine (h.statement c₆).bind fun thenBranch ls₂ c₇ hthen ↦ Gathers.skip.behind fun _ c₈ ↦ ?_
    refine Gathers.bind (Q := fun branch ls ↦ ∃ lss, ls = lss.flatten ∧
      List.Forall₂ Draft.Checks branch.toList lss) (.optional ?_ ⟨[], rfl, .nil⟩) ?_
    · exact (checked_elseClause h limit c₈).mono fun branch ls hbranch ↦
        ⟨[ls], by simp, .cons hbranch .nil⟩
    · rintro branch _ c₉ ⟨lss, rfl, hbranch⟩
      exact .pure ⟨ls₁, ls₂, lss, hcond, hthen, hbranch, by rw [List.append_nil]⟩
  · rintro ⟨⟨cond, thenBranch, elseBranch⟩, span⟩ _ c₁ ⟨ls₁, ls₂, lss, hcond, hthen, helse, rfl⟩
    refine .pure ?_
    rw [List.append_nil]
    exact checks_ifDraft hcond hthen helse

theorem checked_parenthesised : Checked (parenthesised limit inner) := by
  intro c
  refine (Barren.symbol (by decide)).behind fun _ c₁ ↦ ?_
  refine (barren_lineEnds limit c₁).behind fun _ c₂ ↦ ?_
  refine (h.expression c₂).bind fun e ls c₃ he ↦ ?_
  refine (barren_lineEnds limit c₃).behind fun _ c₄ ↦ ?_
  refine (Barren.symbol (by decide)).behind fun _ _ ↦ .pure ?_
  rwa [List.append_nil]

theorem checked_primary : Checked (primary limit inner) := by
  intro c
  refine .firstOf fun p hp ↦ ?_
  simp only [List.mem_cons, List.not_mem_nil, or_false] at hp
  rcases hp with rfl | rfl | rfl | rfl | rfl | rfl
  · exact checked_ifExpression h limit c
  · exact checked_block h limit c
  · exact checked_call h limit c
  · exact checked_literal c
  · exact checked_identifier c
  · exact checked_parenthesised h limit c

theorem gathers_operand (c : Cursor) :
    Gathers c (fun o ls ↦ o.term.Checks ls) (operand limit inner c) := by
  refine (Barren.many barren_sign limit c).behind fun signs c₁ ↦ Gathers.skip.behind fun _ c₂ ↦ ?_
  refine (checked_primary h limit c₂).bind fun term ls c₃ hterm ↦ .pure ?_
  rwa [List.append_nil]

theorem checked_expression : Checked (expression limit inner) := by
  intro c
  refine .expecting ((gathers_operand h limit c).bind fun first ls c₁ hfirst ↦ ?_)
  refine Gathers.skip.behind fun _ c₂ ↦ ?_
  refine Gathers.bind (Gathers.many (Q := fun o ls ↦ o.2.term.Checks ls) (fun c ↦ ?_) limit c₂) ?_
  · refine (barren_comparisonOp c).behind fun op c₁ ↦
      (barren_lineEnds limit c₁).behind fun _ c₂ ↦ ?_
    refine (gathers_operand h limit c₂).bind fun right ls c₃ hright ↦ .pure ?_
    rwa [List.append_nil]
  · rintro rest _ c₃ ⟨lss, rfl, hrest⟩
    refine .pure ?_
    rw [List.append_nil]
    exact checks_toExpr (c := ⟨first, rest⟩) (.cons hfirst (List.forall₂_map_left_iff.mpr hrest))

theorem checked_assignment : Checked (assignment limit inner) := by
  intro c
  refine Gathers.bind (Gathers.spanned (Q := fun a ↦ a.2.Checks) (.expecting ?_)) ?_
  · refine Barren.name.behind fun target c₁ ↦ Gathers.skip.behind fun _ c₂ ↦ ?_
    refine (Barren.symbol (by decide)).behind fun _ c₃ ↦ ?_
    refine (barren_lineEnds limit c₃).behind fun _ c₄ ↦ ?_
    refine (h.statement c₄).bind fun value ls c₅ hvalue ↦ .pure ?_
    rwa [List.append_nil]
  · rintro ⟨⟨target, value⟩, span⟩ ls c₁ hvalue
    refine .pure ?_
    rw [List.append_nil]
    exact hvalue.map fun _ ↦ rfl

theorem checked_statement : Checked (statement limit inner) := fun c ↦
  .orElse (checked_assignment h limit c) fun _ ↦ checked_expression h limit c

end Constructs

/-! ### Programs -/

theorem checked_language (bound : Nat) : CheckedInner (language bound) := by
  induction bound with
  | zero => exact ⟨fun _ ↦ .fail, fun _ ↦ .fail⟩
  | succ bound ih => exact ⟨checked_statement ih (bound + 1), checked_expression ih (bound + 1)⟩

/-- A program checks all integer literals of its text, as nothing is left of it. -/
theorem checksAll_of_program {bound : Nat} {items : List Draft} {c' : Cursor}
    (h : (program bound c).outcome = some (items, c')) : ChecksAll items c.integers := by
  obtain ⟨_, c₁, hskip, h⟩ := bind_outcome (expecting_outcome h)
  obtain ⟨ds, c₂, hstatements, h⟩ := bind_outcome h
  obtain ⟨_, c₃, hskip', h⟩ := bind_outcome h
  obtain ⟨_, c₄, hend, hpure⟩ := bind_outcome h
  obtain ⟨_, hskipped, rfl⟩ := Gathers.skip () c₁ hskip
  obtain ⟨ls, hls, hchecks⟩ :=
    gathers_statements (checked_language bound).statement bound c₁ ds c₂ hstatements
  obtain ⟨_, hskipped', rfl⟩ := Gathers.skip () c₃ hskip'
  have hnothing : c₃.integers = [] := by
    replace hend := expecting_outcome hend
    unfold endOfInput at hend
    split_ifs at hend with hempty
    rw [Cursor.integers, List.isEmpty_iff.mp hempty, integersFrom]
  cases hpure
  rw [hskipped, hls, hskipped', hnothing, List.nil_append, List.append_nil, List.append_nil]
  exact hchecks

end AdaptiveTree.Grammar
