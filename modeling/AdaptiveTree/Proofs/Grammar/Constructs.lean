import AdaptiveTree.Proofs.Grammar.Reads
import AdaptiveTree.Proofs.Grammar.Tokens

/-!
What each construct of the grammar reads. The readers inside a construct are arbitrary, and so is
the text behind it as long as it cannot be mistaken for more of the construct: `Closed` begins
with what ends an expression, and `Quiet` with no comparison. An alternative fails by the first
character of the text.
-/

set_option autoImplicit false
set_option relaxedAutoImplicit false

namespace AdaptiveTree.Grammar

open Token (Bounded IsName)

variable {α γ : Type} {limit : Nat} {inner : Inner} {input rest : List Char}

/-! ### What stands in front and behind -/

/-- Begins with nothing that is skipped and with no line end. -/
def Solid (chars : List Char) : Prop :=
  ∀ c ∈ chars.head?, c ≠ ' ' ∧ c ≠ '\t' ∧ c ≠ '#' ∧ c ≠ '\n' ∧ c ≠ '\r'

/-- Only what ends an expression or a statement follows here. -/
def Closed (chars : List Char) : Prop :=
  ∀ c ∈ chars.head?, c = ')' ∨ c = '\x7d' ∨ c = ';' ∨ c = ','

/-- No comparison follows, with or without blanks in front of it. -/
def Quiet (rest : List Char) : Prop :=
  ∀ c ∈ (skipped rest).head?, c ≠ '=' ∧ c ≠ '!' ∧ c ≠ '<' ∧ c ≠ '>'

/-- No name goes on here and no call begins, with or without blanks in front. -/
structure Apart (rest : List Char) : Prop where
  bounded : Bounded rest
  uncalled : '(' ∉ (skipped rest).head?

/-- An expression ends here. -/
structure Ends (rest : List Char) : Prop where
  bounded : Bounded rest
  closed : Closed (skipped rest)

theorem Solid.skipped_eq (h : Solid input) : skipped input = input := by
  cases input with
  | nil => rfl
  | cons c rest =>
    obtain ⟨hblank, htab, hcomment, -⟩ := h c rfl
    exact skipped_cons rest hblank htab hcomment

theorem Closed.solid (h : Closed input) : Solid input := by
  intro c hc
  rcases h c hc with rfl | rfl | rfl | rfl <;> decide

theorem Closed.quiet (h : Closed (skipped rest)) : Quiet rest := by
  intro c hc
  rcases h c hc with rfl | rfl | rfl | rfl <;> decide

theorem Closed.ends (h : Closed rest) : Ends rest := by
  refine ⟨fun c hc ↦ ?_, by rwa [h.solid.skipped_eq]⟩
  rcases h c hc with rfl | rfl | rfl | rfl <;> rfl

theorem Closed.skipped (h : Closed rest) : Closed (skipped rest) := by
  rwa [h.solid.skipped_eq]

theorem Closed.not_arrow (h : Closed input) : ¬ "<-".toList <+: input := by
  rintro ⟨tail, rfl⟩
  rcases h '<' rfl with hc | hc | hc | hc <;> cases hc

theorem Ends.apart (h : Ends rest) : Apart rest := by
  refine ⟨h.bounded, fun hmem ↦ ?_⟩
  rcases h.closed _ hmem with hc | hc | hc | hc <;> cases hc

theorem Ends.blank (h : Closed rest) : Ends (' ' :: rest) :=
  ⟨by rintro c ⟨⟩; rfl, by rw [skipped_blank]; exact h.skipped⟩

/-! ### Symbols -/

theorem Reads.symbol (s : String) {R : Unit → List Char → Prop} (h : R () rest) :
    Reads (Reader.symbol s) (s.toList ++ rest) R := .text h

theorem Fails.symbol {s : String} {c : Char} (hs : s.toList.head? = some c)
    (h : c ∉ input.head?) : Fails (Reader.symbol s) input := by
  refine .text fun hprefix ↦ h ?_
  obtain ⟨tail, rfl⟩ := hprefix
  rw [List.head?_append, hs]
  rfl

theorem Fails.lineEnd (h : Solid input) : Fails lineEnd input := by
  have hnewline : '\n' ∉ input.head? := fun hc ↦ (h _ hc).2.2.2.1 rfl
  have hreturn : '\r' ∉ input.head? := fun hc ↦ (h _ hc).2.2.2.2 rfl
  exact .orElse (.symbol rfl hnewline) (.orElse (.symbol rfl hreturn) (.symbol rfl hreturn))

theorem Fails.separator (h : Solid input) (hsemicolon : ';' ∉ input.head?) :
    Fails separator input :=
  .orElse (.symbol rfl hsemicolon) (.lineEnd h)

theorem Reads.lineEnds {R : Unit → List Char → Prop} (hsolid : Solid (skipped input))
    (h : R () (skipped input)) : Reads (lineEnds limit) input R := by
  refine .bind (.skip (R := fun _ r ↦ r = skipped input) rfl) fun _ _ hr ↦ ?_
  subst hr
  refine .bind (.many_nil (R := fun _ r ↦ r = skipped input) (.lineEnd hsolid) rfl) fun _ _ hr ↦ ?_
  subst hr
  exact .skip (by rwa [skipped_skipped])

/-- A symbol and the line ends behind it. -/
theorem Reads.symbol_lineEnds {q : Reader α} {R : α → List Char → Prop} (s : String)
    (rest : List Char) (hsolid : Solid (skipped rest)) (h : Reads q (skipped rest) R) :
    Reads (do Reader.symbol s; Grammar.lineEnds limit; q) (s.toList ++ rest) R := by
  refine .bind (.symbol (R := fun _ r ↦ r = rest) s rfl) fun _ _ hr ↦ ?_
  subst hr
  refine .bind (.lineEnds (R := fun _ r ↦ r = skipped _) hsolid rfl) fun _ _ hr ↦ ?_
  subst hr
  exact h

/-! ### Literals and names -/

theorem Reads.name {n : String} {R : String → List Char → Prop} (hn : IsName n)
    (hrest : Bounded rest) (h : R n rest) : Reads name (n.toList ++ rest) R :=
  .bind (.expecting (.lexeme (R := fun a r ↦ a.1 = n ∧ r = rest) (hn.name?_append hrest)
    ⟨rfl, rfl⟩)) fun _ _ ⟨ha, hr⟩ ↦ .pure (by rw [ha, hr]; exact h)

theorem Fails.name (h : Token.name? input = none) : Fails name input :=
  (Fails.expecting (.lexeme h)).bind_left

theorem Reads.wordLiteral {w : String} {l : Literal} {R : Literal → List Char → Prop}
    (hw : w.toList.all Token.isNameChar = true) (hrest : Bounded rest) (h : R l rest) :
    Reads (wordLiteral w l) (w.toList ++ rest) R :=
  .bind (.lexeme (R := fun _ r ↦ r = rest) (Token.keyword?_append hw hrest) rfl)
    fun _ _ hr ↦ .pure (by rw [hr]; exact h)

theorem Fails.wordLiteral {w : String} {l : Literal} (h : Token.keyword? w input = none) :
    Fails (wordLiteral w l) input :=
  (Fails.lexeme h).bind_left

theorem Fails.namedLiteral (h : ∀ w ∈ ["NULL", "NA", "TRUE", "FALSE"],
    Token.keyword? w input = none) : Fails namedLiteral input :=
  .orElse (.expecting (.wordLiteral (h _ (by simp))))
    (.orElse (.expecting (.wordLiteral (h _ (by simp))))
      (.expecting (.orElse (.wordLiteral (h _ (by simp))) (.wordLiteral (h _ (by simp))))))

theorem Fails.literal (hword : ∀ w ∈ ["NULL", "NA", "TRUE", "FALSE"],
    Token.keyword? w input = none) (hinteger : Token.integer? input = none)
    (hdouble : Token.double? input = none) : Fails literal input :=
  .orElse (Fails.spanned (.namedLiteral hword)).bind_left
    (.orElse (Fails.spanned (.expecting (.lexeme hinteger))).bind_left
      (Fails.spanned (.expecting (.lexeme hdouble))).bind_left)

/-! ### Alternatives that fail -/

theorem Fails.ifExpression (h : 'i' ∉ input.head?) : Fails (ifExpression limit inner) input :=
  (Fails.spanned (.expecting (Fails.symbol rfl h).bind_left)).bind_left

theorem Fails.block (h : '\x7b' ∉ input.head?) : Fails (block limit inner) input :=
  (Fails.spanned (.expecting (Fails.symbol rfl h).bind_left)).bind_left

theorem Fails.call (h : Token.name? input = none) : Fails (call limit inner) input :=
  (Fails.spanned (.expecting (Fails.name h).bind_left)).bind_left

theorem Fails.identifier (h : Token.name? input = none) : Fails identifier input :=
  (Fails.spanned (.name h)).bind_left

theorem Fails.parenthesised (h : '(' ∉ input.head?) : Fails (parenthesised limit inner) input :=
  (Fails.symbol rfl h).bind_left

theorem Fails.assignment (h : Token.name? input = none) : Fails (assignment limit inner) input :=
  (Fails.spanned (.expecting (Fails.name h).bind_left)).bind_left

theorem Fails.sign (h : ∀ c ∈ input.head?, c ≠ '!' ∧ c ≠ '-') : Fails sign input := by
  refine .bind_right (R := fun _ r ↦ r = input) (fun n ↦ ⟨n, ⟨n, input⟩, rfl, rfl⟩) ?_
  rintro _ _ rfl
  refine Fails.bind_left (.orElse (.expecting ?_) (.expecting ?_))
  · exact (Fails.symbol rfl fun hc ↦ (h _ hc).1 rfl).bind_left
  · exact (Fails.symbol rfl fun hc ↦ (h _ hc).2 rfl).bind_left

theorem Fails.comparison {op : CompareOp} {c : Char} (hop : op.symbol.toList.head? = some c)
    (h : c ∉ input.head?) : Fails (comparison op) input :=
  .expecting (Fails.symbol hop h).bind_left

/-- No literal begins with anything but a letter, a digit or a point. -/
theorem Fails.literal_of_head (h : ∀ c ∈ input.head?, c.isAlphanum = false ∧ c ≠ '.') :
    Fails Grammar.literal input := by
  have hword {w : String} {c : Char} (hw : w.toList.head? = some c) (hc : c.isAlphanum = true) :
      Token.keyword? w input = none :=
    Token.keyword?_eq_none_of_head hw fun hmem ↦ absurd hc (by simp [(h c hmem).1])
  have hdigit : ∀ c ∈ input.head?, c.isDigit = false ∧ c ≠ '.' := by
    intro c hc
    have halpha := (h c hc).1
    simp only [Char.isAlphanum, Bool.or_eq_false_iff] at halpha
    exact ⟨halpha.2, (h c hc).2⟩
  refine .literal ?_ (Token.integer?_eq_none_of_head fun c hc ↦ (hdigit c hc).1)
    (Token.double?_eq_none_of_head hdigit)
  simp only [List.mem_cons, List.not_mem_nil, or_false]
  rintro w (rfl | rfl | rfl | rfl) <;> exact hword rfl (by decide)

theorem Fails.name_of_head (h : ∀ c ∈ input.head?, c.isAlphanum = false ∧ c ≠ '.') :
    Token.name? input = none := by
  refine Token.name?_eq_none_of_head fun c hc ↦ ⟨?_, (h c hc).2⟩
  have halpha := (h c hc).1
  simp only [Char.isAlphanum, Bool.or_eq_false_iff] at halpha
  exact halpha.1

theorem Closed.head (h : Closed input) : ∀ c ∈ input.head?,
    c.isAlphanum = false ∧ c ≠ '.' ∧ c ≠ '(' ∧ c ≠ '\x7b' ∧ c ≠ '!' ∧ c ≠ '-' ∧ c ≠ 'i' := by
  intro c hc
  rcases h c hc with rfl | rfl | rfl | rfl <;> decide

theorem Fails.operand (h : Closed input) : Fails (operand limit inner) input := by
  have hname : Token.name? input = none :=
    Fails.name_of_head fun c hc ↦ ⟨(h.head c hc).1, (h.head c hc).2.1⟩
  refine .bind_right (R := fun _ r ↦ r = input) (.many_nil (.sign fun c hc ↦
    ⟨(h.head c hc).2.2.2.2.1, (h.head c hc).2.2.2.2.2.1⟩) rfl) ?_
  rintro _ r rfl
  refine .bind_right (R := fun _ s ↦ s = r) (.skip h.solid.skipped_eq) ?_
  rintro _ _ rfl
  refine Fails.bind_left (.orElse (.ifExpression ?_) (.orElse (.block ?_) (.orElse (.call hname)
    (.orElse (.literal_of_head ?_) (.orElse (.identifier hname) (.parenthesised ?_))))))
  · exact fun hc ↦ (h.head _ hc).2.2.2.2.2.2 rfl
  · exact fun hc ↦ (h.head _ hc).2.2.2.1 rfl
  · exact fun c hc ↦ ⟨(h.head c hc).1, (h.head c hc).2.1⟩
  · exact fun hc ↦ (h.head _ hc).2.2.1 rfl

theorem Fails.expression (h : Closed input) : Fails (expression limit inner) input :=
  .expecting (Fails.operand h).bind_left

theorem Fails.statement (h : Closed input) : Fails (statement limit inner) input :=
  .orElse (.assignment (Fails.name_of_head fun c hc ↦ ⟨(h.head c hc).1, (h.head c hc).2.1⟩))
    (.expression h)

/-! ### Operators -/

theorem Reads.sign (op : UnaryOp) :
    Reads sign (op.symbol.toList ++ rest) fun s r ↦ r = rest ∧ s.op = op := by
  refine .bind (R := fun _ r ↦ r = op.symbol.toList ++ rest)
    (fun n ↦ ⟨n, ⟨n, _⟩, rfl, rfl⟩) ?_
  rintro start _ rfl
  refine .bind (R := fun o r ↦ r = rest ∧ o = op) ?_ fun _ _ h ↦ .pure h
  cases op with
  | not =>
    refine .orElse_left (.expecting (.bind (R := fun _ r ↦ r = rest) (.symbol "!" rfl) ?_))
    exact fun _ _ hr ↦ .pure ⟨hr, rfl⟩
  | neg =>
    refine .orElse_right (.expecting (Fails.symbol rfl ?_).bind_left)
      (.expecting (.bind (R := fun _ r ↦ r = rest) (.symbol "-" rfl) ?_))
    · rintro ⟨⟩
    · exact fun _ _ hr ↦ .pure ⟨hr, rfl⟩

theorem Reads.notArrow {R : Unit → List Char → Prop} (harrow : ¬ "<-".toList <+: input)
    (h : R () input) : Reads notArrow input R := by
  intro n
  refine ⟨(), ⟨n, input⟩, ?_, h⟩
  rw [Grammar.notArrow, if_neg (by simpa using harrow)]

theorem Fails.comparisonOp (h : Quiet input) : Fails comparisonOp (skipped input) := by
  have heq : '=' ∉ (skipped input).head? := fun hc ↦ (h _ hc).1 rfl
  have hne : '!' ∉ (skipped input).head? := fun hc ↦ (h _ hc).2.1 rfl
  have hlt : '<' ∉ (skipped input).head? := fun hc ↦ (h _ hc).2.2.1 rfl
  have hgt : '>' ∉ (skipped input).head? := fun hc ↦ (h _ hc).2.2.2 rfl
  have harrow : ¬ "<-".toList <+: skipped input := by
    rintro ⟨tail, htail⟩
    exact hlt (by rw [← htail]; rfl)
  refine .orElse (.comparison rfl heq) (.orElse (.comparison rfl hne) (.orElse (.comparison rfl hlt)
    (.orElse (.comparison rfl hgt) (.orElse (.expecting ?_) (.comparison rfl hgt)))))
  refine .bind_right (R := fun _ r ↦ r = skipped input) (.notArrow harrow rfl) ?_
  rintro _ _ rfl
  exact (Fails.symbol rfl hlt).bind_left

theorem Reads.comparisonOp (op : CompareOp) :
    Reads comparisonOp (op.symbol.toList ++ ' ' :: rest) fun o r ↦ r = ' ' :: rest ∧ o = op := by
  intro n
  cases op <;> exact ⟨_, _, rfl, rfl, rfl⟩

/-! ### Operands and comparisons -/

theorem Reads.operand (ops : List UnaryOp) {R : Draft → List Char → Prop}
    (hterm : Reads (primary limit inner) input R) (hlimit : ops.length ≤ limit)
    (hsolid : Solid input) (hsign : ∀ c ∈ input.head?, c ≠ '!' ∧ c ≠ '-') :
    Reads (operand limit inner) (ops.flatMap (fun op ↦ op.symbol.toList) ++ input) fun o r ↦
      o.signs.map Sign.op = ops ∧ R o.term r := by
  have hpiece (op : UnaryOp) (tail : List Char) :
      skipped (op.symbol.toList ++ tail) = op.symbol.toList ++ tail := by
    cases op <;> exact skipped_cons tail (by decide) (by decide) (by decide)
  have hinput : ops.flatMap (fun op ↦ op.symbol.toList) ++ input =
      skipped (ops.flatMap (fun op ↦ op.symbol.toList) ++ input) := by
    cases ops with
    | nil => exact hsolid.skipped_eq.symm
    | cons op ops => rw [List.flatMap_cons, List.append_assoc, hpiece]
  refine .bind (.many input (F := fun _ ↦ True) (Q := fun op s ↦ op = s.op) ?_ trivial
    (fun _ _ _ ↦ trivial) (fun op _ tail _ ↦ ?_) hlimit hinput) fun signs r ⟨hr, hops⟩ ↦ ?_
  · rw [hsolid.skipped_eq]
    exact .sign hsign
  · rw [hpiece]
    exact (Reads.sign op).mono fun _ _ ⟨hr, hop⟩ ↦ ⟨by rw [hr], hop.symm⟩
  · refine .bind (.skip (R := fun _ s ↦ s = input) (hr.trans hsolid.skipped_eq)) fun _ _ hs ↦ ?_
    subst hs
    refine hterm.bind fun t r ht ↦ .pure ⟨?_, ht⟩
    have heq := List.forall₂_map_right_iff.mpr hops
    rw [List.forall₂_eq_eq_eq] at heq
    exact heq.symm

theorem skipped_symbol (op : CompareOp) (tail : List Char) :
    skipped (' ' :: (op.symbol.toList ++ tail)) = op.symbol.toList ++ tail := by
  rw [skipped_blank]
  cases op <;> exact skipped_cons _ (by decide) (by decide) (by decide)

/-- An operand and any number of comparisons behind it. -/
theorem Reads.expression_chain {γ : Type} (xs : List γ) (op : γ → CompareOp)
    (text : γ → List Char) {F : List Char → Prop} {P : Operand → Prop} {Q : γ → Operand → Prop}
    (hquiet : Quiet rest) (hseam : F rest)
    (hnext : ∀ x ∈ xs, ∀ tail, F (' ' :: (op x).symbol.toList ++ ' ' :: text x ++ tail))
    (hlimit : xs.length ≤ limit)
    (hfirst : Reads (Grammar.operand limit inner) input fun o r ↦ skipped r =
      skipped (xs.flatMap (fun x ↦ ' ' :: (op x).symbol.toList ++ ' ' :: text x) ++ rest) ∧ P o)
    (hfurther : ∀ x ∈ xs, ∀ tail, F tail → Solid (text x ++ tail) ∧
      Reads (Grammar.operand limit inner) (text x ++ tail) fun o r ↦
        skipped r = skipped tail ∧ Q x o) :
    Reads (expression limit inner) input fun d r ↦ skipped r = skipped rest ∧
      ∃ o os, P o ∧ List.Forall₂ (fun x o ↦ o.1 = op x ∧ Q x o.2) xs os ∧
        d = (Chain.mk o os).toExpr := by
  refine .expecting (hfirst.bind fun o r ⟨hr, ho⟩ ↦ ?_)
  refine .bind (.skip (R := fun _ s ↦ s = skipped _) hr) ?_
  rintro _ _ rfl
  refine .bind (.many rest (F := F) (Q := fun x o ↦ o.1 = op x ∧ Q x o.2)
    (Fails.comparisonOp hquiet).bind_left hseam hnext (fun x hx tail htail ↦ ?_) hlimit rfl) ?_
  · obtain ⟨hsolid, hread⟩ := hfurther x hx tail htail
    have hbetween : skipped (' ' :: (text x ++ tail)) = text x ++ tail := by
      rw [skipped_blank, hsolid.skipped_eq]
    rw [List.append_assoc, List.cons_append, List.cons_append, skipped_symbol]
    refine (Reads.comparisonOp (op x)).bind ?_
    rintro _ _ ⟨rfl, rfl⟩
    refine .bind (.lineEnds (R := fun _ s ↦ s = text x ++ tail) (by rwa [hbetween]) hbetween) ?_
    rintro _ _ rfl
    exact hread.bind fun o' s ⟨hs, ho'⟩ ↦ .pure ⟨hs, rfl, ho'⟩
  · exact fun os r ⟨hr, hos⟩ ↦ .pure ⟨hr, o, os, ho, hos, rfl⟩

/-- An operand and nothing behind it. -/
theorem Reads.expression_operand {P : Operand → Prop} (hquiet : Quiet rest)
    (hfirst : Reads (Grammar.operand limit inner) input fun o r ↦ skipped r = skipped rest ∧ P o) :
    Reads (expression limit inner) input fun d r ↦
      skipped r = skipped rest ∧ ∃ o, P o ∧ d = (Chain.mk o []).toExpr := by
  refine (Reads.expression_chain [] id (fun _ ↦ []) (F := fun _ ↦ True)
    (Q := fun _ _ ↦ True) hquiet trivial (by simp) (Nat.zero_le limit) hfirst (by simp)).mono ?_
  rintro d r ⟨hr, o, _, ho, ⟨⟩, hd⟩
  exact ⟨hr, o, ho, hd⟩

/-! ### Brackets -/

variable {P : Draft → Prop} {body : List Char}

theorem Reads.parenthesised (hsolid : Solid (skipped body))
    (hbody : Reads inner.expression (skipped body) fun d r ↦ skipped r = ')' :: rest ∧ P d) :
    Reads (parenthesised limit inner) ('(' :: body) fun d r ↦ r = rest ∧ P d := by
  refine .symbol_lineEnds "(" _ hsolid (hbody.bind fun d r ⟨hr, hd⟩ ↦ ?_)
  refine .bind (.lineEnds (R := fun _ s ↦ s = ')' :: rest) ?_ hr) ?_
  · rw [hr]
    exact Closed.solid (by rintro c ⟨⟩; simp)
  · rintro _ _ rfl
    exact .bind (.symbol (R := fun _ s ↦ s = rest) ")" rfl) fun _ _ hs ↦ .pure ⟨hs, hd⟩

/-- Separated items, from the first to what stands behind the last. -/
theorem intercalate_append {γ : Type} (between : List Char) (text : γ → List Char) (x : γ)
    (xs : List γ) (rest : List Char) :
    between.intercalate ((x :: xs).map text) ++ rest =
      text x ++ (xs.flatMap (fun y ↦ between ++ text y) ++ rest) := by
  induction xs generalizing x with
  | nil => simp
  | cons y ys ih =>
    rw [List.map_cons, List.map_cons, List.intercalate_cons_cons, List.append_assoc,
      ← List.map_cons, ih, List.flatMap_cons]
    simp

section Items

variable {γ : Type} {text : γ → List Char} {Q : γ → Draft → Prop} {items : List γ}

theorem closed_comma (tail : List Char) : Closed (", ".toList ++ tail) := by
  rintro c ⟨⟩
  exact .inr (.inr (.inr rfl))

theorem closed_parenthesis (tail : List Char) : Closed (')' :: tail) := by
  rintro c ⟨⟩
  exact .inl rfl

/-- Behind an argument stands a comma or the end. -/
theorem closed_arguments (xs : List γ) (rest : List Char) :
    Closed (xs.flatMap (fun y ↦ ", ".toList ++ text y) ++ ')' :: rest) := by
  cases xs with
  | nil => exact closed_parenthesis rest
  | cons y ys =>
    rw [List.flatMap_cons, List.append_assoc, List.append_assoc]
    exact closed_comma _

/-- The arguments of a call, each in front of a comma or of the end. -/
theorem Reads.arguments {x : γ} {xs : List γ}
    (hitem : ∀ y ∈ x :: xs, ∀ tail, Closed tail → Solid (text y ++ tail) ∧
      Reads inner.expression (text y ++ tail) fun d r ↦ skipped r = skipped tail ∧ Q y d)
    (hlimit : xs.length ≤ limit) :
    Reads (arguments limit inner)
      (", ".toList.intercalate ((x :: xs).map text) ++ ')' :: rest)
      fun ds r ↦ skipped r = ')' :: rest ∧ List.Forall₂ Q (x :: xs) ds := by
  have hend := closed_parenthesis rest
  rw [intercalate_append]
  refine .bind (hitem x (by simp) _ (closed_arguments xs rest)).2 fun d r ⟨hr, hd⟩ ↦ ?_
  refine .bind (.skip (R := fun _ s ↦ s = _) hr) ?_
  rintro _ _ rfl
  refine .bind (.many (')' :: rest) (F := Closed) (Q := Q) ?_ hend ?_ ?_ hlimit rfl) ?_
  · refine Fails.bind_right (R := fun _ r ↦ r = skipped (')' :: rest)) ?_ ?_
    · exact .many_nil (.lineEnd hend.skipped.solid) rfl
    · rintro _ _ rfl
      refine .bind_right (.skip (R := fun _ r ↦ r = ')' :: rest) ?_) ?_
      · rw [skipped_skipped, hend.solid.skipped_eq]
      · rintro _ _ rfl
        exact (Fails.symbol rfl (by rintro ⟨⟩)).bind_left
  · intro y _ tail
    rw [List.append_assoc]
    exact closed_comma _
  · intro y hy tail hclosed
    obtain ⟨hsolid, hread⟩ := hitem y (List.mem_cons_of_mem x hy) tail hclosed
    have hpiece := (closed_comma (text y ++ tail)).solid
    rw [List.append_assoc, hpiece.skipped_eq]
    refine .bind (.many_nil (R := fun _ r ↦ r = ", ".toList ++ (text y ++ tail))
      (.lineEnd hpiece) rfl) ?_
    rintro _ _ rfl
    refine .bind (.skip (R := fun _ r ↦ r = ", ".toList ++ (text y ++ tail)) hpiece.skipped_eq) ?_
    rintro _ _ rfl
    have hbehind : skipped (' ' :: (text y ++ tail)) = text y ++ tail := by
      rw [skipped_blank, hsolid.skipped_eq]
    refine .symbol_lineEnds "," (' ' :: (text y ++ tail)) ?_ ?_
    · rwa [hbehind]
    · rwa [hbehind]
  · rintro ds r ⟨hr, hds⟩
    exact .pure ⟨hr.trans hend.solid.skipped_eq, .cons hd hds⟩

/-- A call with any number of arguments. -/
theorem Reads.call {callee : String} (hcallee : IsName callee)
    (hitem : ∀ y ∈ items, ∀ tail, Closed tail → Solid (text y ++ tail) ∧
      Reads inner.expression (text y ++ tail) fun d r ↦ skipped r = skipped tail ∧ Q y d)
    (hfail : Fails inner.expression (')' :: rest)) (hlimit : items.length ≤ limit) :
    Reads (call limit inner)
      (callee.toList ++ '(' :: (", ".toList.intercalate (items.map text) ++ ')' :: rest))
      fun d r ↦ r = rest ∧ ∃ ds span, List.Forall₂ Q items ds ∧
        d = do return .call callee (← ds.mapM id) span := by
  have hend := closed_parenthesis rest
  generalize hbody : ", ".toList.intercalate (items.map text) ++ ')' :: rest = body
  have hsolid : Solid body := by
    rw [← hbody]
    cases items with
    | nil => exact hend.solid
    | cons x xs =>
      rw [intercalate_append]
      exact (hitem x (by simp) _ (closed_arguments xs rest)).1
  have hargs : Reads (Reader.optional (Grammar.arguments limit inner)) body fun as r ↦
      skipped r = ')' :: rest ∧ List.Forall₂ Q items (as.getD []) := by
    rw [← hbody]
    cases items with
    | nil => exact .optional_none (Fails.bind_left hfail) ⟨hend.solid.skipped_eq, .nil⟩
    | cons x xs => exact .optional_some (.arguments hitem (Nat.le_of_succ_le hlimit))
  refine .bind (R := fun a r ↦ r = rest ∧ a.1.1 = callee ∧ List.Forall₂ Q items a.1.2) ?_ ?_
  · refine .spanned (.expecting (.bind (.name (R := fun n r ↦ n = callee ∧ r = '(' :: body) hcallee
      (by rintro c ⟨⟩; rfl) ⟨rfl, rfl⟩) ?_))
    rintro _ _ ⟨rfl, rfl⟩
    refine .bind (.skip (R := fun _ r ↦ r = '(' :: body)
      (skipped_cons body (by decide) (by decide) (by decide))) ?_
    rintro _ _ rfl
    refine .symbol_lineEnds "(" _ (by rwa [hsolid.skipped_eq]) ?_
    rw [hsolid.skipped_eq]
    refine hargs.bind fun as r ⟨hr, has⟩ ↦ ?_
    refine .bind (.lineEnds (R := fun _ r ↦ r = ')' :: rest) (by rw [hr]; exact hend.solid) hr) ?_
    rintro _ _ rfl
    exact .bind (.symbol (R := fun _ s ↦ s = rest) ")" rfl) fun _ _ hs ↦
      .pure fun _ ↦ ⟨hs, rfl, has⟩
  · rintro ⟨⟨_, ds⟩, span⟩ _ ⟨rfl, rfl, hds⟩
    exact .pure ⟨rfl, ds, span, hds, rfl⟩

theorem Reads.separators (body : List Char) {R : Unit → List Char → Prop}
    (hsolid : Solid (skipped body)) (hsemicolon : ';' ∉ (skipped body).head?)
    (h : R () (skipped body)) :
    Reads (separators limit) (';' :: body) R := by
  refine .bind (.orElse_left (.symbol (R := fun _ r ↦ r = body) ";" rfl)) ?_
  rintro _ _ rfl
  refine .bind (.skip (R := fun _ r ↦ r = skipped _) rfl) ?_
  rintro _ _ rfl
  refine .bind (.many_nil (R := fun _ r ↦ r = skipped _) (.separator hsolid hsemicolon) rfl) ?_
  rintro _ _ rfl
  exact .pure h

/-- A semicolon ends what is in front of it. -/
theorem closed_semicolon (y : γ) (tail : List Char) : Closed ("; ".toList ++ (text y ++ tail)) := by
  rintro c ⟨⟩
  exact .inr (.inr (.inl rfl))

/-- A statement behind a semicolon. -/
theorem Reads.furtherStatement {st : Reader Draft} {y : γ} {tail : List Char}
    {R : Draft → List Char → Prop} (hsolid : Solid (text y ++ tail))
    (hsemicolon : ';' ∉ (text y ++ tail).head?) (hread : Reads st (text y ++ tail) R) :
    Reads (do Grammar.separators limit; Reader.skip; st)
      (skipped ("; ".toList ++ (text y ++ tail))) R := by
  have hbehind : skipped (' ' :: (text y ++ tail)) = text y ++ tail := by
    rw [skipped_blank, hsolid.skipped_eq]
  rw [(closed_semicolon y tail).solid.skipped_eq]
  refine .bind (.separators (' ' :: (text y ++ tail)) (R := fun _ r ↦ r = text y ++ tail)
    (by rwa [hbehind]) (by rwa [hbehind]) hbehind) ?_
  rintro _ _ rfl
  refine .bind (.skip (R := fun _ r ↦ r = text y ++ tail) hsolid.skipped_eq) ?_
  rintro _ _ rfl
  exact hread

section Statements

variable {st : Reader Draft}
  (hitem : ∀ y ∈ items, ∀ tail, Ends tail → Solid (text y ++ tail) ∧
    ';' ∉ (text y ++ tail).head? ∧
    Reads st (text y ++ tail) fun d r ↦ skipped r = skipped tail ∧ Q y d)
  (hrest : Ends rest) (hsemicolon : ';' ∉ (skipped rest).head?)

include hrest in
theorem ends_furtherStatements (items : List γ) :
    Ends (items.flatMap (fun y ↦ "; ".toList ++ text y) ++ rest) := by
  cases items with
  | nil => exact hrest
  | cons y ys =>
    rw [List.flatMap_cons, List.append_assoc, List.append_assoc]
    exact (closed_semicolon y _).ends

include hitem hrest hsemicolon

/-- Separators are only read between statements. -/
theorem Fails.separator_statements :
    Fails Grammar.separator (skipped ("; ".toList.intercalate (items.map text) ++ rest)) := by
  cases items with
  | nil => exact .separator hrest.closed.solid hsemicolon
  | cons x xs =>
    obtain ⟨hsolid, hfirst, -⟩ := hitem x (by simp) _ (ends_furtherStatements hrest xs)
    rw [intercalate_append, hsolid.skipped_eq]
    exact .separator hsolid hfirst

theorem Reads.someStatements (hfail : Fails st (skipped rest)) (hlimit : items.length ≤ limit) :
    Reads (Reader.optional do
        let first ← st
        Reader.skip
        let others ← Reader.many limit do
          Grammar.separators limit
          Reader.skip
          st
        return first :: others)
      (skipped ("; ".toList.intercalate (items.map text) ++ rest))
      fun as r ↦ skipped r = skipped rest ∧ List.Forall₂ Q items (as.getD []) := by
  cases items with
  | nil => exact .optional_none hfail.bind_left ⟨skipped_skipped rest, .nil⟩
  | cons x xs =>
    obtain ⟨hsolid, -, hread⟩ := hitem x (by simp) _ (ends_furtherStatements hrest xs)
    rw [intercalate_append, hsolid.skipped_eq]
    refine .optional_some (hread.bind fun d r ⟨hr, hd⟩ ↦ ?_)
    refine .bind (.skip (R := fun _ s ↦ s = _) hr) ?_
    rintro _ _ rfl
    refine .bind (.many rest (F := Ends) (Q := Q) ?_ hrest ?_ ?_
      (Nat.le_of_succ_le hlimit) rfl) ?_
    · exact (Fails.separator hrest.closed.solid hsemicolon).bind_left.bind_left
    · intro y _ tail
      rw [List.append_assoc]
      exact (closed_semicolon y tail).ends
    · intro y hy tail hends
      obtain ⟨hsolid, hfirst, hread⟩ := hitem y (List.mem_cons_of_mem x hy) tail hends
      rw [List.append_assoc]
      exact .furtherStatement hsolid hfirst hread
    · rintro ds r ⟨hr, hds⟩
      exact .pure ⟨hr, .cons hd hds⟩

/-- Statements with semicolons between them, up to the end of their block or of the text. -/
theorem Reads.statements (hfail : Fails st (skipped rest)) (hlimit : items.length ≤ limit) :
    Reads (statements limit st)
      (skipped ("; ".toList.intercalate (items.map text) ++ rest))
      fun ds r ↦ skipped r = skipped rest ∧ List.Forall₂ Q items ds := by
  have hbegin := Fails.separator_statements hitem hrest hsemicolon
  have hstop : Fails separator (skipped rest) := .separator hrest.closed.solid hsemicolon
  refine .expecting (.bind (.many_nil (R := fun _ r ↦ r = skipped _) hbegin rfl) ?_)
  rintro _ _ rfl
  refine .bind (.skip (R := fun _ r ↦ r = skipped _) (skipped_skipped _)) ?_
  rintro _ _ rfl
  refine (Reads.someStatements hitem hrest hsemicolon hfail hlimit).bind fun as r ⟨hr, has⟩ ↦ ?_
  refine .bind (.skip (R := fun _ s ↦ s = skipped rest) hr) ?_
  rintro _ _ rfl
  refine .bind (.many_nil (R := fun _ r ↦ r = skipped rest) hstop rfl) ?_
  rintro _ _ rfl
  exact .pure ⟨skipped_skipped rest, has⟩

end Statements

/-- A block of any number of statements. -/
theorem Reads.block
    (hitem : ∀ y ∈ items, ∀ tail, Ends tail → Solid (text y ++ tail) ∧
      ';' ∉ (text y ++ tail).head? ∧
      Reads inner.statement (text y ++ tail) fun d r ↦ skipped r = skipped tail ∧ Q y d)
    (hfail : Fails inner.statement ('\x7d' :: rest)) (hlimit : items.length ≤ limit) :
    Reads (block limit inner)
      ("\x7b ".toList ++ ("; ".toList.intercalate (items.map text) ++ ' ' :: '\x7d' :: rest))
      fun d r ↦ r = rest ∧ ∃ ds span, List.Forall₂ Q items ds ∧
        d = do return .block (← ds.mapM id) span := by
  have hclosed : Closed ('\x7d' :: rest) := by
    rintro c ⟨⟩
    exact .inr (.inl rfl)
  have hbrace : skipped (' ' :: '\x7d' :: rest) = '\x7d' :: rest := by
    rw [skipped_blank, hclosed.solid.skipped_eq]
  refine .bind (R := fun a r ↦ r = rest ∧ List.Forall₂ Q items a.1) ?_ ?_
  · refine .spanned (.expecting (.bind (.symbol (R := fun _ r ↦ r = ' ' :: _) "\x7b" rfl) ?_))
    rintro _ _ rfl
    refine .bind (.skip (R := fun _ r ↦ r = skipped _) (skipped_blank _)) ?_
    rintro _ _ rfl
    refine .bind (.statements hitem (Ends.blank hclosed) ?_ ?_ hlimit) ?_
    · rw [hbrace]
      rintro ⟨⟩
    · rwa [hbrace]
    · rintro ds r ⟨hr, hds⟩
      refine .bind (.skip (R := fun _ s ↦ s = '\x7d' :: rest) (hr.trans hbrace)) ?_
      rintro _ _ rfl
      exact .bind (.symbol (R := fun _ s ↦ s = rest) "\x7d" rfl) fun _ _ hs ↦
        .pure fun _ ↦ ⟨hs, hds⟩
  · rintro ⟨ds, span⟩ _ ⟨rfl, hds⟩
    exact .pure ⟨rfl, ds, span, hds, rfl⟩

end Items

/-! ### Assignments and conditionals -/

theorem Reads.assignment {n : String} {R : Draft → List Char → Prop} (hn : IsName n)
    (hsolid : Solid body) (hvalue : Reads inner.statement body R) :
    Reads (assignment limit inner) (n.toList ++ (" <- ".toList ++ body)) fun d r ↦
      ∃ v span, R v r ∧ d = do return .assign n (← v) span := by
  have hbody : skipped (' ' :: body) = body := by rw [skipped_blank, hsolid.skipped_eq]
  refine .bind (R := fun a r ↦ a.1.1 = n ∧ R a.1.2 r) ?_ ?_
  · refine .spanned (.expecting (.bind (.name (R := fun m r ↦ m = n ∧ r = " <- ".toList ++ body) hn
      (by rintro c ⟨⟩; rfl) ⟨rfl, rfl⟩) ?_))
    rintro _ _ ⟨rfl, rfl⟩
    refine .bind (.skip (R := fun _ r ↦ r = "<-".toList ++ ' ' :: body)
      ((skipped_blank _).trans (skipped_cons _ (by decide) (by decide) (by decide)))) ?_
    rintro _ _ rfl
    refine .symbol_lineEnds "<-" _ (by rwa [hbody]) ?_
    rw [hbody]
    exact hvalue.bind fun v r hv ↦ .pure fun _ ↦ ⟨rfl, hv⟩
  · rintro ⟨⟨_, v⟩, span⟩ r ⟨rfl, hv⟩
    exact .pure ⟨v, span, hv, rfl⟩

theorem Fails.elseClause (hsolid : Solid input) (h : 'e' ∉ input.head?) :
    Fails (elseClause limit inner) input := by
  refine .expecting (.bind_right (R := fun _ r ↦ r = input) (.many_nil (.lineEnd hsolid) rfl) ?_)
  rintro _ r rfl
  refine .bind_right (R := fun _ s ↦ s = r) (.skip hsolid.skipped_eq) ?_
  rintro _ _ rfl
  exact (Fails.expecting (.lexeme (Token.keyword?_eq_none_of_head rfl h))).bind_left

theorem Reads.elseClause {R : Draft → List Char → Prop} (hsolid : Solid body)
    (hbranch : Reads inner.statement body R) :
    Reads (elseClause limit inner) ("else ".toList ++ body) R := by
  have hbody : skipped (' ' :: body) = body := by rw [skipped_blank, hsolid.skipped_eq]
  have helse : Solid ("else ".toList ++ body) := by
    rintro c ⟨⟩
    decide
  refine .expecting (.bind (.many_nil (R := fun _ r ↦ r = "else ".toList ++ body)
    (.lineEnd helse) rfl) ?_)
  rintro _ _ rfl
  refine .bind (.skip (R := fun _ r ↦ r = "else ".toList ++ body) helse.skipped_eq) ?_
  rintro _ _ rfl
  refine .bind (.expecting (.lexeme (R := fun _ r ↦ r = ' ' :: body) (Token.keyword?_append
    (w := "else") (by decide) (show Bounded (' ' :: body) by rintro c ⟨⟩; rfl)) rfl)) ?_
  rintro _ _ rfl
  refine .bind (.lineEnds (R := fun _ r ↦ r = body) (by rwa [hbody]) hbody) ?_
  rintro _ _ rfl
  exact hbranch

/-- A conditional statement, with whatever stands where a second branch may be. -/
theorem Reads.ifExpression {P Q : Draft → Prop} {branch behind : List Char}
    {R : Option Draft → List Char → Prop} (hcond : Solid body) (hthen : Solid branch)
    (hread : Reads inner.expression body fun d r ↦ skipped r = ')' :: ' ' :: branch ∧ P d)
    (hbranch : Reads inner.statement branch fun d r ↦ skipped r = behind ∧ Q d)
    (helse : Reads (Reader.optional (Grammar.elseClause limit inner)) behind R) :
    Reads (ifExpression limit inner) ("if (".toList ++ body) fun d r ↦
      ∃ c t e span, P c ∧ Q t ∧ R e r ∧ d = ifDraft c t e span := by
  have hsolid : Solid (')' :: ' ' :: branch) := (closed_parenthesis _).solid
  have hspace : skipped (' ' :: branch) = branch := by rw [skipped_blank, hthen.skipped_eq]
  refine .bind (R := fun a r ↦ P a.1.1 ∧ Q a.1.2.1 ∧ R a.1.2.2 r) ?_ ?_
  · refine .spanned (.expecting (.bind (.symbol (R := fun _ r ↦ r = " (".toList ++ body) "if" rfl)
      ?_))
    rintro _ _ rfl
    refine .bind (.skip (R := fun _ r ↦ r = '(' :: body)
      ((skipped_blank _).trans (skipped_cons _ (by decide) (by decide) (by decide)))) ?_
    rintro _ _ rfl
    refine .symbol_lineEnds "(" _ (by rwa [hcond.skipped_eq]) ?_
    rw [hcond.skipped_eq]
    refine hread.bind fun c r ⟨hr, hc⟩ ↦ ?_
    refine .bind (.lineEnds (R := fun _ r ↦ r = ')' :: ' ' :: branch) (by rwa [hr]) hr) ?_
    rintro _ _ rfl
    refine .symbol_lineEnds ")" _ (by rwa [hspace]) ?_
    rw [hspace]
    refine hbranch.bind fun t r ⟨hr, ht⟩ ↦ ?_
    refine .bind (.skip (R := fun _ s ↦ s = behind) hr) ?_
    rintro _ _ rfl
    exact helse.bind fun e r he ↦ .pure fun _ ↦ ⟨hc, ht, he⟩
  · rintro ⟨⟨c, t, e⟩, span⟩ r ⟨hc, ht, he⟩
    exact .pure ⟨c, t, e, span, hc, ht, he, rfl⟩

end AdaptiveTree.Grammar
