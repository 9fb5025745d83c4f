import AdaptiveTree.Proofs.Grammar.Constructs
import AdaptiveTree.Proofs.Grammar.Printed

/-!
Literals and names as they are printed, read back where an operand is expected. What was read is
compared with the expression printed up to spans. The first character of a text settles which of
the alternatives are passed over.
-/

set_option autoImplicit false
set_option relaxedAutoImplicit false

namespace AdaptiveTree.Grammar

open Token (Bounded IsName)

variable {limit : Nat} {inner : Inner} {rest : List Char} {d d' : Draft} {e e' : Expr}

/-! ### Drafts of an expression -/

/-- The draft is the expression, its spans apart. -/
def Draft.Shows (d : Draft) (e : Expr) : Prop := ∃ e', d = .ok e' ∧ e'.bare = e.bare

theorem Draft.Shows.sign (h : d.Shows e) {s : Sign} {span : Span} :
    (Draft.sign s d).Shows (.unary s.op e span) := by
  obtain ⟨e', rfl, he⟩ := h
  exact ⟨_, rfl, by simp only [Expr.bare, he]⟩

theorem Draft.Shows.compare (h : d.Shows e) (h' : d'.Shows e') {op : CompareOp} {span : Span} :
    (Draft.compare op d d').Shows (.compare op e e' span) := by
  obtain ⟨a, rfl, ha⟩ := h
  obtain ⟨b, rfl, hb⟩ := h'
  exact ⟨_, rfl, by simp only [Expr.bare, ha, hb]⟩

theorem shows_mapM {items : List Expr} {ds : List Draft}
    (h : List.Forall₂ (fun e d ↦ Draft.Shows d e) items ds) :
    ∃ es, ds.mapM id = (.ok es : Except OversizedInteger (List Expr)) ∧
      es.map Expr.bare = items.map Expr.bare := by
  induction h with
  | nil => exact ⟨[], rfl, rfl⟩
  | cons hd _ ih =>
    obtain ⟨e', rfl, he⟩ := hd
    obtain ⟨es, hes, heq⟩ := ih
    refine ⟨e' :: es, ?_, by rw [List.map_cons, List.map_cons, he, heq]⟩
    rw [List.mapM_cons, hes]
    rfl

theorem ifDraft_shows {c t : Draft} {cond thenBranch : Expr} {span span' : Span}
    (hc : c.Shows cond) (ht : t.Shows thenBranch) :
    (ifDraft c t none span).Shows (.ifThen cond thenBranch span') := by
  obtain ⟨c', rfl, hc⟩ := hc
  obtain ⟨t', rfl, ht⟩ := ht
  exact ⟨_, rfl, by simp only [Expr.bare, hc, ht]⟩

theorem ifDraft_else_shows {c t b : Draft} {cond thenBranch elseBranch : Expr}
    {span span' : Span} (hc : c.Shows cond) (ht : t.Shows thenBranch) (hb : b.Shows elseBranch) :
    (ifDraft c t (some b) span).Shows (.ifElse cond thenBranch elseBranch span') := by
  obtain ⟨c', rfl, hc⟩ := hc
  obtain ⟨t', rfl, ht⟩ := ht
  obtain ⟨b', rfl, hb⟩ := hb
  exact ⟨_, rfl, by simp only [Expr.bare, hc, ht, hb]⟩

theorem toExpr_sign {s : Sign} {term : Draft} : (Chain.mk ⟨[s], term⟩ []).toExpr = .sign s term :=
  rfl

theorem toExpr_compare {op : CompareOp} {a b : Draft} :
    (Chain.mk ⟨[], a⟩ [(op, ⟨[], b⟩)]).toExpr = .compare op a b := rfl

/-! ### Literals -/

theorem Reads.namedLiteral_of {l : Literal} {w : String}
    (hw : (w, l) ∈ [("NULL", Literal.null), ("NA", .logical .na), ("TRUE", .logical .yes),
      ("FALSE", .logical .no)]) (hrest : Bounded rest) :
    Reads Grammar.namedLiteral (w.toList ++ rest) fun l' r ↦ r = rest ∧ l' = l := by
  have hread {w : String} {l : Literal} (hw : w.toList.all Token.isNameChar = true) :
      Reads (Grammar.wordLiteral w l) (w.toList ++ rest) fun l' r ↦ r = rest ∧ l' = l :=
    .wordLiteral hw hrest ⟨rfl, rfl⟩
  have hfail {v w : String} {l : Literal} (hw : w.toList.all Token.isNameChar = true)
      (hne : w.toList ≠ v.toList) : Fails (Grammar.wordLiteral v l) (w.toList ++ rest) := by
    refine .wordLiteral ?_
    rw [Token.keyword?, Token.word_append (List.all_eq_true.mp hw) hrest, if_neg hne]
  simp only [List.mem_cons, List.not_mem_nil, or_false, Prod.mk.injEq] at hw
  obtain ⟨rfl, rfl⟩ | ⟨rfl, rfl⟩ | ⟨rfl, rfl⟩ | ⟨rfl, rfl⟩ := hw
  · exact .orElse_left (.expecting (hread (by decide)))
  · exact .orElse_right (.expecting (hfail (by decide) (by decide)))
      (.orElse_left (.expecting (hread (by decide))))
  · exact .orElse_right (.expecting (hfail (by decide) (by decide)))
      (.orElse_right (.expecting (hfail (by decide) (by decide)))
        (.expecting (.orElse_left (hread (by decide)))))
  · exact .orElse_right (.expecting (hfail (by decide) (by decide)))
      (.orElse_right (.expecting (hfail (by decide) (by decide)))
        (.expecting (.orElse_right (hfail (by decide) (by decide)) (hread (by decide)))))

theorem Reads.literal_word {w : String} {l : Literal} {s : Span}
    (hw : (w, l) ∈ [("NULL", Literal.null), ("NA", .logical .na), ("TRUE", .logical .yes),
      ("FALSE", .logical .no)]) (hrest : Bounded rest) :
    Reads Grammar.literal (w.toList ++ rest) fun d r ↦ r = rest ∧ d.Shows (.literal l s) := by
  refine .orElse_left (.bind (.spanned (R := fun a r ↦ r = rest ∧ a.1 = l)
    ((namedLiteral_of hw hrest).mono fun _ _ h _ ↦ h)) ?_)
  rintro ⟨_, span⟩ _ ⟨rfl, rfl⟩
  exact .pure ⟨rfl, _, rfl, rfl⟩

/-- No word begins with a digit. -/
theorem Fails.namedLiteral_of_digit {digits tail : List Char} (hsome : digits ≠ [])
    (hdigits : ∀ c ∈ digits, c.isDigit = true) : Fails Grammar.namedLiteral (digits ++ tail) := by
  obtain ⟨c, digits, rfl⟩ := List.exists_cons_of_ne_nil hsome
  have hc := hdigits c (by simp)
  refine .namedLiteral fun w hw ↦ ?_
  simp only [List.mem_cons, List.not_mem_nil, or_false] at hw
  obtain rfl | rfl | rfl | rfl := hw <;>
    exact Token.keyword?_eq_none_of_head rfl (by rintro ⟨⟩; exact absurd hc (by decide))

/-- An integer that is in range. -/
theorem Reads.literal_int {i : Int32} {s : Span} (hi : 0 ≤ i.toInt) :
    Reads Grammar.literal (Nat.toDigits 10 i.toInt.toNat ++ 'L' :: rest) fun d r ↦
      r = rest ∧ d.Shows (.literal (.int i) s) := by
  have hdigits : ∀ c ∈ Nat.toDigits 10 i.toInt.toNat, c.isDigit = true :=
    fun _ ↦ Token.isDigit_of_mem_toDigits
  refine .orElse_right (Fails.spanned
    (.namedLiteral_of_digit Nat.toDigits_ne_nil hdigits)).bind_left (.orElse_left ?_)
  refine .bind (.spanned (R := fun a r ↦ r = rest ∧ a.1.1 = i.toInt.toNat)
    (.expecting (.lexeme (Token.integer?_suffix hdigits Nat.toDigits_ne_nil) fun _ ↦ ⟨rfl, ?_⟩))) ?_
  · exact Token.digitsValue_toDigits _
  · rintro ⟨⟨n, taken⟩, span⟩ _ ⟨rfl, rfl⟩
    have hlt : i.toInt.toNat < 2147483648 := by
      have := i.toInt_lt
      omega
    refine .pure ⟨rfl, .literal (.int i) span, ?_, rfl⟩
    have hsame : Int32.ofNat i.toInt.toNat = i :=
      Int32.ofNat_toNatClampNeg i (Int32.le_iff_toInt_le.mpr hi)
    rw [integerDraft, if_pos hlt, hsame]

theorem ofNatBits_magnitude {d : Double} (hd : d.isNegative = false) :
    Double.ofNatBits d.magnitude = d := by
  have hlt : d.bits.toNat < Double.signBit := Nat.lt_of_not_le (of_decide_eq_false hd)
  rw [Double.magnitude, Nat.mod_eq_of_lt hlt, Double.ofNatBits, UInt64.ofNat_toNat]

/-- The unsigned text of a finite double is read as its magnitude. -/
theorem Reads.literal_double {d : Double} {s : Span} (hd : d.isFinite = true)
    (hrest : Bounded rest) :
    Reads Grammar.literal (d.unsignedText.toList ++ rest) fun e r ↦
      r = rest ∧ e.Shows (.literal (.double (.ofNatBits d.magnitude)) s) := by
  obtain ⟨digits, power, hread, hvalue⟩ := Double.double?_unsignedText hd hrest
  obtain ⟨whole, tail, htext, hsome, hwhole, hpoint⟩ := d.unsignedText_shape
  have htail : ∀ c ∈ (tail ++ rest).head?, c.isDigit = false ∧ c ≠ 'L' := by
    intro c hc
    cases tail with
    | nil =>
      refine ⟨hrest.not_isDigit c hc, ?_⟩
      rintro rfl
      exact absurd (hrest _ hc) (by decide)
    | cons p tail =>
      obtain rfl : p = c := by simpa using hc
      rw [hpoint p rfl]
      decide
  have hinteger : Token.integer? (d.unsignedText.toList ++ rest) = none := by
    rw [htext, List.append_assoc]
    exact Token.integer?_eq_none hwhole (fun c hc ↦ (htail c hc).1) fun c hc ↦ (htail c hc).2
  have hword : Fails Grammar.namedLiteral (d.unsignedText.toList ++ rest) := by
    rw [htext, List.append_assoc]
    exact .namedLiteral_of_digit hsome hwhole
  refine .orElse_right (Fails.spanned hword).bind_left
    (.orElse_right (Fails.spanned (.expecting (.lexeme hinteger))).bind_left ?_)
  refine .bind (.spanned (R := fun a r ↦ r = rest ∧ a.1.1 = (digits, power))
    (.expecting (.lexeme hread fun _ ↦ ⟨rfl, rfl⟩))) ?_
  rintro ⟨⟨⟨_, _⟩, taken⟩, span⟩ _ ⟨rfl, h⟩
  obtain ⟨rfl, rfl⟩ := Prod.mk.inj h
  exact .pure ⟨rfl, .literal (.double (.ofNatBits d.magnitude)) span, by rw [hvalue], rfl⟩

theorem text_eq_unsignedText {d : Double} (hd : (Literal.double d).isWritable = true) :
    d.text = d.unsignedText := by
  obtain ⟨hfinite, hsign⟩ : d.isFinite = true ∧ d.isNegative = false := by
    simpa [Literal.isWritable] using hd
  rw [Double.text_of_isFinite hfinite, hsign]
  rfl

theorem Reads.literal_written {l : Literal} {s : Span} (hl : l.isWritable = true)
    (hrest : Bounded rest) :
    Reads Grammar.literal (l.written ++ rest) fun d r ↦ r = rest ∧ d.Shows (.literal l s) := by
  cases l with
  | null => exact .literal_word (w := "NULL") (by simp) hrest
  | logical l =>
    cases l with
    | no => exact .literal_word (w := "FALSE") (by simp) hrest
    | yes => exact .literal_word (w := "TRUE") (by simp) hrest
    | na => exact .literal_word (w := "NA") (by simp) hrest
  | int i =>
    rw [Literal.written, List.append_assoc]
    exact .literal_int (of_decide_eq_true hl)
  | double d =>
    obtain ⟨hfinite, hsign⟩ : d.isFinite = true ∧ d.isNegative = false := by
      simpa [Literal.isWritable] using hl
    have hread := Reads.literal_double hfinite hrest (s := s)
    rw [ofNatBits_magnitude hsign] at hread
    rw [Literal.written, text_eq_unsignedText hl]
    exact hread

/-! ### First characters -/

theorem Token.IsName.head {n : String} (hn : IsName n) :
    ∃ c tail, n.toList = c :: tail ∧ (c.isAlpha = true ∨ c = '.') :=
  startsName_head hn.spec.1

/-- A literal is a word or begins with digits. -/
theorem written_cases {l : Literal} (hl : l.isWritable = true) :
    (∃ w ∈ ["NULL", "NA", "TRUE", "FALSE"], l.written = w.toList) ∨
    ∃ c tail, l.written = c :: tail ∧ c.isDigit = true := by
  cases l with
  | null => exact .inl ⟨"NULL", by simp, rfl⟩
  | logical l =>
    cases l with
    | no => exact .inl ⟨"FALSE", by simp, rfl⟩
    | yes => exact .inl ⟨"TRUE", by simp, rfl⟩
    | na => exact .inl ⟨"NA", by simp, rfl⟩
  | int i =>
    obtain ⟨c, tail, hc⟩ := List.exists_cons_of_ne_nil
      (Nat.toDigits_ne_nil (b := 10) (n := i.toInt.toNat))
    refine .inr ⟨c, tail ++ ['L'], by rw [Literal.written, hc, List.cons_append], ?_⟩
    exact Token.isDigit_of_mem_toDigits (by rw [hc]; simp)
  | double d =>
    obtain ⟨digits, tail, htext, hsome, hdigits, -⟩ := d.unsignedText_shape
    obtain ⟨c, digits, rfl⟩ := List.exists_cons_of_ne_nil hsome
    refine .inr ⟨c, digits ++ tail, ?_, hdigits c (by simp)⟩
    rw [Literal.written, text_eq_unsignedText hl, htext, List.cons_append]

theorem name?_eq_none_of_digit {c : Char} {tail : List Char} (hc : c.isDigit = true) :
    Token.name? (c :: tail) = none := by
  refine Token.name?_eq_none_of_head ?_
  rintro _ ⟨⟩
  constructor
  · by_contra halpha
    simp [Token.not_isDigit_of_isAlpha (by simpa using halpha)] at hc
  · rintro rfl
    exact absurd hc (by decide)

/-- A literal is no name. -/
theorem name?_written {l : Literal} (hl : l.isWritable = true) (hrest : Bounded rest) :
    Token.name? (l.written ++ rest) = none := by
  obtain ⟨w, hw, hl⟩ | ⟨c, tail, hl, hdigit⟩ := written_cases hl
  · rw [hl]
    simp only [List.mem_cons, List.not_mem_nil, or_false] at hw
    obtain rfl | rfl | rfl | rfl := hw <;>
      exact Token.name?_eq_none_of_keyword (by decide) (by decide) hrest
  · rw [hl]
    exact name?_eq_none_of_digit hdigit

theorem written_head {l : Literal} (hl : l.isWritable = true) :
    ∃ c tail, l.written = c :: tail ∧ c.isAlphanum = true ∧ c ≠ 'i' := by
  obtain ⟨w, hw, hl⟩ | ⟨c, tail, hl, hdigit⟩ := written_cases hl
  · rw [hl]
    simp only [List.mem_cons, List.not_mem_nil, or_false] at hw
    obtain rfl | rfl | rfl | rfl := hw <;> exact ⟨_, _, rfl, by decide, by decide⟩
  · refine ⟨c, tail, hl, by simp [Char.isAlphanum, hdigit], ?_⟩
    rintro rfl
    exact absurd hdigit (by decide)

/-- The characters that an expression without a sign can begin with. -/
def IsOpening (c : Char) : Prop :=
  c.isAlphanum = true ∨ c = '.' ∨ c = '(' ∨ c = '\x7b'

theorem head_name {n : String} (hn : IsName n) (chars : List Char) :
    ∃ c tail, n.toList ++ chars = c :: tail ∧ IsOpening c := by
  obtain ⟨c, tail, hc, hstart⟩ := hn.head
  refine ⟨c, tail ++ chars, by rw [hc, List.cons_append], ?_⟩
  rcases hstart with halpha | hpoint
  · exact .inl (by simp [Char.isAlphanum, halpha])
  · exact .inr (.inl hpoint)

theorem head_printed {statement : Bool} (he : e.isWritable statement = true) :
    (∃ op x s, e = .unary op x s) ∨ ∃ c tail, e.printed = c :: tail ∧ IsOpening c := by
  cases e with
  | unary op x s => exact .inl ⟨op, x, s, rfl⟩
  | literal l s =>
    obtain ⟨c, tail, hc, halnum, -⟩ := written_head he
    exact .inr ⟨c, tail, hc, .inl halnum⟩
  | ident n s =>
    rw [Expr.printed_ident, ← List.append_nil n.toList]
    exact .inr (head_name (of_decide_eq_true he) [])
  | compare op a b s => exact .inr ⟨'(', _, rfl, by simp [IsOpening]⟩
  | call callee args s =>
    simp only [Expr.isWritable, Bool.and_eq_true, decide_eq_true_eq] at he
    exact .inr (head_name he.1 _)
  | assign n v s =>
    simp only [Expr.isWritable, Bool.and_eq_true, decide_eq_true_eq] at he
    rw [Expr.printed_assign, List.append_assoc]
    exact .inr (head_name he.1.2 _)
  | ifThen c t s => exact .inr ⟨'i', _, rfl, .inl rfl⟩
  | ifElse c t e s => exact .inr ⟨'i', _, rfl, .inl rfl⟩
  | block items s => exact .inr ⟨'\x7b', _, rfl, by simp [IsOpening]⟩

theorem IsOpening.solid {c : Char} {tail : List Char} (h : IsOpening c) : Solid (c :: tail) := by
  rintro _ ⟨⟩
  refine ⟨?_, ?_, ?_, ?_, ?_⟩ <;> rintro rfl <;> simp [IsOpening] at h

/-- An expression begins with nothing that is skipped and with no separator. -/
theorem solid_printed {statement : Bool} (he : e.isWritable statement = true)
    (rest : List Char) :
    Solid (e.printed ++ rest) ∧ ';' ∉ (e.printed ++ rest).head? := by
  rcases head_printed he with ⟨op, x, s, rfl⟩ | ⟨c, tail, hc, hopening⟩
  · cases op <;> exact ⟨by rintro c ⟨⟩; decide, by rintro ⟨⟩⟩
  · rw [hc]
    refine ⟨hopening.solid, ?_⟩
    rintro ⟨⟩
    simp [IsOpening] at hopening

theorem printed_ne_nil {statement : Bool} (he : e.isWritable statement = true) :
    e.printed ≠ [] := by
  rcases head_printed he with ⟨op, x, s, rfl⟩ | ⟨c, tail, hc, -⟩
  · cases op <;> simp [Expr.printed_unary, enclosed]
  · rw [hc]
    exact List.cons_ne_nil c tail

/-- Only a sign makes an expression begin with one. -/
theorem no_sign_printed {statement : Bool} (he : e.isWritable statement = true)
    (hterm : ∀ op x s, e ≠ .unary op x s) (rest : List Char) :
    ∀ c ∈ (e.printed ++ rest).head?, c ≠ '!' ∧ c ≠ '-' := by
  rcases head_printed he with ⟨op, x, s, rfl⟩ | ⟨c, tail, hc, hopening⟩
  · exact absurd rfl (hterm op x s)
  · rw [hc]
    rintro _ ⟨⟩
    constructor <;> rintro rfl <;> simp [IsOpening] at hopening

/-! ### Names -/

/-- A name that begins with `if` goes on behind it. -/
theorem if_prefix_name {n : String} {tail : List Char} (hn : IsName n) (hrest : Bounded rest)
    (h : "if".toList ++ tail = n.toList ++ rest) :
    ∃ c chars, tail = c :: chars ∧ Token.isNameChar c = true := by
  have hkeyword : n.toList ≠ "if".toList := by
    intro hif
    exact hn.spec.2.1 (by rw [hif]; decide)
  rcases List.append_eq_append_iff.mp h with ⟨more, hmore, htail⟩ | ⟨more, hmore, hrest'⟩
  · cases more with
    | nil => exact absurd (hmore.trans (List.append_nil _)) hkeyword
    | cons c more =>
      exact ⟨c, more ++ rest, htail, hn.isNameChar c (by rw [hmore]; simp)⟩
  · cases more with
    | nil => exact absurd (hmore.trans (List.append_nil _)).symm hkeyword
    | cons c more =>
      have hc : c ∈ "if".toList := by
        rw [hmore]
        simp
      have hword : "if".toList.all Token.isNameChar = true := by decide
      simpa [List.all_eq_true.mp hword c hc] using hrest c (by rw [hrest']; rfl)

/-- No conditional begins with a name. -/
theorem Fails.ifExpression_name {n : String} (hn : IsName n) (hrest : Bounded rest) :
    Fails (Grammar.ifExpression limit inner) (n.toList ++ rest) := by
  refine (Fails.spanned (.expecting ?_)).bind_left
  by_cases hif : "if".toList <+: n.toList ++ rest
  · obtain ⟨tail, htail⟩ := hif
    obtain ⟨c, chars, rfl, hc⟩ := if_prefix_name hn hrest htail
    have hne (b : Char) (hb : Token.isNameChar b = false) : c ≠ b := by
      rintro rfl
      rw [hc] at hb
      cases hb
    rw [← htail]
    refine .bind_right (.symbol (R := fun _ r ↦ r = c :: chars) "if" rfl) ?_
    rintro _ _ rfl
    refine .bind_right (.skip (R := fun _ r ↦ r = c :: chars)
      (skipped_cons chars (hne _ (by decide)) (hne _ (by decide)) (hne _ (by decide)))) ?_
    rintro _ _ rfl
    refine Fails.bind_left (.symbol rfl ?_)
    rintro ⟨⟩
    exact hne _ (by decide) rfl
  · exact Fails.bind_left (.text hif)

/-- No call begins with a name that no parenthesis follows. -/
theorem Fails.call_name {n : String} (hn : IsName n) (hapart : Apart rest) :
    Fails (Grammar.call limit inner) (n.toList ++ rest) := by
  refine (Fails.spanned (.expecting ?_)).bind_left
  refine .bind_right (.name (R := fun _ r ↦ r = rest) hn hapart.bounded rfl) ?_
  rintro _ _ rfl
  refine .bind_right (.skip (R := fun _ r ↦ r = skipped _) rfl) ?_
  rintro _ _ rfl
  exact Fails.bind_left (.symbol rfl hapart.uncalled)

/-- A name is no literal. -/
theorem Fails.literal_name {n : String} (hn : IsName n) (hrest : Bounded rest) :
    Fails Grammar.literal (n.toList ++ rest) := by
  obtain ⟨c, tail, hc, hstart⟩ := hn.head
  refine .literal (fun w hw ↦ hn.keyword?_eq_none ?_ hrest) (Token.integer?_eq_none_of_head ?_)
    (Token.double?_eq_none_of_startsName (hn.startsName hrest))
  · simp only [List.mem_cons, List.not_mem_nil, or_false] at hw
    obtain rfl | rfl | rfl | rfl := hw <;> decide
  · rw [hc]
    rintro _ ⟨⟩
    rcases hstart with halpha | rfl
    · exact Token.not_isDigit_of_isAlpha halpha
    · rfl

/-- No assignment begins with a name that no arrow follows. -/
theorem Fails.assignment_name {n : String} (hn : IsName n) (hrest : Bounded rest)
    (harrow : ¬ "<-".toList <+: skipped rest) :
    Fails (Grammar.assignment limit inner) (n.toList ++ rest) := by
  refine (Fails.spanned (.expecting ?_)).bind_left
  refine .bind_right (.name (R := fun _ r ↦ r = rest) hn hrest rfl) ?_
  rintro _ _ rfl
  refine .bind_right (.skip (R := fun _ r ↦ r = skipped _) rfl) ?_
  rintro _ _ rfl
  exact Fails.bind_left (.text harrow)

theorem name_not_brace {n : String} (hn : IsName n) : '\x7b' ∉ (n.toList ++ rest).head? := by
  obtain ⟨c, tail, hc, hstart⟩ := hn.head
  rw [hc]
  rintro ⟨⟩
  revert hstart
  decide

/-! ### Operands -/

theorem Reads.primary_literal {R : Draft → List Char → Prop} {input : List Char}
    (hif : 'i' ∉ input.head?) (hblock : '\x7b' ∉ input.head?) (hname : Token.name? input = none)
    (hread : Reads Grammar.literal input R) : Reads (primary limit inner) input R :=
  .orElse_right (.ifExpression hif) (.orElse_right (.block hblock) (.orElse_right (.call hname)
    (.orElse_left hread)))

theorem Reads.primary_written {l : Literal} {s : Span} (hl : l.isWritable = true)
    (hrest : Bounded rest) :
    Reads (primary limit inner) (l.written ++ rest) fun d r ↦
      r = rest ∧ d.Shows (.literal l s) := by
  obtain ⟨c, tail, hc, halnum, hi⟩ := written_head hl
  refine .primary_literal ?_ ?_ (name?_written hl hrest) (.literal_written hl hrest)
  · rw [hc]
    rintro ⟨⟩
    exact hi rfl
  · rw [hc]
    rintro ⟨⟩
    exact absurd halnum (by decide)

theorem Reads.primary_ident {n : String} {s : Span} (hn : IsName n) (hapart : Apart rest) :
    Reads (primary limit inner) (n.toList ++ rest) fun d r ↦ r = rest ∧ d.Shows (.ident n s) := by
  refine .orElse_right (.ifExpression_name hn hapart.bounded) (.orElse_right
    (.block (name_not_brace hn)) (.orElse_right (.call_name hn hapart) (.orElse_right
      (.literal_name hn hapart.bounded) (.orElse_left ?_))))
  refine .bind (.spanned (R := fun a r ↦ r = rest ∧ a.1 = n)
    (.name hn hapart.bounded fun _ ↦ ⟨rfl, rfl⟩)) ?_
  rintro ⟨_, span⟩ _ ⟨rfl, rfl⟩
  exact .pure ⟨rfl, _, rfl, rfl⟩

theorem Reads.primary_call {n : String} {R : Draft → List Char → Prop} (hn : IsName n)
    (hread : Reads (Grammar.call limit inner) (n.toList ++ '(' :: rest) R) :
    Reads (primary limit inner) (n.toList ++ '(' :: rest) R :=
  .orElse_right (.ifExpression_name hn (by rintro c ⟨⟩; rfl)) (.orElse_right
    (.block (name_not_brace hn)) (.orElse_left hread))

theorem Reads.primary_block {R : Draft → List Char → Prop}
    (hread : Reads (Grammar.block limit inner) ('\x7b' :: rest) R) :
    Reads (primary limit inner) ('\x7b' :: rest) R :=
  .orElse_right (.ifExpression (by rintro ⟨⟩)) (.orElse_left hread)

theorem Reads.primary_parenthesised {R : Draft → List Char → Prop}
    (hread : Reads (Grammar.parenthesised limit inner) ('(' :: rest) R) :
    Reads (primary limit inner) ('(' :: rest) R := by
  have hhead : ∀ c ∈ ('(' :: rest).head?, c.isAlphanum = false ∧ c ≠ '.' := by
    rintro c ⟨⟩
    decide
  have hname := Fails.name_of_head hhead
  exact .orElse_right (.ifExpression (by rintro ⟨⟩)) (.orElse_right (.block (by rintro ⟨⟩))
    (.orElse_right (.call hname) (.orElse_right (.literal_of_head hhead)
      (.orElse_right (.identifier hname) hread))))

end AdaptiveTree.Grammar
