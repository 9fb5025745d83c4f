import AdaptiveTree.Operator
import AdaptiveTree.Proofs.Grammar.RoundTrip

/-!
The text of values as programs. The text of an element is a literal, with a minus in front of it
if the element is negative, and missing elements are all written as the missing truth value; the
text of a vector is a call. `Value.expr` is the expression that such a text is read as.
-/

set_option autoImplicit false
set_option relaxedAutoImplicit false

namespace AdaptiveTree

/-! ### Elements and values as expressions -/

namespace Scalar

/-- The expression that the text of an element is read as. -/
def expr : Scalar → Expr
  | logical l => .literal (.logical l) .origin
  | int i =>
    if i = missingInt then .literal (.logical .na) .origin
    else if i.toInt < 0 then .unary .neg (.literal (.int (-i)) .origin) .origin
    else .literal (.int i) .origin
  | double d =>
    if d = .na then .literal (.logical .na) .origin
    else if d.isNegative then
      .unary .neg (.literal (.double (.ofNatBits d.magnitude)) .origin) .origin
    else .literal (.double d) .origin

/-- The elements whose text is an expression: of the doubles, the finite ones and the missing
marker. -/
def isDisplayable : Scalar → Bool
  | double d => d.isFinite || d = .na
  | _ => true

/-- What the text of an element stands for: a missing element is read as a truth value. -/
def reread : Scalar → Scalar
  | logical l => logical l
  | int i => if i = missingInt then logical .na else int i
  | double d => if d = .na then logical .na else double d

end Scalar

namespace Value

/-- The expression that the text of a value is read as. -/
def expr (v : Value) : Expr :=
  match v with
  | null => .literal .null .origin
  | scalar s => s.expr
  | _ => .call "c" (v.elements.map Scalar.expr) .origin

/-- The values that are the answer of their own text. A scalar must not be missing, except for a
truth value, and a vector needs one element of its rank that is not. -/
def isDisplayable : Value → Bool
  | null => true
  | scalar (.logical _) => true
  | scalar (.int i) => i ≠ missingInt
  | scalar (.double d) => d.isFinite
  | logicals items => ! items.isEmpty
  | ints items => items.any (· ≠ missingInt)
  | doubles items => items.all (fun d ↦ d.isFinite || d = .na) && items.any Double.isFinite

end Value

/-! ### Negative numbers -/

theorem neg_toInt {i : Int32} (hi : i ≠ missingInt) : (-i).toInt = -i.toInt := by
  have hle := i.le_toInt
  have hlt := i.toInt_lt
  have hne : i.toInt ≠ -2 ^ 31 := fun h ↦ hi (Int32.toInt_inj.mp h)
  rw [Int32.toInt_neg, Int.bmod_eq_of_le] <;> omega

theorem negateInt_neg {i : Int32} (hi : i.toInt < 0) (hmissing : i ≠ missingInt) :
    negateInt (-i) = i := by
  have hne : -i ≠ missingInt := by
    intro h
    have hpos := neg_toInt hmissing
    rw [h] at hpos
    have hleast : missingInt.toInt = -2147483648 := rfl
    omega
  rw [negateInt, if_neg hne, Int32.neg_neg]

theorem neg_ofNatBits_magnitude {d : Double} (hd : d.isNegative = true) :
    -(Double.ofNatBits d.magnitude) = d := by
  have hge : Double.signBit ≤ d.bits.toNat := of_decide_eq_true hd
  have hlt : d.bits.toNat < 2 ^ 64 := d.bits.toNat_lt
  have hsign : Double.signBit = 2 ^ 63 := rfl
  have hmagnitude : d.magnitude = d.bits.toNat - Double.signBit := by
    rw [Double.magnitude, Nat.mod_eq_sub_mod hge, Nat.mod_eq_of_lt (by omega)]
  have hbits : (Double.ofNatBits d.magnitude).bits.toNat = d.magnitude :=
    UInt64.toNat_ofNat_of_lt (by simp only [UInt64.size]; omega)
  change Double.ofNatBits ((Double.ofNatBits d.magnitude).bits.toNat + Double.signBit) = d
  rw [hbits, hmagnitude, Nat.sub_add_cancel hge, Double.ofNatBits, UInt64.ofNat_toNat]

/-! ### Reading the text of an element -/

namespace Grammar

open Token (Bounded IsName)

variable {limit bound : Nat} {inner : Inner} {rest : List Char}

theorem text_int_of_nonneg {i : Int32} (hmissing : i ≠ missingInt) (hi : 0 ≤ i.toInt) :
    (Scalar.int i).text.toList = (Literal.int i).written := by
  obtain ⟨n, hn⟩ := Int.eq_ofNat_of_zero_le hi
  rw [Scalar.text, if_neg hmissing, String.toList_append, Literal.written, hn, Int.toNat_natCast]
  change n.repr.toList ++ ['L'] = _
  rw [Nat.toList_repr]

theorem text_int_of_neg {i : Int32} (hmissing : i ≠ missingInt) (hi : i.toInt < 0) :
    (Scalar.int i).text.toList = "-".toList ++ (Literal.int (-i)).written := by
  obtain ⟨n, hn⟩ := Int.eq_negSucc_of_lt_zero hi
  have hneg : (-i).toInt.toNat = n + 1 := by
    rw [neg_toInt hmissing, hn]
    rfl
  rw [Scalar.text, if_neg hmissing, String.toList_append, Literal.written, hn, hneg]
  change ("-" ++ (n + 1).repr).toList ++ ['L'] = _
  rw [String.toList_append, Nat.toList_repr, List.append_assoc]

/-- The text is that of a literal, which can stand where an operand is expected. -/
structure Spells (chars rest : List Char) (l : Literal) : Prop where
  solid : Solid (chars ++ rest)
  unmarked : ∀ c ∈ (chars ++ rest).head?, c ≠ '!' ∧ c ≠ '-' ∧ c ≠ ';'
  unnamed : Token.name? (chars ++ rest) = none
  reads : ∀ limit inner, Reads (primary limit inner) (chars ++ rest) fun d r ↦
    skipped r = skipped rest ∧ d.Shows (.literal l .origin)

theorem spells_written {l : Literal} (hl : l.isWritable = true) (hrest : Bounded rest) :
    Spells l.written rest l := by
  have hexpr : (Expr.literal l .origin).isWritable true = true := hl
  obtain ⟨hsolid, hsemicolon⟩ := solid_printed hexpr rest
  refine ⟨hsolid, fun c hc ↦ ?_, name?_written hl hrest, fun limit inner ↦
    (Reads.primary_written hl hrest).mono fun _ _ ⟨hr, hd⟩ ↦ ⟨by rw [hr], hd⟩⟩
  obtain ⟨hnot, hneg⟩ := no_sign_printed hexpr (by nofun) rest c hc
  refine ⟨hnot, hneg, ?_⟩
  rintro rfl
  exact hsemicolon hc

/-- The magnitude of a finite double. -/
theorem spells_unsignedText {d : Double} (hd : d.isFinite = true) (hrest : Bounded rest) :
    Spells d.unsignedText.toList rest (.double (.ofNatBits d.magnitude)) := by
  obtain ⟨digits, tail, htext, hsome, hdigits, -⟩ := d.unsignedText_shape
  obtain ⟨c, digits, rfl⟩ := List.exists_cons_of_ne_nil hsome
  have hc : c.isDigit = true := hdigits c (by simp)
  have hinput : d.unsignedText.toList ++ rest = c :: (digits ++ tail ++ rest) := by
    rw [htext, List.cons_append, List.cons_append]
  have hne (b : Char) (hb : b.isDigit = false) : c ≠ b := by
    rintro rfl
    rw [hc] at hb
    cases hb
  have hname : Token.name? (d.unsignedText.toList ++ rest) = none := by
    rw [hinput]
    exact name?_eq_none_of_digit hc
  refine ⟨?_, ?_, hname, fun limit inner ↦ (Reads.primary_literal ?_ ?_ hname
    (Reads.literal_double hd hrest)).mono fun _ _ ⟨hr, hd⟩ ↦ ⟨by rw [hr], hd⟩⟩ <;> rw [hinput]
  · exact IsOpening.solid (.inl (by simp [Char.isAlphanum, hc]))
  · rintro _ ⟨⟩
    exact ⟨hne _ rfl, hne _ rfl, hne _ rfl⟩
  · rintro ⟨⟩
    exact hne _ rfl rfl
  · rintro ⟨⟩
    exact hne _ rfl rfl

/-- The text is that of an expression, and a statement of its own. -/
structure States (chars rest : List Char) (e : Expr) : Prop where
  solid : Solid (chars ++ rest)
  unseparated : ';' ∉ (chars ++ rest).head?
  unnamed : Token.name? (chars ++ rest) = none
  reads : ∀ limit inner, 0 < limit → ReadsTo (expression limit inner) chars rest e

namespace Spells

variable {chars : List Char} {l : Literal}

theorem states (h : Spells chars rest l) (hends : Ends rest) :
    States chars rest (.literal l .origin) where
  solid := h.solid
  unseparated hc := (h.unmarked _ hc).2.2 rfl
  unnamed := h.unnamed
  reads limit inner _ := .expression h.solid
    (fun c hc ↦ ⟨(h.unmarked c hc).1, (h.unmarked c hc).2.1⟩) hends.closed.quiet
    (h.reads limit inner)

theorem states_neg (h : Spells chars rest l) (hends : Ends rest) :
    States (UnaryOp.neg.symbol.toList ++ chars) rest
      (.unary .neg (.literal l .origin) .origin) where
  solid := by
    rintro c ⟨⟩
    decide
  unseparated := by rintro ⟨⟩
  unnamed := Fails.name_of_head (by rintro c ⟨⟩; decide)
  reads limit inner hlimit := .sign hlimit h.solid
    (fun c hc ↦ ⟨(h.unmarked c hc).1, (h.unmarked c hc).2.1⟩) hends.closed.quiet
    (h.reads limit inner)

end Spells

/-- The text of an element is read as its expression. -/
theorem states_element {s : Scalar} (hs : s.isDisplayable = true) (hends : Ends rest) :
    States s.text.toList rest s.expr := by
  have hmissing : States "NA".toList rest (.literal (.logical .na) .origin) :=
    (spells_written (show (Literal.logical .na).isWritable = true from rfl) hends.bounded).states
      hends
  cases s with
  | logical l =>
    have hwritable : (Literal.logical l).isWritable = true := rfl
    exact (spells_written hwritable hends.bounded).states hends
  | int i =>
    rw [Scalar.expr]
    split_ifs with hi hneg
    · rw [Scalar.text, if_pos hi]
      exact hmissing
    · have hwritable : (Literal.int (-i)).isWritable = true := by
        rw [Literal.isWritable, neg_toInt hi, decide_eq_true_eq]
        omega
      rw [text_int_of_neg hi hneg]
      exact (spells_written hwritable hends.bounded).states_neg hends
    · have hwritable : (Literal.int i).isWritable = true := decide_eq_true (Int.not_lt.mp hneg)
      rw [text_int_of_nonneg hi (Int.not_lt.mp hneg)]
      exact (spells_written hwritable hends.bounded).states hends
  | double d =>
    rw [Scalar.expr]
    split_ifs with hna hneg
    · rw [hna]
      exact hmissing
    all_goals
      have hfinite : d.isFinite = true := by simpa [Scalar.isDisplayable, hna] using hs
      rw [Scalar.text, Double.text_of_isFinite hfinite]
    · rw [if_pos hneg, String.toList_append]
      exact (spells_unsignedText hfinite hends.bounded).states_neg hends
    · have hsign : d.isNegative = false := Bool.eq_false_iff.mpr hneg
      have hstates := (spells_unsignedText hfinite hends.bounded).states hends
      rw [ofNatBits_magnitude hsign] at hstates
      simpa [hsign] using hstates

/-! ### Reading the text of a value -/

/-- The text of a vector is read as a call. -/
theorem readsTo_vector {items : List Scalar} (hitems : ∀ s ∈ items, s.isDisplayable = true)
    (hcount : items.length ≤ limit) (hends : Ends rest) :
    ReadsTo (expression limit (language (bound + 1)))
      ("c(".toList ++ ", ".toList.intercalate (items.map fun s ↦ s.text.toList) ++ [')']) rest
      (.call "c" (items.map Scalar.expr) .origin) := by
  have hname : IsName "c" := by decide
  refine .expression (by rintro c ⟨⟩; decide) (by rintro c ⟨⟩; decide) hends.closed.quiet ?_
  have htext : "c(".toList ++ ", ".toList.intercalate (items.map fun s ↦ s.text.toList) ++ [')'] ++
      rest = "c".toList ++
        '(' :: (", ".toList.intercalate (items.map fun s ↦ s.text.toList) ++ ')' :: rest) := by
    simp
  rw [htext]
  refine .primary_call hname ((Reads.call (Q := fun s d ↦ d.Shows s.expr) hname ?_ ?_ hcount).mono
    ?_)
  · intro s hs tail hclosed
    have hstates := states_element (hitems s hs) hclosed.ends
    exact ⟨hstates.solid, hstates.reads _ _ (Nat.succ_pos bound)⟩
  · exact .expression (closed_parenthesis rest)
  · rintro d r ⟨rfl, ds, span, hds, rfl⟩
    obtain ⟨es, hes, hbare⟩ := shows_mapM (List.forall₂_map_left_iff.mpr hds)
    refine ⟨rfl, .call "c" es span, by rw [hes]; rfl, ?_⟩
    simp only [Expr.bare, Expr.bareAll_eq_map, hbare]

theorem parse_of_states {source : String} {e : Expr}
    (h : ∀ rest, Ends rest → States source.toList rest e) :
    ∃ e', parse source = .ok e' ∧ e'.bare = (Expr.block [e] .origin).bare :=
  parse_of_statement (fun rest hends ↦ ⟨(h rest hends).solid, (h rest hends).unseparated⟩)
    fun rest hends ↦ .statement (.assignment (h rest hends).unnamed)
      ((h rest hends).reads _ _ (Nat.succ_pos _))

theorem parse_of_vector {source : String} {items : List Scalar}
    (htext : source.toList =
      "c(".toList ++ ", ".toList.intercalate (items.map fun s ↦ s.text.toList) ++ [')'])
    (hitems : ∀ s ∈ items, s.isDisplayable = true) :
    ∃ e, parse source = .ok e ∧
      e.bare = (Expr.block [.call "c" (items.map Scalar.expr) .origin] .origin).bare := by
  have hlength : source.length = ("c(".toList ++
      ", ".toList.intercalate (items.map fun s ↦ s.text.toList) ++ [')']).length := by
    rw [← htext, String.length_toList]
  have hcount : items.length ≤
      (", ".toList.intercalate (items.map fun s ↦ s.text.toList)).length := by
    refine count_le_intercalate (fun s : Scalar ↦ s.text.toList) ", ".toList items
      fun s hs hnil ↦ ?_
    have hread := (states_element (hitems s hs) (closed_parenthesis []).ends).reads 1 (language 0)
      Nat.one_pos
    rw [hnil] at hread
    exact hread.not_fails (.expression (closed_parenthesis []))
  have hmarks : "c(".toList.length = 2 := rfl
  rw [List.length_append, List.length_append, hmarks] at hlength
  obtain ⟨bound, hbound⟩ : ∃ bound, source.length = bound + 1 := ⟨source.length - 1, by omega⟩
  refine parse_of_statement (fun rest hends ↦ ?_) fun rest hends ↦ ?_
  · rw [htext]
    exact ⟨by rintro c ⟨⟩; decide, by rintro ⟨⟩⟩
  · rw [htext, hbound]
    refine .statement ?_ (readsTo_vector hitems (by omega) hends)
    refine .assignment_name (show IsName "c" by decide) (by rintro c ⟨⟩; rfl) ?_
    rintro ⟨tail, ⟨⟩⟩

/-- The text of a vector that has elements. -/
theorem text_vector {v : Value} (hvector : v.isScalar = false) (hsome : v.elements ≠ []) :
    v.text.toList =
      "c(".toList ++ ", ".toList.intercalate (v.elements.map fun s ↦ s.text.toList) ++ [')'] := by
  cases v with
  | null => exact absurd rfl hsome
  | scalar s => cases hvector
  | _ =>
    rw [Value.text, if_neg (by simpa using hsome)]
    simp [String.toList_intercalate, List.map_map, Function.comp_def]
    all_goals nofun

/-- The text of a value is a program of the one expression that it is read as. -/
theorem parse_text {v : Value} (hv : v.isDisplayable = true) :
    ∃ e, parse v.text = .ok e ∧ e.bare = (Expr.block [v.expr] .origin).bare := by
  have hvector (hvector : v.isScalar = false) (hsome : v.elements ≠ [])
      (hitems : ∀ s ∈ v.elements, s.isDisplayable = true) :
      ∃ e, parse v.text = .ok e ∧
        e.bare = (Expr.block [.call "c" (v.elements.map Scalar.expr) .origin] .origin).bare :=
    parse_of_vector (text_vector hvector hsome) hitems
  cases v with
  | null =>
    exact parse_of_states fun rest hends ↦
      (spells_written (show Literal.null.isWritable = true from rfl) hends.bounded).states hends
  | scalar s =>
    refine parse_of_states fun rest hends ↦ states_element ?_ hends
    cases s with
    | double d => simpa [Scalar.isDisplayable] using .inl hv
    | _ => rfl
  | logicals items =>
    refine hvector rfl (by simpa [Value.isDisplayable, Value.elements] using hv) ?_
    simp [Value.elements, Scalar.isDisplayable]
  | ints items =>
    obtain ⟨i, hi, -⟩ := List.any_eq_true.mp hv
    refine hvector rfl (List.ne_nil_of_mem (List.mem_map_of_mem hi)) ?_
    simp [Value.elements, Scalar.isDisplayable]
  | doubles items =>
    obtain ⟨hall, hsome⟩ := (Bool.and_eq_true _ _).mp hv
    obtain ⟨d, hd, -⟩ := List.any_eq_true.mp hsome
    refine hvector rfl (List.ne_nil_of_mem (List.mem_map_of_mem hd)) ?_
    simpa [Value.elements, Scalar.isDisplayable] using hall

end Grammar

end AdaptiveTree
