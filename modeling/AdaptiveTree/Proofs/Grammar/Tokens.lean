import Mathlib.Data.List.TakeWhile
import AdaptiveTree.Grammar.Token
import AdaptiveTree.Proofs.Double.Decimal

/-!
The shapes of written numbers and names. In front of a character that belongs to no name, an
integer with its suffix is read as that integer, a name as that name, and the positional text of
a decimal as a decimal of the same value.
-/

set_option autoImplicit false
set_option relaxedAutoImplicit false

namespace AdaptiveTree

namespace Grammar.Token

variable {digits tail rest : List Char}

/-- No name, word or number goes on into such a text. -/
def Bounded (rest : List Char) : Prop := ∀ c ∈ rest.head?, isNameChar c = false

theorem Bounded.not_isDigit (h : Bounded rest) : ∀ c ∈ rest.head?, c.isDigit = false := by
  intro c hc
  have hname := h c hc
  simp only [isNameChar, Char.isAlphanum, Bool.or_eq_false_iff] at hname
  exact hname.1.1.2

theorem takeWhile_stop {p : Char → Bool} (hstop : ∀ c ∈ tail.head?, p c = false) :
    tail.takeWhile p = [] := by
  cases tail with
  | nil => rfl
  | cons c tail => simp [hstop c rfl]

theorem dropWhile_stop {p : Char → Bool} (hstop : ∀ c ∈ tail.head?, p c = false) :
    tail.dropWhile p = tail := by
  cases tail with
  | nil => rfl
  | cons c tail => simp [hstop c rfl]

theorem takeWhile_append_stop {p : Char → Bool} (hall : ∀ c ∈ digits, p c = true)
    (hstop : ∀ c ∈ tail.head?, p c = false) : (digits ++ tail).takeWhile p = digits := by
  rw [List.takeWhile_append_of_pos hall, takeWhile_stop hstop, List.append_nil]

theorem dropWhile_append_stop {p : Char → Bool} (hall : ∀ c ∈ digits, p c = true)
    (hstop : ∀ c ∈ tail.head?, p c = false) : (digits ++ tail).dropWhile p = tail := by
  rw [List.dropWhile_append_of_pos hall, dropWhile_stop hstop]

/-! ### Digits -/

theorem isDigit_of_mem_toDigits {n : Nat} {c : Char} (h : c ∈ Nat.toDigits 10 n) :
    c.isDigit = true :=
  Nat.isDigit_of_mem_toDigits (by decide) (by decide) h

theorem digitsValue_eq (digits : List Char) : digitsValue digits = Nat.ofDigitChars 10 digits 0 :=
  rfl

@[simp]
theorem digitsValue_toDigits (n : Nat) : digitsValue (Nat.toDigits 10 n) = n := by
  rw [digitsValue_eq, Nat.ofDigitChars_ten_toDigits]

theorem digitsValue_append_zeros (digits : List Char) (k : Nat) :
    digitsValue (digits ++ List.replicate k '0') = digitsValue digits * 10 ^ k := by
  rw [digitsValue_eq, Nat.ofDigitChars_append, Nat.ofDigitChars_replicate_zero, Nat.mul_comm]
  rfl

theorem digitsValue_zeros_append (digits : List Char) (k : Nat) :
    digitsValue (List.replicate k '0' ++ digits) = digitsValue digits := by
  rw [digitsValue_eq, Nat.ofDigitChars_append, Nat.ofDigitChars_replicate_zero, Nat.mul_zero]
  rfl

/-! ### Integers -/

theorem integer?_suffix (hdigits : ∀ c ∈ digits, c.isDigit = true) (hsome : digits ≠ []) :
    integer? (digits ++ 'L' :: rest) = some (digitsValue digits, digits ++ ['L'], rest) := by
  have htail : ∀ c ∈ ('L' :: rest).head?, c.isDigit = false := by
    rintro c ⟨⟩
    rfl
  unfold integer?
  rw [takeWhile_append_stop hdigits htail, dropWhile_append_stop hdigits htail]
  obtain ⟨c, digits, rfl⟩ := List.exists_cons_of_ne_nil hsome
  rfl

theorem integer?_eq_none (hdigits : ∀ c ∈ digits, c.isDigit = true)
    (htail : ∀ c ∈ tail.head?, c.isDigit = false) (hsuffix : ∀ c ∈ tail.head?, c ≠ 'L') :
    integer? (digits ++ tail) = none := by
  unfold integer?
  rw [takeWhile_append_stop hdigits htail, dropWhile_append_stop hdigits htail]
  dsimp only
  split
  · exact absurd rfl (hsuffix 'L' rfl)
  · rfl

/-! ### Numbers with or without a point -/

theorem exponent?_eq_none (h : Bounded rest) : exponent? rest = none := by
  cases rest with
  | nil => rfl
  | cons c rest =>
    have hletter : (c = 'e' || c = 'E') = false := by
      rw [Bool.or_eq_false_iff]
      constructor <;> refine decide_eq_false ?_ <;> rintro rfl <;>
        exact absurd (h _ rfl) (by decide)
    simp [exponent?, hletter]

theorem mantissa?_whole (hdigits : ∀ c ∈ digits, c.isDigit = true) (hsome : digits ≠ [])
    (htail : ∀ c ∈ tail.head?, c.isDigit = false ∧ c ≠ '.') :
    mantissa? (digits ++ tail) = some ((digits, 0), digits, tail) := by
  have hdigit : ∀ c ∈ tail.head?, c.isDigit = false := fun c hc ↦ (htail c hc).1
  unfold mantissa?
  rw [takeWhile_append_stop hdigits hdigit, dropWhile_append_stop hdigits hdigit]
  obtain ⟨d, digits, rfl⟩ := List.exists_cons_of_ne_nil hsome
  cases tail with
  | nil => rfl
  | cons c tail =>
    have hpoint : c ≠ '.' := (htail c rfl).2
    dsimp only
    split
    · next h _ => cases h
    · next h _ => cases h
    · simp_all
    · rfl

theorem mantissa?_point {places : List Char} (hdigits : ∀ c ∈ digits, c.isDigit = true)
    (hsome : digits ≠ []) (hplaces : ∀ c ∈ places, c.isDigit = true)
    (htail : ∀ c ∈ tail.head?, c.isDigit = false) :
    mantissa? (digits ++ '.' :: places ++ tail) =
      some ((digits ++ places, places.length), digits ++ '.' :: places, tail) := by
  have hpoint : ∀ c ∈ ('.' :: (places ++ tail)).head?, c.isDigit = false := by
    rintro c ⟨⟩
    rfl
  unfold mantissa?
  rw [List.append_assoc, List.cons_append, takeWhile_append_stop hdigits hpoint,
    dropWhile_append_stop hdigits hpoint]
  obtain ⟨d, digits, rfl⟩ := List.exists_cons_of_ne_nil hsome
  simp only
  rw [takeWhile_append_stop hplaces htail, dropWhile_append_stop hplaces htail]

theorem Bounded.ne_point (h : Bounded rest) : ∀ c ∈ rest.head?, c ≠ '.' := by
  rintro c hc rfl
  exact absurd (h _ hc) (by decide)

theorem double?_whole (hdigits : ∀ c ∈ digits, c.isDigit = true) (hsome : digits ≠ [])
    (hrest : Bounded rest) :
    double? (digits ++ rest) = some ((digitsValue digits, 0), digits, rest) := by
  rw [double?, mantissa?_whole hdigits hsome fun c hc ↦
    ⟨hrest.not_isDigit c hc, hrest.ne_point c hc⟩]
  simp [exponent?_eq_none hrest]

theorem double?_point {places : List Char} (hdigits : ∀ c ∈ digits, c.isDigit = true)
    (hsome : digits ≠ []) (hplaces : ∀ c ∈ places, c.isDigit = true) (hrest : Bounded rest) :
    double? (digits ++ '.' :: places ++ rest) =
      some ((digitsValue (digits ++ places), -(places.length : Int)), digits ++ '.' :: places,
        rest) := by
  rw [double?, mantissa?_point hdigits hsome hplaces hrest.not_isDigit]
  simp [exponent?_eq_none hrest]

theorem not_isDigit_of_isAlpha {c : Char} (h : c.isAlpha = true) : c.isDigit = false := by
  -- the tests are intervals of character numbers, and the digits come first
  have hnot : ∀ d : Char, ¬ d.val ≤ '9'.val → d.val ≤ c.val → c.isDigit = false := by
    intro d hd hdc
    by_contra hdigit
    have hbounds := (Bool.and_eq_true _ _).mp (Bool.eq_true_of_not_eq_false hdigit)
    exact hd (UInt32.le_trans hdc (of_decide_eq_true hbounds.2))
  rcases (Bool.or_eq_true _ _).mp h with hupper | hlower
  · exact hnot 'A' (by decide) (of_decide_eq_true hupper).1
  · exact hnot 'a' (by decide) (of_decide_eq_true ((Bool.and_eq_true _ _).mp hlower).1)

theorem integer?_eq_none_of_head {chars : List Char}
    (h : ∀ c ∈ chars.head?, c.isDigit = false) : integer? chars = none := by
  unfold integer?
  rw [takeWhile_stop h]

/-- No number begins with anything but a digit or a point. -/
theorem double?_eq_none_of_head {chars : List Char}
    (h : ∀ c ∈ chars.head?, c.isDigit = false ∧ c ≠ '.') : double? chars = none := by
  have hdigit : ∀ c ∈ chars.head?, c.isDigit = false := fun c hc ↦ (h c hc).1
  have hmantissa : mantissa? chars = none := by
    unfold mantissa?
    rw [takeWhile_stop hdigit, dropWhile_stop hdigit]
    dsimp only
    split
    · exact absurd rfl (h '.' rfl).2
    · rfl
    · simp_all
    · simp_all
  rw [double?, hmantissa]

/-- What begins like a name is no number. -/
theorem startsName_head {chars : List Char} (h : startsName chars = true) :
    ∃ c tail, chars = c :: tail ∧ (c.isAlpha = true ∨ c = '.') := by
  unfold startsName at h
  split at h
  · exact ⟨_, _, rfl, .inr rfl⟩
  · exact ⟨_, _, rfl, .inr rfl⟩
  · exact ⟨_, _, rfl, .inl h⟩
  · cases h

theorem double?_eq_none_of_startsName {chars : List Char} (h : startsName chars = true) :
    double? chars = none := by
  have hpoint {rest : List Char} (hrest : ∀ c ∈ rest.head?, c.isDigit = false) :
      mantissa? ('.' :: rest) = none := by
    simp [mantissa?, takeWhile_stop hrest, Char.isDigit]
  unfold startsName at h
  split at h
  · rw [double?, hpoint]
    rintro c ⟨⟩
    simpa using h
  · rw [double?, hpoint]
    rintro c ⟨⟩
  · refine double?_eq_none_of_head ?_
    rintro c ⟨⟩
    refine ⟨not_isDigit_of_isAlpha h, ?_⟩
    rintro rfl
    exact absurd h (by decide)
  · cases h

/-! ### Words -/

theorem word_append {chars : List Char} (hall : ∀ c ∈ chars, isNameChar c = true)
    (hrest : Bounded rest) : word (chars ++ rest) = chars :=
  takeWhile_append_stop hall hrest

theorem keyword?_append {w : String} (hall : w.toList.all isNameChar = true)
    (hrest : Bounded rest) : keyword? w (w.toList ++ rest) = some ((), w.toList, rest) := by
  rw [List.all_eq_true] at hall
  unfold keyword?
  rw [word_append hall hrest, if_pos rfl, dropWhile_append_stop hall hrest]

/-- A word is no keyword of another first letter. -/
theorem keyword?_eq_none_of_head {w : String} {chars : List Char} {c : Char}
    (hw : w.toList.head? = some c) (h : c ∉ chars.head?) : keyword? w chars = none := by
  unfold keyword?
  refine if_neg fun hword ↦ h ?_
  rw [← hword, word, List.head?_takeWhile, Option.filter_eq_some_iff] at hw
  exact hw.1

theorem name?_eq_none_of_head {chars : List Char}
    (h : ∀ c ∈ chars.head?, c.isAlpha = false ∧ c ≠ '.') : name? chars = none := by
  have hstarts : startsName chars = false := by
    unfold startsName
    split
    · exact absurd rfl (h '.' rfl).2
    · exact absurd rfl (h '.' rfl).2
    · next c rest _ _ => exact (h c rfl).1
    · rfl
  simp [name?, hstarts]

theorem name?_eq_none_of_keyword {w : String} (hw : w.toList ∈ keywords)
    (hall : w.toList.all isNameChar = true) (hrest : Bounded rest) :
    name? (w.toList ++ rest) = none := by
  simp [name?, word_append (List.all_eq_true.mp hall) hrest, hw]

/-- A text that is one name. -/
def IsName (n : String) : Prop := name? n.toList = some (n, n.toList, [])

instance (n : String) : Decidable (IsName n) := inferInstanceAs (Decidable (_ = _))

namespace IsName

variable {n : String}

theorem spec (h : IsName n) :
    startsName n.toList = true ∧ n.toList ∉ keywords ∧ n.toList.dropWhile isNameChar = [] := by
  unfold IsName name? at h
  split_ifs at h with hname
  simp only [Bool.and_eq_true, Bool.not_eq_true', List.contains_eq_mem, decide_eq_false_iff_not]
    at hname
  obtain ⟨-, hword, hleft⟩ := by simpa using h
  rw [hword] at hname
  exact ⟨hname.1, hname.2, by simpa using hleft⟩

theorem isNameChar (h : IsName n) : ∀ c ∈ n.toList, isNameChar c = true :=
  List.dropWhile_eq_nil_iff.mp h.spec.2.2

theorem startsName (h : IsName n) (hrest : Bounded rest) :
    startsName (n.toList ++ rest) = true := by
  have hstarts := h.spec.1
  cases hn : n.toList with
  | nil => simp [hn, Token.startsName] at hstarts
  | cons c chars =>
    rw [hn] at hstarts
    by_cases hpoint : c = '.'
    · subst hpoint
      cases chars with
      | nil =>
        cases rest with
        | nil => rfl
        | cons c rest => simpa [Token.startsName] using hrest.not_isDigit
      | cons c chars => exact hstarts
    · simp_all [Token.startsName]

theorem name?_append (h : IsName n) (hrest : Bounded rest) :
    name? (n.toList ++ rest) = some (n, n.toList, rest) := by
  unfold name?
  rw [word_append h.isNameChar hrest, dropWhile_append_stop h.isNameChar hrest]
  simp [h.startsName hrest, h.spec.2.1]

theorem keyword?_eq_none (h : IsName n) {w : String} (hw : w.toList ∈ keywords)
    (hrest : Bounded rest) : keyword? w (n.toList ++ rest) = none := by
  unfold keyword?
  rw [word_append h.isNameChar hrest]
  refine if_neg fun hn ↦ h.spec.2.1 ?_
  rwa [hn]

end IsName

end Grammar.Token

/-! ### Decimals -/

namespace Double

open Grammar.Token

theorem digitCount_mul_ten_pow {n : Nat} (hn : n ≠ 0) (k : Nat) :
    digitCount (n * 10 ^ k) = digitCount n + k := by
  have hlength (m : Nat) : 0 < digitCount m := Nat.length_toDigits_pos
  have hle (j : Nat) (hj : 0 < j) : digitCount (n * 10 ^ k) ≤ j + k ↔ digitCount n ≤ j := by
    rw [digitCount_le_iff (by omega), digitCount_le_iff hj, pow_add,
      Nat.mul_lt_mul_right (Nat.pow_pos (by decide))]
  apply Nat.le_antisymm
  · exact (hle _ (hlength n)).mpr le_rfl
  · by_contra hless
    have hmore : k < digitCount (n * 10 ^ k) := by
      by_contra hfew
      have h := (digitCount_le_iff (hlength (n * 10 ^ k))).mp le_rfl
      have hpow : 10 ^ digitCount (n * 10 ^ k) ≤ 10 ^ k :=
        Nat.pow_le_pow_right (by decide) (by omega)
      exact absurd (h.trans_le hpow) (Nat.not_lt.mpr (Nat.le_mul_of_pos_left _ (by omega)))
    have h := (hle (digitCount (n * 10 ^ k) - k) (by omega)).mp (by omega)
    omega

/-- Zeros behind a number stand for a power of ten. -/
theorem ofDecimal_mul_ten_pow (n k : Nat) : ofDecimal (n * 10 ^ k) 0 = ofDecimal n k := by
  by_cases hn : n = 0
  · simp [hn, ofDecimal]
  · have hmul : n * 10 ^ k ≠ 0 := Nat.mul_ne_zero hn (Nat.pow_pos (by decide)).ne'
    have hone : tenTo 0 = 1 := rfl
    have hten : tenTo k = 10 ^ k := rfl
    unfold ofDecimal
    rw [if_neg hn, if_neg hmul, digitCount_mul_ten_pow hn, Int.toNat_zero, neg_zero,
      Int.toNat_zero, Int.toNat_natCast, Int.toNat_neg_natCast, hone, hten, Nat.mul_one,
      Int.natCast_add, add_zero]

/-- Positional text is digits alone, or digits on both sides of a point. -/
theorem Decimal.text_cases (x : Decimal) :
    (∃ k : Nat, x.power = k ∧ x.text.toList ≠ [] ∧ (∀ c ∈ x.text.toList, c.isDigit = true) ∧
      digitsValue x.text.toList = x.digits * 10 ^ k) ∨
    ∃ whole places, x.text.toList = whole ++ '.' :: places ∧ whole ≠ [] ∧
      (∀ c ∈ whole, c.isDigit = true) ∧ (∀ c ∈ places, c.isDigit = true) ∧
      digitsValue (whole ++ places) = x.digits ∧ x.power = -(places.length : Int) := by
  unfold Decimal.text
  dsimp only
  split_ifs with hpower
  · left
    obtain ⟨k, hk⟩ := Int.eq_ofNat_of_zero_le hpower
    rw [hk, Int.toNat_natCast, String.toList_ofList]
    refine ⟨k, rfl, by simp [Nat.toDigits_ne_nil], ?_, ?_⟩
    · intro c hc
      rcases List.mem_append.mp hc with hc | hc
      · exact isDigit_of_mem_toDigits hc
      · rw [List.eq_of_mem_replicate hc]
        rfl
    · rw [digitsValue_append_zeros, digitsValue_toDigits]
  · right
    generalize hplaces : (-x.power).toNat = places
    generalize hpadded : List.replicate (places + 1 - (Nat.toDigits 10 x.digits).length) '0' ++
      Nat.toDigits 10 x.digits = padded
    have hlength : places < padded.length := by
      rw [← hpadded, List.length_append, List.length_replicate]
      omega
    have hdigits : ∀ c ∈ padded, c.isDigit = true := by
      intro c hc
      rw [← hpadded] at hc
      rcases List.mem_append.mp hc with hc | hc
      · rw [List.eq_of_mem_replicate hc]
        rfl
      · exact isDigit_of_mem_toDigits hc
    rw [String.toList_ofList]
    refine ⟨_, _, rfl, List.ne_nil_of_length_pos ?_,
      fun c hc ↦ hdigits c (List.mem_of_mem_take hc),
      fun c hc ↦ hdigits c (List.mem_of_mem_drop hc), ?_, ?_⟩
    · rw [List.length_take]
      omega
    · rw [List.take_append_drop, ← hpadded, digitsValue_zeros_append, digitsValue_toDigits]
    · rw [List.length_drop]
      omega

/-- The text of a decimal reads back as a decimal of its value. -/
theorem double?_text (x : Decimal) {rest : List Char} (hrest : Bounded rest) :
    ∃ digits power, double? (x.text.toList ++ rest) = some ((digits, power), x.text.toList, rest) ∧
      ofDecimal digits power = ofDecimal x.digits x.power := by
  rcases x.text_cases with ⟨k, hpower, hsome, hdigits, hvalue⟩ |
    ⟨whole, places, htext, hsome, hwhole, hplaces, hvalue, hpower⟩
  · refine ⟨_, _, double?_whole hdigits hsome hrest, ?_⟩
    rw [hvalue, hpower, ofDecimal_mul_ten_pow]
  · rw [htext]
    refine ⟨_, _, double?_point hwhole hsome hplaces hrest, ?_⟩
    rw [hvalue, hpower]

/-! ### Finite doubles -/

variable {d : Double}

/-- The text of a finite double without its sign. -/
def unsignedText (d : Double) : String := if d.magnitude = 0 then "0" else d.shortest.text

theorem text_of_isFinite (hd : d.isFinite = true) :
    d.text = (if d.isNegative then "-" else "") ++ d.unsignedText := by
  have hlt : d.magnitude < infiniteMagnitude := of_decide_eq_true hd
  have hna : d ≠ na := by
    rintro rfl
    exact absurd hd (by decide)
  have hnan : d.isNaN = false := decide_eq_false (Nat.not_lt.mpr hlt.le)
  have hinfinite : d.isInfinite = false := decide_eq_false hlt.ne
  unfold text unsignedText
  simp only [if_neg hna, hnan, hinfinite, Bool.false_eq_true, if_false]
  split_ifs <;> rfl

/-- The unsigned text of a finite double reads back as its magnitude. -/
theorem double?_unsignedText (hd : d.isFinite = true) {rest : List Char} (hrest : Bounded rest) :
    ∃ digits power, double? (d.unsignedText.toList ++ rest) =
        some ((digits, power), d.unsignedText.toList, rest) ∧
      ofDecimal digits power = ofNatBits d.magnitude := by
  unfold unsignedText
  split_ifs with hzero
  · have hdigits : ∀ c ∈ ['0'], c.isDigit = true := List.forall_mem_singleton.mpr rfl
    refine ⟨0, 0, double?_whole hdigits (by decide) hrest, ?_⟩
    rw [hzero]
    rfl
  · obtain ⟨digits, power, hread, hvalue⟩ := double?_text d.shortest hrest
    exact ⟨digits, power, hread, hvalue.trans (ofDecimal_shortest hd hzero)⟩

/-- The unsigned text begins with a digit and is no integer. -/
theorem unsignedText_shape (d : Double) :
    ∃ digits tail, d.unsignedText.toList = digits ++ tail ∧ digits ≠ [] ∧
      (∀ c ∈ digits, c.isDigit = true) ∧ ∀ c ∈ tail.head?, c = '.' := by
  unfold unsignedText
  split_ifs
  · exact ⟨['0'], [], rfl, by decide, List.forall_mem_singleton.mpr rfl, by rintro c ⟨⟩⟩
  · rcases d.shortest.text_cases with ⟨k, -, hsome, hdigits, -⟩ |
      ⟨whole, places, htext, hsome, hwhole, -, -, -⟩
    · exact ⟨_, [], (List.append_nil _).symm, hsome, hdigits, by rintro c ⟨⟩⟩
    · exact ⟨whole, '.' :: places, htext, hsome, hwhole, by rintro c ⟨⟩; rfl⟩

end Double

end AdaptiveTree
