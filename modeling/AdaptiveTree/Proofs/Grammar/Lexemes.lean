import AdaptiveTree.Proofs.Grammar.Stays
import AdaptiveTree.Proofs.Grammar.Tokens

/-!
The integer literals of a text, found without its grammar. A text is cut into lexemes from left to
right: comments, words, numbers, and single characters. Those that are digits with the suffix `L`
are its integer literals, each at its place.
-/

set_option autoImplicit false
set_option relaxedAutoImplicit false

namespace AdaptiveTree.Grammar

/-- An integer literal, of any size. -/
structure IntegerLiteral where
  value : Nat
  text : String
  span : Span
  deriving DecidableEq, Repr, Inhabited

namespace Token

/-- What a text begins with: a comment up to the end of its line, a word, a number, or else a single
character. -/
def leading : List Char → List Char
  | [] => []
  | c :: rest =>
    if c = '#' then c :: rest.takeWhile fun d ↦ ! isLineEnd d
    else if startsName (c :: rest) then word (c :: rest)
    else
      match integer? (c :: rest), double? (c :: rest) with
      | some (_, taken, _), _ => taken
      | none, some (_, taken, _) => taken
      | none, none => [c]

/-- The integer literal that a text begins with. -/
def leadingInteger (offset : Nat) (chars : List Char) : List IntegerLiteral :=
  match integer? chars with
  | some (value, taken, _) => [⟨value, String.ofList taken, ⟨offset, offset + byteLength taken⟩⟩]
  | none => []

end Token

open Token

/-- The integer literals of a text that begins at an offset, behind as many characters as are still
left of a lexeme. -/
def integersFrom : Nat → Nat → List Char → List IntegerLiteral
  | _, _, [] => []
  | left + 1, offset, c :: rest => integersFrom left (offset + c.utf8Size) rest
  | 0, offset, c :: rest =>
    leadingInteger offset (c :: rest) ++
      integersFrom ((leading (c :: rest)).length - 1) (offset + c.utf8Size) rest

/-- The integer literals of a source, from left to right. -/
def integerLiterals (source : String) : List IntegerLiteral := integersFrom 0 0 source.toList

/-- The integer literals that are still to come. -/
def Cursor.integers (c : Cursor) : List IntegerLiteral := integersFrom 0 c.offset c.rest

variable {chars taken rest : List Char} {n : Nat} {c : Cursor}

theorem integersFrom_behind (n : Nat) (taken rest : List Char) :
    integersFrom taken.length n (taken ++ rest) = integersFrom 0 (n + byteLength taken) rest := by
  induction taken generalizing n with
  | nil => rfl
  | cons c taken ih =>
    rw [List.length_cons, List.cons_append, integersFrom, ih, byteLength, Nat.add_assoc]

theorem Cursor.integers_lexeme (c : Cursor) (taken rest : List Char)
    (hrest : c.rest = taken ++ rest) (hsome : taken ≠ []) (htaken : leading c.rest = taken) :
    c.integers = leadingInteger c.offset c.rest ++ (c.advance taken rest).integers := by
  cases taken with
  | nil => exact absurd rfl hsome
  | cons d taken =>
    rw [Cursor.integers, hrest, List.cons_append, integersFrom, ← List.cons_append, ← hrest, htaken,
      List.length_cons, Nat.add_sub_cancel, integersFrom_behind, Nat.add_assoc]
    rfl

/-- A lexeme that is no integer literal is passed over. -/
theorem Cursor.integers_advance (c : Cursor) (taken rest : List Char)
    (hrest : c.rest = taken ++ rest) (hsome : taken ≠ []) (htaken : leading c.rest = taken)
    (hinteger : integer? c.rest = none) :
    c.integers = (c.advance taken rest).integers := by
  rw [c.integers_lexeme taken rest hrest hsome htaken, leadingInteger, hinteger, List.nil_append]

/-! ### Lexemes -/

namespace Token

theorem integer?_head {value : Nat} (h : integer? chars = some (value, taken, rest)) :
    ∃ c tail, chars = c :: tail ∧ c.isDigit = true := by
  cases chars with
  | nil => cases h
  | cons c tail =>
    refine ⟨c, tail, rfl, ?_⟩
    by_contra hdigit
    have hnone : integer? (c :: tail) = none := integer?_eq_none_of_head <| by
      rintro d ⟨⟩
      exact Bool.eq_false_iff.mpr hdigit
    rw [hnone] at h
    cases h

theorem integer?_eq_none_of_startsName (h : startsName chars = true) : integer? chars = none := by
  obtain ⟨c, tail, rfl, hhead⟩ := startsName_head h
  refine integer?_eq_none_of_head ?_
  rintro _ ⟨⟩
  rcases hhead with halpha | rfl
  · exact not_isDigit_of_isAlpha halpha
  · decide

theorem leading_word (h : startsName chars = true) : leading chars = word chars := by
  obtain ⟨c, tail, rfl, hhead⟩ := startsName_head h
  have hcomment : c ≠ '#' := by
    rintro rfl
    exact absurd hhead (by decide)
  rw [leading, if_neg hcomment, if_pos h]

/-- A text that begins with a digit, or with a point and a digit, begins with no word. -/
theorem startsName_eq_false_of_isDigit {c : Char} (h : c.isDigit = true) :
    startsName (c :: rest) = false := by
  by_contra hname
  obtain ⟨_, _, ⟨⟩, halpha | rfl⟩ := startsName_head (Bool.eq_true_of_not_eq_false hname)
  · rw [not_isDigit_of_isAlpha halpha] at h
    cases h
  · exact absurd h (by decide)

theorem leading_integer {value : Nat} (h : integer? chars = some (value, taken, rest)) :
    leading chars = taken := by
  obtain ⟨c, tail, rfl, hdigit⟩ := integer?_head h
  have hcomment : c ≠ '#' := by
    rintro rfl
    exact absurd hdigit (by decide)
  rw [leading, if_neg hcomment, startsName_eq_false_of_isDigit hdigit, h]
  rfl

theorem leading_double {a : Nat × Int} (hinteger : integer? chars = none)
    (h : double? chars = some (a, taken, rest)) : leading chars = taken := by
  have hname : startsName chars = false := by
    by_contra hname
    rw [double?_eq_none_of_startsName (Bool.eq_true_of_not_eq_false hname)] at h
    cases h
  cases chars with
  | nil => cases h
  | cons c tail =>
    have hcomment : c ≠ '#' := by
      rintro rfl
      rw [double?_eq_none_of_head (by simp [Char.isDigit])] at h
      cases h
    rw [leading, if_neg hcomment, hname, hinteger, h]
    rfl

/-- Characters that no word, number or comment begins with. -/
def isPlain (c : Char) : Bool := ! (c.isAlpha || c.isDigit || c = '.' || c = '#')

theorem leading_plain {c : Char} (h : isPlain c = true) :
    leading (c :: rest) = [c] ∧ integer? (c :: rest) = none := by
  simp only [isPlain, Bool.not_eq_true', Bool.or_eq_false_iff, decide_eq_false_iff_not] at h
  obtain ⟨⟨⟨halpha, hdigit⟩, hpoint⟩, hcomment⟩ := h
  have hname : startsName (c :: rest) = false := by
    by_contra hname
    obtain ⟨_, _, ⟨⟩, h | h⟩ := startsName_head (Bool.eq_true_of_not_eq_false hname)
    · rw [halpha] at h
      cases h
    · exact hpoint h
  have hinteger : integer? (c :: rest) = none :=
    integer?_eq_none_of_head (by rintro d ⟨⟩; exact hdigit)
  have hdouble : double? (c :: rest) = none :=
    double?_eq_none_of_head (by rintro d ⟨⟩; exact ⟨hdigit, hpoint⟩)
  rw [leading, if_neg hcomment, hname, hinteger, hdouble]
  exact ⟨rfl, rfl⟩

theorem integer?_spec {value : Nat} (h : integer? chars = some (value, taken, rest)) :
    ∃ digits, digits ≠ [] ∧ (∀ c ∈ digits, c.isDigit = true) ∧ value = digitsValue digits ∧
      taken = digits ++ ['L'] ∧ chars = taken ++ rest := by
  have hchars := integer?_split h
  unfold integer? at h
  dsimp only at h
  split at h
  · next hdigits hsuffix =>
    obtain ⟨rfl, rfl, rfl⟩ := by simpa using h
    refine ⟨chars.takeWhile Char.isDigit, ?_, fun c hc ↦ List.mem_takeWhile_imp hc, rfl, rfl,
      hchars⟩
    rw [hdigits]
    exact List.cons_ne_nil _ _
  · cases h

end Token

namespace Cursor

theorem integers_plain {d : Char} (hd : isPlain d = true) :
    (Cursor.mk n (d :: rest)).integers = (Cursor.mk (n + d.utf8Size) rest).integers :=
  have hleading := leading_plain hd
  integers_advance ⟨n, d :: rest⟩ [d] rest rfl (List.cons_ne_nil _ _) hleading.1 hleading.2

theorem integers_plains (htaken : taken.all isPlain = true) (n : Nat) (rest : List Char) :
    (Cursor.mk n (taken ++ rest)).integers = (Cursor.mk (n + byteLength taken) rest).integers := by
  induction taken generalizing n with
  | nil => rfl
  | cons d taken ih =>
    rw [List.all_cons, Bool.and_eq_true] at htaken
    rw [List.cons_append, integers_plain htaken.1, ih htaken.2, byteLength, Nat.add_assoc]

end Cursor

theorem skipFrom_comment (n : Nat) (chars : List Char) :
    skipFrom true n chars = ⟨n + byteLength (chars.takeWhile fun c ↦ ! isLineEnd c),
      chars.dropWhile fun c ↦ ! isLineEnd c⟩ := by
  induction chars generalizing n with
  | nil => rfl
  | cons c rest ih =>
    rw [skipFrom]
    by_cases hend : isLineEnd c = true
    · simp [hend, byteLength]
    · simp [hend, byteLength, ih, Nat.add_assoc]

/-- There are no integer literals in what is skipped. -/
theorem integers_skipFrom (n : Nat) (chars : List Char) :
    (skipFrom false n chars).integers = (Cursor.mk n chars).integers := by
  induction chars generalizing n with
  | nil => rfl
  | cons c rest ih =>
    rw [skipFrom]
    split_ifs with hblank hcomment
    · have hplain : isPlain c = true ∧ c.utf8Size = 1 := by
        rcases (by simpa using hblank : c = ' ' ∨ c = '\t') with rfl | rfl <;> decide
      rw [ih, Cursor.integers_plain hplain.1, hplain.2]
    · subst hcomment
      have hinteger : integer? ('#' :: rest) = none :=
        integer?_eq_none_of_head (by rintro d ⟨⟩; decide)
      rw [skipFrom_comment, Cursor.integers_advance ⟨n, '#' :: rest⟩
        ('#' :: rest.takeWhile fun c ↦ ! isLineEnd c) (rest.dropWhile fun c ↦ ! isLineEnd c) _
        (List.cons_ne_nil _ _) rfl hinteger]
      · rw [Cursor.advance, byteLength, ← Nat.add_assoc]
        rfl
      · rw [List.cons_append, List.takeWhile_append_dropWhile]
    · rfl

/-! ### Places -/

theorem exists_cons_of_integer? {c : Char} {value : Nat}
    (h : integer? (c :: chars) = some (value, taken, rest)) :
    ∃ tail, taken = c :: tail ∧ chars = tail ++ rest := by
  obtain ⟨digits, hsome, -, -, rfl, hchars⟩ := integer?_spec h
  obtain ⟨d, digits, rfl⟩ := List.exists_cons_of_ne_nil hsome
  obtain ⟨rfl, hrest⟩ := List.cons.inj hchars
  exact ⟨digits ++ ['L'], rfl, hrest⟩

/-- The text at an offset has the literal in it, digits and the suffix. -/
def IntegerLiteral.StandsIn (l : IntegerLiteral) (offset : Nat) (before chars : List Char) : Prop :=
  ∃ digits after, digits ≠ [] ∧ (∀ c ∈ digits, c.isDigit = true) ∧
    chars = before ++ (digits ++ ['L'] ++ after) ∧ l.value = digitsValue digits ∧
    l.text = String.ofList (digits ++ ['L']) ∧ l.span.start = offset + byteLength before ∧
    l.span.stop = l.span.start + byteLength (digits ++ ['L'])

theorem standsIn_of_mem {l : IntegerLiteral} {left : Nat} (h : l ∈ integersFrom left n chars) :
    ∃ before, left ≤ before.length ∧ l.StandsIn n before chars := by
  induction chars generalizing left n with
  | nil => cases h
  | cons c rest ih =>
    have hcons {left : Nat} (h : l ∈ integersFrom left (n + c.utf8Size) rest) :
        ∃ before, left + 1 ≤ before.length ∧ l.StandsIn n before (c :: rest) := by
      obtain ⟨before, hleft, digits, after, hsome, hdigits, rfl, hvalue, htext, hstart, hstop⟩ :=
        ih h
      refine ⟨c :: before, Nat.succ_le_succ hleft, digits, after, hsome, hdigits, rfl, hvalue,
        htext, ?_, hstop⟩
      rw [hstart, byteLength, Nat.add_assoc]
    cases left with
    | succ left => exact hcons h
    | zero =>
      rcases List.mem_append.mp h with hhere | hlater
      · rw [leadingInteger] at hhere
        split at hhere
        · next value taken rest' hinteger =>
          obtain ⟨digits, hsome, hdigits, rfl, rfl, hchars⟩ := integer?_spec hinteger
          obtain rfl := List.mem_singleton.mp hhere
          exact ⟨[], Nat.zero_le _, digits, rest', hsome, hdigits, hchars, rfl, rfl, rfl, rfl⟩
        · cases hhere
      · obtain ⟨before, -, hstands⟩ := hcons hlater
        exact ⟨before, Nat.zero_le _, hstands⟩

theorem pairwise_integersFrom (left n : Nat) (chars : List Char) :
    (integersFrom left n chars).Pairwise fun a b ↦ a.span.stop ≤ b.span.start := by
  induction chars generalizing left n with
  | nil => cases left <;> exact .nil
  | cons c rest ih =>
    cases left with
    | succ left => exact ih left _
    | zero =>
      rw [integersFrom, leadingInteger]
      split
      · next value taken rest' hinteger =>
        refine .cons (fun b hb ↦ ?_) (ih _ _)
        obtain ⟨before, hleft, digits, after, -, -, hrest, -, -, hstart, -⟩ := standsIn_of_mem hb
        rw [leading_integer hinteger] at hleft
        obtain ⟨taken, rfl, hsplit⟩ := exists_cons_of_integer? hinteger
        obtain ⟨more, rfl⟩ : taken <+: before :=
          List.prefix_of_prefix_length_le ⟨rest', hsplit.symm⟩ ⟨_, hrest.symm⟩
            (by simpa using hleft)
        change n + (c.utf8Size + byteLength taken) ≤ b.span.start
        rw [hstart, byteLength_append]
        omega
      · exact ih _ _

example : integerLiterals "x1L <- f(007L, 1.5) # 2L" = [⟨7, "007L", ⟨9, 13⟩⟩] := by decide

end AdaptiveTree.Grammar
