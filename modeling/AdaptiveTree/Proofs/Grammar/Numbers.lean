import AdaptiveTree.Grammar.Conversion
import AdaptiveTree.Proofs.Grammar.Lexemes
import AdaptiveTree.Proofs.Grammar.Precedence

/-!
Numbers are converted as they were read. The text that a number was cut out as is itself such a
number, and nothing is left of it; without its suffix an integer literal is a number of 32 bits
exactly if it is in range.
-/

set_option autoImplicit false
set_option relaxedAutoImplicit false

namespace AdaptiveTree.Grammar

open Token

variable {chars taken rest digits : List Char} {n : Nat} {span : Span}

/-! ### Integers -/

theorem withoutSuffix_append (hdigits : ∀ c ∈ digits, c.isDigit = true) :
    withoutSuffix (digits ++ ['L']) = digits := by
  have hstop : ∀ c ∈ digits.reverse.head?, decide (c = 'L') = false := by
    intro c hc
    refine decide_eq_false ?_
    rintro rfl
    exact absurd (hdigits 'L' (List.mem_reverse.mp (List.mem_of_mem_head? hc))) (by decide)
  rw [withoutSuffix, List.reverse_append, List.reverse_singleton, List.singleton_append,
    List.dropWhile_cons, if_pos (decide_eq_true rfl), dropWhile_stop hstop, List.reverse_reverse]

namespace Token

/-- Digits have no sign in front of them. -/
theorem sign_digits (hdigits : ∀ c ∈ digits, c.isDigit = true) :
    sign digits = (false, [], digits) := by
  unfold sign
  split
  · exact absurd (hdigits '-' List.mem_cons_self) (by decide)
  · exact absurd (hdigits '+' List.mem_cons_self) (by decide)
  · rfl

end Token

theorem parseInt?_digits (hsome : digits ≠ []) (hdigits : ∀ c ∈ digits, c.isDigit = true) :
    parseInt? digits =
      if digitsValue digits < 2147483648 then some (.ofNat (digitsValue digits)) else none := by
  unfold parseInt?
  rw [sign_digits hdigits]
  dsimp only
  rw [if_neg (by simpa [hsome] using hdigits)]
  by_cases hrange : digitsValue digits < 2147483648
  · rw [if_pos hrange, if_pos (by simp; omega)]
    rfl
  · rw [if_neg hrange, if_neg (by simp; omega)]

theorem convertInteger_eq (h : integer? chars = some (n, taken, rest)) :
    convertInteger (.mk .integer (String.ofList taken) span []) =
      converted (integerDraft n taken span) := by
  obtain ⟨digits, hsome, hdigits, rfl, rfl, -⟩ := integer?_spec h
  have hparse : parseInt? (withoutSuffix (String.ofList (digits ++ ['L'])).toList) =
      if digitsValue digits < 2147483648 then some (.ofNat (digitsValue digits)) else none := by
    rw [String.toList_ofList, withoutSuffix_append hdigits, parseInt?_digits hsome hdigits]
  unfold convertInteger integerDraft
  rw [Pair.text, hparse]
  by_cases hrange : digitsValue digits < 2147483648
  · rw [if_pos hrange, if_pos hrange]
    rfl
  · rw [if_neg hrange, if_neg hrange]
    rfl

/-! ### Doubles -/

namespace Token

theorem isDigit_of_mem_takeWhile : ∀ c ∈ chars.takeWhile Char.isDigit, c.isDigit = true :=
  fun _ hc ↦ List.mem_takeWhile_imp hc

theorem mantissa?_places {places tail : List Char} (hplaces : ∀ c ∈ places, c.isDigit = true)
    (hsome : places ≠ []) (htail : ∀ c ∈ tail.head?, c.isDigit = false) :
    mantissa? ('.' :: (places ++ tail)) = some ((places, places.length), '.' :: places, tail) := by
  have hpoint : ∀ c ∈ ('.' :: (places ++ tail)).head?, c.isDigit = false := by
    rintro c ⟨⟩
    rfl
  unfold mantissa?
  rw [takeWhile_stop hpoint, dropWhile_stop hpoint]
  simp only
  rw [takeWhile_append_stop hplaces htail, dropWhile_append_stop hplaces htail]
  obtain ⟨d, places, rfl⟩ := List.exists_cons_of_ne_nil hsome
  rfl

theorem mantissa?_taken {a : List Char × Nat} (h : mantissa? chars = some (a, taken, rest))
    (tail : List Char) (htail : ∀ c ∈ tail.head?, c.isDigit = false ∧ c ≠ '.') :
    mantissa? (taken ++ tail) = some (a, taken, tail) := by
  have hdigit : ∀ c ∈ tail.head?, c.isDigit = false := fun c hc ↦ (htail c hc).1
  unfold mantissa? at h
  dsimp only at h
  split at h
  · next others _ _ =>
    split at h
    · cases h
    · next hplaces =>
      obtain ⟨rfl, rfl, -⟩ := by simpa using h
      exact mantissa?_places isDigit_of_mem_takeWhile hplaces hdigit
  · cases h
  · next hwhole =>
    obtain ⟨rfl, rfl, -⟩ := by simpa using h
    exact mantissa?_point isDigit_of_mem_takeWhile hwhole isDigit_of_mem_takeWhile hdigit
  · next hwhole _ _ =>
    obtain ⟨rfl, rfl, -⟩ := by simpa using h
    exact mantissa?_whole isDigit_of_mem_takeWhile hwhole htail

theorem sign_taken (hdigits : ∀ c ∈ digits, c.isDigit = true) (chars : List Char) :
    sign ((sign chars).2.1 ++ digits) = ((sign chars).1, (sign chars).2.1, digits) := by
  have hcases : (∃ rest, sign chars = (true, ['-'], rest)) ∨
      (∃ rest, sign chars = (false, ['+'], rest)) ∨ ∃ rest, sign chars = (false, [], rest) := by
    unfold sign
    split
    · exact .inl ⟨_, rfl⟩
    · exact .inr (.inl ⟨_, rfl⟩)
    · exact .inr (.inr ⟨_, rfl⟩)
  rcases hcases with ⟨rest, h⟩ | ⟨rest, h⟩ | ⟨rest, h⟩
  · rw [h]
    rfl
  · rw [h]
    rfl
  · rw [h]
    exact sign_digits hdigits

theorem exponent?_taken {power : Int} (h : exponent? chars = some (power, taken, rest)) :
    exponent? taken = some (power, taken, []) ∧
      ∀ c ∈ taken.head?, c.isDigit = false ∧ c ≠ '.' := by
  cases chars with
  | nil => cases h
  | cons e chars =>
    unfold exponent? at h
    dsimp only at h
    split at h
    · next hletter =>
      obtain ⟨rfl, rfl, -⟩ := by simpa using h
      constructor
      · have hdigits : ∀ c ∈ (sign chars).2.2.takeWhile Char.isDigit, c.isDigit = true :=
          isDigit_of_mem_takeWhile
        have hself := List.takeWhile_eq_self_iff.mpr hdigits
        have hnothing := List.dropWhile_eq_nil_iff.mpr hdigits
        simp only [exponent?, sign_taken hdigits, hself, hnothing, hletter, if_true]
        rfl
      · rintro c ⟨⟩
        have he : e = 'e' ∨ e = 'E' := by simp_all
        rcases he with rfl | rfl <;> decide
    · cases h

theorem double?_taken {a : Nat × Int} (h : double? chars = some (a, taken, rest)) :
    double? taken = some (a, taken, []) := by
  unfold double? at h
  split at h
  · cases h
  · next digits places taken rest hmantissa =>
    split at h
    · next hnone =>
      obtain ⟨rfl, rfl, rfl⟩ := by simpa using h
      have hwhole := mantissa?_taken hmantissa [] nofun
      rw [List.append_nil] at hwhole
      simp only [double?, hwhole]
      rfl
    · next power taken' rest' hpower =>
      obtain ⟨rfl, rfl, rfl⟩ := by simpa using h
      obtain ⟨hexponent, hhead⟩ := exponent?_taken hpower
      simp only [double?, mantissa?_taken hmantissa _ hhead, hexponent]

end Token

theorem convertDouble_eq {digits : Nat} {power : Int}
    (h : double? chars = some ((digits, power), taken, rest)) :
    convertDouble (.mk .double (String.ofList taken) span []) =
      .ok (.literal (.double (.ofDecimal digits power)) span) := by
  unfold convertDouble parseDouble?
  rw [Pair.text, String.toList_ofList, double?_taken h]
  rfl

end AdaptiveTree.Grammar
