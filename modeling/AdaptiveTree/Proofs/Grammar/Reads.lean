import Mathlib.Data.List.Forall2
import Mathlib.Tactic.SplitIfs
import AdaptiveTree.Grammar.Language

/-!
What a reader takes off a text, said without offsets. `Reads p input R` says that `p` succeeds in
front of `input` and that `R` holds of what it read and what it left, and `Fails p input` that it
does not. Each combinator has its rules for both, so a construct is read part by part. A
repetition reads the pieces of a list if every piece is read in front of the next one.
-/

set_option autoImplicit false
set_option relaxedAutoImplicit false

namespace AdaptiveTree.Grammar

/-! ### Skipping -/

/-- What is left of a text when blanks, tabs and comments in front are skipped. -/
def skipped (chars : List Char) : List Char := (skipFrom false 0 chars).rest

theorem skipFrom_rest_eq (inside : Bool) (m n : Nat) (chars : List Char) :
    (skipFrom inside m chars).rest = (skipFrom inside n chars).rest := by
  induction chars generalizing inside m n with
  | nil => cases inside <;> rfl
  | cons c rest ih =>
    cases inside
    · rw [skipFrom, skipFrom]
      split_ifs
      · exact ih false _ _
      · exact ih true _ _
      · rfl
    · rw [skipFrom, skipFrom]
      split_ifs
      · rfl
      · exact ih true _ _

@[simp]
theorem skipped_nil : skipped [] = [] := rfl

@[simp]
theorem skipped_blank (rest : List Char) : skipped (' ' :: rest) = skipped rest :=
  skipFrom_rest_eq false _ _ rest

theorem skipped_cons {c : Char} (rest : List Char) (hblank : c ≠ ' ') (htab : c ≠ '\t')
    (hcomment : c ≠ '#') : skipped (c :: rest) = c :: rest := by
  simp [skipped, skipFrom, hblank, htab, hcomment]

/-- Skipping leaves nothing to skip. -/
@[simp]
theorem skipped_skipped (chars : List Char) : skipped (skipped chars) = skipped chars := by
  suffices h : ∀ inside n, skipped (skipFrom inside n chars).rest = (skipFrom inside n chars).rest
    from h false 0
  induction chars with
  | nil => intro inside n; cases inside <;> rfl
  | cons c rest ih =>
    intro inside n
    cases inside
    · rw [skipFrom]
      split_ifs with hblank hcomment
      · exact ih false _
      · exact ih true _
      · simp only [Bool.or_eq_true, decide_eq_true_eq, not_or] at hblank
        exact skipped_cons rest hblank.1 hblank.2 hcomment
    · rw [skipFrom]
      split_ifs with hend
      · refine skipped_cons rest ?_ ?_ ?_ <;> rintro rfl <;> simp [isLineEnd] at hend
      · exact ih true _

/-! ### Success and failure -/

variable {α β : Type} {p q : Reader α} {f : α → Reader β} {input rest : List Char}

/-- `p` succeeds in front of `input`; `R` holds of what it read and of the text it left. -/
def Reads (p : Reader α) (input : List Char) (R : α → List Char → Prop) : Prop :=
  ∀ n, ∃ a c, (p ⟨n, input⟩).outcome = some (a, c) ∧ R a c.rest

def Fails (p : Reader α) (input : List Char) : Prop :=
  ∀ n, (p ⟨n, input⟩).outcome = none

theorem Reads.not_fails {R : α → List Char → Prop} (h : Reads p input R) : ¬ Fails p input := by
  intro hfails
  obtain ⟨a, c, hout, -⟩ := h 0
  rw [hfails 0] at hout
  cases hout

namespace Reads

variable {R : α → List Char → Prop} {S : β → List Char → Prop}

theorem mono {R' : α → List Char → Prop} (h : Reads p input R)
    (himp : ∀ a r, R a r → R' a r) : Reads p input R' := by
  intro n
  obtain ⟨a, c, hout, hR⟩ := h n
  exact ⟨a, c, hout, himp a c.rest hR⟩

theorem pure {a : α} (h : R a input) : Reads (Pure.pure a : Reader α) input R :=
  fun n ↦ ⟨a, ⟨n, input⟩, rfl, h⟩

theorem bind (hp : Reads p input R) (hf : ∀ a r, R a r → Reads (f a) r S) :
    Reads (p >>= f) input S := by
  intro n
  obtain ⟨a, c, hout, hR⟩ := hp n
  obtain ⟨b, c', hout', hS⟩ := hf a c.rest hR c.offset
  refine ⟨b, c', ?_, hS⟩
  change (Reader.bind p f ⟨n, input⟩).outcome = _
  simp only [Reader.bind, hout]
  exact hout'

theorem orElse_left (hp : Reads p input R) : Reads (p.orElse q) input R := by
  intro n
  obtain ⟨a, c, hout, hR⟩ := hp n
  refine ⟨a, c, ?_, hR⟩
  simp only [Reader.orElse, hout]

theorem orElse_right (hp : Fails p input) (hq : Reads q input R) :
    Reads (p.orElse q) input R := by
  intro n
  obtain ⟨a, c, hout, hR⟩ := hq n
  refine ⟨a, c, ?_, hR⟩
  simp only [Reader.orElse, hp n, hout]

theorem expecting {e : Expected} (hp : Reads p input R) :
    Reads (Reader.expecting e p) input R := by
  intro n
  obtain ⟨a, c, hout, hR⟩ := hp n
  refine ⟨a, c, ?_, hR⟩
  simp only [Reader.expecting, hout]

theorem optional_some {R : Option α → List Char → Prop}
    (hp : Reads p input fun a ↦ R (some a)) : Reads (Reader.optional p) input R :=
  orElse_left (hp.bind fun _ _ h ↦ pure h)

theorem skip {R : Unit → List Char → Prop} (h : R () (skipped input)) :
    Reads Reader.skip input R := by
  intro n
  refine ⟨(), skipFrom false n input, rfl, ?_⟩
  rwa [skipFrom_rest_eq false n 0]

theorem spanned {R : α × Span → List Char → Prop}
    (hp : Reads p input fun a r ↦ ∀ s, R (a, s) r) : Reads (Reader.spanned p) input R := by
  intro n
  obtain ⟨a, c, hout, hR⟩ := hp n
  refine ⟨(a, ⟨n, c.offset⟩), c, ?_, hR _⟩
  change (Reader.bind p (fun a ↦ Reader.bind Reader.offset fun stop ↦
    Reader.pure (a, Span.mk n stop)) ⟨n, input⟩).outcome = _
  simp only [Reader.bind, Reader.offset, Reader.pure, hout]

theorem lexeme {scan : List Char → Option (α × List Char × List Char)} {a : α}
    {taken : List Char} {R : α × List Char → List Char → Prop}
    (hscan : scan input = some (a, taken, rest)) (h : R (a, taken) rest) :
    Reads (Reader.lexeme scan) input R := by
  intro n
  refine ⟨(a, taken), ⟨n + byteLength taken, rest⟩, ?_, h⟩
  simp only [Reader.lexeme, hscan]
  rfl

theorem text {chars : List Char} {R : Unit → List Char → Prop} (h : R () rest) :
    Reads (Reader.text chars) (chars ++ rest) R := by
  intro n
  refine ⟨(), ⟨n + byteLength chars, rest⟩, ?_, h⟩
  simp [Reader.text, Cursor.advance]

end Reads

namespace Fails

variable {R : α → List Char → Prop}

theorem bind_left (hp : Fails p input) : Fails (p >>= f) input := by
  intro n
  change (Reader.bind p f ⟨n, input⟩).outcome = none
  simp only [Reader.bind, hp n]

theorem bind_right (hp : Reads p input R) (hf : ∀ a r, R a r → Fails (f a) r) :
    Fails (p >>= f) input := by
  intro n
  obtain ⟨a, c, hout, hR⟩ := hp n
  change (Reader.bind p f ⟨n, input⟩).outcome = none
  simp only [Reader.bind, hout]
  exact hf a c.rest hR c.offset

theorem orElse (hp : Fails p input) (hq : Fails q input) : Fails (p.orElse q) input := by
  intro n
  simp only [Reader.orElse, hp n, hq n]

theorem expecting {e : Expected} (hp : Fails p input) : Fails (Reader.expecting e p) input := by
  intro n
  simp only [Reader.expecting, hp n]

theorem spanned (hp : Fails p input) : Fails (Reader.spanned p) input :=
  bind_right (R := fun _ r ↦ r = input) (fun n ↦ ⟨n, ⟨n, input⟩, rfl, rfl⟩)
    fun _ _ h ↦ h ▸ bind_left hp

theorem lexeme {scan : List Char → Option (α × List Char × List Char)}
    (hscan : scan input = none) : Fails (Reader.lexeme scan) input := by
  intro n
  simp only [Reader.lexeme, hscan]

theorem text {chars : List Char} (h : ¬ chars <+: input) : Fails (Reader.text chars) input := by
  intro n
  simp [Reader.text, h]

end Fails

theorem Reads.optional_none {R : Option α → List Char → Prop} (hp : Fails p input)
    (h : R none input) : Reads (Reader.optional p) input R :=
  .orElse_right hp.bind_left (.pure h)

/-! ### Repetitions -/

theorem Reads.many_nil {limit : Nat} {R : List α → List Char → Prop} (hp : Fails p input)
    (h : R [] input) : Reads (Reader.many limit p) input R :=
  .orElse_right hp.bind_left (.pure h)

theorem Reads.repeated_nil {limit : Nat} {R : List α → List Char → Prop}
    (hp : Fails p (skipped input)) (h : R [] input) :
    Reads (Reader.repeated p limit) input R := by
  cases limit with
  | zero => exact .pure h
  | succ limit =>
    refine .orElse_right ?_ (.pure h)
    refine .bind_right (.skip (R := fun _ r ↦ r = skipped input) rfl) ?_
    rintro _ _ rfl
    exact hp.bind_left

section Pieces

variable {γ : Type} {piece : γ → List Char} {F : List Char → Prop} {Q : γ → α → Prop}

/-- A repetition reads one piece after the other if each is read in front of a seam, if every
piece begins like one, and if nothing can be read at the end. -/
theorem Reads.repeated {xs : List γ} {limit : Nat} (rest : List Char)
    (hstop : Fails p (skipped rest)) (hseam : F rest)
    (hnext : ∀ x ∈ xs, ∀ tail, F (piece x ++ tail))
    (hpiece : ∀ x ∈ xs, ∀ tail, F tail →
      Reads p (skipped (piece x ++ tail)) fun a r ↦ skipped r = skipped tail ∧ Q x a)
    (hlimit : xs.length ≤ limit) (hinput : skipped input = skipped (xs.flatMap piece ++ rest)) :
    Reads (Reader.repeated p limit) input fun items r ↦
      skipped r = skipped rest ∧ List.Forall₂ Q xs items := by
  induction xs generalizing limit input with
  | nil => exact repeated_nil (by rwa [hinput]) ⟨hinput, .nil⟩
  | cons x xs ih =>
    obtain _ | limit := limit
    · simp at hlimit
    have htail : F (xs.flatMap piece ++ rest) := by
      cases xs with
      | nil => exact hseam
      | cons y ys =>
        rw [List.flatMap_cons, List.append_assoc]
        exact hnext y (by simp) _
    refine .orElse_left ?_
    refine .bind (.skip (R := fun _ r ↦ r = skipped input) rfl) fun _ _ h ↦ ?_
    rw [h, hinput, List.flatMap_cons, List.append_assoc]
    refine (hpiece x (by simp) _ htail).bind fun a r ⟨hr, ha⟩ ↦ ?_
    refine .bind (ih (fun y hy ↦ hnext y (List.mem_cons_of_mem x hy))
      (fun y hy ↦ hpiece y (List.mem_cons_of_mem x hy)) (by simpa using hlimit) hr) ?_
    exact fun items r' ⟨hr', hitems⟩ ↦ .pure ⟨hr', .cons ha hitems⟩

theorem Reads.many {xs : List γ} {limit : Nat} (rest : List Char) (hstop : Fails p (skipped rest))
    (hseam : F rest) (hnext : ∀ x ∈ xs, ∀ tail, F (piece x ++ tail))
    (hpiece : ∀ x ∈ xs, ∀ tail, F tail →
      Reads p (skipped (piece x ++ tail)) fun a r ↦ skipped r = skipped tail ∧ Q x a)
    (hlimit : xs.length ≤ limit) (hinput : input = skipped (xs.flatMap piece ++ rest)) :
    Reads (Reader.many limit p) input fun items r ↦
      skipped r = skipped rest ∧ List.Forall₂ Q xs items := by
  cases xs with
  | nil =>
    rw [hinput]
    exact many_nil hstop ⟨skipped_skipped rest, .nil⟩
  | cons x xs =>
    have htail : F (xs.flatMap piece ++ rest) := by
      cases xs with
      | nil => exact hseam
      | cons y ys =>
        rw [List.flatMap_cons, List.append_assoc]
        exact hnext y (by simp) _
    refine .orElse_left ?_
    rw [hinput, List.flatMap_cons, List.append_assoc]
    refine (hpiece x (by simp) _ htail).bind fun a r ⟨hr, ha⟩ ↦ ?_
    refine .bind (repeated rest hstop hseam (fun y hy ↦ hnext y (List.mem_cons_of_mem x hy))
      (fun y hy ↦ hpiece y (List.mem_cons_of_mem x hy)) (by simp at hlimit; omega) hr) ?_
    exact fun items r' ⟨hr', hitems⟩ ↦ .pure ⟨hr', .cons ha hitems⟩

end Pieces

end AdaptiveTree.Grammar
