import Mathlib.Data.List.Forall2
import AdaptiveTree.Proofs.Grammar.Lexemes

/-!
Readers stop between lexemes. What a reader takes off the text are whole lexemes, so the integer
literals that are to come where it begins are those that it reads, followed by those that are to
come where it ends. Each combinator keeps to this.
-/

set_option autoImplicit false
set_option relaxedAutoImplicit false

namespace AdaptiveTree.Grammar

open Token

/-- A reading from `c` leaves the integer literals that are to come but the first few, and `Q` holds
of its result and of these. -/
def Gathers {α : Type} (c : Cursor) (Q : α → List IntegerLiteral → Prop) (r : Reading α) : Prop :=
  ∀ a c', r.outcome = some (a, c') → ∃ ls, c.integers = ls ++ c'.integers ∧ Q a ls

/-- A reading of a text without integer literals. -/
abbrev Barren {α : Type} (c : Cursor) (r : Reading α) : Prop := Gathers c (fun _ ls ↦ ls = []) r

variable {α β : Type} {c : Cursor} {p q : Reader α} {Q Q' : α → List IntegerLiteral → Prop}
  {R : β → List IntegerLiteral → Prop}

theorem bind_outcome {f : α → Reader β} {b : β} {c'' : Cursor}
    (h : ((p >>= f) c).outcome = some (b, c'')) :
    ∃ a c', (p c).outcome = some (a, c') ∧ (f a c').outcome = some (b, c'') := by
  change (Reader.bind p f c).outcome = _ at h
  unfold Reader.bind at h
  cases hp : (p c).outcome with
  | none =>
    simp only [hp] at h
    cases h
  | some result =>
    simp only [hp] at h
    exact ⟨result.1, result.2, rfl, h⟩

theorem text_outcome {chars : List Char} {a : Unit} {c' : Cursor}
    (h : (Reader.text chars c).outcome = some (a, c')) :
    ∃ rest, c.rest = chars ++ rest ∧ c' = c.advance chars rest := by
  unfold Reader.text at h
  split_ifs at h with hprefix
  cases h
  obtain ⟨rest, hrest⟩ := List.isPrefixOf_iff_prefix.mp hprefix
  exact ⟨rest, hrest.symm, by rw [← hrest, List.drop_left]⟩

theorem expecting_outcome {e : Expected} {a : α} {c' : Cursor}
    (h : (Reader.expecting e p c).outcome = some (a, c')) : (p c).outcome = some (a, c') := by
  unfold Reader.expecting at h
  cases hp : (p c).outcome with
  | none =>
    simp only [hp] at h
    cases h
  | some result =>
    simp only [hp] at h
    exact h

theorem spanned_outcome {a : α} {span : Span} {c' : Cursor}
    (h : (Reader.spanned p c).outcome = some ((a, span), c')) :
    (p c).outcome = some (a, c') ∧ span = ⟨c.offset, c'.offset⟩ := by
  obtain ⟨_, _, hstart, hread⟩ := bind_outcome h
  cases hstart
  obtain ⟨a, c', hout, hstop⟩ := bind_outcome hread
  cases hstop
  exact ⟨hout, rfl⟩

namespace Gathers

theorem mono {r : Reading α} (h : Gathers c Q r) (himp : ∀ a ls, Q a ls → Q' a ls) :
    Gathers c Q' r := by
  intro a c' hout
  obtain ⟨ls, hls, hQ⟩ := h a c' hout
  exact ⟨ls, hls, himp a ls hQ⟩

theorem fail : Gathers c Q (Reader.fail c) := nofun

theorem pure {a : α} (h : Q a []) : Gathers c Q ((Pure.pure a : Reader α) c) := by
  rintro _ _ ⟨⟩
  exact ⟨[], rfl, h⟩

theorem bind {f : α → Reader β} (hp : Gathers c Q (p c))
    (hf : ∀ a ls c', Q a ls → Gathers c' (fun b ls' ↦ R b (ls ++ ls')) (f a c')) :
    Gathers c R ((p >>= f) c) := by
  intro b c'' hout
  obtain ⟨a, c', hout, hout'⟩ := bind_outcome hout
  obtain ⟨ls, hls, hQ⟩ := hp a c' hout
  obtain ⟨ls', hls', hR⟩ := hf a ls c' hQ b c'' hout'
  exact ⟨ls ++ ls', by rw [hls, hls', List.append_assoc], hR⟩

/-- Behind a text without integer literals. -/
theorem behind {f : α → Reader β} (hp : Barren c (p c)) (hf : ∀ a c', Gathers c' R (f a c')) :
    Gathers c R ((p >>= f) c) :=
  hp.bind fun a _ c' hls ↦ hls ▸ hf a c'

theorem orElse (hp : Gathers c Q (p c)) (hq : (p c).outcome = none → Gathers c Q (q c)) :
    Gathers c Q (p.orElse q c) := by
  unfold Reader.orElse
  cases hout : (p c).outcome with
  | some result =>
    simp only [hout]
    exact hp
  | none =>
    simp only [hout]
    exact hq hout

theorem firstOf {readers : List (Reader α)} (h : ∀ p ∈ readers, Gathers c Q (p c)) :
    Gathers c Q (Reader.firstOf readers c) := by
  induction readers with
  | nil => exact fail
  | cons p rest ih =>
    have hp := h p List.mem_cons_self
    have hrest := ih fun q hq ↦ h q (List.mem_cons_of_mem p hq)
    cases rest with
    | nil => exact hp
    | cons q others => exact hp.orElse fun _ ↦ hrest

theorem optional {Q : Option α → List IntegerLiteral → Prop}
    (hp : Gathers c (fun a ls ↦ Q (some a) ls) (p c)) (hnone : Q none []) :
    Gathers c Q (Reader.optional p c) :=
  orElse (hp.bind fun a ls c' hQ ↦ pure (by rwa [List.append_nil])) fun _ ↦ pure hnone

theorem expecting {e : Expected} (hp : Gathers c Q (p c)) :
    Gathers c Q (Reader.expecting e p c) :=
  fun a c' hout ↦ hp a c' (expecting_outcome hout)

theorem spanned (hp : Gathers c Q (p c)) : Gathers c (fun a ↦ Q a.1) (Reader.spanned p c) :=
  fun _ c' hout ↦ hp _ c' (spanned_outcome hout).1

theorem skip : Barren c (Reader.skip c) := by
  rintro _ _ ⟨⟩
  exact ⟨[], (integers_skipFrom c.offset c.rest).symm, rfl⟩

/-- A repetition gathers the literals of what it repeats. -/
theorem repeated (hp : ∀ c, Gathers c Q (p c)) (limit : Nat) (c : Cursor) :
    Gathers c (fun as ls ↦ ∃ lss, ls = lss.flatten ∧ List.Forall₂ Q as lss)
      (Reader.repeated p limit c) := by
  induction limit generalizing c with
  | zero => exact pure ⟨[], rfl, .nil⟩
  | succ limit ih =>
    refine orElse ?_ fun _ ↦ pure ⟨[], rfl, .nil⟩
    refine skip.behind fun _ c₁ ↦ (hp c₁).bind fun a ls c₂ hQ ↦ (ih c₂).bind ?_
    rintro as _ c₃ ⟨lss, rfl, hall⟩
    exact pure ⟨ls :: lss, by simp, .cons hQ hall⟩

theorem many (hp : ∀ c, Gathers c Q (p c)) (limit : Nat) (c : Cursor) :
    Gathers c (fun as ls ↦ ∃ lss, ls = lss.flatten ∧ List.Forall₂ Q as lss)
      (Reader.many limit p c) := by
  refine orElse ?_ fun _ ↦ pure ⟨[], rfl, .nil⟩
  refine (hp c).bind fun a ls c₁ hQ ↦ (repeated hp limit c₁).bind ?_
  rintro as _ c₂ ⟨lss, rfl, hall⟩
  exact pure ⟨ls :: lss, by simp, .cons hQ hall⟩

end Gathers

namespace Barren

theorem many (hp : ∀ c, Barren c (p c)) (limit : Nat) (c : Cursor) :
    Barren c (Reader.many limit p c) := by
  refine (Gathers.many hp limit c).mono ?_
  rintro as _ ⟨lss, rfl, hall⟩
  induction hall with
  | nil => rfl
  | cons hnil _ ih => rw [List.flatten_cons, hnil, ih, List.append_nil]

theorem text {chars : List Char} (h : chars.all isPlain = true) :
    Barren c (Reader.text chars c) := by
  intro _ c' hout
  obtain ⟨rest, hrest, rfl⟩ := text_outcome hout
  refine ⟨[], ?_, rfl⟩
  rw [Cursor.integers, hrest]
  exact Cursor.integers_plains h c.offset rest

/-- Words that are no numbers. -/
theorem lexeme {scan : List Char → Option (α × List Char × List Char)}
    (hscan : ∀ {a taken rest}, scan c.rest = some (a, taken, rest) →
      c.rest = taken ++ rest ∧ taken ≠ [] ∧ leading c.rest = taken ∧ integer? c.rest = none) :
    Barren c (Reader.lexeme scan c) := by
  unfold Reader.lexeme
  cases hresult : scan c.rest with
  | none => exact nofun
  | some result =>
    obtain ⟨a, taken, rest⟩ := result
    rintro _ _ ⟨⟩
    obtain ⟨hrest, hsome, hleading, hinteger⟩ := hscan hresult
    exact ⟨[], Cursor.integers_advance c taken rest hrest hsome hleading hinteger, rfl⟩

end Barren

end AdaptiveTree.Grammar
