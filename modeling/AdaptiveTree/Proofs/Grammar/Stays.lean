import Mathlib.Tactic.SplitIfs
import AdaptiveTree.Grammar.Language
import AdaptiveTree.Proofs.Grammar.Located

/-!
Readers do not leave the source. From a place in the source a reader comes to one that is no
earlier, and what it puts on the record of failed attempts are places as well. Each combinator
keeps to this, and what is known of the results and of where they end is handed on.
-/

set_option autoImplicit false
set_option relaxedAutoImplicit false

namespace AdaptiveTree.Grammar

variable {source : String} {c c' : Cursor}

namespace Cursor

/-- Between the two stand characters that the first one has left to read. -/
def Precedes (c c' : Cursor) : Prop :=
  ∃ chars, c.rest = chars ++ c'.rest ∧ c'.offset = c.offset + byteLength chars

/-- The cursor stands at a place in the source, with what follows there left to read. -/
def At (source : String) (c : Cursor) : Prop := (start source).Precedes c

namespace Precedes

theorem refl (c : Cursor) : c.Precedes c := ⟨[], rfl, rfl⟩

theorem trans {c'' : Cursor} (h : c.Precedes c') (h' : c'.Precedes c'') : c.Precedes c'' := by
  obtain ⟨chars, hrest, hoffset⟩ := h
  obtain ⟨others, hrest', hoffset'⟩ := h'
  refine ⟨chars ++ others, ?_, ?_⟩
  · rw [hrest, hrest', List.append_assoc]
  · rw [hoffset', hoffset, byteLength_append, Nat.add_assoc]

theorem le (h : c.Precedes c') : c.offset ≤ c'.offset := by
  obtain ⟨chars, -, hoffset⟩ := h
  exact hoffset ▸ Nat.le_add_right _ _

theorem advance {chars rest : List Char} (h : c.rest = chars ++ rest) :
    c.Precedes (c.advance chars rest) :=
  ⟨chars, h, rfl⟩

theorem cons {n : Nat} {char : Char} {rest : List Char}
    (h : Precedes ⟨n + char.utf8Size, rest⟩ c) : Precedes ⟨n, char :: rest⟩ c :=
  trans ⟨[char], rfl, rfl⟩ h

end Precedes

theorem At.boundary (h : c.At source) : Boundary source c.offset := by
  obtain ⟨before, hsource, hoffset⟩ := h
  exact boundary_iff.mpr ⟨before, c.rest, hsource, by rw [hoffset, start, Nat.zero_add]⟩

end Cursor

/-- What is skipped are characters in front. -/
theorem precedes_skipFrom (inside : Bool) (n : Nat) (chars : List Char) :
    Cursor.Precedes ⟨n, chars⟩ (skipFrom inside n chars) := by
  induction chars generalizing inside n with
  | nil => cases inside <;> exact .refl _
  | cons c rest ih =>
    cases inside
    · rw [skipFrom]
      split_ifs with hblank hcomment
      · obtain rfl | rfl : c = ' ' ∨ c = '\t' := by simpa using hblank
        · exact .cons (ih false _)
        · exact .cons (ih false _)
      · subst hcomment
        exact .cons (ih true _)
      · exact .refl _
    · rw [skipFrom]
      split_ifs
      · exact .refl _
      · exact .cons (ih true _)

/-- A reading from `c` does not leave the source, and `Q` holds of its result and of the offset
where it ends. -/
structure Stays {α : Type} (source : String) (c : Cursor) (Q : α → Nat → Prop) (r : Reading α) :
    Prop where
  outcome : ∀ {a : α} {c' : Cursor}, r.outcome = some (a, c') →
    c.Precedes c' ∧ Q a c'.offset
  trail : ∀ {t : Attempts}, Boundary source t.furthest → Boundary source (r.trail t).furthest

namespace Stays

variable {α β : Type} {p q : Reader α} {Q Q' : α → Nat → Prop} {R : β → Nat → Prop}

theorem mono {r : Reading α} (h : Stays source c Q r)
    (himp : ∀ a n, c.offset ≤ n → Q a n → Q' a n) : Stays source c Q' r where
  outcome hout := by
    obtain ⟨hprecedes, hQ⟩ := h.outcome hout
    exact ⟨hprecedes, himp _ _ hprecedes.le hQ⟩
  trail := h.trail

theorem fail : Stays source c Q (Reader.fail c) where
  outcome := nofun
  trail := id

theorem bind {f : α → Reader β} (hc : c.At source) (hp : Stays source c Q (p c))
    (hf : ∀ a c', c'.At source → c.offset ≤ c'.offset → Q a c'.offset →
      Stays source c' R (f a c')) : Stays source c R ((p >>= f) c) := by
  change Stays source c R (Reader.bind p f c)
  unfold Reader.bind
  cases hout : (p c).outcome with
  | none =>
    simp only [hout]
    exact ⟨nofun, hp.trail⟩
  | some result =>
    obtain ⟨a, c'⟩ := result
    obtain ⟨hprecedes, hQ⟩ := hp.outcome hout
    have hnext := hf a c' (hc.trans hprecedes) hprecedes.le hQ
    simp only [hout]
    refine ⟨fun hresult ↦ ?_, fun ht ↦ hnext.trail (hp.trail ht)⟩
    obtain ⟨hprecedes', hR⟩ := hnext.outcome hresult
    exact ⟨hprecedes.trans hprecedes', hR⟩

theorem orElse (hp : Stays source c Q (p c)) (hq : Stays source c Q (q c)) :
    Stays source c Q (p.orElse q c) := by
  unfold Reader.orElse
  cases hout : (p c).outcome with
  | some result =>
    simp only [hout]
    exact hp
  | none =>
    simp only [hout]
    exact ⟨hq.outcome, fun ht ↦ hq.trail (hp.trail ht)⟩

theorem firstOf {readers : List (Reader α)} (h : ∀ p ∈ readers, Stays source c Q (p c)) :
    Stays source c Q (Reader.firstOf readers c) := by
  induction readers with
  | nil => exact fail
  | cons p rest ih =>
    have hp := h p List.mem_cons_self
    have hrest := ih fun q hq ↦ h q (List.mem_cons_of_mem p hq)
    cases rest with
    | nil => exact hp
    | cons q others => exact orElse hp hrest

theorem text (chars : List Char) :
    Stays source c (fun _ _ ↦ True) (Reader.text chars c) := by
  unfold Reader.text
  split_ifs with hprefix
  · refine ⟨fun hout ↦ ?_, id⟩
    obtain ⟨-, rfl⟩ := Prod.mk.inj (Option.some.inj hout)
    obtain ⟨rest, hrest⟩ := List.isPrefixOf_iff_prefix.mp hprefix
    refine ⟨.advance ?_, trivial⟩
    rw [← hrest, List.drop_left]
  · exact ⟨nofun, id⟩

theorem lexeme {scan : List Char → Option (α × List Char × List Char)}
    (hscan : ∀ {a taken rest}, scan c.rest = some (a, taken, rest) → c.rest = taken ++ rest) :
    Stays source c (fun _ _ ↦ True) (Reader.lexeme scan c) := by
  unfold Reader.lexeme
  cases hresult : scan c.rest with
  | none => exact ⟨nofun, id⟩
  | some result =>
    obtain ⟨a, taken, rest⟩ := result
    refine ⟨fun hout ↦ ?_, id⟩
    obtain ⟨-, rfl⟩ := Prod.mk.inj (Option.some.inj hout)
    exact ⟨.advance (hscan hresult), trivial⟩

theorem pure {a : α} (h : Q a c.offset) : Stays source c Q ((Pure.pure a : Reader α) c) where
  outcome hout := by
    obtain ⟨rfl, rfl⟩ := Prod.mk.inj (Option.some.inj hout)
    exact ⟨.refl c, h⟩
  trail := id

theorem offset : Stays source c (fun n m ↦ n = c.offset ∧ m = c.offset) (Reader.offset c) where
  outcome hout := by
    obtain ⟨rfl, rfl⟩ := Prod.mk.inj (Option.some.inj hout)
    exact ⟨.refl c, rfl, rfl⟩
  trail := id

theorem skip : Stays source c (fun _ _ ↦ True) (Reader.skip c) where
  outcome hout := by
    obtain ⟨-, rfl⟩ := Prod.mk.inj (Option.some.inj hout)
    exact ⟨precedes_skipFrom false c.offset c.rest, trivial⟩
  trail := id

section Here

variable (hc : c.At source)

include hc

theorem optional {R : Option α → Nat → Prop} (hp : Stays source c (fun a n ↦ R (some a) n) (p c))
    (hnone : R none c.offset) : Stays source c R (Reader.optional p c) :=
  orElse (hp.bind hc fun _ _ _ _ h ↦ pure h) (pure hnone)

theorem spanned (hp : Stays source c Q (p c)) :
    Stays source c (fun a n ↦ Q a.1 n ∧ a.2 = ⟨c.offset, n⟩) (Reader.spanned p c) := by
  change Stays source c _ ((p >>= fun a ↦ Reader.offset >>= fun stop ↦
    Pure.pure (a, Span.mk c.offset stop)) c)
  refine hp.bind hc fun a c₁ hc₁ _ ha ↦ offset.bind hc₁ fun stop c₂ _ _ ⟨hstop, hoffset⟩ ↦ pure ?_
  rw [hoffset, hstop]
  exact ⟨ha, rfl⟩

/-- What is missing is missing where it was tried. -/
theorem expecting {e : Expected} (hp : Stays source c Q (p c)) :
    Stays source c Q (Reader.expecting e p c) := by
  unfold Reader.expecting
  cases hout : (p c).outcome with
  | some result =>
    simp only [hout]
    exact hp
  | none =>
    simp only [hout]
    refine ⟨nofun, fun ht ↦ ?_⟩
    simp only [Attempts.note]
    split_ifs
    · exact hp.trail ht
    · exact hp.trail ht
    · exact hc.boundary
    · exact hc.boundary

end Here

end Stays

/-! ### Repetitions -/

/-- Results that were read one after the other between two offsets. -/
def Chained {α : Type} (P : Nat → α → Nat → Prop) : Nat → List α → Nat → Prop
  | lo, [], hi => lo ≤ hi
  | lo, a :: rest, hi => ∃ start stop, lo ≤ start ∧ P start a stop ∧ Chained P stop rest hi

namespace Chained

variable {α : Type} {P : Nat → α → Nat → Prop} {lo lo' hi hi' : Nat} {as : List α}

theorem mono (h : Chained P lo as hi) (hlo : lo' ≤ lo) (hhi : hi ≤ hi') :
    Chained P lo' as hi' := by
  induction as generalizing lo lo' with
  | nil => exact Nat.le_trans hlo (Nat.le_trans h hhi)
  | cons a rest ih =>
    obtain ⟨start, stop, hstart, ha, hrest⟩ := h
    exact ⟨start, stop, Nat.le_trans hlo hstart, ha, ih hrest (Nat.le_refl _)⟩

theorem le (h : Chained P lo as hi) (hle : ∀ {a start stop}, P start a stop → start ≤ stop) :
    lo ≤ hi := by
  induction as generalizing lo with
  | nil => exact h
  | cons a rest ih =>
    obtain ⟨start, stop, hstart, ha, hrest⟩ := h
    exact Nat.le_trans hstart (Nat.le_trans (hle ha) (ih hrest))

end Chained

namespace Stays

variable {α : Type} {p : Reader α} {P : Nat → α → Nat → Prop}
  (hp : ∀ c : Cursor, c.At source → Stays source c (P c.offset) (p c))

include hp

theorem repeated (hc : c.At source) (limit : Nat) :
    Stays source c (Chained P c.offset) (Reader.repeated p limit c) := by
  induction limit generalizing c with
  | zero => exact pure (Nat.le_refl _)
  | succ limit ih =>
    refine orElse ?_ (pure (Nat.le_refl _))
    refine skip.bind hc fun _ c₁ hc₁ hle₁ _ ↦ (hp c₁ hc₁).bind hc₁ fun a c₂ hc₂ _ ha ↦ ?_
    exact (ih hc₂).bind hc₂ fun as c₃ _ _ has ↦ pure ⟨c₁.offset, c₂.offset, hle₁, ha, has⟩

theorem many (hc : c.At source) (limit : Nat) :
    Stays source c (Chained P c.offset) (Reader.many limit p c) := by
  refine orElse ?_ (pure (Nat.le_refl _))
  refine (hp c hc).bind hc fun a c₁ hc₁ _ ha ↦ (repeated hp hc₁ limit).bind hc₁ ?_
  exact fun as c₂ _ _ has ↦ pure ⟨c.offset, c₁.offset, Nat.le_refl _, ha, has⟩

end Stays

/-! ### Tokens -/

namespace Token

variable {chars taken rest : List Char}

theorem name?_split {n : String} (h : name? chars = some (n, taken, rest)) :
    chars = taken ++ rest := by
  unfold name? at h
  split_ifs at h
  obtain ⟨-, rfl, rfl⟩ := by simpa using h
  exact List.takeWhile_append_dropWhile.symm

theorem keyword?_split {w : String} {a : Unit} (h : keyword? w chars = some (a, taken, rest)) :
    chars = taken ++ rest := by
  unfold keyword? at h
  split_ifs at h
  obtain ⟨rfl, rfl⟩ := by simpa using h
  exact List.takeWhile_append_dropWhile.symm

theorem integer?_split {n : Nat} (h : integer? chars = some (n, taken, rest)) :
    chars = taken ++ rest := by
  unfold integer? at h
  dsimp only at h
  split at h
  · next hrest =>
    obtain ⟨-, rfl, rfl⟩ := by simpa using h
    rw [List.append_assoc, List.singleton_append, ← hrest, List.takeWhile_append_dropWhile]
  · cases h

theorem mantissa?_split {a : List Char × Nat} (h : mantissa? chars = some (a, taken, rest)) :
    chars = taken ++ rest := by
  unfold mantissa? at h
  dsimp only at h
  have hchars := List.takeWhile_append_dropWhile (p := Char.isDigit) (l := chars)
  split at h
  · next tail hwhole hrest =>
    split at h
    · cases h
    · obtain ⟨-, rfl, rfl⟩ := by simpa using h
      refine hchars.symm.trans ?_
      rw [hwhole, hrest]
      simp
  · cases h
  · next hrest _ =>
    obtain ⟨-, rfl, rfl⟩ := by simpa using h
    refine hchars.symm.trans ?_
    rw [hrest]
    simp
  · obtain ⟨-, rfl, rfl⟩ := by simpa using h
    exact hchars.symm

theorem sign_split (chars : List Char) : chars = (sign chars).2.1 ++ (sign chars).2.2 := by
  unfold sign
  split <;> rfl

theorem exponent?_split {n : Int} (h : exponent? chars = some (n, taken, rest)) :
    chars = taken ++ rest := by
  cases chars with
  | nil => cases h
  | cons e tail =>
    unfold exponent? at h
    dsimp only at h
    split_ifs at h <;>
      obtain ⟨-, rfl, rfl⟩ := by simpa using h
    all_goals
      rw [List.cons_append, List.append_assoc, List.takeWhile_append_dropWhile, ← sign_split]

theorem double?_split {a : Nat × Int} (h : double? chars = some (a, taken, rest)) :
    chars = taken ++ rest := by
  unfold double? at h
  split at h
  · cases h
  · next hmantissa =>
    have hchars := mantissa?_split hmantissa
    split at h
    · obtain ⟨-, rfl, rfl⟩ := by simpa using h
      exact hchars
    · next hexponent =>
      obtain ⟨-, rfl, rfl⟩ := by simpa using h
      rw [hchars, exponent?_split hexponent, List.append_assoc]

end Token

end AdaptiveTree.Grammar
