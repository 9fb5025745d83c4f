import Mathlib.Data.List.Forall2
import Mathlib.Tactic.SplitIfs
import AdaptiveTree.Grammar.Conversion
import AdaptiveTree.Proofs.Grammar.Stays

/-!
Readers that agree. Two readers of different things agree if they succeed on the same texts, stop at
the same places and put the same attempts on the record, and if what they read is related. Each
combinator keeps to this. A rule around a reader agrees with that reader, and its pair has the span
that the reader is asked for.
-/

set_option autoImplicit false
set_option relaxedAutoImplicit false

namespace AdaptiveTree.Grammar

variable {α β γ δ : Type}

/-- Two readings that agree; `R` holds of what was read and of where the readings end. -/
inductive Agrees (R : α → β → Cursor → Prop) : Reading α → Reading β → Prop
  | fails (trail : Attempts → Attempts) : Agrees R ⟨none, trail⟩ ⟨none, trail⟩
  | reads {a : α} {b : β} {c : Cursor} (trail : Attempts → Attempts) (h : R a b c) :
      Agrees R ⟨some (a, c), trail⟩ ⟨some (b, c), trail⟩

/-- The characters between two places. -/
def textBetween (c c' : Cursor) : String :=
  String.ofList (c.rest.take (c.rest.length - c'.rest.length))

namespace Agrees

variable {c : Cursor} {p p' : Reader α} {q q' : Reader β} {R R' : α → β → Cursor → Prop}
  {S : γ → δ → Cursor → Prop}

theorem mono {r : Reading α} {s : Reading β} (h : Agrees R r s)
    (himp : ∀ a b c, R a b c → R' a b c) : Agrees R' r s := by
  cases h with
  | fails => exact .fails _
  | reads _ h => exact .reads _ (himp _ _ _ h)

theorem fail : Agrees R (Reader.fail c) (Reader.fail c) := .fails _

theorem pure {a : α} {b : β} (h : R a b c) :
    Agrees R ((Pure.pure a : Reader α) c) ((Pure.pure b : Reader β) c) := .reads _ h

theorem refl (r : Reading α) : Agrees (fun a b _ ↦ a = b) r r := by
  obtain ⟨_ | ⟨a, c⟩, trail⟩ := r
  · exact .fails trail
  · exact .reads trail rfl

theorem bind {f : α → Reader γ} {g : β → Reader δ} (hp : Agrees R (p c) (q c))
    (hf : ∀ a b c', R a b c' → Agrees S (f a c') (g b c')) :
    Agrees S ((p >>= f) c) ((q >>= g) c) := by
  change Agrees S (Reader.bind p f c) (Reader.bind q g c)
  unfold Reader.bind
  generalize p c = r at hp ⊢
  generalize q c = s at hp ⊢
  cases hp with
  | fails => exact .fails _
  | @reads a b c' trail h =>
    have hnext := hf a b c' h
    dsimp only
    generalize f a c' = r' at hnext ⊢
    generalize g b c' = s' at hnext ⊢
    cases hnext with
    | fails => exact .fails _
    | reads _ h => exact .reads _ h

/-- Behind something that both readers read. -/
theorem behind {p : Reader γ} {f : γ → Reader α} {g : γ → Reader β}
    (hf : ∀ a c', Agrees R (f a c') (g a c')) : Agrees R ((p >>= f) c) ((p >>= g) c) :=
  (refl (p c)).bind fun a _ c' h ↦ h ▸ hf a c'

/-- One of the readers hands on something else than what it read. -/
theorem map_right {g : β → γ} {S : α → γ → Cursor → Prop} (hp : Agrees R (p c) (q c))
    (himp : ∀ a b c, R a b c → S a (g b) c) :
    Agrees S (p c) ((do return g (← q) : Reader γ) c) := by
  change Agrees S (p c) (Reader.bind q (fun b ↦ Reader.pure (g b)) c)
  unfold Reader.bind
  generalize p c = r at hp ⊢
  generalize q c = s at hp ⊢
  cases hp with
  | fails => exact .fails _
  | reads _ h => exact .reads _ (himp _ _ _ h)

theorem map_left {f : α → γ} {S : γ → β → Cursor → Prop} (hp : Agrees R (p c) (q c))
    (himp : ∀ a b c, R a b c → S (f a) b c) :
    Agrees S ((do return f (← p) : Reader γ) c) (q c) := by
  change Agrees S (Reader.bind p (fun a ↦ Reader.pure (f a)) c) (q c)
  unfold Reader.bind
  generalize p c = r at hp ⊢
  generalize q c = s at hp ⊢
  cases hp with
  | fails => exact .fails _
  | reads _ h => exact .reads _ (himp _ _ _ h)

theorem orElse (hp : Agrees R (p c) (q c)) (hp' : Agrees R (p' c) (q' c)) :
    Agrees R (p.orElse p' c) (q.orElse q' c) := by
  unfold Reader.orElse
  generalize p c = r at hp ⊢
  generalize q c = s at hp ⊢
  cases hp with
  | reads _ h => exact .reads _ h
  | fails =>
    dsimp only
    generalize p' c = r' at hp' ⊢
    generalize q' c = s' at hp' ⊢
    cases hp' with
    | fails => exact .fails _
    | reads _ h => exact .reads _ h

theorem firstOf {ps : List (Reader α)} {qs : List (Reader β)}
    (h : List.Forall₂ (fun p q ↦ Agrees R (p c) (q c)) ps qs) :
    Agrees R (Reader.firstOf ps c) (Reader.firstOf qs c) := by
  induction h with
  | nil => exact fail
  | cons hp hrest ih =>
    cases hrest with
    | nil => exact hp
    | cons => exact hp.orElse ih

theorem optional {S : Option α → Option β → Cursor → Prop}
    (hp : Agrees (fun a b c ↦ S (some a) (some b) c) (p c) (q c)) (hnone : S none none c) :
    Agrees S (Reader.optional p c) (Reader.optional q c) :=
  orElse (hp.bind fun _ _ _ h ↦ pure h) (pure hnone)

theorem expecting {e : Expected} (hp : Agrees R (p c) (q c)) :
    Agrees R (Reader.expecting e p c) (Reader.expecting e q c) := by
  unfold Reader.expecting
  generalize p c = r at hp ⊢
  generalize q c = s at hp ⊢
  cases hp with
  | fails => exact .fails _
  | reads _ h => exact .reads _ h

theorem spanned (hp : Agrees R (p c) (q c)) :
    Agrees (fun a b c' ↦ R a b.1 c' ∧ b.2 = ⟨c.offset, c'.offset⟩) (p c) (Reader.spanned q c) := by
  change Agrees _ (p c) (Reader.bind Reader.offset (fun start ↦ Reader.bind q fun b ↦
    Reader.bind Reader.offset fun stop ↦ Reader.pure (b, Span.mk start stop)) c)
  simp only [Reader.bind, Reader.offset]
  generalize p c = r at hp ⊢
  generalize q c = s at hp ⊢
  cases hp with
  | fails => exact .fails _
  | reads _ h => exact .reads _ ⟨h, rfl⟩

theorem rule {r : Rule} {p : Matcher} {R : List Pair → β → Cursor → Prop}
    (hp : Agrees R (p c) (q c)) :
    Agrees (fun pairs b c' ↦ ∃ inner,
      pairs = [.mk r (textBetween c c') ⟨c.offset, c'.offset⟩ inner] ∧ R inner b c')
      (Matcher.rule r p c) (q c) := by
  unfold Matcher.rule
  generalize p c = reading at hp ⊢
  generalize q c = s at hp ⊢
  cases hp with
  | fails => exact .fails _
  | reads _ h => exact .reads _ ⟨_, rfl, h⟩

/-- A rule with nothing inside of it. -/
theorem token {r : Rule} {e : Expected} {p : Reader α} (hp : Agrees R (p c) (q c)) :
    Agrees (fun pairs b c' ↦ pairs = [.mk r (textBetween c c') ⟨c.offset, c'.offset⟩ []] ∧
      ∃ a, R a b c') (Matcher.token r e p c) (Reader.expecting e q c) := by
  have hsilent : Agrees (fun pairs b c' ↦ pairs = ([] : List Pair) ∧ ∃ a, R a b c')
      (Matcher.silent p c) (q c) := hp.map_left fun a b c' h ↦ ⟨rfl, a, h⟩
  refine hsilent.expecting.rule.mono ?_
  rintro pairs b c' ⟨_, rfl, rfl, h⟩
  exact ⟨rfl, h⟩

/-- A rule around a reader whose span is asked for. -/
theorem rule_spanned {r : Rule} {p : Matcher} {R : List Pair → β → Cursor → Prop}
    (hp : Agrees R (p c) (q c)) :
    Agrees (fun pairs b c' ↦ ∃ text inner, pairs = [.mk r text b.2 inner] ∧ R inner b.1 c')
      (Matcher.rule r p c) (Reader.spanned q c) := by
  refine hp.rule.spanned.mono ?_
  rintro _ ⟨b, _⟩ c' ⟨⟨inner, rfl, h⟩, rfl⟩
  exact ⟨_, inner, rfl, h⟩

theorem repeated {R : α → β → Prop} (hp : ∀ c, Agrees (fun a b _ ↦ R a b) (p c) (q c))
    (limit : Nat) (c : Cursor) : Agrees (fun as bs _ ↦ List.Forall₂ R as bs)
      (Reader.repeated p limit c) (Reader.repeated q limit c) := by
  induction limit generalizing c with
  | zero => exact pure .nil
  | succ limit ih =>
    refine orElse ?_ (pure .nil)
    exact behind fun _ c₁ ↦ (hp c₁).bind fun a b c₂ hab ↦ (ih c₂).bind fun as bs c₃ hall ↦
      pure (.cons hab hall)

theorem many {R : α → β → Prop} (hp : ∀ c, Agrees (fun a b _ ↦ R a b) (p c) (q c))
    (limit : Nat) (c : Cursor) : Agrees (fun as bs _ ↦ List.Forall₂ R as bs)
      (Reader.many limit p c) (Reader.many limit q c) := by
  refine orElse ?_ (pure .nil)
  exact (hp c).bind fun a b c₁ hab ↦ (repeated hp limit c₁).bind fun as bs c₂ hall ↦
    pure (.cons hab hall)

end Agrees

end AdaptiveTree.Grammar
