import AdaptiveTree.Proofs.Grammar.Checked
import AdaptiveTree.Proofs.Grammar.Converted
import AdaptiveTree.Proofs.Grammar.Unbounded

/-!
How reading a source can fail. A source that the grammar does not match lacks something at some
place. One that it matches fails only if an integer literal is out of range, and the error is about
the leftmost of them, however the operators, calls, blocks and branches around it are nested. A
source that is read has every integer literal of its text once, in the same order.
-/

set_option autoImplicit false
set_option relaxedAutoImplicit false

namespace AdaptiveTree.Grammar

variable {source : String} {l : IntegerLiteral}

/-- The grammar matches the whole source, with every bound that is large enough. -/
def Accepts (source : String) : Prop :=
  ∃ least, ∀ bound, least ≤ bound →
    ∃ pairs c, (Matcher.main bound (.start source)).outcome = some (pairs, c)

/-- An integer literal is out of range, and all that are so stand further right. -/
structure LeftmostOversized (source : String) (l : IntegerLiteral) : Prop where
  mem : l ∈ integerLiterals source
  oversized : 2147483647 < l.value
  leftmost : ∀ m ∈ integerLiterals source, 2147483647 < m.value → l.span.start ≤ m.span.start

/-! ### The literals of a source -/

/-- A literal stands where its span says. -/
theorem literal_of_mem (h : l ∈ integerLiterals source) :
    l.span.ValidIn source ∧ l.span.textIn source = l.text ∧ l.span.start < l.span.stop := by
  obtain ⟨before, -, digits, after, -, -, hsource, -, htext, hstart, hstop⟩ := standsIn_of_mem h
  rw [Nat.zero_add] at hstart
  have hpos : 0 < byteLength (digits ++ ['L']) := by
    refine Nat.pos_of_ne_zero fun hzero ↦ ?_
    exact absurd (eq_nil_of_byteLength hzero) (by simp)
  have hbehind : before ++ (digits ++ ['L'] ++ after) = before ++ (digits ++ ['L']) ++ after := by
    rw [List.append_assoc before]
  refine ⟨⟨by omega, boundary_iff.mpr ⟨before, _, hsource, hstart.symm⟩,
    boundary_iff.mpr ⟨_, after, hsource.trans hbehind, ?_⟩⟩, ?_, by omega⟩
  · rw [hstop, hstart, byteLength_append]
  · rw [Span.textIn, hstop, Nat.add_sub_cancel_left, hstart, hsource, dropBytes_append,
      takeBytes_append, htext]

theorem pairwise_integerLiterals (source : String) :
    (integerLiterals source).Pairwise fun a b ↦ a.span.start < b.span.start :=
  (pairwise_integersFrom 0 0 source.toList).imp_of_mem fun ha _ hle ↦
    (literal_of_mem ha).2.2.trans_le hle

/-- What is found first in a growing list is the least that there is to be found. -/
theorem find?_eq_some_iff_of_pairwise {α : Type} {key : α → Nat} {p : α → Bool} {as : List α}
    {a : α} (h : as.Pairwise fun a b ↦ key a < key b) :
    as.find? p = some a ↔ a ∈ as ∧ p a = true ∧ ∀ b ∈ as, p b = true → key a ≤ key b := by
  induction h with
  | nil => simp
  | @cons first rest hfirst _ ih =>
    rw [List.forall_mem_cons, List.mem_cons]
    cases hp : p first with
    | false =>
      rw [List.find?_cons_of_neg (by simp [hp]), ih]
      constructor
      · exact fun ⟨hmem, ha, hleast⟩ ↦ ⟨.inr hmem, ha, nofun, hleast⟩
      · rintro ⟨rfl | hmem, ha, -, hleast⟩
        · rw [hp] at ha
          cases ha
        · exact ⟨hmem, ha, hleast⟩
    | true =>
      rw [List.find?_cons_of_pos hp, Option.some.injEq]
      constructor
      · rintro rfl
        exact ⟨.inl rfl, hp, fun _ ↦ le_rfl, fun b hb _ ↦ (hfirst b hb).le⟩
      · rintro ⟨rfl | hmem, -, hleast, -⟩
        · rfl
        · exact absurd (hfirst a hmem) (hleast rfl).not_gt

/-- The first literal that is out of range is the leftmost one. -/
theorem leftmostOversized_iff : LeftmostOversized source l ↔
    (integerLiterals source).find? IntegerLiteral.isOversized = some l := by
  have hoversized (m : IntegerLiteral) : m.isOversized = true ↔ 2147483647 < m.value :=
    decide_eq_true_iff
  rw [find?_eq_some_iff_of_pairwise (pairwise_integerLiterals source)]
  simp only [hoversized]
  exact ⟨fun ⟨hmem, hl, hleftmost⟩ ↦ ⟨hmem, hl, hleftmost⟩,
    fun ⟨hmem, hl, hleftmost⟩ ↦ ⟨hmem, hl, hleftmost⟩⟩

theorem exists_oversized_iff : (∃ l ∈ integerLiterals source, 2147483647 < l.value) ↔
    ∃ l, LeftmostOversized source l := by
  simp only [leftmostOversized_iff]
  rw [← Option.isSome_iff_exists, List.find?_isSome]
  simp [IntegerLiteral.isOversized]

/-! ### The outcome -/

/-- What the outcome of reading a source says about the source. -/
structure Reports (source : String) (outcome : Except ParseError Expr) : Prop where
  /-- A number is invalid only for a literal out of range in a source that the grammar matches. -/
  invalid_iff : (∃ e text, outcome = .error e ∧ e.kind = .invalidNumber text) ↔
    Accepts source ∧ ∃ l ∈ integerLiterals source, 2147483647 < l.value
  /-- The literal reported is the leftmost one. -/
  leftmost : ∀ e text, outcome = .error e → e.kind = .invalidNumber text →
    ∃ l, LeftmostOversized source l ∧ text = l.text ∧ e.span = l.span ∧
      e.span.ValidIn source ∧ e.span.textIn source = text
  /-- Any other failure is about something that is missing. -/
  unexpected : ∀ e, outcome = .error e → (∀ text, e.kind ≠ .invalidNumber text) →
    ∃ expected found, e.kind = .unexpectedToken expected found
  never_other : ∀ e message, outcome = .error e → e.kind ≠ .other message
  /-- What is read has every literal once. -/
  once : ∀ e, outcome = .ok e → Accepts source ∧
    e.integers = (integerLiterals source).map IntegerLiteral.integer

theorem matches_iff (bound : Nat) (c : Cursor) :
    (∃ pairs c', (Matcher.main bound c).outcome = some (pairs, c')) ↔
      ∃ ds c', (program bound c).outcome = some (ds, c') := by
  have hagrees := agrees_program bound c
  generalize Matcher.main bound c = r at hagrees ⊢
  generalize program bound c = s at hagrees ⊢
  cases hagrees with
  | fails => exact ⟨nofun, nofun⟩
  | reads => exact ⟨fun _ ↦ ⟨_, _, rfl⟩, fun _ ↦ ⟨_, _, rfl⟩⟩

/-- The length of the source is bound enough. -/
theorem accepts_iff : Accepts source ↔
    ∃ ds c, (program (source.length + 1) (.start source)).outcome = some (ds, c) := by
  have hbound {bound : Nat} (h : source.length + 1 ≤ bound) :
      program bound (.start source) = program (source.length + 1) (.start source) :=
    program_eq (String.length_toList.trans_lt h)
      (String.length_toList.trans_lt (Nat.lt_succ_self _))
  simp only [Accepts, matches_iff]
  constructor
  · rintro ⟨least, h⟩
    rw [← hbound (Nat.le_max_right least _)]
    exact h _ (Nat.le_max_left _ _)
  · intro h
    refine ⟨source.length + 1, fun bound hle ↦ ?_⟩
    rw [hbound hle]
    exact h

theorem parse_of_not_accepts (h : ¬ Accepts source) :
    ∃ expected offset, parse source = .error (.unexpected expected offset) := by
  unfold parse
  dsimp only
  split
  · exact ⟨_, _, rfl⟩
  · next hout => exact absurd (accepts_iff.mpr ⟨_, _, hout⟩) h

/-- What a source that the grammar matches is read as stands for its integer literals. -/
theorem parse_of_accepts (h : Accepts source) : ∃ outcome : Draft,
    outcome.Checks (integerLiterals source) ∧
      parse source = outcome.mapError ParseFailure.invalidNumber := by
  obtain ⟨ds, c, hout⟩ := accepts_iff.mp h
  have hchecks := (checksAll_of_program hout).mapM
  refine ⟨do return .block (← ds.mapM id) ⟨0, source.utf8ByteSize⟩, hchecks.map fun _ ↦ rfl, ?_⟩
  unfold parse
  dsimp only
  rw [hout]
  dsimp only
  cases ds.mapM id <;> rfl

namespace Reports

theorem of_leftmost (haccepts : Accepts source) (hl : LeftmostOversized source l) :
    Reports source (.error ⟨.invalidNumber l.text, l.span⟩) where
  invalid_iff :=
    ⟨fun _ ↦ ⟨haccepts, exists_oversized_iff.mpr ⟨l, hl⟩⟩, fun _ ↦ ⟨_, l.text, rfl, rfl⟩⟩
  leftmost := by
    rintro _ _ ⟨⟩ ⟨⟩
    obtain ⟨hvalid, htext, -⟩ := literal_of_mem hl.mem
    exact ⟨l, hl, rfl, rfl, hvalid, htext⟩
  unexpected := by
    rintro _ ⟨⟩ hkind
    exact absurd rfl (hkind l.text)
  never_other := by
    rintro _ _ ⟨⟩
    exact nofun
  once := nofun

theorem of_ok {e : Expr} (haccepts : Accepts source)
    (hnone : ∀ l, ¬ LeftmostOversized source l)
    (he : e.integers = (integerLiterals source).map IntegerLiteral.integer) :
    Reports source (.ok e) where
  invalid_iff := by
    refine ⟨?_, fun ⟨_, h⟩ ↦ ?_⟩
    · rintro ⟨_, _, h, _⟩
      cases h
    · obtain ⟨l, hl⟩ := exists_oversized_iff.mp h
      exact absurd hl (hnone l)
  leftmost := nofun
  unexpected := nofun
  never_other := nofun
  once := by
    rintro _ ⟨⟩
    exact ⟨haccepts, he⟩

theorem of_unexpected {expected found : String} {span : Span} (haccepts : ¬ Accepts source) :
    Reports source (.error ⟨.unexpectedToken expected found, span⟩) where
  invalid_iff := by
    refine ⟨?_, fun h ↦ absurd h.1 haccepts⟩
    rintro ⟨_, _, ⟨⟩, hkind⟩
    cases hkind
  leftmost := by
    rintro _ _ ⟨⟩ hkind
    cases hkind
  unexpected := by
    rintro _ ⟨⟩ -
    exact ⟨expected, found, rfl⟩
  never_other := by
    rintro _ _ ⟨⟩
    exact nofun
  once := nofun

end Reports

/-- Reading a source has an outcome, the same in one step as in two. It fails with an invalid number
if and only if the grammar matches the source and a literal is out of range, which then is the
leftmost one; otherwise it fails only for what is missing. -/
theorem parsePairs_reports (source : String) : ∃ outcome,
    parsePairs source = some outcome ∧
      outcome = (parse source).mapError ParseFailure.toParseError ∧ Reports source outcome := by
  refine ⟨_, parsePairs_eq source, rfl, ?_⟩
  by_cases haccepts : Accepts source
  · obtain ⟨outcome, hchecks, hparse⟩ := parse_of_accepts haccepts
    rw [hparse]
    unfold Draft.Checks Checks at hchecks
    split at hchecks
    · next l hfirst =>
      subst hchecks
      exact .of_leftmost haccepts (leftmostOversized_iff.mpr hfirst)
    · next hnone =>
      obtain ⟨e, rfl, hintegers⟩ := hchecks
      refine .of_ok haccepts (fun l hl ↦ ?_) hintegers
      rw [leftmostOversized_iff.mp hl] at hnone
      cases hnone
  · obtain ⟨expected, offset, hparse⟩ := parse_of_not_accepts haccepts
    rw [hparse]
    exact .of_unexpected haccepts

end AdaptiveTree.Grammar
