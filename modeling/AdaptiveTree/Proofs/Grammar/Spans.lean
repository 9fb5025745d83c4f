import AdaptiveTree.Grammar.Program
import AdaptiveTree.Proofs.Grammar.Stays

/-!
The places of what is read. Every construct is located, and it stands between the offset where its
reader began and the one where it ended, behind what was read before. For a chain of operators
this holds of the operand built so far and of the comparisons that are still to come.
-/

set_option autoImplicit false
set_option relaxedAutoImplicit false

namespace AdaptiveTree.Grammar

open AdaptiveTree.Expr (Located Spread)

variable {source : String} {c : Cursor} {lo lo' hi hi' : Nat}

/-! ### Drafts -/

/-- The expression read is located between two offsets; a literal out of range stands somewhere in
the source. -/
def Draft.SitedIn (source : String) (lo : Nat) (d : Draft) (hi : Nat) : Prop :=
  match d with
  | .ok e => Spread source lo [e] hi
  | .error l => l.span.ValidIn source

namespace Draft.SitedIn

variable {d d' : Draft} {e : Expr} {span : Span}

theorem mono (h : SitedIn source lo d hi) (hlo : lo' ≤ lo) (hhi : hi ≤ hi') :
    SitedIn source lo' d hi' := by
  cases d with
  | ok e => exact Spread.mono h hlo hhi
  | error l => exact h

/-- An expression that spreads over its parts. -/
theorem node (hvalid : e.span.ValidIn source) (hlo : lo ≤ e.span.start) (hhi : e.span.stop ≤ hi)
    (hparts : Spread source e.span.start e.children e.span.stop) :
    SitedIn source lo (.ok e) hi :=
  ⟨hlo, .of_spread hvalid hparts, hhi⟩

theorem sign {s : Sign} {start : Nat} (h : SitedIn source lo d hi) (hs : s.start = start)
    (hboundary : Boundary source start) (hle : start ≤ lo) :
    SitedIn source start (.sign s d) hi := by
  cases d with
  | error l => exact h
  | ok e =>
    obtain ⟨hstart, he, hstop⟩ := h
    subst hs
    have hvalid := he.valid
    have hbefore : s.start ≤ e.span.start := Nat.le_trans hle hstart
    exact node ⟨Nat.le_trans hbefore hvalid.ordered, hboundary, hvalid.stop⟩ (Nat.le_refl _) hstop
      ⟨hbefore, he, Nat.le_refl _⟩

theorem compare {op : CompareOp} {mid mid' : Nat} (h : SitedIn source lo d mid)
    (h' : SitedIn source mid' d' hi) (hle : mid ≤ mid') :
    SitedIn source lo (.compare op d d') hi := by
  cases d with
  | error l => exact h
  | ok a =>
    cases d' with
    | error l => exact h'
    | ok b =>
      obtain ⟨hstart, ha, hstop⟩ := h
      obtain ⟨hstart', hb, hstop'⟩ := h'
      have hbetween : a.span.stop ≤ b.span.start := Nat.le_trans hstop (Nat.le_trans hle hstart')
      have hordered : a.span.start ≤ b.span.stop :=
        Nat.le_trans ha.valid.ordered (Nat.le_trans hbetween hb.valid.ordered)
      exact node (ha.valid.combine hb.valid hordered) hstart hstop'
        ⟨Nat.le_refl _, ha, hbetween, hb, Nat.le_refl _⟩

end Draft.SitedIn

open Draft (SitedIn)

/-- The parts of a construct, or the first literal among them that is out of range. -/
theorem sitedIn_mapM {ds : List Draft} (h : Chained (SitedIn source) lo ds hi) :
    (∃ es, ds.mapM id = .ok es ∧ Spread source lo es hi) ∨
      ∃ l, ds.mapM id = .error l ∧ l.span.ValidIn source := by
  induction ds generalizing lo with
  | nil => exact .inl ⟨[], rfl, h⟩
  | cons d rest ih =>
    obtain ⟨start, stop, hstart, hd, hrest⟩ := h
    rw [List.mapM_cons]
    cases d with
    | error l => exact .inr ⟨l, rfl, hd⟩
    | ok e =>
      obtain ⟨es, hes, hspread⟩ | ⟨l, hl, hvalid⟩ := ih hrest
      · refine .inl ⟨e :: es, by rw [hes]; rfl, Nat.le_trans hstart hd.1, hd.2.1, ?_⟩
        exact hspread.mono hd.2.2 (Nat.le_refl _)
      · exact .inr ⟨l, by rw [hl]; rfl, hvalid⟩

theorem spread_of_mapM {ds : List Draft} {es : List Expr} (h : Chained (SitedIn source) lo ds hi)
    (hes : ds.mapM id = .ok es) : Spread source lo es hi := by
  obtain ⟨es', hes', hspread⟩ | ⟨l, hl, -⟩ := sitedIn_mapM h
  · cases hes.symm.trans hes'
    exact hspread
  · cases hes.symm.trans hl

/-- A construct around any number of parts. -/
theorem sitedIn_all {ds : List Draft} {span : Span} (build : List Expr → Expr)
    (h : Chained (SitedIn source) span.start ds span.stop) (hvalid : span.ValidIn source)
    (hspan : ∀ es, (build es).span = span) (hchildren : ∀ es, (build es).children = es) :
    SitedIn source span.start (do return build (← ds.mapM id)) span.stop := by
  obtain ⟨es, hes, hspread⟩ | ⟨l, hl, herror⟩ := sitedIn_mapM h
  · rw [hes]
    rw [← hchildren es, ← hspan es] at hspread
    rw [← hspan es] at hvalid ⊢
    exact .node hvalid (Nat.le_refl _) (Nat.le_refl _) hspread
  · rw [hl]
    exact herror

/-- A conditional around a condition and one branch or two. -/
theorem sitedIn_ifDraft {cond thenBranch : Draft} {elseBranch : Option Draft} {span : Span}
    (h : Chained (SitedIn source) span.start (cond :: thenBranch :: elseBranch.toList) span.stop)
    (hvalid : span.ValidIn source) :
    SitedIn source span.start (ifDraft cond thenBranch elseBranch span) span.stop := by
  obtain ⟨_, _, _, hcond, _, _, _, hthen, helse⟩ := id h
  rcases cond with l | a
  · exact hcond
  rcases thenBranch with l | b
  · exact hthen
  rcases elseBranch with _ | l | d
  · exact .node hvalid (Nat.le_refl _) (Nat.le_refl _) (spread_of_mapM h rfl)
  · obtain ⟨_, _, _, herror, _⟩ := helse
    exact herror
  · exact .node hvalid (Nat.le_refl _) (Nat.le_refl _) (spread_of_mapM h rfl)

/-! ### Operators -/

/-- A sign stands where its reader began. -/
def SignAt (source : String) (lo : Nat) (s : Sign) (hi : Nat) : Prop :=
  s.start = lo ∧ Boundary source lo ∧ lo ≤ hi

def OperandIn (source : String) (lo : Nat) (o : Operand) (hi : Nat) : Prop :=
  ∃ mid ≤ hi, Chained (SignAt source) lo o.signs mid ∧ SitedIn source mid o.term hi

theorem SignAt.le {s : Sign} (h : SignAt source lo s hi) : lo ≤ hi := h.2.2

theorem OperandIn.le {o : Operand} (h : OperandIn source lo o hi) : lo ≤ hi := by
  obtain ⟨mid, hmid, hsigns, -⟩ := h
  exact Nat.le_trans (hsigns.le SignAt.le) hmid

/-- A comparison with the operand on its right. -/
def OperatorIn (source : String) (lo : Nat) (o : CompareOp × Operand) (hi : Nat) : Prop :=
  OperandIn source lo o.2 hi

/-- What was climbed stands between the offsets, with the comparisons left over behind it. -/
def Climbed (source : String) (lo : Nat) (result : Draft × Tail) (hi : Nat) : Prop :=
  ∃ mid, SitedIn source lo result.1 mid ∧ Chained (OperatorIn source) mid result.2 hi

theorem climbed (depth : Nat) :
    (∀ {power : Nat} {signs : List Sign} {term : Draft} {rest : Tail} {lo start stop hi : Nat},
      Chained (SignAt source) lo signs start → SitedIn source start term stop →
      Chained (OperatorIn source) stop rest hi →
      Climbed source lo (climb depth power signs term rest) hi) ∧
    ∀ {power : Nat} {left : Draft} {rest : Tail} {lo mid hi : Nat},
      SitedIn source lo left mid → Chained (OperatorIn source) mid rest hi →
      Climbed source lo (extend depth power left rest) hi := by
  induction depth with
  | zero =>
    refine ⟨fun hsigns hterm hrest ↦ ?_, fun hleft hrest ↦ ?_⟩
    · rw [climb]
      exact ⟨_, hterm.mono (hsigns.le SignAt.le) (Nat.le_refl _), hrest⟩
    · rw [extend]
      exact ⟨_, hleft, hrest⟩
  | succ depth ih =>
    obtain ⟨hclimb, hextend⟩ := ih
    constructor
    · intro power signs term rest lo start stop hi hsigns hterm hrest
      cases signs with
      | nil =>
        rw [climb]
        exact hextend (hterm.mono hsigns (Nat.le_refl _)) hrest
      | cons s signs =>
        obtain ⟨place, behind, hlo, ⟨hs, hboundary, hle⟩, hsigns⟩ := hsigns
        obtain ⟨mid, hoperand, htail⟩ := hclimb hsigns hterm hrest
        rw [climb]
        exact hextend ((hoperand.sign hs hboundary hle).mono hlo (Nat.le_refl _)) htail
    · intro power left rest lo mid hi hleft hrest
      cases rest with
      | nil =>
        rw [extend]
        exact ⟨mid, hleft, hrest⟩
      | cons o rest =>
        obtain ⟨op, right⟩ := o
        rw [extend]
        split_ifs
        · obtain ⟨start, stop, hstart, ⟨place, -, hsigns, hterm⟩, hrest⟩ := hrest
          obtain ⟨mid', hoperand, htail⟩ := hclimb hsigns hterm hrest
          exact hextend (hleft.compare hoperand hstart) htail
        · exact ⟨mid, hleft, hrest⟩

theorem sitedIn_toExpr {chain : Chain} {mid : Nat} (hfirst : OperandIn source lo chain.first mid)
    (hrest : Chained (OperatorIn source) mid chain.rest hi) :
    SitedIn source lo chain.toExpr hi := by
  obtain ⟨place, -, hsigns, hterm⟩ := hfirst
  obtain ⟨stop, hexpr, hbehind⟩ := (climbed chain.depth).1 hsigns hterm hrest
  exact hexpr.mono (Nat.le_refl _) (hbehind.le OperandIn.le)

/-! ### Literals and names -/

/-- What the reader reads stands where it was read. -/
def Sited (source : String) (p : Reader Draft) : Prop :=
  ∀ c : Cursor, c.At source → Stays source c (SitedIn source c.offset) (p c)

/-- Without regard to what is read. -/
abbrev Passes {α : Type} (source : String) (c : Cursor) (r : Reading α) : Prop :=
  Stays source c (fun _ _ ↦ True) r

/-- What is made of the stretch just read. -/
theorem sitedIn_leaf {e : Expr} {n : Nat} (hc : c.At source) (hn : Boundary source n)
    (hle : c.offset ≤ n) (hspan : e.span = ⟨c.offset, n⟩) (hchildren : e.children = []) :
    SitedIn source c.offset (.ok e) n := by
  refine .node ?_ (Nat.le_of_eq (by rw [hspan])) (Nat.le_of_eq (by rw [hspan])) ?_
  · rw [hspan]
    exact ⟨hle, hc.boundary, hn⟩
  · rw [hspan, hchildren]
    exact hle

theorem passes_word (hc : c.At source) (w : String) (l : Literal) :
    Passes source c (wordLiteral w l c) :=
  (Stays.lexeme Token.keyword?_split).bind hc fun _ _ _ _ _ ↦ .pure trivial

theorem passes_namedLiteral (hc : c.At source) : Passes source c (namedLiteral c) := by
  refine .firstOf fun p hp ↦ ?_
  simp only [List.mem_cons, List.not_mem_nil, or_false] at hp
  rcases hp with rfl | rfl | rfl
  · exact .expecting hc (passes_word hc _ _)
  · exact .expecting hc (passes_word hc _ _)
  · exact .expecting hc (.orElse (passes_word hc _ _) (passes_word hc _ _))

theorem sited_literal : Sited source literal := by
  intro c hc
  refine .firstOf fun p hp ↦ ?_
  simp only [List.mem_cons, List.not_mem_nil, or_false] at hp
  rcases hp with rfl | rfl | rfl
  · refine ((passes_namedLiteral hc).spanned hc).bind hc ?_
    rintro ⟨l, span⟩ c₁ hc₁ hle ⟨-, hspan⟩
    exact .pure (sitedIn_leaf hc hc₁.boundary hle hspan rfl)
  · refine ((Stays.expecting hc (.lexeme Token.integer?_split)).spanned hc).bind hc ?_
    rintro ⟨⟨n, taken⟩, span⟩ c₁ hc₁ hle ⟨-, hspan⟩
    refine .pure ?_
    unfold integerDraft
    split_ifs
    · exact sitedIn_leaf hc hc₁.boundary hle hspan rfl
    · obtain rfl : span = _ := hspan
      exact ⟨hle, hc.boundary, hc₁.boundary⟩
  · refine ((Stays.expecting hc (.lexeme Token.double?_split)).spanned hc).bind hc ?_
    rintro ⟨⟨⟨digits, power⟩, taken⟩, span⟩ c₁ hc₁ hle ⟨-, hspan⟩
    exact .pure (sitedIn_leaf hc hc₁.boundary hle hspan rfl)

theorem passes_name (hc : c.At source) : Passes source c (name c) :=
  (Stays.expecting hc (.lexeme Token.name?_split)).bind hc fun _ _ _ _ _ ↦ .pure trivial

theorem sited_identifier : Sited source identifier := by
  intro c hc
  refine ((passes_name hc).spanned hc).bind hc ?_
  rintro ⟨n, span⟩ c₁ hc₁ hle ⟨-, hspan⟩
  exact .pure (sitedIn_leaf hc hc₁.boundary hle hspan rfl)

/-! ### What stands between expressions -/

theorem passes_symbol (c : Cursor) (s : String) : Passes source c (Reader.symbol s c) :=
  .text s.toList

theorem passes_lineEnd (c : Cursor) : Passes source c (lineEnd c) := by
  refine .firstOf fun p hp ↦ ?_
  simp only [List.mem_cons, List.not_mem_nil, or_false] at hp
  rcases hp with rfl | rfl | rfl <;> exact passes_symbol c _

theorem passes_many {α : Type} {p : Reader α} (hc : c.At source)
    (hp : ∀ c : Cursor, c.At source → Passes source c (p c)) (limit : Nat) :
    Passes source c (Reader.many limit p c) :=
  (Stays.many (P := fun _ _ _ ↦ True) hp hc limit).mono fun _ _ _ _ ↦ trivial

theorem passes_separator (c : Cursor) : Passes source c (separator c) :=
  .orElse (passes_symbol c _) (passes_lineEnd c)

theorem passes_lineEnds (hc : c.At source) (limit : Nat) :
    Passes source c (lineEnds limit c) :=
  Stays.skip.bind hc fun _ _ hc₁ _ _ ↦
    (passes_many hc₁ (fun c _ ↦ passes_lineEnd c) limit).bind hc₁ fun _ _ _ _ _ ↦ .skip

theorem passes_separators (hc : c.At source) (limit : Nat) :
    Passes source c (separators limit c) :=
  (passes_separator c).bind hc fun _ _ hc₁ _ _ ↦ Stays.skip.bind hc₁ fun _ _ hc₂ _ _ ↦
    (passes_many hc₂ (fun c _ ↦ passes_separator c) limit).bind hc₂ fun _ _ _ _ _ ↦
      .pure trivial

theorem stays_sign (hc : c.At source) :
    Stays source c (SignAt source c.offset) (sign c) := by
  refine Stays.offset.bind hc ?_
  rintro _ c₁ hc₁ hle₁ ⟨rfl, hoffset⟩
  refine Stays.bind (Q := fun _ _ ↦ True) hc₁ (.firstOf fun p hp ↦ ?_) fun op c₂ hc₂ hle₂ _ ↦ ?_
  · simp only [List.mem_cons, List.not_mem_nil, or_false] at hp
    rcases hp with rfl | rfl <;>
      exact .expecting hc₁ ((passes_symbol c₁ _).bind hc₁ fun _ _ _ _ _ ↦ .pure trivial)
  · exact .pure ⟨rfl, hc.boundary, Nat.le_trans hle₁ hle₂⟩

theorem passes_comparison (hc : c.At source) (op : CompareOp) :
    Passes source c (comparison op c) :=
  .expecting hc ((passes_symbol c _).bind hc fun _ _ _ _ _ ↦ .pure trivial)

theorem passes_notArrow (c : Cursor) : Passes source c (notArrow c) := by
  unfold notArrow
  split_ifs
  · exact .fail
  · exact .pure trivial

theorem passes_comparisonOp (hc : c.At source) : Passes source c (comparisonOp c) := by
  refine .firstOf fun p hp ↦ ?_
  simp only [List.mem_cons, List.not_mem_nil, or_false] at hp
  rcases hp with rfl | rfl | rfl | rfl | rfl | rfl
  · exact passes_comparison hc _
  · exact passes_comparison hc _
  · exact passes_comparison hc _
  · exact passes_comparison hc _
  · exact .expecting hc ((passes_notArrow c).bind hc fun _ _ hc₁ _ _ ↦
      (passes_symbol _ _).bind hc₁ fun _ _ _ _ _ ↦ .pure trivial)
  · exact passes_comparison hc _

/-! ### Constructs -/

/-- What may stand inside a construct. -/
structure SitedInner (source : String) (inner : Inner) : Prop where
  statement : Sited source inner.statement
  expression : Sited source inner.expression

theorem stays_statements {statement : Reader Draft} (h : Sited source statement)
    (hc : c.At source) (limit : Nat) :
    Stays source c (Chained (SitedIn source) c.offset) (statements limit statement c) := by
  refine .expecting hc ?_
  refine (passes_many hc (fun c _ ↦ passes_separator c) limit).bind hc fun _ c₁ hc₁ hle₁ _ ↦ ?_
  refine Stays.skip.bind hc₁ fun _ c₂ hc₂ hle₂ _ ↦ ?_
  refine (Stays.optional (R := fun items n ↦
    Chained (SitedIn source) c₂.offset (items.getD []) n) hc₂ ?_ (Nat.le_refl _)).bind hc₂ ?_
  · refine (h c₂ hc₂).bind hc₂ fun d c₃ hc₃ hle₃ hd ↦ ?_
    refine Stays.skip.bind hc₃ fun _ c₄ hc₄ hle₄ _ ↦ ?_
    refine (Stays.many (P := SitedIn source) (fun c hc ↦ ?_) hc₄ limit).bind hc₄ fun ds c₅ _ _ hds ↦
      .pure ⟨c₂.offset, c₃.offset, Nat.le_refl _, hd, hds.mono hle₄ (Nat.le_refl _)⟩
    refine (passes_separators hc limit).bind hc fun _ d₁ hd₁ hle₁ _ ↦ ?_
    exact Stays.skip.bind hd₁ fun _ d₂ hd₂ hle₂ _ ↦ (h d₂ hd₂).mono fun _ _ _ hd ↦
      hd.mono (Nat.le_trans hle₁ hle₂) (Nat.le_refl _)
  · intro items c₃ hc₃ _ hitems
    refine Stays.skip.bind hc₃ fun _ c₄ hc₄ hle₄ _ ↦ ?_
    refine (passes_many hc₄ (fun c _ ↦ passes_separator c) limit).bind hc₄ fun _ c₅ _ hle₅ _ ↦ ?_
    exact .pure (hitems.mono (Nat.le_trans hle₁ hle₂) (Nat.le_trans hle₄ hle₅))

section Constructs

variable {inner : Inner} (h : SitedInner source inner) (limit : Nat)

include h

theorem sited_block : Sited source (block limit inner) := by
  intro c hc
  refine (Stays.spanned (Q := Chained (SitedIn source) c.offset) hc (.expecting hc ?_)).bind hc ?_
  · refine (passes_symbol c _).bind hc fun _ c₁ hc₁ hle₁ _ ↦ ?_
    refine Stays.skip.bind hc₁ fun _ c₂ hc₂ hle₂ _ ↦ ?_
    refine (stays_statements h.statement hc₂ limit).bind hc₂ fun items c₃ hc₃ _ hitems ↦ ?_
    refine Stays.skip.bind hc₃ fun _ c₄ hc₄ hle₄ _ ↦ ?_
    exact (passes_symbol c₄ _).bind hc₄ fun _ c₅ _ hle₅ _ ↦
      .pure (hitems.mono (Nat.le_trans hle₁ hle₂) (Nat.le_trans hle₄ hle₅))
  · rintro ⟨items, span⟩ c₁ hc₁ hle ⟨hitems, hspan⟩
    obtain rfl : span = _ := hspan
    exact .pure (sitedIn_all (.block · _) hitems ⟨hle, hc.boundary, hc₁.boundary⟩ (fun _ ↦ rfl)
      fun _ ↦ rfl)

theorem stays_arguments (hc : c.At source) :
    Stays source c (Chained (SitedIn source) c.offset) (arguments limit inner c) := by
  refine (h.expression c hc).bind hc fun d c₁ hc₁ _ hd ↦ ?_
  refine Stays.skip.bind hc₁ fun _ c₂ hc₂ hle₂ _ ↦ ?_
  refine (Stays.many (P := SitedIn source) (fun c hc ↦ ?_) hc₂ limit).bind hc₂ fun ds c₃ _ _ hds ↦
    .pure ⟨c.offset, c₁.offset, Nat.le_refl _, hd, hds.mono hle₂ (Nat.le_refl _)⟩
  refine (passes_many hc (fun c _ ↦ passes_lineEnd c) limit).bind hc fun _ d₁ hd₁ hle₁ _ ↦ ?_
  refine Stays.skip.bind hd₁ fun _ d₂ hd₂ hle₂ _ ↦ ?_
  refine (passes_symbol d₂ _).bind hd₂ fun _ d₃ hd₃ hle₃ _ ↦ ?_
  refine (passes_lineEnds hd₃ limit).bind hd₃ fun _ d₄ hd₄ hle₄ _ ↦ ?_
  exact (h.expression d₄ hd₄).mono fun _ _ _ hd ↦ hd.mono (by omega) (Nat.le_refl _)

theorem sited_call : Sited source (call limit inner) := by
  intro c hc
  refine (Stays.spanned (Q := fun a ↦ Chained (SitedIn source) c.offset a.2) hc
    (.expecting hc ?_)).bind hc ?_
  · refine (passes_name hc).bind hc fun callee c₁ hc₁ hle₁ _ ↦ ?_
    refine Stays.skip.bind hc₁ fun _ c₂ hc₂ hle₂ _ ↦ ?_
    refine (passes_symbol c₂ _).bind hc₂ fun _ c₃ hc₃ hle₃ _ ↦ ?_
    refine (passes_lineEnds hc₃ limit).bind hc₃ fun _ c₄ hc₄ hle₄ _ ↦ ?_
    refine (Stays.optional (R := fun args n ↦
      Chained (SitedIn source) c₄.offset (args.getD []) n) hc₄ (stays_arguments h limit hc₄)
      (Nat.le_refl _)).bind hc₄ fun args c₅ hc₅ _ hargs ↦ ?_
    refine (passes_lineEnds hc₅ limit).bind hc₅ fun _ c₆ hc₆ hle₆ _ ↦ ?_
    exact (passes_symbol c₆ _).bind hc₆ fun _ c₇ _ hle₇ _ ↦
      .pure (hargs.mono (by omega) (by omega))
  · rintro ⟨⟨callee, args⟩, span⟩ c₁ hc₁ hle ⟨hargs, hspan⟩
    obtain rfl : span = _ := hspan
    exact .pure (sitedIn_all (.call callee · _) hargs ⟨hle, hc.boundary, hc₁.boundary⟩
      (fun _ ↦ rfl) fun _ ↦ rfl)

theorem sited_elseClause : Sited source (elseClause limit inner) := by
  intro c hc
  refine .expecting hc ?_
  refine (passes_many hc (fun c _ ↦ passes_lineEnd c) limit).bind hc fun _ c₁ hc₁ hle₁ _ ↦ ?_
  refine Stays.skip.bind hc₁ fun _ c₂ hc₂ hle₂ _ ↦ ?_
  refine (Stays.expecting hc₂ (.lexeme Token.keyword?_split)).bind hc₂
    fun _ c₃ hc₃ hle₃ _ ↦ ?_
  refine (passes_lineEnds hc₃ limit).bind hc₃ fun _ c₄ hc₄ hle₄ _ ↦ ?_
  exact (h.statement c₄ hc₄).mono fun _ _ _ hd ↦ hd.mono (by omega) (Nat.le_refl _)

theorem sited_ifExpression : Sited source (ifExpression limit inner) := by
  intro c hc
  refine (Stays.spanned (Q := fun a ↦
    Chained (SitedIn source) c.offset (a.1 :: a.2.1 :: a.2.2.toList)) hc
    (.expecting hc ?_)).bind hc ?_
  · refine (passes_symbol c _).bind hc fun _ c₁ hc₁ hle₁ _ ↦ ?_
    refine Stays.skip.bind hc₁ fun _ c₂ hc₂ hle₂ _ ↦ ?_
    refine (passes_symbol c₂ _).bind hc₂ fun _ c₃ hc₃ hle₃ _ ↦ ?_
    refine (passes_lineEnds hc₃ limit).bind hc₃ fun _ c₄ hc₄ hle₄ _ ↦ ?_
    refine (h.expression c₄ hc₄).bind hc₄ fun cond c₅ hc₅ _ hcond ↦ ?_
    refine (passes_lineEnds hc₅ limit).bind hc₅ fun _ c₆ hc₆ hle₆ _ ↦ ?_
    refine (passes_symbol c₆ _).bind hc₆ fun _ c₇ hc₇ hle₇ _ ↦ ?_
    refine (passes_lineEnds hc₇ limit).bind hc₇ fun _ c₈ hc₈ hle₈ _ ↦ ?_
    refine (h.statement c₈ hc₈).bind hc₈ fun thenBranch c₉ hc₉ _ hthen ↦ ?_
    refine Stays.skip.bind hc₉ fun _ d hd hled _ ↦ ?_
    refine (Stays.optional (R := fun branch n ↦
      Chained (SitedIn source) d.offset branch.toList n) hd ?_ (Nat.le_refl _)).bind hd
      fun elseBranch d' _ _ helse ↦ ?_
    · exact (sited_elseClause h limit d hd).mono fun branch n _ hbranch ↦
        ⟨d.offset, n, Nat.le_refl _, hbranch, Nat.le_refl _⟩
    · exact .pure ⟨c₄.offset, c₅.offset, by omega, hcond, c₈.offset, c₉.offset, by omega, hthen,
        helse.mono hled (Nat.le_refl _)⟩
  · rintro ⟨⟨cond, thenBranch, elseBranch⟩, span⟩ c₁ hc₁ hle ⟨hparts, hspan⟩
    obtain rfl : span = _ := hspan
    exact .pure (sitedIn_ifDraft hparts ⟨hle, hc.boundary, hc₁.boundary⟩)

/-- Parentheses are no part of what stands in them. -/
theorem sited_parenthesised : Sited source (parenthesised limit inner) := by
  intro c hc
  refine (passes_symbol c _).bind hc fun _ c₁ hc₁ hle₁ _ ↦ ?_
  refine (passes_lineEnds hc₁ limit).bind hc₁ fun _ c₂ hc₂ hle₂ _ ↦ ?_
  refine (h.expression c₂ hc₂).bind hc₂ fun e c₃ hc₃ _ he ↦ ?_
  refine (passes_lineEnds hc₃ limit).bind hc₃ fun _ c₄ hc₄ hle₄ _ ↦ ?_
  exact (passes_symbol c₄ _).bind hc₄ fun _ c₅ _ hle₅ _ ↦
    .pure (he.mono (by omega) (by omega))

theorem sited_primary : Sited source (primary limit inner) := by
  intro c hc
  refine .firstOf fun p hp ↦ ?_
  simp only [List.mem_cons, List.not_mem_nil, or_false] at hp
  rcases hp with rfl | rfl | rfl | rfl | rfl | rfl
  · exact sited_ifExpression h limit c hc
  · exact sited_block h limit c hc
  · exact sited_call h limit c hc
  · exact sited_literal c hc
  · exact sited_identifier c hc
  · exact sited_parenthesised h limit c hc

theorem stays_operand (hc : c.At source) :
    Stays source c (OperandIn source c.offset) (operand limit inner c) := by
  refine (Stays.many (P := SignAt source) (fun c hc ↦ stays_sign hc) hc limit).bind hc
    fun signs c₁ hc₁ _ hsigns ↦ ?_
  refine Stays.skip.bind hc₁ fun _ c₂ hc₂ hle₂ _ ↦ ?_
  exact (sited_primary h limit c₂ hc₂).bind hc₂ fun term c₃ _ hle₃ hterm ↦
    .pure ⟨c₂.offset, hle₃, hsigns.mono (Nat.le_refl _) hle₂, hterm⟩

theorem sited_expression : Sited source (expression limit inner) := by
  intro c hc
  refine .expecting hc ?_
  refine (stays_operand h limit hc).bind hc fun first c₁ hc₁ _ hfirst ↦ ?_
  refine Stays.skip.bind hc₁ fun _ c₂ hc₂ hle₂ _ ↦ ?_
  refine (Stays.many (P := OperatorIn source) (fun c hc ↦ ?_) hc₂ limit).bind hc₂
    fun rest c₃ _ _ hrest ↦ .pure (sitedIn_toExpr hfirst (hrest.mono hle₂ (Nat.le_refl _)))
  refine (passes_comparisonOp hc).bind hc fun op d₁ hd₁ hle₁ _ ↦ ?_
  refine (passes_lineEnds hd₁ limit).bind hd₁ fun _ d₂ hd₂ hle₂ _ ↦ ?_
  refine (stays_operand h limit hd₂).bind hd₂ fun right d₃ _ _ hright ↦ .pure ?_
  obtain ⟨mid, hmid, hsigns, hterm⟩ := hright
  exact ⟨mid, hmid, hsigns.mono (Nat.le_trans hle₁ hle₂) (Nat.le_refl _), hterm⟩

theorem sited_assignment : Sited source (assignment limit inner) := by
  intro c hc
  refine (Stays.spanned (Q := fun a ↦ Chained (SitedIn source) c.offset [a.2]) hc
    (.expecting hc ?_)).bind hc ?_
  · refine (passes_name hc).bind hc fun target c₁ hc₁ hle₁ _ ↦ ?_
    refine Stays.skip.bind hc₁ fun _ c₂ hc₂ hle₂ _ ↦ ?_
    refine (passes_symbol c₂ _).bind hc₂ fun _ c₃ hc₃ hle₃ _ ↦ ?_
    refine (passes_lineEnds hc₃ limit).bind hc₃ fun _ c₄ hc₄ hle₄ _ ↦ ?_
    exact (h.statement c₄ hc₄).bind hc₄ fun value c₅ _ _ hvalue ↦
      .pure ⟨c₄.offset, c₅.offset, by omega, hvalue, Nat.le_refl _⟩
  · rintro ⟨⟨target, value⟩, span⟩ c₁ hc₁ hle ⟨hvalue, hspan⟩
    obtain rfl : span = _ := hspan
    rcases value with l | e
    · obtain ⟨_, _, _, herror, _⟩ := hvalue
      exact .pure herror
    · exact .pure (.node ⟨hle, hc.boundary, hc₁.boundary⟩ (Nat.le_refl _) (Nat.le_refl _)
        (spread_of_mapM hvalue rfl))

theorem sited_statement : Sited source (statement limit inner) := fun c hc ↦
  .orElse (sited_assignment h limit c hc) (sited_expression h limit c hc)

end Constructs

/-! ### Programs -/

theorem sited_language (source : String) (bound : Nat) : SitedInner source (language bound) := by
  induction bound with
  | zero => exact ⟨fun _ _ ↦ .fail, fun _ _ ↦ .fail⟩
  | succ bound ih => exact ⟨sited_statement ih (bound + 1), sited_expression ih (bound + 1)⟩

theorem stays_program (hc : c.At source) (bound : Nat) :
    Stays source c (Chained (SitedIn source) c.offset) (program bound c) := by
  refine .expecting hc ?_
  refine Stays.skip.bind hc fun _ c₁ hc₁ hle₁ _ ↦ ?_
  refine (stays_statements (sited_language source bound).statement hc₁ bound).bind hc₁
    fun items c₂ hc₂ _ hitems ↦ ?_
  refine Stays.skip.bind hc₂ fun _ c₃ hc₃ hle₃ _ ↦ ?_
  refine Stays.bind (Q := fun _ _ ↦ True) hc₃ (.expecting hc₃ ?_) fun _ c₄ _ hle₄ _ ↦
    .pure (hitems.mono hle₁ (Nat.le_trans hle₃ hle₄))
  unfold endOfInput
  split_ifs
  · exact .pure trivial
  · exact .fail

/-- A program that is read is located in its source. -/
theorem located_of_parse {e : Expr} (h : parse source = .ok e) : e.Located source := by
  have hstays := stays_program (.refl (.start source)) (source.length + 1)
  unfold parse at h
  dsimp only at h
  split at h
  · cases h
  · next items c hout =>
    obtain ⟨hprecedes, hitems⟩ := hstays.outcome hout
    have hend : c.offset ≤ source.utf8ByteSize := (Cursor.At.boundary hprecedes).le_utf8ByteSize
    split at h
    · cases h
    · next es hes =>
      cases h
      refine .of_spread ⟨Nat.zero_le _, boundary_zero source, boundary_utf8ByteSize source⟩ ?_
      exact (spread_of_mapM hitems hes).mono (Nat.le_refl _) hend

/-- What is wrong with a source stands somewhere in it. -/
theorem validIn_of_parse {failure : ParseFailure} (h : parse source = .error failure) :
    failure.span.ValidIn source := by
  have hstays := stays_program (.refl (.start source)) (source.length + 1)
  unfold parse at h
  dsimp only at h
  split at h
  · cases h
    exact Span.validIn_empty (hstays.trail (boundary_zero source))
  · next items c hout =>
    obtain ⟨-, hitems⟩ := hstays.outcome hout
    split at h
    · next l hl =>
      cases h
      obtain ⟨es, hes, -⟩ | ⟨l', hl', hvalid⟩ := sitedIn_mapM hitems
      · cases hl.symm.trans hes
      · cases hl.symm.trans hl'
        exact hvalid
    · cases h

end AdaptiveTree.Grammar
