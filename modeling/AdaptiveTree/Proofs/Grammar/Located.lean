import AdaptiveTree.Expr
import Mathlib.Data.List.Basic

/-!
Expressions at their places in a source. A stretch of the source can be cut out if its ends stand
between characters and in order; an expression is located if it can be, if those that it is made
of are located inside of it, and if these follow each other.
-/

set_option autoImplicit false
set_option relaxedAutoImplicit false

namespace AdaptiveTree

variable {source : String}

/-! ### Places -/

theorem byteLength_append (chars others : List Char) :
    byteLength (chars ++ others) = byteLength chars + byteLength others := by
  induction chars with
  | nil => simp [byteLength]
  | cons c rest ih => rw [List.cons_append, byteLength, byteLength, ih, Nat.add_assoc]

theorem utf8ByteSize_ofList (chars : List Char) :
    (String.ofList chars).utf8ByteSize = byteLength chars := by
  induction chars with
  | nil => simp [byteLength]
  | cons c rest ih =>
    have hsplit : String.ofList (c :: rest) = String.singleton c ++ String.ofList rest := by
      rw [String.singleton_eq_ofList, ← String.ofList_append]
      rfl
    rw [hsplit, String.utf8ByteSize_append, String.utf8ByteSize_singleton, ih, byteLength]

/-- The byte offset of a place between two characters, or at an end. -/
def Boundary (source : String) (offset : Nat) : Prop := String.Pos.Raw.IsValid source ⟨offset⟩

theorem boundary_iff {n : Nat} : Boundary source n ↔
    ∃ before after, source.toList = before ++ after ∧ byteLength before = n := by
  rw [Boundary, String.Pos.Raw.isValid_iff_exists_append]
  constructor
  · rintro ⟨before, after, rfl, hn⟩
    refine ⟨before.toList, after.toList, String.toList_append, ?_⟩
    rw [← utf8ByteSize_ofList, String.ofList_toList]
    exact (congrArg String.Pos.Raw.byteIdx hn).symm
  · rintro ⟨before, after, hsource, rfl⟩
    refine ⟨.ofList before, .ofList after, ?_, ?_⟩
    · rw [← String.ofList_append, ← hsource, String.ofList_toList]
    · rw [← utf8ByteSize_ofList]
      rfl

theorem boundary_zero (source : String) : Boundary source 0 := String.Pos.Raw.isValid_zero

theorem boundary_utf8ByteSize (source : String) : Boundary source source.utf8ByteSize :=
  String.Pos.Raw.isValid_rawEndPos

theorem Boundary.le_utf8ByteSize {n : Nat} (h : Boundary source n) : n ≤ source.utf8ByteSize :=
  String.Pos.Raw.IsValid.le_utf8ByteSize h

namespace Span

/-- The stretch can be cut out of the source. -/
structure ValidIn (s : Span) (source : String) : Prop where
  ordered : s.start ≤ s.stop
  start : Boundary source s.start
  stop : Boundary source s.stop

variable {s t : Span}

theorem validIn_empty {n : Nat} (h : Boundary source n) : ValidIn ⟨n, n⟩ source :=
  ⟨Nat.le_refl n, h, h⟩

theorem validIn_origin (source : String) : origin.ValidIn source :=
  validIn_empty (boundary_zero source)

theorem ValidIn.combine (hs : s.ValidIn source) (ht : t.ValidIn source)
    (h : s.start ≤ t.stop) : (s.combine t).ValidIn source :=
  ⟨h, hs.start, ht.stop⟩

end Span

/-! ### Cutting out -/

theorem eq_nil_of_byteLength {chars : List Char} (h : byteLength chars = 0) : chars = [] := by
  cases chars with
  | nil => rfl
  | cons c rest =>
    have hpos := c.utf8Size_pos
    rw [byteLength] at h
    omega

theorem dropBytes_append (chars others : List Char) :
    dropBytes (byteLength chars) (chars ++ others) = others := by
  induction chars with
  | nil => rw [byteLength, List.nil_append, dropBytes]
  | cons c rest ih =>
    obtain ⟨n, hn⟩ : ∃ n, byteLength (c :: rest) = n + 1 :=
      ⟨_, (Nat.succ_pred_eq_of_pos (Nat.add_pos_left c.utf8Size_pos _)).symm⟩
    have hrest : n + 1 - c.utf8Size = byteLength rest := by
      rw [← hn, byteLength, Nat.add_sub_cancel_left]
    rw [hn, List.cons_append, dropBytes, hrest, ih]

theorem takeBytes_append (chars others : List Char) :
    takeBytes (byteLength chars) (chars ++ others) = chars := by
  induction chars with
  | nil => rw [byteLength, takeBytes]
  | cons c rest ih =>
    obtain ⟨n, hn⟩ : ∃ n, byteLength (c :: rest) = n + 1 :=
      ⟨_, (Nat.succ_pred_eq_of_pos (Nat.add_pos_left c.utf8Size_pos _)).symm⟩
    have hrest : n + 1 - c.utf8Size = byteLength rest := by
      rw [← hn, byteLength, Nat.add_sub_cancel_left]
    rw [hn, List.cons_append, takeBytes, hrest, ih]

/-- Of two places the earlier one has less in front of it. -/
theorem exists_between {m n : Nat} (hm : Boundary source m) (hn : Boundary source n)
    (hle : m ≤ n) : ∃ before between after, source.toList = before ++ (between ++ after) ∧
      byteLength before = m ∧ byteLength (before ++ between) = n := by
  obtain ⟨before, rest, hsource, rfl⟩ := boundary_iff.mp hm
  obtain ⟨longer, after, hsource', rfl⟩ := boundary_iff.mp hn
  have hprefix : before <+: longer ∨ longer <+: before :=
    List.prefix_or_prefix_of_prefix ⟨rest, hsource.symm⟩ ⟨after, hsource'.symm⟩
  rcases hprefix with ⟨between, rfl⟩ | ⟨beyond, rfl⟩
  · exact ⟨before, between, after, by rw [hsource', List.append_assoc], rfl, rfl⟩
  · rw [byteLength_append] at hle
    obtain rfl := eq_nil_of_byteLength (by omega : byteLength beyond = 0)
    exact ⟨longer, [], after, hsource', by rw [List.append_nil], by rw [List.append_nil]⟩

/-- The text at a valid stretch is what stands in the source from its start to its end. -/
theorem Span.ValidIn.exists_around {s : Span} (h : s.ValidIn source) :
    ∃ before after, source = before ++ s.textIn source ++ after ∧
      before.utf8ByteSize = s.start ∧ (before ++ s.textIn source).utf8ByteSize = s.stop := by
  obtain ⟨before, between, after, hsource, hstart, hstop⟩ :=
    exists_between h.start h.stop h.ordered
  have hsize : s.stop - s.start = byteLength between := by
    rw [byteLength_append] at hstop
    omega
  have htext : s.textIn source = String.ofList between := by
    rw [Span.textIn, hsource, ← hstart, dropBytes_append, hstart, hsize, takeBytes_append]
  refine ⟨.ofList before, .ofList after, ?_, ?_, ?_⟩
  · rw [htext, ← String.ofList_append, ← String.ofList_append, List.append_assoc, ← hsource,
      String.ofList_toList]
  · rw [utf8ByteSize_ofList, hstart]
  · rw [htext, ← String.ofList_append, utf8ByteSize_ofList, hstop]

/-! ### Expressions -/

namespace Expr

/-- The expressions that one is made of, from left to right. -/
def children : Expr → List Expr
  | literal .. | ident .. => []
  | unary _ e _ | assign _ e _ => [e]
  | compare _ left right _ => [left, right]
  | call _ args _ => args
  | ifThen c t _ => [c, t]
  | ifElse c t e _ => [c, t, e]
  | block items _ => items

/-- The expression and all that it is made of stand where they say. -/
inductive Located (source : String) : Expr → Prop
  | intro {e : Expr} (valid : e.span.ValidIn source)
      (inside : ∀ c ∈ e.children, e.span.start ≤ c.span.start ∧ c.span.stop ≤ e.span.stop)
      (ordered : e.children.Pairwise fun a b ↦ a.span.stop ≤ b.span.start)
      (below : ∀ c ∈ e.children, Located source c) : Located source e

/-- Located expressions that follow each other from one offset to another. -/
def Spread (source : String) : Nat → List Expr → Nat → Prop
  | lo, [], hi => lo ≤ hi
  | lo, e :: rest, hi => lo ≤ e.span.start ∧ e.Located source ∧ Spread source e.span.stop rest hi

variable {e : Expr} {es : List Expr} {lo lo' hi hi' : Nat}

theorem Located.valid (h : e.Located source) : e.span.ValidIn source := by
  cases h with
  | intro hvalid => exact hvalid

namespace Spread

theorem le (h : Spread source lo es hi) : lo ≤ hi := by
  induction es generalizing lo with
  | nil => exact h
  | cons e rest ih => exact Nat.le_trans h.1 (Nat.le_trans h.2.1.valid.ordered (ih h.2.2))

theorem mono (h : Spread source lo es hi) (hlo : lo' ≤ lo) (hhi : hi ≤ hi') :
    Spread source lo' es hi' := by
  induction es generalizing lo lo' with
  | nil => exact Nat.le_trans hlo (Nat.le_trans h hhi)
  | cons e rest ih => exact ⟨Nat.le_trans hlo h.1, h.2.1, ih h.2.2 (Nat.le_refl _)⟩

theorem located (h : Spread source lo es hi) :
    ∀ e ∈ es, lo ≤ e.span.start ∧ e.span.stop ≤ hi ∧ e.Located source := by
  induction es generalizing lo with
  | nil => nofun
  | cons e rest ih =>
    obtain ⟨hlo, he, hrest⟩ := h
    intro d hd
    rcases List.mem_cons.mp hd with rfl | hd
    · exact ⟨hlo, hrest.le, he⟩
    · obtain ⟨hstart, hstop, hlocated⟩ := ih hrest d hd
      exact ⟨Nat.le_trans hlo (Nat.le_trans he.valid.ordered hstart), hstop, hlocated⟩

theorem pairwise (h : Spread source lo es hi) :
    es.Pairwise fun a b ↦ a.span.stop ≤ b.span.start := by
  induction es generalizing lo with
  | nil => exact .nil
  | cons e rest ih => exact .cons (fun d hd ↦ (h.2.2.located d hd).1) (ih h.2.2)

theorem of_append {others : List Expr} (h : Spread source lo (es ++ others) hi) :
    ∃ mid, Spread source lo es mid ∧ Spread source mid others hi := by
  induction es generalizing lo with
  | nil => exact ⟨lo, Nat.le_refl lo, h⟩
  | cons e rest ih =>
    obtain ⟨mid, hrest, hothers⟩ := ih h.2.2
    exact ⟨mid, ⟨h.1, h.2.1, hrest⟩, hothers⟩

/-- From the start of the first expression to the end of the last one. -/
theorem tight {rest : List Expr} (h : Spread source lo (e :: rest) hi) :
    Spread source e.span.start (e :: rest) (spanOf .origin (e :: rest)).stop := by
  refine ⟨Nat.le_refl _, h.2.1, ?_⟩
  induction rest generalizing e lo with
  | nil => exact Nat.le_refl e.span.stop
  | cons d others ih => exact ⟨h.2.2.1, h.2.2.2.1, ih h.2.2⟩

theorem spanOf_validIn {fallback : Span} (h : Spread source lo es hi)
    (hfallback : fallback.ValidIn source) : (spanOf fallback es).ValidIn source := by
  cases es with
  | nil => exact hfallback
  | cons e rest =>
    have hlast := (h.located _ (List.getLast_mem (List.cons_ne_nil e rest))).2.2
    exact h.2.1.valid.combine hlast.valid h.tight.le

end Spread

theorem Located.of_spread (hvalid : e.span.ValidIn source)
    (h : Spread source e.span.start e.children e.span.stop) : e.Located source :=
  .intro hvalid (fun c hc ↦ ⟨(h.located c hc).1, (h.located c hc).2.1⟩) h.pairwise
    fun c hc ↦ (h.located c hc).2.2

theorem spread_of_pairwise (hle : lo ≤ hi)
    (hinside : ∀ c ∈ es, lo ≤ c.span.start ∧ c.span.stop ≤ hi)
    (hordered : es.Pairwise fun a b ↦ a.span.stop ≤ b.span.start)
    (hlocated : ∀ c ∈ es, c.Located source) : Spread source lo es hi := by
  induction es generalizing lo with
  | nil => exact hle
  | cons e rest ih =>
    obtain ⟨hbefore, hrest⟩ := List.pairwise_cons.mp hordered
    obtain ⟨⟨hstart, hstop⟩, hothers⟩ := List.forall_mem_cons.mp hinside
    exact ⟨hstart, hlocated e List.mem_cons_self, ih hstop
      (fun c hc ↦ ⟨hbefore c hc, (hothers c hc).2⟩) hrest
      fun c hc ↦ hlocated c (List.mem_cons_of_mem e hc)⟩

/-- What an expression is made of is spread over it. -/
theorem Located.spread (h : e.Located source) :
    Spread source e.span.start e.children e.span.stop := by
  cases h with
  | intro hvalid hinside hordered hbelow =>
    exact spread_of_pairwise hvalid.ordered hinside hordered hbelow

end Expr

end AdaptiveTree
