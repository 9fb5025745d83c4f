import AdaptiveTree.Proofs.Grammar.Located
import AdaptiveTree.Report.Source

/-!
Places in the lines of a source. The lines join to the source, so every byte offset between two
characters lies in exactly one of them, behind some of its characters. The line found for a number
of characters is the one that the character with that number lies in.
-/

set_option autoImplicit false
set_option relaxedAutoImplicit false

namespace AdaptiveTree.Report

variable {source : String} {lines earlier later : List Line} {l : Line} {n : Nat}
  {front back chars : List Char}

/-- The characters of some lines in a row. -/
def charsOf (lines : List Line) : List Char := lines.flatMap Line.chars

theorem charsOf_append (lines others : List Line) :
    charsOf (lines ++ others) = charsOf lines ++ charsOf others :=
  List.flatMap_append

theorem charsOf_cons (l : Line) (lines : List Line) :
    charsOf (l :: lines) = l.chars ++ charsOf lines :=
  List.flatMap_cons

/-- Each line begins where the one in front of it stops. -/
def Consecutive : Nat → List Line → Prop
  | _, [] => True
  | n, l :: rest => l.offset = n ∧ Consecutive l.stop rest

theorem linesFrom_spec (n : Nat) (taken chars : List Char) :
    charsOf (linesFrom n taken chars) = taken.reverse ++ chars ∧
      Consecutive n (linesFrom n taken chars) := by
  induction chars generalizing n taken with
  | nil =>
    rw [linesFrom]
    cases taken with
    | nil => exact ⟨rfl, trivial⟩
    | cons c taken => exact ⟨by simp [charsOf], rfl, trivial⟩
  | cons c rest ih =>
    rw [linesFrom]
    split
    · obtain ⟨hchars, hconsecutive⟩ := ih (n + taken.length + 1) []
      refine ⟨?_, rfl, ?_⟩
      · rw [charsOf_cons, hchars]
        simp
      · have hstop : (Line.mk n (c :: taken).reverse).stop = n + taken.length + 1 := by
          simp [Line.stop, Nat.add_assoc]
        rwa [hstop]
    · obtain ⟨hchars, hconsecutive⟩ := ih n (c :: taken)
      exact ⟨by rw [hchars]; simp, hconsecutive⟩

theorem charsOf_linesOf (source : String) : charsOf (linesOf source) = source.toList := by
  have hchars := (linesFrom_spec 0 [] source.toList).1
  unfold linesOf
  split
  · next hnil =>
    rw [hnil] at hchars
    exact hchars
  · exact hchars

theorem consecutive_linesOf (source : String) : Consecutive 0 (linesOf source) := by
  unfold linesOf
  split
  · exact ⟨rfl, trivial⟩
  · exact (linesFrom_spec 0 [] source.toList).2

theorem linesOf_ne_nil (source : String) : linesOf source ≠ [] := by
  unfold linesOf
  split
  · exact List.cons_ne_nil _ _
  · next hne => exact hne

namespace Consecutive

theorem offset_eq (h : Consecutive n (earlier ++ l :: later)) :
    l.offset = n + (charsOf earlier).length ∧ (∀ m ∈ earlier, m.offset ≤ l.offset) ∧
      Consecutive l.stop later := by
  induction earlier generalizing n with
  | nil => exact ⟨h.1, nofun, h.2⟩
  | cons m earlier ih =>
    obtain ⟨rfl, hrest⟩ := h
    obtain ⟨hoffset, hbefore, hlater⟩ := ih hrest
    have hlength : (charsOf (m :: earlier)).length = m.chars.length + (charsOf earlier).length := by
      rw [charsOf_cons, List.length_append]
    rw [Line.stop] at hoffset
    refine ⟨by omega, List.forall_mem_cons.mpr ⟨by omega, hbefore⟩, hlater⟩

theorem le_offset (h : Consecutive n lines) : ∀ m ∈ lines, n ≤ m.offset := by
  induction lines generalizing n with
  | nil => nofun
  | cons l rest ih =>
    obtain ⟨rfl, hrest⟩ := h
    refine List.forall_mem_cons.mpr ⟨Nat.le_refl _, fun m hm ↦ ?_⟩
    exact Nat.le_trans (Nat.le_add_right _ _) (ih hrest m hm)

end Consecutive

/-- Some characters lead up to a line and into it; the end of the text lies in its last line. -/
structure Splits (lines : List Line) (chars : List Char) (earlier : List Line) (l : Line)
    (front : List Char) : Prop where
  lines_eq : ∃ later back, lines = earlier ++ l :: later ∧ l.chars = front ++ back ∧
    (back = [] → later = [])
  chars_eq : chars = charsOf earlier ++ front

theorem exists_splits (hlines : lines ≠ []) {rest : List Char}
    (h : charsOf lines = chars ++ rest) :
    ∃ earlier l front, Splits lines chars earlier l front := by
  induction lines generalizing chars with
  | nil => exact absurd rfl hlines
  | cons l later ih =>
    cases later with
    | nil =>
      rw [charsOf, List.flatMap_singleton] at h
      exact ⟨[], l, chars, ⟨[], rest, rfl, h, fun _ ↦ rfl⟩, rfl⟩
    | cons m later =>
      have hbeyond (more : List Char) (hchars : chars = l.chars ++ more)
          (hmore : charsOf (m :: later) = more ++ rest) :
          ∃ earlier k front, Splits (l :: m :: later) chars earlier k front := by
        obtain ⟨earlier, k, front, ⟨behind, back, hsplit, hk, hlast⟩, rfl⟩ :=
          ih (List.cons_ne_nil _ _) hmore
        refine ⟨l :: earlier, k, front, ⟨behind, back, ?_, hk, hlast⟩, ?_⟩
        · rw [hsplit, List.cons_append]
        · rw [hchars, charsOf_cons, List.append_assoc]
      have hjoined : l.chars ++ charsOf (m :: later) = chars ++ rest := h
      rcases List.append_eq_append_iff.mp hjoined with ⟨more, hchars, hmore⟩ | ⟨back, hl, hrest⟩
      · exact hbeyond more hchars hmore
      · cases back with
        | nil => exact hbeyond [] (by simpa using hl.symm) hrest.symm
        | cons c back => exact ⟨[], l, chars, ⟨m :: later, c :: back, rfl, hl, nofun⟩, rfl⟩

/-- The line found for a number of characters is the one that so many characters lead into. -/
theorem Splits.lineAt?_eq (h : Splits (linesOf source) chars earlier l front) :
    lineAt? (linesOf source) source.length chars.length = some (earlier.length, l) ∧
      l.offset + front.length = chars.length := by
  obtain ⟨⟨later, back, hlines, hl, hlast⟩, rfl⟩ := h
  obtain ⟨hoffset, hbefore, hlater⟩ := (hlines ▸ consecutive_linesOf source).offset_eq
  have hlength : source.length = (charsOf earlier ++ front).length +
      (back.length + (charsOf later).length) := by
    rw [← String.length_toList, ← charsOf_linesOf source, hlines, charsOf_append, charsOf_cons, hl]
    simp [Nat.add_assoc]
  rw [List.length_append] at hlength ⊢
  have hkept : ((earlier ++ l :: later).filter fun m ↦
      m.offset ≤ (charsOf earlier).length + front.length) = earlier ++ [l] := by
    have hearlier : (earlier.filter fun m ↦
        m.offset ≤ (charsOf earlier).length + front.length) = earlier :=
      List.filter_eq_self.mpr fun m hm ↦ decide_eq_true (by have := hbefore m hm; omega)
    have hbehind : (later.filter fun m ↦
        m.offset ≤ (charsOf earlier).length + front.length) = [] := by
      refine List.filter_eq_nil_iff.mpr fun m hm ↦ ?_
      have hstop := hlater.le_offset m hm
      have hpos : back.length ≠ 0 := fun hzero ↦ by
        rw [hlast (List.length_eq_zero_iff.mp hzero)] at hm
        cases hm
      rw [Line.stop, hl, List.length_append] at hstop
      simp only [decide_eq_true_eq]
      omega
    have hl : l.offset ≤ (charsOf earlier).length + front.length := by omega
    rw [List.filter_append, hearlier, List.filter_cons, if_pos (decide_eq_true hl), hbehind]
  refine ⟨?_, by omega⟩
  unfold lineAt?
  rw [if_neg (by omega), hlines, hkept]
  simp

/-! ### Places -/

/-- The line and the column behind some characters of the source, counted from one. -/
def PlaceBehind (source : String) (chars : List Char) (line column : Nat) : Prop :=
  ∃ earlier l front, Splits (linesOf source) chars earlier l front ∧
    line = earlier.length + 1 ∧ column = front.length + 1

/-- The line that contains a byte offset, and the column that it stands in front of. -/
def PlaceOf (source : String) (offset line column : Nat) : Prop :=
  ∃ chars, byteLength chars = offset ∧ PlaceBehind source chars line column

variable {line line' column column' : Nat} {chars' rest : List Char}

theorem exists_placeBehind (h : source.toList = chars ++ rest) :
    ∃ line column, PlaceBehind source chars line column := by
  obtain ⟨earlier, l, front, hsplits⟩ :=
    exists_splits (linesOf_ne_nil source) ((charsOf_linesOf source).trans h)
  exact ⟨_, _, earlier, l, front, hsplits, rfl, rfl⟩

namespace PlaceBehind

theorem lineAt?_eq (h : PlaceBehind source chars line column) :
    ∃ number l, lineAt? (linesOf source) source.length chars.length = some (number, l) ∧
      line = number + 1 ∧ column = chars.length - l.offset + 1 := by
  obtain ⟨earlier, l, front, hsplits, rfl, rfl⟩ := h
  obtain ⟨hline, hcolumn⟩ := hsplits.lineAt?_eq
  exact ⟨earlier.length, l, hline, rfl, by omega⟩

theorem eq_of_lineAt? (h : PlaceBehind source chars line column) {number : Nat}
    (hl : lineAt? (linesOf source) source.length chars.length = some (number, l)) :
    line = number + 1 ∧ column = chars.length - l.offset + 1 := by
  obtain ⟨number', l', hl', rfl, rfl⟩ := h.lineAt?_eq
  obtain ⟨rfl, rfl⟩ := Prod.mk.inj (Option.some.inj (hl.symm.trans hl'))
  exact ⟨rfl, rfl⟩

theorem unique (h : PlaceBehind source chars line column)
    (h' : PlaceBehind source chars line' column') : line = line' ∧ column = column' := by
  obtain ⟨number, l, hl, rfl, rfl⟩ := h'.lineAt?_eq
  exact h.eq_of_lineAt? hl

/-- No two places of the source have the same line and column. -/
theorem chars_eq (h : PlaceBehind source chars line column)
    (h' : PlaceBehind source chars' line column) : chars = chars' := by
  obtain ⟨earlier, l, front, ⟨⟨later, back, hlines, hl, -⟩, rfl⟩, rfl, rfl⟩ := h
  obtain ⟨earlier', l', front', ⟨⟨later', back', hlines', hl', -⟩, rfl⟩, hline, hcolumn⟩ := h'
  obtain ⟨rfl, hrest⟩ := List.append_inj (hlines.symm.trans hlines') (Nat.succ.inj hline)
  obtain ⟨rfl, -⟩ := List.cons.inj hrest
  obtain ⟨rfl, -⟩ := List.append_inj (hl.symm.trans hl') (Nat.succ.inj hcolumn)
  rfl

theorem exists_append (h : PlaceBehind source chars line column) :
    ∃ rest, source.toList = chars ++ rest := by
  obtain ⟨earlier, l, front, ⟨⟨later, back, hlines, hl, -⟩, rfl⟩, -, -⟩ := h
  refine ⟨back ++ charsOf later, ?_⟩
  rw [← charsOf_linesOf source, hlines, charsOf_append, charsOf_cons, hl, List.append_assoc,
    List.append_assoc]

theorem takeBytes_eq (h : PlaceBehind source chars line column) :
    takeBytes (byteLength chars) source.toList = chars := by
  obtain ⟨rest, hsource⟩ := h.exists_append
  rw [hsource, takeBytes_append]

/-- A byte offset that characters take up belongs to the place behind them and to no other. -/
theorem placeOf_iff (h : PlaceBehind source chars line column) :
    PlaceOf source (byteLength chars) line' column' ↔ line' = line ∧ column' = column := by
  constructor
  · rintro ⟨chars', hlength, h'⟩
    have hchars : chars' = chars := by rw [← h'.takeBytes_eq, hlength, h.takeBytes_eq]
    exact (hchars ▸ h').unique h
  · rintro ⟨rfl, rfl⟩
    exact ⟨chars, rfl, h⟩

end PlaceBehind

theorem exists_placeBehind_of_boundary (h : Boundary source n) :
    ∃ chars line column, byteLength chars = n ∧ PlaceBehind source chars line column := by
  obtain ⟨before, after, hsource, hn⟩ := boundary_iff.mp h
  obtain ⟨line, column, hplace⟩ := exists_placeBehind hsource
  exact ⟨before, line, column, hn, hplace⟩

theorem exists_placeBehind_of_le (h : n ≤ source.length) :
    ∃ chars line column, chars.length = n ∧ PlaceBehind source chars line column := by
  rw [← String.length_toList] at h
  obtain ⟨line, column, hplace⟩ := exists_placeBehind (List.take_append_drop n source.toList).symm
  exact ⟨_, line, column, List.length_take_of_le h, hplace⟩

theorem exists_lineAt? (h : n ≤ source.length) :
    ∃ found, lineAt? (linesOf source) source.length n = some found := by
  obtain ⟨chars, line, column, rfl, hplace⟩ := exists_placeBehind_of_le h
  obtain ⟨number, l, hl, -⟩ := hplace.lineAt?_eq
  exact ⟨(number, l), hl⟩

end AdaptiveTree.Report
