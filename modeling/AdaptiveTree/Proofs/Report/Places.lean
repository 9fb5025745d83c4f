import AdaptiveTree.Proofs.Grammar.Tokens
import AdaptiveTree.Proofs.Report.Lines
import AdaptiveTree.Report.Render

/-!
The place that a report names. Spans count bytes and reports count characters, so a report that is
given a span as it is names a place behind too many characters, unless each character in front of
the span is a single byte. A span that by this count reaches too far behind the end of the source is
not shown at all.
-/

set_option autoImplicit false
set_option relaxedAutoImplicit false

namespace AdaptiveTree.Report

variable {source : String} {d : Diagnostic} {line column line' column' : Nat} {chars : List Char}

/-! ### Characters and bytes -/

theorem length_le_byteLength (chars : List Char) : chars.length ≤ byteLength chars := by
  induction chars with
  | nil => exact Nat.le_refl 0
  | cons c rest ih =>
    have hpos := c.utf8Size_pos
    rw [List.length_cons, byteLength]
    omega

theorem length_eq_byteLength_iff :
    chars.length = byteLength chars ↔ ∀ c ∈ chars, c.utf8Size = 1 := by
  induction chars with
  | nil => simp [byteLength]
  | cons c rest ih =>
    have hpos := c.utf8Size_pos
    have hrest := length_le_byteLength rest
    rw [List.length_cons, byteLength, List.forall_mem_cons, ← ih]
    omega

/-! ### The text of a place -/

/-- What a report shows of the place that it is about. -/
def placeText (line column : Nat) : String :=
  "╭─[ <program>:" ++ toString line ++ ":" ++ toString column ++ " ]"

theorem toList_toString (n : Nat) : (toString n).toList = Nat.toDigits 10 n := by
  rw [Nat.toString_eq_repr, Nat.toList_repr]

theorem toDigits_append_inj {m n : Nat} {rest rest' : List Char}
    (hstop : ∀ c ∈ rest.head?, c.isDigit = false) (hstop' : ∀ c ∈ rest'.head?, c.isDigit = false)
    (h : Nat.toDigits 10 m ++ rest = Nat.toDigits 10 n ++ rest') : m = n ∧ rest = rest' := by
  have hdigits {k : Nat} : ∀ c ∈ Nat.toDigits 10 k, c.isDigit = true :=
    fun _ ↦ Grammar.Token.isDigit_of_mem_toDigits
  have htake := congrArg (List.takeWhile Char.isDigit) h
  have hdrop := congrArg (List.dropWhile Char.isDigit) h
  rw [Grammar.Token.takeWhile_append_stop hdigits hstop,
    Grammar.Token.takeWhile_append_stop hdigits hstop'] at htake
  rw [Grammar.Token.dropWhile_append_stop hdigits hstop,
    Grammar.Token.dropWhile_append_stop hdigits hstop'] at hdrop
  have hvalue := congrArg Grammar.Token.digitsValue htake
  rw [Grammar.Token.digitsValue_toDigits, Grammar.Token.digitsValue_toDigits] at hvalue
  exact ⟨hvalue, hdrop⟩

theorem toList_placeText (line column : Nat) : (placeText line column).toList =
    ['╭', '─', '[', ' ', '<', 'p', 'r', 'o', 'g', 'r', 'a', 'm', '>', ':'] ++
      (Nat.toDigits 10 line ++ ':' :: (Nat.toDigits 10 column ++ [' ', ']'])) := by
  have hopening : "╭─[ <program>:".toList =
      ['╭', '─', '[', ' ', '<', 'p', 'r', 'o', 'g', 'r', 'a', 'm', '>', ':'] :=
    String.toList_ofList
  unfold placeText
  simp only [String.toList_append, toList_toString, hopening]
  simp

/-- Wherever it is indented to, the text of a place tells which place it is. -/
theorem placeText_inj {indent indent' : Nat} {behind behind' : String}
    (h : blanks indent ++ (placeText line column ++ behind) =
      blanks indent' ++ (placeText line' column' ++ behind')) :
    line = line' ∧ column = column' := by
  have hblank {k : Nat} : ∀ c ∈ List.replicate k ' ', (c == ' ') = true := fun c hc ↦ by
    rw [List.eq_of_mem_replicate hc]
    rfl
  have hchars := congrArg (fun s ↦ s.toList.dropWhile (· == ' ')) h
  simp only [blanks, String.toList_append, String.toList_ofList, toList_placeText,
    List.append_assoc] at hchars
  rw [Grammar.Token.dropWhile_append_stop hblank (by simp),
    Grammar.Token.dropWhile_append_stop hblank (by simp)] at hchars
  obtain ⟨rfl, hcolumns⟩ := toDigits_append_inj (by simp) (by simp) (List.append_cancel_left hchars)
  simp only [List.cons_append, List.append_assoc] at hcolumns
  obtain ⟨rfl, -⟩ := toDigits_append_inj (by simp) (by simp) (List.cons.inj hcolumns).2
  exact ⟨rfl, rfl⟩

/-! ### Snippets -/

/-- There is a snippet unless an end of the span lies too far behind the end of the source. -/
theorem Snippet.of?_cases (source : String) (span : Span) (message : String) :
    (∃ s, Snippet.of? source span message = some s ∧ s.span = span ∧
      lineAt? (linesOf source) source.length span.start = some (s.firstNumber, s.first) ∧
      (span.start < span.stop → span.stop ≤ source.length + 1)) ∨
    (Snippet.of? source span message = none ∧
      (source.length < span.start ∨ span.start < span.stop ∧ source.length + 1 < span.stop)) := by
  have hbeyond {n : Nat} (h : source.length < n) :
      lineAt? (linesOf source) source.length n = none := by rw [lineAt?, if_pos h]
  unfold Snippet.of?
  rcases Nat.lt_or_ge source.length span.start with hstart | hstart
  · exact .inr ⟨by simp only [hbeyond hstart], .inl hstart⟩
  · obtain ⟨⟨number, first⟩, hfirst⟩ := exists_lineAt? hstart
    simp only [hfirst]
    by_cases hsome : span.start < span.stop
    · rw [if_pos hsome]
      rcases Nat.lt_or_ge source.length (span.stop - 1) with hstop | hstop
      · exact .inr ⟨by rw [hbeyond hstop, Option.map_none], .inr ⟨hsome, by omega⟩⟩
      · obtain ⟨⟨lastNumber, last⟩, hlast⟩ := exists_lineAt? hstop
        exact .inl ⟨_, by rw [hlast, Option.map_some], rfl, rfl, fun _ ↦ by omega⟩
    · rw [if_neg hsome]
      exact .inl ⟨_, rfl, rfl, rfl, fun h ↦ absurd h hsome⟩

/-! ### Reports -/

/-- A row as it is shown without colours. -/
def rowText (row : Row) : String := String.join (row.map (Piece.render false))

theorem renderRows_cons (row : Row) (rows : List Row) :
    renderRows false (row :: rows) = rowText row ++ "\n" ++ renderRows false rows := by
  rw [renderRows, List.map_cons, String.join_cons]
  rfl

theorem Snippet.exists_rows_eq (s : Snippet) (help : Option String) :
    ∃ row rows, s.rows help = row :: rows ∧ rowText row = blanks (s.numberWidth + 2) ++
      placeText (s.firstNumber + 1) (s.span.start - s.first.offset + 1) := by
  refine ⟨_, _, rfl, ?_⟩
  have hcorner : "╭─[ <program>:" = "╭" ++ ("─" ++ ("[" ++ " <program>:")) := by decide
  unfold placeText
  simp only [rowText, bare, tinted, dotted, Piece.render, List.map_cons, List.map_nil,
    List.cons_append, List.nil_append, String.join_cons, String.join_nil, String.append_assoc,
    String.append_empty, Bool.false_eq_true, if_false]
  rw [hcorner]
  rfl

/-- Below its heading the report on a diagnostic shows this line and column of the program. -/
def Names (source : String) (d : Diagnostic) (line column : Nat) : Prop :=
  ∃ indent behind, renderDiagnostics false source [d] =
    rowText (heading d) ++ "\n" ++ blanks indent ++ placeText line column ++ "\n" ++ behind

theorem names_iff_of_rows {row : Row} {rows : List Row} {indent : Nat}
    (hrows : diagnosticRows source d = heading d :: row :: rows)
    (hrow : rowText row = blanks indent ++ placeText line column) :
    Names source d line' column' ↔ line' = line ∧ column' = column := by
  have htext : renderDiagnostics false source [d] = rowText (heading d) ++ "\n" ++
      blanks indent ++ placeText line column ++ "\n" ++ renderRows false rows := by
    rw [renderDiagnostics, List.flatMap_singleton, hrows, renderRows_cons, renderRows_cons, hrow]
    simp only [String.append_assoc]
  constructor
  · rintro ⟨indent', behind, h⟩
    have hsame := h.symm.trans htext
    simp only [String.append_assoc, String.append_right_inj] at hsame
    exact placeText_inj hsame
  · rintro ⟨rfl, rfl⟩
    exact ⟨indent, _, htext⟩

theorem not_names_of_rows (hrows : diagnosticRows source d = [heading d]) :
    ¬ Names source d line column := by
  rintro ⟨indent, behind, h⟩
  have hbelow : "" = blanks indent ++ placeText line column ++ "\n" ++ behind := by
    rw [renderDiagnostics, List.flatMap_singleton, hrows, renderRows_cons] at h
    simp only [String.append_assoc, String.append_right_inj] at h ⊢
    exact h
  have hlength := congrArg (fun s ↦ s.toList.length) hbelow
  simp [toList_placeText] at hlength

/-- The report names the place behind as many characters as the span has bytes in front of it. -/
theorem names_iff : Names source d line column ↔
    (∃ chars, chars.length = d.span.start ∧ PlaceBehind source chars line column) ∧
      (d.span.start < d.span.stop → d.span.stop ≤ source.length + 1) := by
  rcases Snippet.of?_cases source d.span d.message with
    ⟨s, hs, hspan, hfirst, hstop⟩ | ⟨hnone, hbeyond⟩
  · have hstart : d.span.start ≤ source.length := by
      by_contra hlt
      rw [lineAt?, if_pos (Nat.lt_of_not_le hlt)] at hfirst
      cases hfirst
    obtain ⟨row, rows, hrows, hrow⟩ := s.exists_rows_eq d.help
    rw [names_iff_of_rows (by rw [diagnosticRows, hs]; exact congrArg _ hrows) hrow]
    rw [hspan]
    constructor
    · rintro ⟨rfl, rfl⟩
      obtain ⟨chars, line, column, hlength, hplace⟩ := exists_placeBehind_of_le hstart
      rw [← hlength] at hfirst ⊢
      obtain ⟨rfl, rfl⟩ := hplace.eq_of_lineAt? hfirst
      exact ⟨⟨chars, rfl, hplace⟩, hlength ▸ hstop⟩
    · rintro ⟨⟨chars, hlength, hplace⟩, -⟩
      rw [← hlength] at hfirst ⊢
      exact hplace.eq_of_lineAt? hfirst
  · refine iff_of_false (not_names_of_rows (by rw [diagnosticRows, hnone])) ?_
    rintro ⟨⟨chars, hlength, hplace⟩, hstop⟩
    obtain ⟨rest, hsource⟩ := hplace.exists_append
    have htotal := congrArg List.length hsource
    rw [String.length_toList, List.length_append] at htotal
    omega

/-- A report on a stretch of the source names the place where the stretch begins if and only if each
character in front of it is a single byte and, counted in characters, its end is not too far behind
the end of the source. -/
theorem names_place_iff (h : d.span.ValidIn source) :
    ∃ line column, (∀ n m, PlaceOf source d.span.start n m ↔ n = line ∧ m = column) ∧
      (Names source d line column ↔
        (∀ c ∈ takeBytes d.span.start source.toList, c.utf8Size = 1) ∧
          (d.span.start < d.span.stop → d.span.stop ≤ source.length + 1)) := by
  obtain ⟨chars, line, column, hstart, hplace⟩ := exists_placeBehind_of_boundary h.start
  refine ⟨line, column, fun n m ↦ hstart ▸ hplace.placeOf_iff, names_iff.trans ?_⟩
  rw [← hstart, hplace.takeBytes_eq, ← length_eq_byteLength_iff]
  refine and_congr_left fun _ ↦ ⟨?_, fun hlength ↦ ⟨chars, hlength, hplace⟩⟩
  rintro ⟨chars', hlength, hplace'⟩
  rw [hplace.chars_eq hplace', hlength, ← hplace'.chars_eq hplace]

/-- The letter with an accent in the comment moves the place of the call one column on. -/
theorem names_place_iff_accented :
    let source := "# é\nfrobnicate(1L)"
    let d : Diagnostic := ⟨.error, "could not find function \"frobnicate\"", ⟨5, 19⟩, none, "R004"⟩
    d.span.ValidIn source ∧ PlaceOf source d.span.start 2 1 ∧ ¬ Names source d 2 1 := by
  intro source d
  have hsource : source.toList = ['#', ' ', 'é', '\n'] ++ "frobnicate(1L)".toList := by decide
  have hvalid : d.span.ValidIn source := by
    refine ⟨by decide, boundary_iff.mpr ⟨_, _, hsource, by decide⟩, ?_⟩
    exact boundary_utf8ByteSize source
  have hplace : PlaceOf source d.span.start 2 1 :=
    ⟨['#', ' ', 'é', '\n'], by decide, [⟨0, ['#', ' ', 'é', '\n']⟩],
      ⟨4, "frobnicate(1L)".toList⟩, [],
      ⟨⟨[], "frobnicate(1L)".toList, by decide, rfl, fun _ ↦ rfl⟩, rfl⟩, rfl, rfl⟩
  obtain ⟨line, column, hunique, hnames⟩ := names_place_iff (d := d) hvalid
  obtain ⟨rfl, rfl⟩ := (hunique 2 1).mp hplace
  refine ⟨hvalid, hplace, fun h ↦ ?_⟩
  have haccent := (hnames.mp h).1 'é' (by decide)
  exact absurd haccent (by decide)

end AdaptiveTree.Report
