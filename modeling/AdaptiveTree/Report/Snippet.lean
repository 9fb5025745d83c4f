import AdaptiveTree.Report.Paint
import AdaptiveTree.Report.Source
import AdaptiveTree.Report.Width

/-!
The part of a report that shows the source. Offsets count characters. A stretch within one
line is underlined; of a longer one the first and the last line are shown.
-/

set_option autoImplicit false
set_option relaxedAutoImplicit false

namespace AdaptiveTree.Report

/-- The part of the source that a message is about. -/
structure Snippet where
  lines : List Line
  span : Span
  message : String
  /-- The number of the line that the span starts in, from zero. -/
  firstNumber : Nat
  first : Line
  /-- The number of the line that the span ends in. -/
  lastNumber : Nat
  last : Line
  deriving Repr, Inhabited

namespace Snippet

/-- The snippet for a span, if the source has the lines for it. -/
def of? (source : String) (span : Span) (message : String) : Option Snippet :=
  let lines := linesOf source
  match lineAt? lines source.length span.start with
  | none => none
  | some (firstNumber, first) =>
    if span.start < span.stop then
      (lineAt? lines source.length (span.stop - 1)).map fun (lastNumber, last) ↦
        ⟨lines, span, message, firstNumber, first, lastNumber, last⟩
    else some ⟨lines, span, message, firstNumber, first, firstNumber, first⟩

/-- Whether the span covers the character at an offset. -/
def covers (s : Snippet) (offset : Nat) : Bool :=
  s.span.start ≤ offset && offset < s.span.stop

def isSingleLine (s : Snippet) : Bool := s.firstNumber = s.lastNumber

/-! ### Margins -/

/-- The width of the line numbers. -/
def numberWidth (s : Snippet) : Nat := (toString (s.lastNumber + 1)).length

def margin (s : Snippet) : Row :=
  bare " " ++ tinted .margin (blanks (s.numberWidth + 1) ++ "│") ++ bare " "

def numberedMargin (s : Snippet) (number : Nat) : Row :=
  let text := toString (number + 1)
  bare " " ++ tinted .frame (blanks (s.numberWidth - text.length) ++ text ++ " │") ++ bare " "

/-- The rows above the source, which tell where the span starts. -/
def opening (s : Snippet) : List Row :=
  let place := " <program>:" ++ toString (s.firstNumber + 1) ++ ":" ++
    toString (s.span.start - s.first.offset + 1) ++ " "
  let indent := bare (blanks (s.numberWidth + 2))
  [indent ++ dotted .frame ['╭', '─', '['] ++ bare place ++ tinted .frame "]",
    indent ++ tinted .frame "│"]

def closing (s : Snippet) : Row :=
  tinted .frame (String.ofList (List.replicate (s.numberWidth + 2) '─' ++ ['╯']))

/-! ### Lines of the source -/

/-- A line without the blank space at its end. -/
def shownChars (l : Line) : List Char := (l.chars.reverse.dropWhile isBlank).reverse

/-- The width of a column of a line; past the text every column has width one. -/
def columnWidth (l : Line) (column : Nat) : Nat :=
  match (shownChars l)[column]? with
  | some c => widthAt column c
  | none => 1

/-- The text of a line; blank space of any kind is shown as blanks. -/
def lineText (s : Snippet) (l : Line) : Row :=
  (shownChars l).zipIdx.flatMap fun (c, column) ↦
    let shown := if isBlank c then List.replicate (widthAt column c) ' ' else [c]
    dotted (if s.covers (l.offset + column) then .label else .source) shown

/-! ### Spans within a line -/

/-- The column from which the message hangs. -/
def anchor (s : Snippet) : Nat :=
  max ((s.span.start + s.span.stop) / 2) s.span.start - s.first.offset

/-- What the underline shows at a column of the given width. -/
def underlineCell (s : Snippet) (column width : Nat) : Row :=
  let covered := s.covers (s.first.offset + column)
  let mark : Option Char :=
    if column = s.anchor then some (if covered then '┬' else '│')
    else if covered then some '─'
    else none
  match mark, width with
  | _, 0 => []
  | none, _ => bare (blanks width)
  | some c, more + 1 =>
    dotted .label (c :: List.replicate more (if covered then '─' else ' '))

/-- What the row of the message shows at a column of the given width. -/
def hookCell (s : Snippet) (column width : Nat) : Row :=
  if column < s.anchor then bare (blanks width)
  else if column = s.anchor then
    match width with
    | 0 => []
    | more + 1 => dotted .label ('╰' :: List.replicate more '─')
  else dotted .label (List.replicate width '─')

def singleLineRows (s : Snippet) : List Row :=
  if s.first.stop < s.span.stop then [s.margin]
  else
    let columns := List.range (s.span.stop - s.first.offset + 2)
    let cells (cell : Nat → Nat → Row) : Row :=
      columns.flatMap fun column ↦ cell column (columnWidth s.first column)
    [s.numberedMargin s.firstNumber ++ s.lineText s.first,
      s.margin ++ cells s.underlineCell,
      s.margin ++ cells s.hookCell ++ bare (" " ++ s.message)]

/-! ### Spans over several lines -/

/-- Whether the last line really holds the last character of the span. -/
def hasLastLine (s : Snippet) : Bool := max (s.span.stop - 1) s.span.start < s.last.stop

/-- The row in place of the lines that are left out. -/
def gap (s : Snippet) : Row :=
  bare " " ++ tinted .margin (blanks (s.numberWidth + 1) ++ "┆") ++ bare " " ++
    tinted .label "┆" ++ bare (blanks 3)

/-- The last line of the span and the message below it. -/
def lastLineRows (s : Snippet) : List Row :=
  let columns := List.range (s.last.chars.length + 2)
  let width := columns.foldr (fun column w ↦ columnWidth s.last column + w) 0
  [s.numberedMargin s.lastNumber ++ dotted .label ['├', '─', '▶', ' '] ++ s.lineText s.last,
    s.margin ++ tinted .label "│" ++ bare (blanks (3 + width)),
    s.margin ++ dotted .label ('╰' :: List.replicate (3 + width) '─') ++
      bare (" " ++ s.message)]

def multiLineRows (s : Snippet) : List Row :=
  let leftOut := if s.hasLastLine then s.firstNumber + 1 < s.lastNumber else true
  [s.numberedMargin s.firstNumber ++ dotted .label ['╭', '─', '▶', ' '] ++ s.lineText s.first] ++
    (if leftOut then [s.gap] else []) ++
    (if s.hasLastLine then s.lastLineRows else [])

/-! ### Help -/

/-- A line of text without the carriage return in front of its line feed. -/
def withoutReturn (line : String) : String :=
  match line.toList.reverse with
  | '\r' :: rest => String.ofList rest.reverse
  | _ => line

/-- The lines of a help text. What stands behind the last line feed is a line as it is, if there
is anything. -/
def helpLines (help : String) : List String :=
  let pieces := help.splitOn "\n"
  pieces.dropLast.map withoutReturn ++ pieces.getLast?.toList.filter (· ≠ "")

/-- What stands in front of a help text. -/
def helpMargin (s : Snippet) : Row :=
  if s.isSingleLine then s.margin
  else if s.lines[1]?.map Line.offset = some s.span.start then
    s.margin ++ tinted .label "│" ++ bare (blanks 3)
  else s.margin ++ bare (blanks 4)

def helpRows (s : Snippet) (help : String) : List Row :=
  s.helpMargin :: match helpLines help with
    | [] => []
    | line :: others =>
      (s.helpMargin ++ tinted .help "Help" ++ bare (": " ++ line)) ::
        others.map fun l ↦ s.helpMargin ++ bare (blanks 6 ++ l)

/-! ### The whole -/

def rows (s : Snippet) (help : Option String) : List Row :=
  s.opening ++ (if s.isSingleLine then s.singleLineRows else s.multiLineRows) ++
    (match help with
      | some text => s.helpRows text
      | none => []) ++ [s.closing]

end Snippet

end AdaptiveTree.Report
