import AdaptiveTree.Grammar.Attempts
import AdaptiveTree.Span

/-!
Readers of source text. A reader takes something off the text or fails, and either way tells
how the record of failed attempts changes. What it reads does not depend on that record.
-/

set_option autoImplicit false
set_option relaxedAutoImplicit false

namespace AdaptiveTree.Grammar

/-- A place in the source: its byte offset, and what is left to read from there. -/
structure Cursor where
  offset : Nat
  rest : List Char
  deriving DecidableEq, Repr, Inhabited

namespace Cursor

def start (source : String) : Cursor := ⟨0, source.toList⟩

/-- The place behind `chars`, with `rest` left to read. -/
def advance (c : Cursor) (chars rest : List Char) : Cursor := ⟨c.offset + byteLength chars, rest⟩

end Cursor

def isLineEnd (c : Char) : Bool := c = '\n' || c = '\r'

/-- Skips blanks, tabs and comments; a comment reaches up to the end of its line. The first
argument tells whether the text begins inside a comment. -/
def skipFrom : Bool → Nat → List Char → Cursor
  | _, offset, [] => ⟨offset, []⟩
  | true, offset, c :: rest =>
    if isLineEnd c then ⟨offset, c :: rest⟩
    else skipFrom true (offset + c.utf8Size) rest
  | false, offset, c :: rest =>
    if c = ' ' || c = '\t' then skipFrom false (offset + 1) rest
    else if c = '#' then skipFrom true (offset + 1) rest
    else ⟨offset, c :: rest⟩

structure Reading (α : Type) where
  outcome : Option (α × Cursor)
  /-- How the attempts made on the way change the record. -/
  trail : Attempts → Attempts

def Reader (α : Type) : Type := Cursor → Reading α

namespace Reader

variable {α β : Type}

def pure (a : α) : Reader α := fun c ↦ ⟨some (a, c), id⟩

def fail : Reader α := fun _ ↦ ⟨none, id⟩

def bind (p : Reader α) (f : α → Reader β) : Reader β := fun c ↦
  let r := p c
  match r.outcome with
  | none => ⟨none, r.trail⟩
  | some (a, c') =>
    let s := f a c'
    ⟨s.outcome, fun t ↦ s.trail (r.trail t)⟩

instance : Monad Reader where
  pure := pure
  bind := bind

/-- Reads with `q` where `p` fails. -/
def orElse (p q : Reader α) : Reader α := fun c ↦
  let r := p c
  match r.outcome with
  | some _ => r
  | none =>
    let s := q c
    ⟨s.outcome, fun t ↦ s.trail (r.trail t)⟩

/-- The first of some readers that succeeds. -/
def firstOf : List (Reader α) → Reader α
  | [] => fail
  | [p] => p
  | p :: rest => p.orElse (firstOf rest)

def optional (p : Reader α) : Reader (Option α) := (some <$> p).orElse (pure none)

/-- A reader whose failure is put on the record. -/
def expecting (e : Expected) (p : Reader α) : Reader α := fun c ↦
  let r := p c
  match r.outcome with
  | some _ => r
  | none => ⟨none, fun t ↦ (r.trail t).note e c.offset (t.countAt c.offset)⟩

/-- Blanks, tabs and comments, as many as there are. -/
def skip : Reader Unit := fun c ↦ ⟨some ((), skipFrom false c.offset c.rest), id⟩

/-- The current byte offset. -/
def offset : Reader Nat := fun c ↦ ⟨some (c.offset, c), id⟩

/-- What `scan` takes off the text, and what it finds there. -/
def lexeme (scan : List Char → Option (α × List Char × List Char)) :
    Reader (α × List Char) := fun c ↦
  match scan c.rest with
  | none => ⟨none, id⟩
  | some (a, taken, rest) => ⟨some ((a, taken), c.advance taken rest), id⟩

/-- Exactly the given characters. -/
def text (chars : List Char) : Reader Unit := fun c ↦
  if chars.isPrefixOf c.rest then
    ⟨some ((), c.advance chars (c.rest.drop chars.length)), id⟩
  else ⟨none, id⟩

def symbol (s : String) : Reader Unit := text s.toList

/-- Repeats `p` until it fails, at most `limit` times, skipping in front of it. -/
def repeated (p : Reader α) : Nat → Reader (List α)
  | 0 => pure []
  | limit + 1 =>
    orElse
      (do
        skip
        let a ← p
        let others ← repeated p limit
        return a :: others)
      (pure [])

/-- As many of `p` as there are, up to `limit`, skipping between them. -/
def many (limit : Nat) (p : Reader α) : Reader (List α) :=
  orElse
    (do
      let a ← p
      let others ← repeated p limit
      return a :: others)
    (pure [])

/-- A reader's result with the stretch of source that it was read from. -/
def spanned (p : Reader α) : Reader (α × Span) := do
  let start ← offset
  let a ← p
  let stop ← offset
  return (a, ⟨start, stop⟩)

end Reader

end AdaptiveTree.Grammar
