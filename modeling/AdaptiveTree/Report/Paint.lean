import AdaptiveTree.Diagnostic

/-!
Text in pieces of which some are tinted. Without colours the tints are dropped; with colours
every tinted piece is wrapped in the codes that a terminal understands.
-/

set_option autoImplicit false
set_option relaxedAutoImplicit false

namespace AdaptiveTree.Report

inductive Tint where
  | kind (severity : Severity)
  | frame
  | margin
  | label
  | source
  | help
  deriving DecidableEq, Repr, Inhabited

/-- The code that selects a tint. -/
def Tint.code : Tint → String
  | kind .error => "31"
  | kind .warning => "33"
  | kind .info => "38;5;147"
  | frame => "38;5;246"
  | margin => "38;5;240"
  | label => "38;5;155"
  | source => "38;5;249"
  | help => "38;5;115"

structure Piece where
  tint : Option Tint
  text : String
  deriving DecidableEq, Repr, Inhabited

/-- One line of output without its end. -/
abbrev Row := List Piece

def bare (text : String) : Row := [⟨none, text⟩]

def tinted (tint : Tint) (text : String) : Row := [⟨some tint, text⟩]

/-- Every character as a piece of its own. -/
def dotted (tint : Tint) (chars : List Char) : Row :=
  chars.map fun c ↦ ⟨some tint, String.singleton c⟩

def blanks (n : Nat) : String := String.ofList (List.replicate n ' ')

/-- The character that begins a terminal code. -/
def escape : String := String.singleton (Char.ofNat 27)

def Piece.render (colour : Bool) (p : Piece) : String :=
  match p.tint with
  | some tint =>
    if colour then escape ++ "[" ++ tint.code ++ "m" ++ p.text ++ escape ++ "[0m" else p.text
  | none => p.text

def renderRows (colour : Bool) (rows : List Row) : String :=
  String.join (rows.map fun row ↦ String.join (row.map (Piece.render colour)) ++ "\n")

end AdaptiveTree.Report
