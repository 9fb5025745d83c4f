import AdaptiveTree.Value.Basic
import AdaptiveTree.Double.Decimal

/-!
The text of values. Integers carry the suffix `L`, so text tells the ranks apart, and a
vector is written as the call that builds it.
-/

set_option autoImplicit false
set_option relaxedAutoImplicit false

namespace AdaptiveTree

def Logical.text : Logical → String
  | no => "FALSE"
  | yes => "TRUE"
  | na => "NA"

def Scalar.text : Scalar → String
  | logical l => l.text
  | int i => if i = missingInt then "NA" else toString i.toInt ++ "L"
  | double d => d.text

def Value.text (v : Value) : String :=
  match v with
  | null => "NULL"
  | scalar s => s.text
  | _ =>
    if v.elements.isEmpty then v.kindName ++ "(0)"
    else "c(" ++ ", ".intercalate (v.elements.map Scalar.text) ++ ")"

end AdaptiveTree
