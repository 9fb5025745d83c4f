import AdaptiveTree.Expr
import AdaptiveTree.Proofs.Grammar.Tokens
import AdaptiveTree.Value.Text

/-!
The canonical text of programs. Every operand, argument and condition stands in parentheses, and
so does a branch or an assigned value that is no assignment itself; statements are separated by
semicolons. `isWritable` tells which expressions the grammar can give back: assignments stand only
where statements do, and literals are those that can be written without a sign.
-/

set_option autoImplicit false
set_option relaxedAutoImplicit false

namespace AdaptiveTree

/-! ### Text -/

namespace Literal

/-- The text of a literal. -/
def written : Literal → List Char
  | null => "NULL".toList
  | logical l => l.text.toList
  | int i => Nat.toDigits 10 i.toInt.toNat ++ ['L']
  | double d => d.text.toList

/-- The literals that have a text: no number has a sign, and a double is finite. -/
def isWritable : Literal → Bool
  | null | logical _ => true
  | int i => 0 ≤ i.toInt
  | double d => d.isFinite && ! d.isNegative

end Literal

/-- In parentheses. -/
def enclosed (chars : List Char) : List Char := '(' :: chars ++ [')']

namespace Expr

def isAssign : Expr → Bool
  | assign .. => true
  | _ => false

/-- Can stand as an operand without parentheses, whatever follows: a conditional would go on. -/
def isAtomic : Expr → Bool
  | literal .. | ident .. | call .. | block .. => true
  | _ => false

/-- The text of a branch or an assigned value: in parentheses, unless it is an assignment. -/
def asBranch (e : Expr) (chars : List Char) : List Char :=
  if e.isAssign then chars else enclosed chars

mutual

/-- The canonical text of an expression. -/
def printed : Expr → List Char
  | literal l _ => l.written
  | ident n _ => n.toList
  | unary op e _ => op.symbol.toList ++ enclosed (printed e)
  | compare op a b _ =>
    enclosed (printed a) ++ ' ' :: op.symbol.toList ++ ' ' :: enclosed (printed b)
  | call callee args _ => callee.toList ++ enclosed (", ".toList.intercalate (printedArgs args))
  | assign n value _ => n.toList ++ " <- ".toList ++ value.asBranch (printed value)
  | ifThen c t _ => "if (".toList ++ printed c ++ ") ".toList ++ t.asBranch (printed t)
  | ifElse c t e _ =>
    "if (".toList ++ printed c ++ ") ".toList ++ t.asBranch (printed t) ++ " else ".toList ++
      e.asBranch (printed e)
  | block items _ =>
    "\x7b ".toList ++ "; ".toList.intercalate (printedAll items) ++ " \x7d".toList

def printedAll : List Expr → List (List Char)
  | [] => []
  | e :: rest => printed e :: printedAll rest

def printedArgs : List Expr → List (List Char)
  | [] => []
  | e :: rest => enclosed (printed e) :: printedArgs rest

end

-- The equations made for `printed` take long where the text of a keyword stands in them.

theorem printed_ident (n : String) (s : Span) : (ident n s).printed = n.toList := rfl

theorem printed_unary (op : UnaryOp) (e : Expr) (s : Span) :
    (unary op e s).printed = op.symbol.toList ++ enclosed e.printed := rfl

theorem printed_compare (op : CompareOp) (a b : Expr) (s : Span) :
    (compare op a b s).printed =
      enclosed a.printed ++ ' ' :: op.symbol.toList ++ ' ' :: enclosed b.printed := rfl

theorem printed_assign (n : String) (value : Expr) (s : Span) :
    (assign n value s).printed = n.toList ++ " <- ".toList ++ value.asBranch value.printed := rfl

theorem printed_ifThen (c t : Expr) (s : Span) :
    (ifThen c t s).printed =
      "if (".toList ++ c.printed ++ ") ".toList ++ t.asBranch t.printed := rfl

theorem printed_ifElse (c t e : Expr) (s : Span) :
    (ifElse c t e s).printed =
      "if (".toList ++ c.printed ++ ") ".toList ++ t.asBranch t.printed ++ " else ".toList ++
        e.asBranch e.printed := rfl

/-- The canonical text of a program. -/
def programText (items : List Expr) : String :=
  String.ofList ("; ".toList.intercalate (printedAll items))

/-! ### What has a text -/

mutual

/-- The expressions that the grammar has a text for. The first argument tells whether an
assignment may stand there. -/
def isWritable : Bool → Expr → Bool
  | _, literal l _ => l.isWritable
  | _, ident n _ => Grammar.Token.IsName n
  | _, unary _ e _ => isWritable false e
  | _, compare _ a b _ => isWritable false a && isWritable false b
  | _, call callee args _ => Grammar.Token.IsName callee && allWritable false args
  | statement, assign n value _ =>
    statement && Grammar.Token.IsName n && isWritable true value
  | _, ifThen c t _ => isWritable false c && isWritable true t
  | _, ifElse c t e _ => isWritable false c && isWritable true t && isWritable true e
  | _, block items _ => allWritable true items

def allWritable : Bool → List Expr → Bool
  | _, [] => true
  | statement, e :: rest => isWritable statement e && allWritable statement rest

end

/-! ### Expressions without their spans -/

mutual

/-- The expression with every span erased. -/
def bare : Expr → Expr
  | literal l _ => literal l .origin
  | ident n _ => ident n .origin
  | unary op e _ => unary op (bare e) .origin
  | compare op a b _ => compare op (bare a) (bare b) .origin
  | call callee args _ => call callee (bareAll args) .origin
  | assign n value _ => assign n (bare value) .origin
  | ifThen c t _ => ifThen (bare c) (bare t) .origin
  | ifElse c t e _ => ifElse (bare c) (bare t) (bare e) .origin
  | block items _ => block (bareAll items) .origin

def bareAll : List Expr → List Expr
  | [] => []
  | e :: rest => bare e :: bareAll rest

end

/-! ### Lists -/

@[simp]
theorem printedAll_eq_map (items : List Expr) : printedAll items = items.map printed := by
  induction items with
  | nil => rfl
  | cons e rest ih => rw [printedAll, ih, List.map_cons]

@[simp]
theorem printedArgs_eq_map (args : List Expr) :
    printedArgs args = args.map fun e ↦ enclosed (printed e) := by
  induction args with
  | nil => rfl
  | cons e rest ih => rw [printedArgs, ih, List.map_cons]

theorem printed_call (callee : String) (args : List Expr) (s : Span) :
    (call callee args s).printed =
      callee.toList ++
        enclosed (", ".toList.intercalate (args.map fun e ↦ enclosed e.printed)) := by
  rw [← printedArgs_eq_map]
  rfl

theorem printed_block (items : List Expr) (s : Span) :
    (block items s).printed =
      "\x7b ".toList ++ "; ".toList.intercalate (items.map printed) ++ " \x7d".toList := by
  rw [← printedAll_eq_map]
  rfl

@[simp]
theorem bareAll_eq_map (items : List Expr) : bareAll items = items.map bare := by
  induction items with
  | nil => rfl
  | cons e rest ih => rw [bareAll, ih, List.map_cons]

theorem allWritable_iff {statement : Bool} {items : List Expr} :
    allWritable statement items = true ↔ ∀ e ∈ items, isWritable statement e = true := by
  induction items with
  | nil => simp [allWritable]
  | cons e rest ih => simp [allWritable, ih]

end Expr

end AdaptiveTree
