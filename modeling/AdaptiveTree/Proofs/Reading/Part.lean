import AdaptiveTree.Proofs.Tree.Replacement
import AdaptiveTree.Lowering

/-!
What one node stands for in the source of its program. Every conditional form fits the
conditional that it was made for, and a conversion step fits the condition below it. Which
children a node has does not matter, only what they in turn have to stand for.
-/

set_option autoImplicit false
set_option relaxedAutoImplicit false

namespace AdaptiveTree

/-- What a node stands for. -/
inductive Part where
  /-- The evaluation of an expression. -/
  | value (e : Expr)
  /-- The evaluation of a condition, which may reduce it to a truth value. -/
  | test (e : Expr)
  /-- The statements of a program in which return tails are recognised. -/
  | statements (items : List Expr) (span : Span)
  /-- A return tail with the statements behind it. -/
  | tail (tail : Expr.ReturnTail) (rest : List Expr) (restSpan span : Span)

namespace Expr

def isCompare : Expr → Bool
  | compare .. => true
  | _ => false

/-- A conditional without `else` whose branch ends with a call of `return` to one argument. -/
def Returning (e cond : Expr) (body : List Expr) (arg : Expr) (callSpan : Span) : Prop :=
  ∃ branch span, e = .ifThen cond branch span ∧
    branch.statements = body ++ [.call "return" [arg] callSpan]

/-- Lowering recognises the return tails and gives all there is to them. -/
theorem returnTail?_eq_some_iff {e : Expr} {t : ReturnTail} :
    e.returnTail? = some t ↔ e.Returning t.cond t.body t.arg t.callSpan := by
  constructor
  · intro h
    cases e with
    | ifThen cond branch span =>
      rw [returnTail?] at h
      split at h
      · next arg callSpan hlast =>
        obtain rfl := Option.some.inj h
        exact ⟨branch, span, rfl, (List.dropLast_append_getLast? _ hlast).symm⟩
      · simp at h
    | _ => cases h
  · rintro ⟨branch, span, rfl, hbranch⟩
    rw [returnTail?, hbranch, List.getLast?_concat, List.dropLast_concat]
    rfl

theorem not_returning {e cond arg : Expr} {body : List Expr} {callSpan : Span}
    (h : e.returnTail? = none) : ¬ e.Returning cond body arg callSpan := fun hreturning ↦ by
  have hsome : e.returnTail? = some ⟨cond, body, arg, callSpan⟩ :=
    returnTail?_eq_some_iff.mpr hreturning
  cases h.symm.trans hsome

end Expr

namespace Part

def span : Part → Span
  | value e | test e => e.span
  | statements _ s | tail _ _ _ s => s

/-- The condition of a conditional. -/
def condition? : Part → Option Expr
  | value (.ifThen c _ _) | value (.ifElse c _ _ _) => some c
  | tail t _ _ _ => some t.cond
  | _ => none

/-- The parts that the nodes of some statements stand for. -/
def ofStatements : List Expr → List Part
  | [] => []
  | e :: rest =>
    match e.returnTail? with
    | some t => [tail t rest (Expr.spanOf ⟨e.span.stop, e.span.stop⟩ rest) e.span]
    | none => value e :: ofStatements rest

/-- The part of the statements in front of a `return`, if there are any. -/
def ofBody : List Expr → List Part
  | [] => []
  | e :: rest => [value (.block (e :: rest) (Expr.spanOf .origin (e :: rest)))]

/-- The part of the call that ends a return tail. -/
def ofCall (t : Expr.ReturnTail) : Part := value (.call "return" [t.arg] t.callSpan)

/-- The part of a whole program. -/
def ofProgram (options : CompilationOptions) : Expr → Part
  | .block items span =>
    if options.returnTails then statements items span else value (.block items span)
  | e => value e

end Part

/-- A conditional with its branches. A missing branch is as good as one that gives nothing. -/
inductive Expr.Branches : Expr → Expr → Expr → Expr → Prop
  | missing (cond thenBranch : Expr) (span : Span) :
    Branches (.ifThen cond thenBranch span) cond thenBranch (.literal .null span)
  | present (cond thenBranch elseBranch : Expr) (span : Span) :
    Branches (.ifElse cond thenBranch elseBranch span) cond thenBranch elseBranch

theorem Expr.Branches.unique {source c t e c' t' e' : Expr} (h : source.Branches c t e)
    (h' : source.Branches c' t' e') : c = c' ∧ t = t' ∧ e = e' := by
  cases h <;> cases h' <;> exact ⟨rfl, rfl, rfl⟩

/-- A node of a kind at a place in the source fits a part, if its children stand for the parts
listed. For return tails `calls` gives the place of the call. -/
inductive Fits (calls : NodeId → Span) (id : NodeId) :
    NodeKind → Span → Part → List Part → Prop
  | literal (l : Literal) (span : Span) :
    Fits calls id (.constant l.value) span (.value (.literal l span)) []
  | ident (name : String) (span : Span) :
    Fits calls id (.read name) span (.value (.ident name span)) []
  | unary (op : UnaryOp) (x : NodeId) (e : Expr) (span : Span) :
    Fits calls id (.unary op x) span (.value (.unary op e span)) [.value e]
  | compare (op : CompareOp) (x y : NodeId) (left right : Expr) (span : Span) :
    Fits calls id (.compare op x y) span (.value (.compare op left right span))
      [.value left, .value right]
  | call (name : String) (ids : List NodeId) (args : List Expr) (span : Span)
      (hlength : ids.length = args.length) :
    Fits calls id (.call name ids) span (.value (.call name args span)) (args.map .value)
  | assign (name : String) (x : NodeId) (e : Expr) (span : Span) :
    Fits calls id (.assign name x) span (.value (.assign name e span)) [.value e]
  | block (ids : List NodeId) (items : List Expr) (span : Span)
      (hlength : ids.length = items.length) :
    Fits calls id (.sequence ids) span (.value (.block items span)) (items.map .value)
  | generic (c b e : NodeId) {source cond thenBranch elseBranch : Expr}
      (hsource : source.Branches cond thenBranch elseBranch) :
    Fits calls id (.cond (.generic c b e)) source.span (.value source)
      [.test cond, .value thenBranch, .value elseBranch]
  | noElse (c b : NodeId) (cond thenBranch : Expr) (span : Span) :
    Fits calls id (.cond (.noElse c b)) span (.value (.ifThen cond thenBranch span))
      [.test cond, .value thenBranch]
  | twoBranch (c b e : NodeId) (cond thenBranch elseBranch : Expr) (span : Span) :
    Fits calls id (.cond (.twoBranch c b e)) span (.value (.ifElse cond thenBranch elseBranch span))
      [.test cond, .value thenBranch, .value elseBranch]
  | const (c b e : NodeId) {k : Scalar} {source cond thenBranch elseBranch : Expr}
      (hsource : source.Branches cond thenBranch elseBranch)
      (hconstant : cond.constantTested? = some k) :
    Fits calls id (.cond (.const c b e k)) source.span (.value source)
      [.value cond, .value thenBranch, .value elseBranch]
  | specialized (c b e : NodeId) {k : Scalar} {v : Value} {comparator : Comparator}
      {source cond thenBranch elseBranch : Expr}
      (hsource : source.Branches cond thenBranch elseBranch)
      (hconstant : cond.constantTested? = some k)
      (hshapes : Comparator.forShapes? v k = some comparator) :
    Fits calls id (.cond (.specialized c b e comparator)) source.span (.value source)
      [.value cond, .value thenBranch, .value elseBranch]
  | convert (x : NodeId) (mode : ConvertMode) (e : Expr)
      (hmode : e.isCompare = true → mode = .logical) :
    Fits calls id (.convert x mode) e.span (.test e) [.value e]
  /-- A condition without a conversion step. -/
  | plain {kind : NodeKind} {span : Span} {e : Expr} {parts : List Part}
      (h : Fits calls id kind span (.value e) parts) : Fits calls id kind span (.test e) parts
  | statements (ids : List NodeId) (items : List Expr) (span : Span)
      (hlength : ids.length = (Part.ofStatements items).length) :
    Fits calls id (.sequence ids) span (.statements items span) (Part.ofStatements items)
  | builtin (c : NodeId) (body : Option NodeId) (arg r : NodeId) (t : Expr.ReturnTail)
      (rest : List Expr) (restSpan span : Span)
      (hlength : body.toList.length = (Part.ofBody t.body).length)
      (hcalls : calls id = t.callSpan) :
    Fits calls id (.cond (.returnBuiltin c body arg r)) span (.tail t rest restSpan span)
      (.test t.cond :: Part.ofBody t.body ++ [.value t.arg, .statements rest restSpan])
  | overridden (c : NodeId) (body : Option NodeId) (call r : NodeId) (t : Expr.ReturnTail)
      (rest : List Expr) (restSpan span : Span)
      (hlength : body.toList.length = (Part.ofBody t.body).length) :
    Fits calls id (.cond (.returnOverridden c body call r)) span (.tail t rest restSpan span)
      (.test t.cond :: Part.ofBody t.body ++ [Part.ofCall t, .statements rest restSpan])

namespace Fits

variable {calls calls' : NodeId → Span} {id id' : NodeId} {kind kind' : NodeKind} {span : Span}
  {part : Part} {parts : List Part}

theorem length_eq (h : Fits calls id kind span part parts) :
    kind.children.length = parts.length := by
  induction h with
  | call _ _ _ _ hlength | block _ _ _ hlength => simpa [NodeKind.children] using hlength
  | statements _ _ _ hlength => exact hlength
  | plain _ ih => exact ih
  | builtin _ _ _ _ _ _ _ _ hlength | overridden _ _ _ _ _ _ _ _ hlength =>
    simp [NodeKind.children, Conditional.children, hlength]
  | _ => rfl

theorem span_eq (h : Fits calls id kind span part parts) : span = part.span := by
  induction h with
  | plain _ ih => exact ih
  | _ => rfl

/-- Only the place of the call matters of what a return tail is numbered. -/
theorem congr (h : Fits calls id kind span part parts) (hcalls : calls' id' = calls id) :
    Fits calls' id' kind span part parts := by
  induction h with
  | literal l span => exact .literal l span
  | ident name span => exact .ident name span
  | unary op x e span => exact .unary op x e span
  | compare op x y l r span => exact .compare op x y l r span
  | call name ids args span hlength => exact .call name ids args span hlength
  | assign name x e span => exact .assign name x e span
  | block ids items span hlength => exact .block ids items span hlength
  | generic c b e hsource => exact .generic c b e hsource
  | noElse c b cond t span => exact .noElse c b cond t span
  | twoBranch c b e cond t el span => exact .twoBranch c b e cond t el span
  | const c b e hsource hconstant => exact .const c b e hsource hconstant
  | specialized c b e hsource hconstant hshapes =>
    exact .specialized c b e hsource hconstant hshapes
  | convert x mode e hmode => exact .convert x mode e hmode
  | plain _ ih => exact .plain ih
  | statements ids items span hlength => exact .statements ids items span hlength
  | builtin c body arg r t rest restSpan span hlength hcall =>
    exact .builtin c body arg r t rest restSpan span hlength (hcalls.trans hcall)
  | overridden c body call r t rest restSpan span hlength =>
    exact .overridden c body call r t rest restSpan span hlength

/-- Which children there are does not matter, as long as their number stays. -/
theorem withChildren (h : Fits calls id kind span part parts) {ids : List NodeId}
    (hids : ids.length = kind.children.length) :
    Fits calls id (kind.withChildren ids) span part parts := by
  induction h with
  | literal l span => exact .literal l span
  | ident name span => exact .ident name span
  | unary op x e span =>
    obtain ⟨x, rfl⟩ := List.length_eq_one_iff.mp hids
    exact .unary op x e span
  | compare op x y l r span =>
    obtain ⟨x, y, rfl⟩ := List.length_eq_two.mp hids
    exact .compare op x y l r span
  | call name _ args span hlength => exact .call name ids args span (hids.trans hlength)
  | assign name x e span =>
    obtain ⟨x, rfl⟩ := List.length_eq_one_iff.mp hids
    exact .assign name x e span
  | block _ items span hlength => exact .block ids items span (hids.trans hlength)
  | generic _ _ _ hsource =>
    obtain ⟨c, b, e, rfl⟩ := List.length_eq_three.mp hids
    exact .generic c b e hsource
  | noElse _ _ cond t span =>
    obtain ⟨c, b, rfl⟩ := List.length_eq_two.mp hids
    exact .noElse c b cond t span
  | twoBranch _ _ _ cond t el span =>
    obtain ⟨c, b, e, rfl⟩ := List.length_eq_three.mp hids
    exact .twoBranch c b e cond t el span
  | const _ _ _ hsource hconstant =>
    obtain ⟨c, b, e, rfl⟩ := List.length_eq_three.mp hids
    exact .const c b e hsource hconstant
  | specialized _ _ _ hsource hconstant hshapes =>
    obtain ⟨c, b, e, rfl⟩ := List.length_eq_three.mp hids
    exact .specialized c b e hsource hconstant hshapes
  | convert _ mode e hmode =>
    obtain ⟨x, rfl⟩ := List.length_eq_one_iff.mp hids
    exact .convert x mode e hmode
  | plain _ ih => exact .plain (ih hids)
  | statements _ items span hlength => exact .statements ids items span (hids.trans hlength)
  | builtin _ body _ _ t rest restSpan span hlength hcall =>
    cases body with
    | none =>
      obtain ⟨c, a, r, rfl⟩ := List.length_eq_three.mp hids
      exact .builtin c none a r t rest restSpan span hlength hcall
    | some b =>
      obtain ⟨c, b, a, r, rfl⟩ := List.length_eq_four.mp hids
      exact .builtin c (some b) a r t rest restSpan span hlength hcall
  | overridden _ body _ _ t rest restSpan span hlength =>
    cases body with
    | none =>
      obtain ⟨c, a, r, rfl⟩ := List.length_eq_three.mp hids
      exact .overridden c none a r t rest restSpan span hlength
    | some b =>
      obtain ⟨c, b, a, r, rfl⟩ := List.length_eq_four.mp hids
      exact .overridden c (some b) a r t rest restSpan span hlength

theorem replaceChild (h : Fits calls id kind span part parts) (old new : NodeId) :
    Fits calls id (kind.replaceChild old new) span part parts :=
  h.withChildren List.length_replace

/-- A condition that is no conversion step is evaluated like any expression. -/
theorem value_of_test {e : Expr} (h : Fits calls id kind span (.test e) parts)
    (hplain : kind.isConversion = false) : Fits calls id kind span (.value e) parts := by
  cases h with
  | convert x mode => cases hplain
  | plain h => exact h

/-- Nodes of comparisons compare, and no others do. -/
theorem isCompare_eq {e : Expr} (h : Fits calls id kind span (.value e) parts) :
    kind.isCompare = e.isCompare := by
  cases h with
  | generic _ _ _ hsource | const _ _ _ hsource | specialized _ _ _ hsource =>
    cases hsource <;> rfl
  | _ => rfl

theorem mode_of_convert {x : NodeId} {mode : ConvertMode} {e : Expr}
    (h : Fits calls id (.convert x mode) span (.test e) parts) (hcompare : e.isCompare = true) :
    mode = .logical := by
  cases h with
  | convert _ _ _ hmode => exact hmode hcompare
  | plain h => cases h

theorem parts_of_convert {x : NodeId} {mode : ConvertMode} {e : Expr}
    (h : Fits calls id (.convert x mode) span (.test e) parts) : parts = [.value e] := by
  cases h with
  | convert => rfl
  | plain h => cases h

/-- What the children of a return tail stand for, in either form. -/
theorem zip_of_tail {t : Expr.ReturnTail} {rest : List Expr} {restSpan tailSpan : Span}
    (h : Fits calls id kind span (.tail t rest restSpan tailSpan) parts) :
    ∃ c body last r lastPart,
      (kind = .cond (.returnBuiltin c body last r) ∧ lastPart = .value t.arg ∨
        kind = .cond (.returnOverridden c body last r) ∧ lastPart = Part.ofCall t) ∧
      body.toList.length = (Part.ofBody t.body).length ∧
      kind.children.zip parts = (c, .test t.cond) :: body.toList.zip (Part.ofBody t.body) ++
        [(last, lastPart), (r, .statements rest restSpan)] := by
  cases h with
  | builtin c body arg r _ _ _ _ hlength =>
    refine ⟨c, body, arg, r, _, Or.inl ⟨rfl, rfl⟩, hlength, ?_⟩
    simp [NodeKind.children, Conditional.children, List.zip_append hlength]
  | overridden c body call r _ _ _ _ hlength =>
    refine ⟨c, body, call, r, _, Or.inr ⟨rfl, rfl⟩, hlength, ?_⟩
    simp [NodeKind.children, Conditional.children, List.zip_append hlength]

/-- The branches of a conditional in any of its forms. A form without a node for the missing
branch belongs to a conditional that misses it. -/
theorem zip_of_branches {source cond thenBranch elseBranch : Expr}
    (h : Fits calls id kind span (.value source) parts)
    (hsource : source.Branches cond thenBranch elseBranch) :
    ∃ form t e?, kind = .cond form ∧ form.branches? = some (t, e?) ∧
      (t, .value thenBranch) ∈ kind.children.zip parts ∧
      (∀ e, e? = some e → (e, .value elseBranch) ∈ kind.children.zip parts) ∧
      (e? = none → ∃ s, elseBranch = .literal .null s) := by
  cases h with
  | generic c t e hsource' | const c t e hsource' | specialized c t e hsource' =>
    obtain ⟨rfl, rfl, rfl⟩ := hsource.unique hsource'
    refine ⟨_, t, some e, rfl, rfl, ?_, ?_, by simp⟩
    · simp [NodeKind.children, Conditional.children]
    · rintro _ ⟨⟩
      simp [NodeKind.children, Conditional.children]
  | noElse c t =>
    obtain ⟨⟩ := hsource
    refine ⟨_, t, none, rfl, rfl, ?_, by simp, fun _ ↦ ⟨_, rfl⟩⟩
    simp [NodeKind.children, Conditional.children]
  | twoBranch c t e =>
    obtain ⟨⟩ := hsource
    refine ⟨_, t, some e, rfl, rfl, ?_, ?_, by simp⟩
    · simp [NodeKind.children, Conditional.children]
    · rintro _ ⟨⟩
      simp [NodeKind.children, Conditional.children]
  | _ => cases hsource

/-- The condition of a conditional: a test of it where the form reads it as a whole, and else the
comparison with a constant itself. -/
theorem zip_of_condition {c : Expr} (h : Fits calls id kind span part parts)
    (hcondition : part.condition? = some c) :
    ∃ form, kind = .cond form ∧
      (form.readsOperand = false → (form.cond, .test c) ∈ kind.children.zip parts) ∧
      (form.readsOperand = true → (form.cond, .value c) ∈ kind.children.zip parts) := by
  cases h with
  | generic _ _ _ hsource | const _ _ _ hsource | specialized _ _ _ hsource =>
    cases hsource <;> cases hcondition <;>
      refine ⟨_, rfl, ?_, ?_⟩ <;> simp [NodeKind.children, Conditional.children, Conditional.cond,
        Conditional.readsOperand]
  | noElse | twoBranch =>
    cases hcondition
    refine ⟨_, rfl, ?_, ?_⟩ <;> simp [NodeKind.children, Conditional.children, Conditional.cond,
      Conditional.readsOperand]
  | builtin | overridden =>
    cases hcondition
    refine ⟨_, rfl, ?_, ?_⟩ <;> simp [NodeKind.children, Conditional.children, Conditional.cond,
      Conditional.readsOperand]
  | _ => cases hcondition

theorem eq_of_compare {op : CompareOp} {left right : Expr} {s : Span}
    (h : Fits calls id kind span (.value (.compare op left right s)) parts) :
    ∃ l r, kind = .compare op l r ∧ parts = [.value left, .value right] := by
  cases h with
  | compare _ l r => exact ⟨l, r, rfl, rfl⟩
  | generic _ _ _ hsource | const _ _ _ hsource | specialized _ _ _ hsource => cases hsource

theorem constantTested?_of_const {c t e : NodeId} {k : Scalar} {cond : Expr}
    (h : Fits calls id (.cond (.const c t e k)) span part parts)
    (hcondition : part.condition? = some cond) : cond.constantTested? = some k := by
  cases h with
  | const _ _ _ hsource hconstant => cases hsource <;> cases hcondition <;> exact hconstant
  | plain => cases hcondition

theorem constantTested?_of_specialized {c t e : NodeId} {k : Comparator} {cond : Expr}
    (h : Fits calls id (.cond (.specialized c t e k)) span part parts)
    (hcondition : part.condition? = some cond) :
    ∃ s v, cond.constantTested? = some s ∧ Comparator.forShapes? v s = some k := by
  cases h with
  | specialized _ _ _ hsource hconstant hshapes =>
    cases hsource <;> cases hcondition <;> exact ⟨_, _, hconstant, hshapes⟩
  | plain => cases hcondition

/-- Conversion steps only stand for conditions. -/
theorem exists_of_convert {x : NodeId} {mode : ConvertMode}
    (h : Fits calls id (.convert x mode) span part parts) : ∃ e, part = .test e := by
  cases h with
  | convert | plain => exact ⟨_, rfl⟩

theorem exists_condition {form : Conditional} (h : Fits calls id (.cond form) span part parts)
    (hplain : ∀ e, part ≠ .test e) : ∃ c, part.condition? = some c := by
  cases h with
  | generic _ _ _ hsource | const _ _ _ hsource | specialized _ _ _ hsource =>
    cases hsource <;> exact ⟨_, rfl⟩
  | noElse | twoBranch | builtin | overridden => exact ⟨_, rfl⟩
  | plain => exact absurd rfl (hplain _)

/-- The condition of a form that reads it as a whole may get a conversion step. -/
theorem exists_test {form : Conditional} (h : Fits calls id (.cond form) span part parts)
    (hreads : form.readsOperand = false) : ∃ e others, parts = .test e :: others := by
  generalize hkind : NodeKind.cond form = kind at h
  induction h with
  | const | specialized =>
    obtain rfl := NodeKind.cond.inj hkind
    simp [Conditional.readsOperand] at hreads
  | plain _ ih => exact ih hkind
  | generic | noElse | twoBranch | builtin | overridden => exact ⟨_, _, rfl⟩
  | _ => simp at hkind

end Fits

/-! ### Recast nodes -/

/-- Where a child of a recast node comes from: it stood for that part already, it stood for the
condition that it is now a test of, or it is the node added below. -/
inductive Inherits (calls : NodeId → Span) (fresh : NodeId) (before : List (NodeId × Part))
    (extra : Option (NodeKind × Span)) : NodeId × Part → Prop
  | same {c : NodeId} {p : Part} (h : (c, p) ∈ before) : Inherits calls fresh before extra (c, p)
  | relaxed {c : NodeId} {e : Expr} (h : (c, .value e) ∈ before) :
    Inherits calls fresh before extra (c, .test e)
  | added {kind : NodeKind} {span : Span} {p : Part} {parts : List Part}
      (hextra : extra = some (kind, span)) (hfits : Fits calls fresh kind span p parts)
      (hbefore : ∀ q ∈ kind.children.zip parts, q ∈ before) :
    Inherits calls fresh before extra (fresh, p)

section Recast

variable {calls : NodeId → Span} {old fresh new c b e r : NodeId} {span : Span}

/-- A conditional that gives up its comparison tests the condition as a whole. -/
theorem fits_dropped {source cond thenBranch elseBranch : Expr}
    (hsource : source.Branches cond thenBranch elseBranch) (extra : Option (NodeKind × Span)) :
    ∃ parts, Fits calls new (.cond (.generic c b e)) source.span (.value source) parts ∧
      ∀ q ∈ (NodeKind.cond (.generic c b e)).children.zip parts,
        Inherits calls fresh
          [(c, .value cond), (b, .value thenBranch), (e, .value elseBranch)] extra q := by
  refine ⟨_, .generic c b e hsource, ?_⟩
  simp only [NodeKind.children, Conditional.children, List.zip_cons_cons, List.zip_nil_right,
    List.forall_mem_cons, List.not_mem_nil, false_implies, implies_true, and_true]
  exact ⟨.relaxed (by simp), .same (by simp), .same (by simp)⟩

/-- A return tail that is overridden gets a call of its argument. -/
theorem fits_overridden {body : Option NodeId} {arg : NodeId} {t : Expr.ReturnTail}
    {rest : List Expr} {restSpan : Span}
    (hlength : body.toList.length = (Part.ofBody t.body).length)
    (hcalls : calls old = t.callSpan) :
    ∃ parts, Fits calls new (.cond (.returnOverridden c body fresh r)) span
        (.tail t rest restSpan span) parts ∧
      ∀ q ∈ (NodeKind.cond (.returnOverridden c body fresh r)).children.zip parts,
        Inherits calls fresh
          ((NodeKind.cond (.returnBuiltin c body arg r)).children.zip
            (.test t.cond :: Part.ofBody t.body ++ [.value t.arg, .statements rest restSpan]))
          (some (.call "return" [arg], calls old)) q := by
  refine ⟨_, .overridden c body fresh r t rest restSpan span hlength, ?_⟩
  have hzip (x : NodeId) (p : Part) :
      (NodeKind.cond (.returnBuiltin c body x r)).children.zip
        (.test t.cond :: Part.ofBody t.body ++ [p, .statements rest restSpan]) =
      (c, .test t.cond) :: body.toList.zip (Part.ofBody t.body) ++
        [(x, p), (r, .statements rest restSpan)] := by
    simp [NodeKind.children, Conditional.children, List.zip_append hlength]
  have hcall : Fits calls fresh (.call "return" [arg]) (calls old) (Part.ofCall t)
      [.value t.arg] := by
    rw [hcalls]
    exact .call "return" [arg] [t.arg] t.callSpan rfl
  intro q hq
  have hq' : q ∈ (c, Part.test t.cond) :: body.toList.zip (Part.ofBody t.body) ++
      [(fresh, Part.ofCall t), (r, .statements rest restSpan)] := by
    rw [← hzip]
    exact hq
  rw [hzip]
  simp only [List.cons_append, List.mem_cons, List.mem_append, List.not_mem_nil,
    or_false] at hq'
  rcases hq' with rfl | hbody | rfl | rfl
  · exact .same (by simp)
  · exact .same (by simp [hbody])
  · exact .added rfl hcall (by simp [NodeKind.children])
  · exact .same (by simp)

/-- A recast node goes on fitting the part that it stood for. Assumes: no step above a comparison
is widened. -/
theorem Tree.Recast.fits (new : NodeId) {before after : NodeKind}
    {extra : Option (NodeKind × Span)} {part : Part} {parts : List Part}
    (hrecast : Tree.Recast (calls old) span fresh before after extra)
    (hwidens : ∀ x mode e, before = .convert x mode → part = .test e → e.isCompare = false)
    (h : Fits calls old before span part parts) :
    ∃ parts', Fits calls new after span part parts' ∧
      ∀ q ∈ after.children.zip parts',
        Inherits calls fresh (before.children.zip parts) extra q := by
  have hall {others : List (NodeId × Part)} {extra : Option (NodeKind × Span)}
      (q : NodeId × Part) (hq : q ∈ others) : Inherits calls fresh others extra q := .same hq
  induction h with
  | noElse c b cond t span =>
    cases hrecast with
    | addElse =>
      refine ⟨_, .generic c b fresh (.missing cond t span), ?_⟩
      simp only [NodeKind.children, Conditional.children, List.zip_cons_cons, List.zip_nil_right,
        List.forall_mem_cons, List.not_mem_nil, false_implies, implies_true, and_true]
      exact ⟨.same (by simp), .same (by simp), .added rfl (.literal .null span) (by simp)⟩
  | twoBranch c b e cond t el span =>
    cases hrecast with
    | relax => exact ⟨_, .generic c b e (.present cond t el span), hall⟩
  | const c b e hsource hconstant =>
    cases hrecast with
    | dropConstant => exact fits_dropped hsource none
    | specialize _ _ _ hshapes =>
      exact ⟨_, .specialized c b e hsource hconstant hshapes, hall⟩
  | specialized c b e hsource hconstant hshapes =>
    cases hrecast with
    | dropComparator => exact fits_dropped hsource none
  | convert x mode e =>
    cases hrecast with
    | widen =>
      have hplain := hwidens x mode e rfl rfl
      exact ⟨_, .convert x .generic e fun hcompare ↦ absurd hcompare (by simp [hplain]), hall⟩
  | plain _ ih =>
    obtain ⟨parts', hfits, hinherits⟩ := ih hrecast fun _ _ _ _ hpart ↦ by cases hpart
    exact ⟨parts', .plain hfits, hinherits⟩
  | builtin c body arg r t rest restSpan span hlength hcalls =>
    cases hrecast with
    | override => exact fits_overridden hlength hcalls
  | _ => cases hrecast

end Recast

end AdaptiveTree
