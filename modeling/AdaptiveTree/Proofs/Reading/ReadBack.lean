import Mathlib.Data.Finset.Card
import Mathlib.Data.Finset.Range
import AdaptiveTree.Proofs.Reading.Listing
import AdaptiveTree.Proofs.Reading.Shows

/-!
A number that shows a part is read back as what the part stands for. Reading goes as deep as there
are nodes that are not on the path from the root, and each step puts one more of them on the path.
-/

set_option autoImplicit false
set_option relaxedAutoImplicit false

namespace AdaptiveTree

variable {calls : NodeId → Span} {busy : NodeId → Prop} {t : Tree} {id x : NodeId} {n : Node}

/-! ### Depth -/

open Classical in
/-- The number of slots off the path. -/
noncomputable def Tree.offPath (t : Tree) (busy : NodeId → Prop) : Nat :=
  ((Finset.range t.slots.size).filter fun x ↦ ¬ busy x).card

theorem Tree.offPath_le (t : Tree) (busy : NodeId → Prop) : t.offPath busy ≤ t.slots.size := by
  classical
  calc t.offPath busy ≤ (Finset.range t.slots.size).card := Finset.card_filter_le _ _
    _ = t.slots.size := Finset.card_range _

theorem Tree.offPath_inside_lt (hx : x < t.slots.size) (hidle : ¬ busy x) :
    t.offPath (Shows.inside busy x) < t.offPath busy := by
  classical
  refine Finset.card_lt_card (Finset.ssubset_iff_of_subset ?_ |>.mpr ⟨x, ?_, ?_⟩)
  · exact Finset.monotone_filter_right _ fun _ _ hout hb ↦ hout (Or.inl hb)
  · exact Finset.mem_filter.mpr ⟨Finset.mem_range.mpr hx, hidle⟩
  · exact fun hmem ↦ (Finset.mem_filter.mp hmem).2 (Or.inr rfl)

/-! ### Single nodes -/

namespace Expr

/-- A conditional reads the same in each of its forms. -/
theorem Branches.trim_eq {source c e₁ e₂ : Expr} (h : source.Branches c e₁ e₂) :
    source.trim = .conditional c.trim e₁.trim e₂.trim source.span := by
  cases h with
  | missing => rw [trim, trim]; rfl
  | present => rw [trim]; rfl

end Expr

namespace Part

/-- The expression that a part is evaluated for. -/
def expr? : Part → Option Expr
  | value e | test e => some e
  | _ => none

/-- The parts of the statements in a sequence, with its place. -/
def items? : Part → Option (List Part × Span)
  | value (.block items span) => some (items.map .value, span)
  | statements items span => some (ofStatements items, span)
  | _ => none

end Part

/-- The children that stand for expressions are read as these. -/
def ReadsEach (read : NodeId → Option Expr) (pairs : List (NodeId × Part)) : Prop :=
  ∀ q ∈ pairs, ∀ e, q.2.expr? = some e → read q.1 = some e.trim

theorem mapM_zip_eq {α : Type} {read : NodeId → Option α} {f : Expr → α} {ids : List NodeId}
    {items : List Expr} (hlength : ids.length = items.length)
    (h : ∀ id e, (id, .value e) ∈ ids.zip (items.map Part.value) → read id = some (f e)) :
    ids.mapM read = some (items.map f) := by
  induction ids generalizing items with
  | nil =>
    obtain rfl := List.eq_nil_of_length_eq_zero hlength.symm
    rfl
  | cons id ids ih =>
    cases items with
    | nil => simp at hlength
    | cons e items =>
      rw [List.map_cons, List.zip_cons_cons] at h
      have hfirst := h id e List.mem_cons_self
      have hrest := ih (Nat.succ.inj hlength) fun id e hmem ↦ h id e (List.mem_cons_of_mem _ hmem)
      simp [List.mapM_cons, hfirst, hrest]

namespace ReadsEach

variable {read : NodeId → Option Expr}

theorem cons_iff {e : Expr} {p : Part} {pairs : List (NodeId × Part)} (hexpr : p.expr? = some e) :
    ReadsEach read ((id, p) :: pairs) ↔ read id = some e.trim ∧ ReadsEach read pairs := by
  simp [ReadsEach, hexpr]

@[simp] theorem value_iff (e : Expr) (pairs : List (NodeId × Part)) :
    ReadsEach read ((id, .value e) :: pairs) ↔ read id = some e.trim ∧ ReadsEach read pairs :=
  cons_iff rfl

@[simp] theorem test_iff (e : Expr) (pairs : List (NodeId × Part)) :
    ReadsEach read ((id, .test e) :: pairs) ↔ read id = some e.trim ∧ ReadsEach read pairs :=
  cons_iff rfl

end ReadsEach

theorem Fits.readNode_eq {kind : NodeKind} {span : Span} {part : Part} {parts : List Part}
    {e : Expr} {read : NodeId → Option Expr} (h : Fits calls id kind span part parts)
    (hexpr : part.expr? = some e) (hread : ReadsEach read (kind.children.zip parts))
    (hkind : n.kind = kind) (hspan : n.span = span) : Tree.readNode read n = some e.trim := by
  induction h with
  | literal l =>
    obtain rfl := Option.some.inj hexpr
    simp [Tree.readNode, hkind, hspan, Literal.literal?_value, Expr.trim]
  | ident =>
    obtain rfl := Option.some.inj hexpr
    simp [Tree.readNode, hkind, hspan, Expr.trim]
  | unary | assign =>
    obtain rfl := Option.some.inj hexpr
    have hx := ((ReadsEach.value_iff _ _).mp hread).1
    simp [Tree.readNode, hkind, hspan, hx, Expr.trim]
  | compare =>
    obtain rfl := Option.some.inj hexpr
    obtain ⟨hx, hrest⟩ := (ReadsEach.value_iff _ _).mp hread
    have hy := ((ReadsEach.value_iff _ _).mp hrest).1
    simp [Tree.readNode, hkind, hspan, hx, hy, Expr.trim]
  | call _ ids args _ hlength | block ids args _ hlength =>
    obtain rfl := Option.some.inj hexpr
    have hids := mapM_zip_eq hlength fun id e hmem ↦ hread (id, .value e) hmem e rfl
    simp [Tree.readNode, hkind, hspan, hids, Expr.trim, Expr.trimEach_eq_map]
  | generic _ _ _ hsource | const _ _ _ hsource | specialized _ _ _ hsource =>
    obtain rfl := Option.some.inj hexpr
    simp only [NodeKind.children, Conditional.children, List.zip_cons_cons,
      ReadsEach.value_iff, ReadsEach.test_iff] at hread
    obtain ⟨hc, hb, he, _⟩ := hread
    simp [Tree.readNode, hkind, hspan, hc, hb, he, hsource.trim_eq]
  | noElse =>
    obtain rfl := Option.some.inj hexpr
    obtain ⟨hc, hrest⟩ := (ReadsEach.test_iff _ _).mp hread
    have hb := ((ReadsEach.value_iff _ _).mp hrest).1
    simp [Tree.readNode, hkind, hspan, hc, hb, Expr.trim]
  | twoBranch =>
    obtain rfl := Option.some.inj hexpr
    simp only [NodeKind.children, Conditional.children, List.zip_cons_cons,
      ReadsEach.value_iff, ReadsEach.test_iff] at hread
    obtain ⟨hc, hb, he, _⟩ := hread
    simp [Tree.readNode, hkind, hspan, hc, hb, he, Expr.trim]
  | convert =>
    obtain rfl := Option.some.inj hexpr
    have hx := ((ReadsEach.value_iff _ _).mp hread).1
    simp [Tree.readNode, hkind, hx]
  | plain _ ih => exact ih hexpr hread hkind hspan
  | statements | builtin | overridden => cases hexpr

/-! ### Expressions -/

namespace Shows

theorem current?_eq (hresolve : t.resolve id = .ok x) (hnode : t.node? x = some n) :
    t.current? id = some n := by
  simp [Tree.current?, hresolve, Tree.node_eq hnode, Except.toOption]

/-- Assumes: the depth is enough for the nodes off the path. -/
theorem readExpr_eq {depth : Nat} {part : Part} {e : Expr} (h : Shows calls busy t id part)
    (hforest : t.Forest) (hexpr : part.expr? = some e) (hdepth : t.offPath busy ≤ depth) :
    t.readExpr depth id = some e.trim := by
  induction depth generalizing busy id part e with
  | zero =>
    obtain ⟨x, n, parts, _, hnode, hidle, _⟩ := h.children hforest
    have hlt := Tree.offPath_inside_lt (Tree.lt_size_of_node? hnode) hidle
    omega
  | succ depth ih =>
    obtain ⟨x, n, parts, hresolve, hnode, hidle, hfits, hbelow⟩ := h.children hforest
    have hlt := Tree.offPath_inside_lt (Tree.lt_size_of_node? hnode) hidle
    have hread : ReadsEach (t.readExpr depth) (n.kind.children.zip parts) := fun q hq e' he' ↦
      ih (hbelow q hq) he' (by omega)
    rw [Tree.readExpr, current?_eq hresolve hnode]
    exact hfits.readNode_eq hexpr hread rfl rfl

/-! ### Statements -/

theorem exists_items {part : Part} {parts : List Part} {span : Span}
    (h : Shows calls busy t id part) (hforest : t.Forest)
    (hitems : part.items? = some (parts, span)) :
    ∃ x ids, t.items? id = some (ids, span) ∧ t.offPath (inside busy x) < t.offPath busy ∧
      ids.length = parts.length ∧ ∀ q ∈ ids.zip parts, Shows calls (inside busy x) t q.1 q.2 := by
  obtain ⟨x, ⟨kind, span', parent⟩, parts', hresolve, hnode, hidle, hfits, hbelow⟩ :=
    h.children hforest
  have hlt := Tree.offPath_inside_lt (Tree.lt_size_of_node? hnode) hidle
  have hcurrent := current?_eq hresolve hnode
  cases hfits with
  | block ids _ _ hlength | statements ids _ _ hlength =>
    obtain ⟨rfl, rfl⟩ := Prod.mk.inj (Option.some.inj hitems)
    exact ⟨x, ids, by simp [Tree.items?, hcurrent], hlt, by simpa using hlength, hbelow⟩
  | generic _ _ _ hsource | const _ _ _ hsource | specialized _ _ _ hsource =>
    cases hsource <;> cases hitems
  | _ => cases hitems

/-- What is no block is not read as one. -/
theorem items?_eq_none {e : Expr} (h : Shows calls busy t id (.value e)) (hforest : t.Forest)
    (hitems : (Part.value e).items? = none) : t.items? id = none := by
  obtain ⟨x, ⟨kind, span, parent⟩, parts, hresolve, hnode, _, hfits, _⟩ := h.children hforest
  have hcurrent := current?_eq hresolve hnode
  cases hfits with
  | block => cases hitems
  | _ => simp [Tree.items?, hcurrent]

theorem readBody_eq {depth : Nat} {body : List Expr} {id? : Option NodeId} (hforest : t.Forest)
    (hlength : id?.toList.length = (Part.ofBody body).length)
    (h : ∀ q ∈ id?.toList.zip (Part.ofBody body), Shows calls busy t q.1 q.2)
    (hdepth : t.offPath busy ≤ depth) :
    t.readBody depth id? = some (body.map Expr.trim) := by
  cases body with
  | nil =>
    cases id? with
    | none => rfl
    | some id => cases hlength
  | cons e rest =>
    cases id? with
    | none => cases hlength
    | some id =>
      have hblock := h (id, .value (.block (e :: rest) (Expr.spanOf .origin (e :: rest))))
        (by simp [Part.ofBody])
      obtain ⟨x, ids, hids, hlt, hlength', hbelow⟩ := hblock.exists_items hforest rfl
      have hread : ids.mapM (t.readExpr depth) = some ((e :: rest).map Expr.trim) :=
        mapM_zip_eq (by simpa using hlength') fun id e hmem ↦
          (hbelow _ hmem).readExpr_eq hforest rfl (by omega)
      simp [Tree.readBody, hids, hread]

/-- A statement that is no return tail is read as an expression. -/
theorem readStatement_value {depth : Nat} {e : Expr} (h : Shows calls busy t id (.value e))
    (hforest : t.Forest) (hdepth : t.offPath busy ≤ depth) :
    t.readStatement depth id = some [.plain e.trim] := by
  have hread := h.readExpr_eq hforest rfl hdepth
  cases depth with
  | zero => cases hread
  | succ depth =>
    obtain ⟨x, ⟨kind, span, parent⟩, parts, hresolve, hnode, _, hfits, _⟩ := h.children hforest
    have hcurrent := current?_eq hresolve hnode
    have hplain : (do return [Statement.plain (← t.readExpr (depth + 1) id)]) =
        some [.plain e.trim] := by
      rw [hread]
      rfl
    cases hfits <;>
      · rw [Tree.readStatement, hcurrent]
        exact hplain

/-- Assumes: return tails are read at that depth. -/
theorem readStatements_eq {depth : Nat} {ids : List NodeId} {items : List Expr}
    (hforest : t.Forest) (hdepth : t.offPath busy ≤ depth)
    (htail : ∀ id e tail rest restSpan, e.returnTail? = some tail →
      Shows calls busy t id (.tail tail rest restSpan e.span) →
      ∃ read, t.readStatement depth id = some read ∧
        List.Forall₂ (Statement.Recalls true) read (e :: rest))
    (hlength : ids.length = (Part.ofStatements items).length)
    (h : ∀ q ∈ ids.zip (Part.ofStatements items), Shows calls busy t q.1 q.2) :
    ∃ lists, ids.mapM (t.readStatement depth) = some lists ∧
      List.Forall₂ (Statement.Recalls true) lists.flatten items := by
  induction items generalizing ids with
  | nil =>
    obtain rfl := List.eq_nil_of_length_eq_zero hlength
    exact ⟨[], rfl, .nil⟩
  | cons e rest ih =>
    cases htailed : e.returnTail? with
    | some tail =>
      simp only [Part.ofStatements, htailed] at hlength h
      obtain ⟨id, rfl⟩ := List.length_eq_one_iff.mp hlength
      obtain ⟨read, hread, hrecalls⟩ := htail id _ _ _ _ htailed (h _ List.mem_cons_self)
      refine ⟨[read], by simp [hread], ?_⟩
      rwa [List.flatten_singleton]
    | none =>
      simp only [Part.ofStatements, htailed] at hlength h
      obtain ⟨id, ids, rfl⟩ := List.exists_cons_of_length_eq_add_one hlength
      obtain ⟨lists, hlists, hrecalls⟩ := ih (Nat.succ.inj hlength) fun q hq ↦
        h q (List.mem_cons_of_mem _ hq)
      have hread := (h (id, .value e) List.mem_cons_self).readStatement_value hforest hdepth
      refine ⟨[.plain e.trim] :: lists, by simp [List.mapM_cons, hread, hlists], ?_⟩
      rw [List.flatten_cons, List.singleton_append]
      exact .cons (.plain fun _ _ _ _ _ ↦ Expr.not_returning htailed) hrecalls

theorem readStatement_tail {depth : Nat} {e : Expr} {tail : Expr.ReturnTail} {rest : List Expr}
    {restSpan : Span} (htailed : e.returnTail? = some tail)
    (h : Shows calls busy t id (.tail tail rest restSpan e.span)) (hforest : t.Forest)
    (hdepth : t.offPath busy ≤ depth) : ∃ read, t.readStatement depth id = some read ∧
      List.Forall₂ (Statement.Recalls true) read (e :: rest) := by
  induction depth generalizing busy id e tail rest restSpan with
  | zero =>
    obtain ⟨x, n, parts, _, hnode, hidle, _⟩ := h.children hforest
    have hlt := Tree.offPath_inside_lt (Tree.lt_size_of_node? hnode) hidle
    omega
  | succ depth ih =>
    obtain ⟨x, n, parts, hresolve, hnode, hidle, hfits, hbelow⟩ := h.children hforest
    have hlt := Tree.offPath_inside_lt (Tree.lt_size_of_node? hnode) hidle
    have hspan : n.span = e.span := hfits.span_eq
    have hreturning := Expr.returnTail?_eq_some_iff.mp htailed
    obtain ⟨c, body, last, r, lastPart, hform, hlength, hzip⟩ := hfits.zip_of_tail
    rw [hzip] at hbelow
    have hcond := (hbelow (c, .test tail.cond) (by simp)).readExpr_eq hforest rfl
      (by omega : _ ≤ depth)
    have hbody := readBody_eq hforest hlength (fun q hq ↦ hbelow q (by simp [hq]))
      (by omega : _ ≤ depth)
    have hlast := hbelow (last, lastPart) (by simp)
    obtain ⟨y, ids, hids, hlty, hlengthr, hr⟩ :=
      (hbelow (r, .statements rest restSpan) (by simp)).exists_items hforest rfl
    obtain ⟨lists, hlists, hrecalls⟩ := readStatements_eq hforest (by omega : _ ≤ depth)
      (fun _ _ _ _ _ htailed htail ↦ ih htailed htail (by omega)) hlengthr hr
    rcases hform with ⟨hkind, rfl⟩ | ⟨hkind, rfl⟩
    · have harg := hlast.readExpr_eq hforest rfl (by omega : _ ≤ depth)
      refine ⟨.returning tail.cond.trim (tail.body.map Expr.trim) tail.arg.trim none n.span ::
        lists.flatten, ?_, ?_⟩
      · simp [Tree.readStatement, current?_eq hresolve hnode, hkind, hcond, hbody, harg, hids,
          hlists]
      · rw [hspan]
        exact .cons (.returning rfl hreturning (Or.inl rfl)) hrecalls
    · have hcall := hlast.readExpr_eq hforest rfl (by omega : _ ≤ depth)
      refine ⟨.returning tail.cond.trim (tail.body.map Expr.trim) tail.arg.trim
        (some tail.callSpan) n.span :: lists.flatten, ?_, ?_⟩
      · simp [Tree.readStatement, current?_eq hresolve hnode, hkind, hcond, hbody, hcall, hids,
          hlists, Expr.trim, Expr.trimEach]
      · rw [hspan]
        exact .cons (.returning rfl hreturning (Or.inr rfl)) hrecalls

/-- Assumes: the program shows its source. -/
theorem readProgram_eq {options : CompilationOptions} {source : Expr}
    (h : Shows calls (fun _ ↦ False) t id (.ofProgram options source)) (hforest : t.Forest) :
    ∃ listing, t.readProgram id = some listing ∧ listing.Recalls options source := by
  have hdepth := t.offPath_le
  cases source with
  | block items span =>
    cases htails : options.returnTails with
    | true =>
      simp only [Part.ofProgram, htails, if_true] at h
      obtain ⟨x, ids, hids, _, hlength, hbelow⟩ := h.exists_items hforest rfl
      obtain ⟨lists, hlists, hrecalls⟩ := readStatements_eq hforest (hdepth _)
        (fun _ _ _ _ _ htailed htail ↦ htail.readStatement_tail htailed hforest (hdepth _))
        hlength hbelow
      refine ⟨.block lists.flatten span, by simp [Tree.readProgram, hids, hlists], ?_⟩
      exact .block span (htails ▸ hrecalls)
    | false =>
      simp only [Part.ofProgram, htails, Bool.false_eq_true, if_false] at h
      obtain ⟨x, ids, hids, _, hlength, hbelow⟩ := h.exists_items hforest rfl
      have hread := mapM_zip_eq (by simpa using hlength) fun id e hmem ↦
        (hbelow (id, .value e) hmem).readStatement_value hforest (hdepth _)
      refine ⟨.block (items.map fun e ↦ .plain e.trim) span, ?_, ?_⟩
      · have hflat : (items.map fun e ↦ [Statement.plain e.trim]).flatten =
            items.map fun e ↦ .plain e.trim := by
          rw [← List.flatMap_def, ← List.map_eq_flatMap]
        simp [Tree.readProgram, hids, hread, hflat]
      · refine .block span (List.forall₂_map_left_iff.mpr (List.forall₂_same.mpr fun e _ ↦ ?_))
        exact .plain fun htrue ↦ absurd (htails.symm.trans htrue) Bool.false_ne_true
  | _ =>
    have hread := h.readExpr_eq hforest rfl (hdepth _)
    have hitems := h.items?_eq_none hforest rfl
    exact ⟨_, by simp [Tree.readProgram, hread, hitems], .other fun _ _ ↦ nofun⟩

end Shows

end AdaptiveTree
