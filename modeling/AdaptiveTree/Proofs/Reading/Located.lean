import AdaptiveTree.Proofs.Grammar.Located
import AdaptiveTree.Proofs.Reading.Shows
import AdaptiveTree.Proofs.Reference.Statements

/-!
The places of nodes. If what a node stands for is located in a source, then so is what its
children stand for, whatever form the node has by now. The places that lowering puts together for
the statements around a return tail are located as well.
-/

set_option autoImplicit false
set_option relaxedAutoImplicit false

namespace AdaptiveTree

variable {source : String} {e : Expr} {t : Expr.ReturnTail} {part : Part} {parts : List Part}

namespace Expr

/-! ### Statements -/

theorem Located.statements (h : e.Located source) :
    Spread source e.span.start e.statements e.span.stop := by
  cases e with
  | block => exact h.spread
  | _ => exact ⟨Nat.le_refl _, h, Nat.le_refl _⟩

/-- A return tail whose parts are located one behind the other. -/
structure ReturnTail.LocatedIn (source : String) (t : ReturnTail) : Prop where
  cond : t.cond.Located source
  body : ∃ lo hi, Spread source lo t.body hi
  call : (call "return" [t.arg] t.callSpan).Located source

theorem Located.returnTail (h : e.Located source) (htail : e.returnTail? = some t) :
    t.LocatedIn source := by
  obtain ⟨branch, span, rfl, hbranch⟩ := returnTail?_eq_some_iff.mp htail
  obtain ⟨-, hcond, -, hbranch', -⟩ := h.spread
  have hstatements := hbranch'.statements
  rw [hbranch] at hstatements
  obtain ⟨mid, hbody, -, hcall, -⟩ := hstatements.of_append
  exact ⟨hcond, ⟨_, _, hbody⟩, hcall⟩

end Expr

open AdaptiveTree.Expr (Located Spread)

/-! ### Parts -/

/-- What the node stands for is located in the source. -/
def Part.LocatedIn (source : String) : Part → Prop
  | value e | test e => e.Located source
  | statements items span => span.ValidIn source ∧ ∃ lo hi, Spread source lo items hi
  | tail t rest restSpan span => t.LocatedIn source ∧ span.ValidIn source ∧
      restSpan.ValidIn source ∧ ∃ lo hi, Spread source lo rest hi

namespace Part.LocatedIn

theorem valid (h : part.LocatedIn source) : part.span.ValidIn source := by
  cases part with
  | value e | test e => exact Located.valid h
  | statements items span => exact h.1
  | tail t rest restSpan span => exact h.2.1

theorem values {items : List Expr} (h : ∀ e ∈ items, e.Located source) :
    ∀ p ∈ items.map Part.value, p.LocatedIn source :=
  List.forall_mem_map.mpr h

theorem ofStatements {items : List Expr} {lo hi : Nat} (h : Spread source lo items hi) :
    ∀ p ∈ Part.ofStatements items, p.LocatedIn source := by
  induction items generalizing lo with
  | nil => nofun
  | cons e rest ih =>
    obtain ⟨-, he, hrest⟩ := h
    rw [Part.ofStatements]
    cases htail : e.returnTail? with
    | none => exact List.forall_mem_cons.mpr ⟨he, ih hrest⟩
    | some t =>
      have hrestSpan := hrest.spanOf_validIn (Span.validIn_empty he.valid.stop)
      exact List.forall_mem_singleton.mpr
        ⟨he.returnTail htail, he.valid, hrestSpan, _, _, hrest⟩

theorem ofBody {items : List Expr} {lo hi : Nat} (h : Spread source lo items hi) :
    ∀ p ∈ Part.ofBody items, p.LocatedIn source := by
  cases items with
  | nil => nofun
  | cons e rest =>
    refine List.forall_mem_singleton.mpr (.of_spread ?_ h.tight)
    exact h.spanOf_validIn (Span.validIn_origin source)

/-- The children of a return tail, whatever stands for its call. -/
theorem around {last : Part} {rest : List Expr} {restSpan : Span} (ht : t.LocatedIn source)
    (hlast : last.LocatedIn source) (hrest : (statements rest restSpan).LocatedIn source) :
    ∀ p ∈ test t.cond :: Part.ofBody t.body ++ [last, statements rest restSpan],
      p.LocatedIn source := by
  obtain ⟨lo, hi, hbody⟩ := ht.body
  refine List.forall_mem_append.mpr ⟨List.forall_mem_cons.mpr ⟨ht.cond, ofBody hbody⟩, ?_⟩
  exact List.forall_mem_cons.mpr ⟨hlast, List.forall_mem_singleton.mpr hrest⟩

theorem ofProgram {options : CompilationOptions} (h : e.Located source) :
    (Part.ofProgram options e).LocatedIn source := by
  cases e with
  | block items span =>
    rw [Part.ofProgram]
    split_ifs
    · exact ⟨h.valid, _, _, h.spread⟩
    · exact h
  | _ => exact h

end Part.LocatedIn

theorem Expr.Branches.located {source : String} {whole cond thenBranch elseBranch : Expr}
    (h : whole.Branches cond thenBranch elseBranch) (hwhole : whole.Located source) :
    cond.Located source ∧ thenBranch.Located source ∧ elseBranch.Located source := by
  cases h with
  | missing cond thenBranch span =>
    obtain ⟨-, hcond, -, hthen, -⟩ := hwhole.spread
    exact ⟨hcond, hthen, .of_spread hwhole.valid hwhole.valid.ordered⟩
  | present cond thenBranch elseBranch span =>
    obtain ⟨-, hcond, -, hthen, -, helse, -⟩ := hwhole.spread
    exact ⟨hcond, hthen, helse⟩

namespace Fits

variable {calls : NodeId → Span} {id : NodeId} {kind : NodeKind} {span : Span}

/-- What the children stand for is located if what the node stands for is. -/
theorem locatedIn (h : Fits calls id kind span part parts) (hpart : part.LocatedIn source) :
    ∀ p ∈ parts, p.LocatedIn source := by
  induction h with
  | literal | ident => nofun
  | plain _ ih => exact ih hpart
  | convert => exact List.forall_mem_singleton.mpr hpart
  | unary | assign =>
    obtain ⟨-, he, -⟩ := Located.spread hpart
    exact List.forall_mem_singleton.mpr he
  | compare =>
    obtain ⟨-, hleft, -, hright, -⟩ := Located.spread hpart
    exact List.forall_mem_cons.mpr ⟨hleft, List.forall_mem_singleton.mpr hright⟩
  | call | block => exact .values fun e he ↦ ((Located.spread hpart).located e he).2.2
  | noElse =>
    obtain ⟨-, hcond, -, hthen, -⟩ := Located.spread hpart
    exact List.forall_mem_cons.mpr ⟨hcond, List.forall_mem_singleton.mpr hthen⟩
  | twoBranch =>
    obtain ⟨-, hcond, -, hthen, -, helse, -⟩ := Located.spread hpart
    exact List.forall_mem_cons.mpr ⟨hcond, List.forall_mem_cons.mpr
      ⟨hthen, List.forall_mem_singleton.mpr helse⟩⟩
  | generic _ _ _ hsource | const _ _ _ hsource | specialized _ _ _ hsource =>
    obtain ⟨hcond, hthen, helse⟩ := hsource.located hpart
    exact List.forall_mem_cons.mpr ⟨hcond, List.forall_mem_cons.mpr
      ⟨hthen, List.forall_mem_singleton.mpr helse⟩⟩
  | statements =>
    obtain ⟨-, lo, hi, hitems⟩ := hpart
    exact .ofStatements hitems
  | builtin =>
    obtain ⟨ht, -, hrest⟩ := hpart
    obtain ⟨-, harg, -⟩ := ht.call.spread
    exact .around ht harg hrest
  | overridden =>
    obtain ⟨ht, -, hrest⟩ := hpart
    exact .around ht ht.call hrest

end Fits

namespace Shows

variable {calls : NodeId → Span} {busy : NodeId → Prop} {tree : Tree} {id x y : NodeId}

/-- Everything below a node stands for something located if the node does. -/
theorem exists_located (h : Shows calls busy tree id part) (hpart : part.LocatedIn source)
    (hresolve : tree.resolve id = .ok x) (hreach : Relation.ReflTransGen tree.Names x y) :
    ∃ part', part'.LocatedIn source ∧ Shows calls busy tree y part' := by
  induction hreach with
  | refl => exact ⟨part, hpart, h.resolved hresolve⟩
  | @tail y z _ hnames ih =>
    obtain ⟨part', hpart', hy⟩ := ih
    obtain ⟨n, hn, hz⟩ := hnames
    cases hy with
    | intro hresolve' hnode _ hfits hbelow =>
      obtain rfl := Except.ok.inj ((Tree.resolve_of_node? hn).symm.trans hresolve')
      obtain rfl := Option.some.inj (hn.symm.trans hnode)
      obtain ⟨p, hp⟩ := exists_zip hfits.length_eq hz
      exact ⟨p, hfits.locatedIn hpart' p (List.of_mem_zip hp).2, hbelow _ hp⟩

/-- The place of a live node. -/
theorem validIn_of_node? {n : Node} (h : Shows calls busy tree x part)
    (hpart : part.LocatedIn source) (hnode : tree.node? x = some n) : n.span.ValidIn source := by
  obtain ⟨y, n', hresolve, hnode', hspan⟩ := h.exists_node?
  obtain rfl := Except.ok.inj ((Tree.resolve_of_node? hnode).symm.trans hresolve)
  obtain rfl := Option.some.inj (hnode.symm.trans hnode')
  exact hspan ▸ hpart.valid

end Shows

end AdaptiveTree
