import AdaptiveTree.Adaptation
import AdaptiveTree.Proofs.Tree.Forwarding

/-!
What evaluation and its subscribers make of any tree. They only ever put new nodes into the place
of live ones, so they build the tree further by operations that put no node into its own place.
A conditional of a form that evaluation does not give up is never replaced by it, only discarded.
-/

set_option autoImplicit false
set_option relaxedAutoImplicit false

namespace AdaptiveTree

variable {t t' t'' : Tree} {x node : NodeId} {n : Node}

/-- Conditionals that evaluation does not give up. -/
def NodeKind.isKept : NodeKind → Bool
  | cond form => ! form.isRestricted && ! form.readsOperand
  | _ => false

theorem NodeKind.isKept_withChildren (kind : NodeKind) (ids : List NodeId) :
    (kind.withChildren ids).isKept = kind.isKept := by
  unfold withChildren
  split <;> first | rfl | simp only [isKept, Conditional.isRestricted_withChildren,
    Conditional.readsOperand_withChildren]

namespace Edit

variable {α β : Type} {e : Edit α} {f : α → Edit β}

theorem left_bind_of_ok {a : α} (h : e t = .ok a t') : (e >>= f).left t = (f a).left t' := by
  rw [left, bind_eq h]
  rfl

theorem left_ask_bind_of_error {question : Tree → Except TreeError α} {err : TreeError}
    (h : question t = .error err) : (ask question >>= f).left t = t :=
  left_of_error (bind_error_eq (ask_error_eq h))

theorem left_bind_pure (e : Edit α) (b : β) (t : Tree) :
    (e >>= fun _ ↦ pure b).left t = e.left t := by
  rcases h : e t with ⟨a, t'⟩ | ⟨err, t'⟩
  · rw [left_bind_of_ok h, left_of_ok h]
    rfl
  · rw [left_of_error h, left_of_error (bind_error_eq h)]

/-- Puts a new node into the place of another one. -/
def exchange (node : NodeId) (kind : NodeKind) (span : Span) (reason : String) : Edit NodeId := do
  let new ← alloc kind span
  replaceSelf node new reason

theorem left_exchange (t : Tree) (node : NodeId) (kind : NodeKind) (span : Span)
    (reason : String) : (exchange node kind span reason).left t =
      (replaceSelf node t.nextId reason).left (t.alloc kind span) :=
  left_bind_of_ok (e := alloc kind span) rfl

/-- Puts a new node, of a kind that depends on the old one, into the place of what `owner` has
become. -/
def renew (owner : NodeId) (kind : NodeKind → NodeKind) (reason : String) : Edit Unit := do
  let id ← ask (·.resolve owner)
  let old ← ask (·.node id)
  let _ ← exchange id (kind old.kind) old.span reason

theorem installForm_eq_exchange (h : t.node? node = some n) (form : Conditional) (reason : String) :
    installForm node form reason t = exchange node (.cond form) n.span reason t :=
  bind_eq (ask_eq (Tree.span_eq h))

/-- Either nothing is done, or a node that may be given up gives its place to a new one of a kind
allowed; another node may have been made before. -/
def Swaps (t : Tree) (node : NodeId) (e : Edit NodeId) (allowed : NodeKind → Prop) : Prop :=
  (∃ err, e t = .error err t) ∨
    ∃ u n kind reason, (u = t ∨ ∃ k s, u = t.alloc k s) ∧ u.node? node = some n ∧
      n.kind.isKept = false ∧ allowed kind ∧ e t = exchange node kind n.span reason u

/-- Edits that look at the kind of a node first. -/
theorem swaps_of_kind {allowed : NodeKind → Prop} {g : NodeKind → Edit NodeId}
    (h : ∀ n, t.node? node = some n → Swaps t node (g n.kind) allowed) :
    Swaps t node (ask (·.kind node) >>= g) allowed := by
  rcases hkind : t.kind node with err | kind
  · exact Or.inl ⟨err, bind_error_eq (ask_error_eq hkind)⟩
  · obtain ⟨n, hnode, rfl⟩ := Tree.kind_eq_ok hkind
    unfold Swaps
    rw [bind_eq (ask_eq hkind)]
    exact h n hnode

theorem swaps_installGeneric (t : Tree) (node : NodeId) :
    Swaps t node (installGeneric node) fun kind ↦ kind.isKept = true := by
  refine swaps_of_kind fun n hnode ↦ ?_
  rcases hk : n.kind with _ | _ | _ | _ | _ | _ | _ | _ | form
  case cond =>
    cases form with
    | generic | returnBuiltin | returnOverridden => exact Or.inl ⟨_, rfl⟩
    | twoBranch | const | specialized =>
      exact Or.inr ⟨t, n, _, _, Or.inl rfl, hnode, by rw [hk]; rfl, rfl,
        installForm_eq_exchange hnode _ _⟩
    | noElse c a =>
      -- the branch that was missing is made first
      obtain ⟨p, hnode'⟩ := Tree.exists_node?_alloc (.constant .null) n.span hnode
      have halloc : alloc (.constant .null) n.span t = .ok t.nextId _ := rfl
      unfold Swaps
      dsimp only
      rw [bind_eq (ask_eq (Tree.span_eq hnode)), bind_eq halloc]
      exact Or.inr ⟨_, _, _, _, Or.inr ⟨_, _, rfl⟩, hnode', by rw [hk]; rfl, rfl,
        installForm_eq_exchange hnode' (.generic c a t.nextId) _⟩
  all_goals exact Or.inl ⟨_, rfl⟩

theorem swaps_installSpecialized (t : Tree) (node : NodeId) (k : Comparator) :
    Swaps t node (installSpecialized node k) fun _ ↦ True := by
  refine swaps_of_kind fun n hnode ↦ ?_
  rcases hk : n.kind with _ | _ | _ | _ | _ | _ | _ | _ | form
  case cond =>
    cases form with
    | const =>
      exact Or.inr ⟨t, n, _, _, Or.inl rfl, hnode, by rw [hk]; rfl, trivial,
        installForm_eq_exchange hnode _ _⟩
    | _ => exact Or.inl ⟨_, rfl⟩
  all_goals exact Or.inl ⟨_, rfl⟩

theorem swaps_widenConversion (t : Tree) (node : NodeId) :
    Swaps t node (widenConversion node) fun _ ↦ True := by
  refine swaps_of_kind fun n hnode ↦ ?_
  rcases hk : n.kind with _ | _ | _ | _ | _ | _ | _ | _ | form
  case convert input mode =>
    exact Or.inr ⟨t, n, .convert input .generic, _, Or.inl rfl, hnode, by rw [hk]; rfl, trivial,
      bind_eq (ask_eq (Tree.span_eq hnode))⟩
  all_goals exact Or.inl ⟨_, rfl⟩

end Edit

/-! ### What evaluation makes of a tree -/

namespace Tree

/-- The trees that the edits of evaluation leave, whether they fail or not. -/
inductive Adapted (t : Tree) : Tree → Prop
  | conversion (node cond : NodeId) (mode : ConvertMode) :
    Adapted t ((Edit.installConversion node cond mode).left t)
  | generic (node : NodeId) : Adapted t ((Edit.installGeneric node).left t)
  | specialized (node : NodeId) (k : Comparator) :
    Adapted t ((Edit.installSpecialized node k).left t)
  | widened (node : NodeId) : Adapted t ((Edit.widenConversion node).left t)

/-- What is kept when nodes are made, when others take the place of nodes that may be given up,
and when nodes are inserted. -/
structure Stable (P : Tree → Prop) : Prop where
  alloc : ∀ t kind span, P t → P (t.alloc kind span)
  replaceSelf : ∀ t node new reason n, t.node? node = some n → n.kind.isKept = false →
    node ≠ new → P t → P ((Edit.replaceSelf node new reason).left t)
  insertAbove : ∀ t parent child wrap reason, P t →
    P ((Edit.insertAbove parent child wrap reason).left t)

namespace Stable

variable {P : Tree → Prop}

theorem swaps {e : Edit NodeId} {allowed : NodeKind → Prop} (h : Stable P)
    (hswaps : Edit.Swaps t node e allowed) (ht : P t) : P (e.left t) := by
  rcases hswaps with ⟨err, herr⟩ | ⟨u, n, kind, reason, hu, hnode, hkind, -, hexchange⟩
  · rwa [Edit.left_of_error herr]
  · have hPu : P u := by
      rcases hu with rfl | ⟨k, s, rfl⟩
      · exact ht
      · exact h.alloc t k s ht
    obtain ⟨p, hnode'⟩ := exists_node?_alloc kind n.span hnode
    rw [Edit.left, hexchange, ← Edit.left, Edit.left_exchange]
    exact h.replaceSelf _ node u.nextId reason _ hnode' hkind
      (Nat.ne_of_lt (lt_size_of_node? hnode)) (h.alloc u kind n.span hPu)

theorem adapted (h : Stable P) (hadapted : t.Adapted t') (ht : P t) : P t' := by
  cases hadapted with
  | conversion node cond mode => exact h.insertAbove t node cond _ _ ht
  | generic node => exact h.swaps (Edit.swaps_installGeneric t node) ht
  | specialized node k => exact h.swaps (Edit.swaps_installSpecialized t node k) ht
  | widened node => exact h.swaps (Edit.swaps_widenConversion t node) ht

end Stable

/-! ### Building -/

/-- The second tree is made of the first one by operations that put no node into its own place. -/
def Built (t t' : Tree) : Prop :=
  ∃ operations : List Operation, (∀ o ∈ operations, o.Proper) ∧
    operations.foldl Operation.apply t = t'

/-- What goes through the tree ends before its bound is reached. -/
structure Searchable (t : Tree) : Prop where
  /-- The loop that follows links ends for every number. -/
  walks : ∀ id, t.Walks id (t.resolve id)
  discards : ∀ id depth, t.slots.size ≤ depth → discardWithin depth t id = t.discard id

namespace Built

theorem refl (t : Tree) : Built t t := ⟨[], by simp, rfl⟩

theorem trans (h : Built t t') (h' : Built t' t'') : Built t t'' := by
  obtain ⟨first, hfirst, rfl⟩ := h
  obtain ⟨more, hmore, rfl⟩ := h'
  refine ⟨first ++ more, fun o ho ↦ ?_, List.foldl_append⟩
  exact (List.mem_append.mp ho).elim (hfirst o) (hmore o)

theorem operation (o : Operation) (h : o.Proper) : Built t (o.apply t) :=
  ⟨[o], by simpa using h, rfl⟩

theorem exchange (hnode : t.node? node = some n) (kind : NodeKind) (span : Span)
    (reason : String) : Built t ((Edit.exchange node kind span reason).left t) := by
  rw [Edit.left_exchange]
  exact (operation (.alloc kind span) trivial).trans
    (operation (.replaceSelf node t.nextId reason) (Nat.ne_of_lt (lt_size_of_node? hnode)))

theorem of_adapted (h : t.Adapted t') : Built t t' := by
  refine Stable.adapted ⟨fun u kind span hu ↦ ?_, fun u node new reason n _ _ hne hu ↦ ?_,
    fun u parent child wrap reason hu ↦ ?_⟩ h (refl t)
  · exact hu.trans (operation (.alloc kind span) trivial)
  · exact hu.trans (operation (.replaceSelf node new reason) hne)
  · exact hu.trans (operation (.insertAbove parent child wrap reason) trivial)

theorem renew (t : Tree) (owner : NodeId) (kind : NodeKind → NodeKind) (reason : String) :
    Built t ((Edit.renew owner kind reason).left t) := by
  unfold Edit.renew
  rcases hresolve : t.resolve owner with e | x
  · rw [Edit.left_ask_bind_of_error hresolve]
    exact refl t
  obtain ⟨n, hnode⟩ := exists_node?_of_resolve hresolve
  rw [Edit.left_bind_of_ok (Edit.ask_eq hresolve),
    Edit.left_bind_of_ok (Edit.ask_eq (node_eq hnode)), Edit.left_bind_pure]
  exact exchange hnode (kind n.kind) n.span reason

/-- Overriding a return tail, whatever the tree looks like. -/
theorem overrideReturn (t : Tree) (owner : NodeId) (callSpan : Span) :
    Built t ((Edit.overrideReturn owner callSpan).left t) := by
  have hget : (get : Edit Tree) t = .ok t t := rfl
  unfold Edit.overrideReturn
  rw [Edit.left_bind_of_ok hget]
  rcases hresolve : t.resolve owner with e | x
  · cases e <;> exact refl t
  obtain ⟨n, hnode⟩ := exists_node?_of_resolve hresolve
  dsimp only
  rw [Edit.left_bind_of_ok (Edit.ask_eq (kind_eq hnode))]
  rcases hk : n.kind with _ | _ | _ | _ | _ | _ | _ | _ | form
  case cond =>
    cases form with
    | returnBuiltin c body arg rest =>
      have halloc : Edit.alloc (.call "return" [arg]) callSpan t = .ok t.nextId _ := rfl
      obtain ⟨p, hnode'⟩ := exists_node?_alloc (.call "return" [arg]) callSpan hnode
      dsimp only
      rw [Edit.left_bind_of_ok halloc]
      refine (operation (.alloc (.call "return" [arg]) callSpan) trivial).trans ?_
      rw [Edit.left_bind_pure, Edit.left, Edit.installForm_eq_exchange hnode', ← Edit.left]
      exact exchange hnode' _ _ _
    | _ => exact refl t
  all_goals exact refl t

/-- Assumes: no operation that puts a node into its own place. -/
theorem searchable {operations : List Operation} (hproper : ∀ o ∈ operations, o.Proper)
    (h : Built (after operations) t) : t.Searchable := by
  obtain ⟨more, hmore, rfl⟩ := h
  rw [← after_append]
  refine ⟨walks_resolve (dated_after _) (straight_after fun o ho ↦ ?_),
    fun _ _ ↦ discardWithin_eq_discard⟩
  exact (List.mem_append.mp ho).elim (hproper o) (hmore o)

end Built

/-! ### What evaluation does not give up -/

/-- A number of a conditional that evaluation does not give up, or of what was discarded. -/
def Kept (t : Tree) (x : NodeId) : Prop :=
  (∃ n, t.node? x = some n ∧ n.kind.isKept = true) ∨ t.slots[x]? = some .discarded

theorem isKept_seated (holder : Option NodeId) (old new : NodeId) (n : Node) :
    (seated holder old new x n).kind.isKept = n.kind.isKept := by
  show (if holder = some x then n.kind.replaceChild old new else n.kind).isKept = _
  split_ifs
  · exact NodeKind.isKept_withChildren _ _
  · rfl

namespace Kept

theorem alloc (h : t.Kept x) (kind : NodeKind) (span : Span) : (t.alloc kind span).Kept x := by
  rcases h with ⟨n, hn, hkind⟩ | hgone
  · obtain ⟨p, hn'⟩ := exists_node?_alloc kind span hn
    exact Or.inl ⟨_, hn', hkind⟩
  · exact Or.inr ((persists_alloc t kind span).discarded hgone)

theorem inserted {parent child : NodeId} {wrap : NodeKind} {reason : String} (h : t.Kept x)
    (hinserted : Inserted t parent child wrap reason t') : t'.Kept x := by
  rcases h with ⟨n, hn, hkind⟩ | hgone
  · obtain ⟨k, _, hslots⟩ := hinserted.slots_eq
    obtain ⟨p, hn'⟩ := exists_node?_alloc wrap k.span hn
    have hsame : t'.node? x = (Edit.hung (t.alloc wrap k.span) parent child t.nextId).node? x := by
      rw [node?, node?, hslots]
    exact Or.inl ⟨_, hsame.trans (node?_hung parent child t.nextId hn'),
      (isKept_seated (some parent) child t.nextId _).trans hkind⟩
  · exact Or.inr (hinserted.persists.discarded hgone)

theorem spliced {holder : Option NodeId} {old new : NodeId} {reason : String} (h : t.Kept x)
    (hspliced : Spliced t holder old new reason t') (hne : x ≠ old) : t'.Kept x := by
  rcases h with ⟨n, hn, hkind⟩ | hgone
  · have hseated := node?_seat t holder old new x
    rw [hn, Option.map_some] at hseated
    by_cases hdrags : (t.seat holder old new).Drags old x
    · exact Or.inr (hspliced.retired.dragged x _ hne hseated hdrags)
    · refine Or.inl ⟨_, hspliced.retired.node?_eq_some_iff.mpr ⟨hseated, hne, hdrags⟩, ?_⟩
      exact (isKept_seated holder old new n).trans hkind
  · exact Or.inr (hspliced.persists.discarded hgone)

theorem replaceSelf {new : NodeId} {reason : String} (h : t.Kept x) (hnode : t.node? node = some n)
    (hkind : n.kind.isKept = false) : ((Edit.replaceSelf node new reason).left t).Kept x := by
  rcases Edit.replaceSelf_cases t node new reason with ⟨e, he⟩ | ⟨m, t', _, hok, hspliced⟩
  · rwa [Edit.left_of_error he]
  · rw [Edit.left_of_ok hok]
    refine h.spliced hspliced ?_
    rintro rfl
    rcases h with ⟨k, hk, hkept⟩ | hgone
    · obtain rfl := Option.some.inj (hnode.symm.trans hk)
      cases hkind.symm.trans hkept
    · cases (node?_eq_some_iff.mp hnode).symm.trans hgone

theorem insertAbove {parent child : NodeId} {wrap : NodeId → NodeKind} {reason : String}
    (h : t.Kept x) : ((Edit.insertAbove parent child wrap reason).left t).Kept x := by
  rcases Edit.insertAbove_cases t parent child wrap reason with ⟨e, he⟩ | ⟨t', hok, hinserted⟩
  · rwa [Edit.left_of_error he]
  · rw [Edit.left_of_ok hok]
    exact h.inserted hinserted

theorem adapted (h : t.Kept x) (hadapted : t.Adapted t') : t'.Kept x := by
  have hstable : Stable fun u ↦ u.Kept x := ⟨fun _ kind span hu ↦ hu.alloc kind span,
    fun _ _ _ _ _ hnode hkind _ hu ↦ hu.replaceSelf hnode hkind, fun _ _ _ _ _ hu ↦ hu.insertAbove⟩
  exact hstable.adapted hadapted h

/-- What is found at such a number reads its whole condition. -/
theorem readsOperand_eq_false {id : NodeId} {form : Conditional} (h : t.Kept x)
    (hresolve : t.resolve x = .ok id) (hkind : t.kind id = .ok (.cond form)) :
    form.readsOperand = false := by
  rcases h with ⟨n, hn, hkept⟩ | hgone
  · obtain rfl := Except.ok.inj ((resolve_of_node? hn).symm.trans hresolve)
    obtain hform := Except.ok.inj ((kind_eq hn).symm.trans hkind)
    rw [hform] at hkept
    simp only [NodeKind.isKept, Bool.and_eq_true, Bool.not_eq_true'] at hkept
    exact hkept.2
  · cases (resolve_of_discarded hgone).symm.trans hresolve

theorem exchange {new : NodeId} {kind : NodeKind} {span : Span} {reason : String}
    (hnode : t.node? node = some n) (hkind : kind.isKept = true)
    (hok : Edit.exchange node kind span reason t = .ok new t') : t'.Kept new := by
  have hreplace : Edit.replaceSelf node t.nextId reason (t.alloc kind span) = .ok new t' := hok
  obtain ⟨p, hnew⟩ := exists_node?_alloc_nextId t kind span
  rcases Edit.replaceSelf_cases (t.alloc kind span) node t.nextId reason with
    ⟨e, he⟩ | ⟨m, u, _, hu, hspliced⟩
  · cases he.symm.trans hreplace
  · cases hu.symm.trans hreplace
    exact Kept.spliced (Or.inl ⟨_, hnew, hkind⟩) hspliced
      (Nat.ne_of_gt (lt_size_of_node? hnode))

/-- The generic conditional that took the place of another one is not given up again. -/
theorem installGeneric {new : NodeId} (hok : Edit.installGeneric node t = .ok new t') :
    t'.Kept new := by
  rcases Edit.swaps_installGeneric t node with
    ⟨e, he⟩ | ⟨u, n, kind, reason, -, hnode, -, hkind, hexchange⟩
  · cases he.symm.trans hok
  · exact exchange hnode hkind (hexchange.symm.trans hok)

end Kept

end Tree

end AdaptiveTree
