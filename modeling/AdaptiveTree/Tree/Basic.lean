import AdaptiveTree.Node
import AdaptiveTree.Span

/-!
The executable tree: numbered slots that are never used twice. A replaced node leaves a
forwarding link in its slot, so whoever holds its number still finds what took its place;
a discarded node leaves nothing.
-/

set_option autoImplicit false
set_option relaxedAutoImplicit false

namespace AdaptiveTree

structure Node where
  kind : NodeKind
  /-- Where the construct stands in the source; replacements keep it. -/
  span : Span
  /-- Only roots have none. -/
  parent : Option NodeId
  deriving DecidableEq, Repr, Inhabited

/-- Where a retired node went, and when. -/
structure Forward where
  target : NodeId
  generation : Nat
  deriving DecidableEq, Repr, Inhabited

inductive Slot where
  | live (node : Node)
  | retired (link : Forward)
  | discarded
  deriving DecidableEq, Repr, Inhabited

/-- One splice: `new` took the place of `old`, or was put above it. -/
structure SpliceEvent where
  generation : Nat
  old : NodeId
  new : NodeId
  oldKind : String
  newKind : String
  reason : String
  deriving DecidableEq, Repr, Inhabited

structure Tree where
  slots : Array Slot
  /-- The number of splices so far. -/
  generation : Nat
  /-- The splices since the log was last taken, oldest first. -/
  log : Array SpliceEvent
  deriving DecidableEq, Repr, Inhabited

namespace Tree

def empty : Tree := ⟨#[], 0, #[]⟩

def node (t : Tree) (id : NodeId) : Except TreeError Node :=
  match t.slots[id]? with
  | some (.live n) => .ok n
  | some (.retired _) | some .discarded => .error (.retired id)
  | none => .error (.unknownNode id)

def kind (t : Tree) (id : NodeId) : Except TreeError NodeKind := (t.node id).map Node.kind

def span (t : Tree) (id : NodeId) : Except TreeError Span := (t.node id).map Node.span

def parent (t : Tree) (id : NodeId) : Except TreeError (Option NodeId) :=
  (t.node id).map Node.parent

def isLive (t : Tree) (id : NodeId) : Bool :=
  match t.slots[id]? with
  | some (.live _) => true
  | _ => false

/-- The single link that `id` left behind. -/
def forwarded? (t : Tree) (id : NodeId) : Option Forward :=
  match t.slots[id]? with
  | some (.retired link) => some link
  | _ => none

/-- Follows at most `budget` links. -/
def resolveWithin (t : Tree) : Nat → NodeId → Except TreeError NodeId
  | 0, id => .error (.retired id)
  | budget + 1, id =>
    match t.slots[id]? with
    | some (.live _) => .ok id
    | some (.retired link) => t.resolveWithin budget link.target
    | some .discarded => .error (.retired id)
    | none => .error (.unknownNode id)

/-- The live node at the end of the links from `id`. Links lead to nodes that were live when
the link was made, so no chain is longer than the number of slots. -/
def resolve (t : Tree) (id : NodeId) : Except TreeError NodeId :=
  t.resolveWithin (t.slots.size + 1) id

def liveCount (t : Tree) : Nat :=
  t.slots.countP fun
    | .live _ => true
    | _ => false

/-- The children of a slot; only live nodes have any. -/
def childrenAt (t : Tree) (id : NodeId) : List NodeId :=
  match t.slots[id]? with
  | some (.live n) => n.kind.children
  | _ => []

/-- Parents and children of which the child is not live. -/
def danglingLinks (t : Tree) : List (NodeId × NodeId) :=
  (List.range t.slots.size).flatMap fun id ↦
    ((t.childrenAt id).filter fun child ↦ ! t.isLive child).map fun child ↦ (id, child)

/-- Changes a live node; any other slot stays as it is. -/
def modifyLive (t : Tree) (id : NodeId) (f : Node → Node) : Tree :=
  match t.slots[id]? with
  | some (.live n) => { t with slots := t.slots.setIfInBounds id (.live (f n)) }
  | _ => t

def adopt (t : Tree) (parent child : NodeId) : Tree :=
  t.modifyLive child fun n ↦ { n with parent := some parent }

/-- The number of the node allocated next. -/
def nextId (t : Tree) : NodeId := t.slots.size

/-- Adds a root as node `nextId` and makes it the parent of its live children. -/
def alloc (t : Tree) (kind : NodeKind) (span : Span) : Tree :=
  kind.children.foldl (fun t' child ↦ t'.adopt t.nextId child)
    { t with slots := t.slots.push (.live ⟨kind, span, none⟩) }

/-- Discards a live node and what hangs below it, at most `depth` levels. -/
def discardWithin : Nat → Tree → NodeId → Tree
  | 0, t, _ => t
  | depth + 1, t, id =>
    match t.slots[id]? with
    | some (.live n) =>
      n.kind.children.foldl (discardWithin depth)
        { t with slots := t.slots.setIfInBounds id .discarded }
    | _ => t

/-- Discards a live node and everything below it. Each level turns a live slot into a discarded
one, so there are no more levels than slots. Links stay. -/
def discard (t : Tree) (id : NodeId) : Tree := discardWithin t.slots.size t id

end Tree

end AdaptiveTree
