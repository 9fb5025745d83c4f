import AdaptiveTree.Tree.Basic

/-!
Splices: edits that put one node into the place of another or above it. An edit that fails
gives the reason and the tree as it was left.
-/

set_option autoImplicit false
set_option relaxedAutoImplicit false

namespace AdaptiveTree

/-- A change of the tree that may fail; what was changed before a failure stays changed. -/
abbrev Edit (α : Type) := EStateM TreeError Tree α

namespace Edit

/-- A question about the tree as it stands. -/
def ask {α : Type} (question : Tree → Except TreeError α) : Edit α := fun t ↦
  match question t with
  | .ok a => .ok a t
  | .error e => .error e t

def alloc (kind : NodeKind) (span : Span) : Edit NodeId := fun t ↦
  .ok t.nextId (t.alloc kind span)

def modifyNode (id : NodeId) (f : Node → Node) : Edit Unit := do
  let _ ← ask (·.node id)
  modify (·.modifyLive id f)

/-- Overwrites the first child slot of `parent` that holds `old`. -/
def writeChild (parent old new : NodeId) : Edit Unit := do
  let kind ← ask (·.kind parent)
  if old ∈ kind.children then
    modifyNode parent fun n ↦ { n with kind := n.kind.replaceChild old new }
  else
    throw (.notAChild parent old)

/-- Counts and logs a splice, and gives its generation. -/
def record (old new : NodeId) (reason : String) : Edit Nat := do
  let oldKind ← ask (·.kind old)
  let newKind ← ask (·.kind new)
  modifyGet fun t ↦
    let generation := t.generation + 1
    let event := ⟨generation, old, new, oldKind.name, newKind.name, reason⟩
    (generation, { t with generation := generation, log := t.log.push event })

/-- Discards `orphan` if nobody took it from `parent`. -/
def discardOrphan (parent : NodeId) (t : Tree) (orphan : NodeId) : Tree :=
  match t.parent orphan with
  | .ok (some p) => if p = parent then t.discard orphan else t
  | _ => t

/-- Replaces a live node by a link to `new`. Children that `new` did not adopt are discarded. -/
def retire (old new : NodeId) (reason : String) : Edit Unit := do
  let generation ← record old new reason
  let node ← ask (·.node old)
  modify fun t ↦
    node.kind.children.foldl (discardOrphan old)
      { t with slots := t.slots.setIfInBounds old (.retired ⟨new, generation⟩) }

/-- Puts `new` into the child slot of `parent` that holds `old`. -/
def replaceChild (parent old new : NodeId) (reason : String) : Edit NodeId := do
  let _ ← ask (·.node new)
  let _ ← ask (·.node old)
  writeChild parent old new
  modifyNode new fun n ↦ { n with parent := some parent }
  retire old new reason
  return new

/-- Puts `new` into the place of `node`. A root has no slot to overwrite and is only forwarded. -/
def replaceSelf (node new : NodeId) (reason : String) : Edit NodeId := do
  match ← ask (·.parent node) with
  | some parent => replaceChild parent node new reason
  | none =>
    let _ ← ask (·.node new)
    retire node new reason
    return new

/-- Puts a node that `wrap` builds between `parent` and its child. The child stays live. -/
def insertAbove (parent child : NodeId) (wrap : NodeId → NodeKind) (reason : String) :
    Edit NodeId := do
  let span ← ask (·.span child)
  let kind ← ask (·.kind parent)
  if child ∈ kind.children then
    let wrapper ← alloc (wrap child) span
    writeChild parent child wrapper
    modifyNode wrapper fun n ↦ { n with parent := some parent }
    let _ ← record child wrapper reason
    return wrapper
  else
    throw (.notAChild parent child)

/-- Empties the log and gives what it held. -/
def takeLog : Edit (Array SpliceEvent) :=
  modifyGet fun t ↦ (t.log, { t with log := #[] })

end Edit

end AdaptiveTree
