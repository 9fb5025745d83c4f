import AdaptiveTree.Text.Quoted
import AdaptiveTree.Tree.Splice

/-!
The register of nodes that rely on a name keeping its meaning. When the name is bound, the
callbacks entered under it run once, in the order of their entry, and are dropped.
-/

set_option autoImplicit false
set_option relaxedAutoImplicit false

namespace AdaptiveTree

structure Subscription where
  /-- Counts the subscriptions of a watch. -/
  serial : Nat
  owner : NodeId
  /-- What is done to the tree when the name given is bound. -/
  callback : String → Edit Unit
  deriving Inhabited

structure Watch where
  /-- The names entered so far, with the subscriptions that wait for them. -/
  entries : List (String × List Subscription)
  /-- The number of subscriptions ever made. -/
  issued : Nat
  /-- Which subscriptions were told of which name, oldest first. -/
  delivered : Array (Nat × String)
  deriving Inhabited

namespace Watch

def empty : Watch := ⟨[], 0, #[]⟩

def subscribers (w : Watch) (name : String) : List Subscription :=
  (w.entries.lookup name).getD []

def count (w : Watch) (name : String) : Nat := (w.subscribers name).length

/-- The number of subscriptions under all names. -/
def pending (w : Watch) : Nat := w.entries.foldr (fun e n ↦ e.2.length + n) 0

/-- Puts other subscriptions under a name; a name not entered yet comes last. -/
def setEntry (name : String) (subs : List Subscription) :
    List (String × List Subscription) → List (String × List Subscription)
  | [] => [(name, subs)]
  | e :: rest => if e.1 = name then (name, subs) :: rest else e :: setEntry name subs rest

def subscribe (w : Watch) (name : String) (owner : NodeId) (callback : String → Edit Unit) :
    Watch :=
  { w with
    entries := setEntry name (w.subscribers name ++ [⟨w.issued, owner, callback⟩]) w.entries
    issued := w.issued + 1 }

/-- Runs one callback after others, of which the first failure is kept. -/
def deliver (name : String) (soFar : Tree × Option TreeError) (s : Subscription) :
    Tree × Option TreeError :=
  match s.callback name soFar.1 with
  | .ok _ t => (t, soFar.2)
  | .error e t => (t, soFar.2.or (some e))

/-- Runs and drops every subscription to `name`, and gives the first failure. A failing callback
does not stop the others. -/
def notify (w : Watch) (name : String) (t : Tree) : Watch × Tree × Option TreeError :=
  match w.entries.lookup name with
  | none => (w, t, none)
  | some subs =>
    ({ w with
        entries := setEntry name [] w.entries
        delivered := w.delivered ++ (subs.map fun s ↦ (s.serial, name)).toArray },
      subs.foldl (deliver name) (t, none))

/-- Whether the owner of a subscription still leads to a live node. -/
def hasOwner (t : Tree) (s : Subscription) : Bool :=
  match t.resolve s.owner with
  | .ok _ => true
  | .error _ => false

/-- Drops the subscriptions whose owners are gone, and the names left without any. -/
def prune (w : Watch) (t : Tree) : Watch :=
  { w with
    entries := (w.entries.map fun e ↦ (e.1, e.2.filter (hasOwner t))).filter fun e ↦
      ! e.2.isEmpty }

def clear (w : Watch) : Watch := { w with entries := [] }

/-- A description: every name with the owners that wait for it. -/
def text (w : Watch) : String :=
  let owner (s : Subscription) : String := "NodeId(" ++ toString s.owner ++ ")"
  let entry (e : String × List Subscription) : String :=
    Text.quoted e.1 ++ ": [" ++ ", ".intercalate (e.2.map owner) ++ "]"
  "\x7b" ++ ", ".intercalate (w.entries.map entry) ++ "\x7d"

end Watch

end AdaptiveTree
