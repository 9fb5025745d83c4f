import AdaptiveTree.Eval.Run
import AdaptiveTree.Grammar.Program
import AdaptiveTree.Lowering

/-!
The engine: compiling programs into one shared machine, running them there, and binding
names from outside. Failures come out as errors that a caller can show to a user.
-/

set_option autoImplicit false
set_option relaxedAutoImplicit false

namespace AdaptiveTree

/-- What a caller of the engine is told. -/
inductive EngineError where
  /-- A failure outside of any evaluation. -/
  | api (message : String)
  | compilation (diagnostics : List Diagnostic)
  | runtime (diagnostic : Diagnostic)
  | resourceExceeded (message : String)
  deriving DecidableEq, Repr, Inhabited

namespace EngineError

def diagnostics : EngineError → List Diagnostic
  | compilation ds => ds
  | runtime d => [d]
  | api _ | resourceExceeded _ => []

def message : EngineError → String
  | api text => "API error: " ++ text
  | compilation ds => "Compilation failed with " ++
      toString (ds.countP fun d ↦ d.severity = .error) ++ " error(s)"
  | runtime d => "Runtime error: " ++ d.message
  | resourceExceeded text => "Resource limit exceeded: " ++ text

def ofFailure : Failure → EngineError
  | .tooDeep limit span => resourceExceeded (Failure.tooDeep limit span).message
  | failure => runtime failure.diagnostic

def ofTreeError (e : TreeError) : EngineError := api e.message

end EngineError

structure EngineOptions where
  compilation : CompilationOptions
  /-- How many evaluations may be nested. -/
  maxDepth : Nat
  deriving DecidableEq, Repr, Inhabited

namespace EngineOptions

def standard : EngineOptions := ⟨.standard, 1000⟩

end EngineOptions

/-- A program in its engine's tree: the root as it was lowered, and the source if it had one. -/
structure Program where
  root : NodeId
  source : String
  deriving DecidableEq, Repr, Inhabited

structure Engine where
  options : EngineOptions
  machine : Machine
  deriving Inhabited

namespace Engine

def new (options : EngineOptions) : Engine := ⟨options, .empty⟩

def lowerWith (e : Engine) (options : CompilationOptions) (program : Expr) : NodeId × Engine :=
  match (Lower.program options program).run e.machine with
  | (root, m) => (root, { e with machine := m })

/-- Lowers a program that was not read from a source. -/
def lower (e : Engine) (program : Expr) : Program × Engine :=
  match e.lowerWith e.options.compilation program with
  | (root, e') => (⟨root, ""⟩, e')

def compileWith (e : Engine) (options : CompilationOptions) (source : String) :
    Except EngineError Program × Engine :=
  match Grammar.parse source with
  | .error failure => (.error (.compilation [failure.diagnostic]), e)
  | .ok program =>
    match e.lowerWith options program with
    | (root, e') => (.ok ⟨root, source⟩, e')

def compile (e : Engine) (source : String) : Except EngineError Program × Engine :=
  e.compileWith e.options.compilation source

def runWith (e : Engine) (maxDepth : Nat) (program : Program) :
    Except EngineError Value × Engine :=
  match e.machine.tree.resolve program.root with
  | .error failure => (.error (.ofTreeError failure), e)
  | .ok root =>
    match e.machine.run maxDepth root with
    | (result, m) => (result.mapError .ofFailure, { e with machine := m })

def run (e : Engine) (program : Program) : Except EngineError Value × Engine :=
  e.runWith e.options.maxDepth program

/-- Binds a global. The binding stands even if a node could not be replaced for it. -/
def set (e : Engine) (name : String) (v : Value) : Except EngineError Unit × Engine :=
  match e.machine.bindValue name v with
  | (result, m) => (result.mapError .ofTreeError, { e with machine := m })

/-- Binds a host function under its own name. -/
def define (e : Engine) (f : HostFunction) : Except EngineError Unit × Engine :=
  match e.machine.bindFunction f.name f with
  | (result, m) => (result.mapError .ofTreeError, { e with machine := m })

/-- Removes a global, and tells whether there was one. -/
def unset (e : Engine) (name : String) : Bool × Engine :=
  (e.machine.frame.contains name, { e with machine := e.machine.unbind name })

def get? (e : Engine) (name : String) : Option Value := e.machine.frame.value? name

def takeWarnings (e : Engine) : Array Diagnostic × Engine :=
  (e.machine.warnings, { e with machine := { e.machine with warnings := #[] } })

def takeSplices (e : Engine) : Array SpliceEvent × Engine :=
  (e.machine.tree.log,
    { e with machine := { e.machine with tree := { e.machine.tree with log := #[] } } })

/-- Discards the nodes of a program and the subscriptions that they held. -/
def release (e : Engine) (program : Program) : Engine :=
  let m := e.machine
  let tree := match m.tree.resolve program.root with
    | .ok root => m.tree.discard root
    | .error _ => m.tree
  { e with machine := { m with tree := tree, watch := m.watch.prune tree } }

end Engine

end AdaptiveTree
