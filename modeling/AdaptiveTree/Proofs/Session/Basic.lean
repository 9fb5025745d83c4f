import AdaptiveTree.Engine

/-!
The histories of an engine. A session makes programs, runs them, binds names and releases
programs, in any order; it keeps of every program what it was made from and whether it was
released since.
-/

set_option autoImplicit false
set_option relaxedAutoImplicit false

namespace AdaptiveTree

/-- What can be done with an engine. A program is named by the number of those made before it. -/
inductive Command where
  | compile (options : Option CompilationOptions) (source : String)
  | lower (program : Expr)
  | run (maxDepth : Option Nat) (index : Nat)
  | set (name : String) (v : Value)
  | define (f : HostFunction)
  | unset (name : String)
  | release (index : Nat)
  | takeWarnings
  | takeSplices

/-- A program as it was made. -/
structure Issue where
  program : Program
  source : Expr
  options : CompilationOptions
  released : Bool

/-- The entries after one program is released. -/
def Issue.releaseAt (index : Nat) (issues : List Issue) : List Issue :=
  issues.modify index fun i ↦ { i with released := true }

structure Session where
  engine : Engine
  /-- The programs in the order in which they were made. -/
  issues : List Issue

namespace Session

def new (options : EngineOptions) : Session := ⟨.new options, []⟩

/-- Enters a program that was just made. -/
def enter (s : Session) (engine : Engine) (program : Program) (source : Expr)
    (options : CompilationOptions) : Session :=
  ⟨engine, s.issues ++ [⟨program, source, options, false⟩]⟩

/-- What running a program gives, if there is one of that number. -/
def ran (s : Session) (maxDepth : Option Nat) (index : Nat) :
    Option (Except EngineError Value × Engine) :=
  s.issues[index]?.map fun i ↦
    s.engine.runWith (maxDepth.getD s.engine.options.maxDepth) i.program

/-- The session after a source was compiled, which gives a program only if it could be read. -/
def compiled (s : Session) (options : CompilationOptions) :
    Except Grammar.ParseFailure Expr → Except EngineError Program × Engine → Session
  | .ok program, (.ok p, engine) => s.enter engine p program options
  | _, (_, engine) => { s with engine := engine }

def answer? (s : Session) (maxDepth : Option Nat) (index : Nat) :
    Option (Except EngineError Value) :=
  (s.ran maxDepth index).map Prod.fst

def step (s : Session) : Command → Session
  | .compile options? source =>
    let options := options?.getD s.engine.options.compilation
    s.compiled options (Grammar.parse source) (s.engine.compileWith options source)
  | .lower program =>
    match s.engine.lower program with
    | (p, engine) => s.enter engine p program s.engine.options.compilation
  | .run maxDepth index =>
    match s.ran maxDepth index with
    | some (_, engine) => { s with engine := engine }
    | none => s
  | .set name v => { s with engine := (s.engine.set name v).2 }
  | .define f => { s with engine := (s.engine.define f).2 }
  | .unset name => { s with engine := (s.engine.unset name).2 }
  | .release index =>
    match s.issues[index]? with
    | some i =>
      { engine := s.engine.release i.program, issues := Issue.releaseAt index s.issues }
    | none => s
  | .takeWarnings => { s with engine := s.engine.takeWarnings.2 }
  | .takeSplices => { s with engine := s.engine.takeSplices.2 }

/-- A session from its beginning. -/
def after (options : EngineOptions) (commands : List Command) : Session :=
  commands.foldl step (new options)

/-! ### Steps -/

variable {s : Session} {index : Nat} {maxDepth : Option Nat}

/-- The session after a program is lowered, for a source that it was read from or for none. -/
def made (s : Session) (options : CompilationOptions) (program : Expr) (source : String) :
    Session :=
  s.enter (s.engine.lowerWith options program).2
    ⟨(s.engine.lowerWith options program).1, source⟩ program options

theorem step_compile_of_ok {options? : Option CompilationOptions} {source : String}
    {program : Expr} (hparse : Grammar.parse source = .ok program) :
    s.step (.compile options? source) =
      s.made (options?.getD s.engine.options.compilation) program source := by
  show s.compiled _ (Grammar.parse source) (s.engine.compileWith _ source) = _
  unfold Engine.compileWith
  rw [hparse]
  rfl

theorem step_compile_of_error {options? : Option CompilationOptions} {source : String}
    {failure : Grammar.ParseFailure} (hparse : Grammar.parse source = .error failure) :
    s.step (.compile options? source) = s := by
  show s.compiled _ (Grammar.parse source) (s.engine.compileWith _ source) = _
  unfold Engine.compileWith
  rw [hparse]
  rfl

theorem step_run_of_none (h : s.issues[index]? = none) : s.step (.run maxDepth index) = s := by
  simp only [step, ran, h, Option.map_none]

theorem step_run_of_some {i : Issue} (h : s.issues[index]? = some i) :
    s.step (.run maxDepth index) = { s with engine :=
      (s.engine.runWith (maxDepth.getD s.engine.options.maxDepth) i.program).2 } := by
  simp only [step, ran, h, Option.map_some]

theorem issues_step_run (s : Session) (maxDepth : Option Nat) (index : Nat) :
    (s.step (.run maxDepth index)).issues = s.issues := by
  cases hissue : s.issues[index]? with
  | none => rw [step_run_of_none hissue]
  | some i => rw [step_run_of_some hissue]

theorem step_release_of_none (h : s.issues[index]? = none) : s.step (.release index) = s := by
  simp only [step, h]

theorem step_release_of_some {i : Issue} (h : s.issues[index]? = some i) :
    s.step (.release index) =
      ⟨s.engine.release i.program, Issue.releaseAt index s.issues⟩ := by
  simp only [step, h]

end Session

end AdaptiveTree
