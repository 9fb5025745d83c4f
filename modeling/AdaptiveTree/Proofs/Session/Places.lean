import AdaptiveTree.Proofs.Grammar.Spans
import AdaptiveTree.Proofs.Places.Run
import AdaptiveTree.Proofs.Session.Ownership

/-!
Whatever is told about a source can be cut out of it. This holds of what is read from the source
and of what is wrong with it, and, once it is compiled, of every node of its program and of every
warning and failure of its runs, in any history of the engine.
-/

set_option autoImplicit false
set_option relaxedAutoImplicit false

namespace AdaptiveTree

variable {source : String} {program : Expr} {calls : NodeId → Span}

/-- The diagnostics of a failed run stand where the run failed. -/
theorem Failure.validIn_diagnostics {failure : Failure} (h : failure.span.ValidIn source) :
    ∀ d ∈ (EngineError.ofFailure failure).diagnostics, d.span.ValidIn source := by
  cases failure with
  | fault => exact List.forall_mem_singleton.mpr h
  | tooDeep => nofun

/-- A run of any program, also of one that was released. -/
theorem Valid.placed_runWith {e : Engine} {issues : List Issue}
    (h : Valid calls e.machine issues) {i : Issue} (hi : i ∈ issues)
    (hlocated : i.source.Located source) (maxDepth : Nat) :
    e.machine.WarnsIn source (e.runWith maxDepth i.program).2.machine ∧
      ∀ error, (e.runWith maxDepth i.program).1 = .error error →
        ∀ d ∈ error.diagnostics, d.span.ValidIn source := by
  unfold Engine.runWith
  cases hreleased : i.released with
  | true =>
    obtain ⟨_, err, herr⟩ := h.absent i hi hreleased
    rw [herr]
    refine ⟨.of_eq rfl, fun error herror ↦ ?_⟩
    obtain rfl := Except.error.inj herror
    nofun
  | false =>
    obtain ⟨x, hx⟩ := h.present i hi hreleased
    obtain ⟨hwarns, hfailure⟩ := Machine.placed_run maxDepth h.sound
      ⟨_, .ofProgram hlocated, hx.shows.resolved hx.resolve⟩
    rw [hx.resolve]
    refine ⟨hwarns, fun error herror ↦ ?_⟩
    dsimp only at herror
    cases hresult : (e.machine.run maxDepth x).1 with
    | ok v =>
      rw [hresult] at herror
      cases herror
    | error failure =>
      rw [hresult] at herror
      obtain rfl := Except.error.inj herror
      exact Failure.validIn_diagnostics (hfailure failure hresult)

namespace Session

variable {s s' : Session} {c : Command} {index : Nat}

/-! ### What a program was made from -/

/-- The program of a number was read from the source. -/
def Read (s : Session) (index : Nat) (source : String) (program : Expr) : Prop :=
  ∃ i, s.issues[index]? = some i ∧ i.program.source = source ∧ i.source = program

theorem Read.moves (h : s.Read index source program) (hmoves : s.Moves calls c s') :
    s'.Read index source program := by
  obtain ⟨i, hi, hsource, hprogram⟩ := h
  cases hmoves with
  | evaluates | defines | takes => exact ⟨i, hi, hsource, hprogram⟩
  | makes =>
    exact ⟨i, List.getElem?_append_left (List.getElem?_eq_some_iff.mp hi).1 ▸ hi, hsource, hprogram⟩
  | @releases released =>
    refine ⟨if released = index then { i with released := true } else i, ?_, ?_⟩
    · rw [Issue.releaseAt, List.getElem?_modify, hi]
      rfl
    · split_ifs <;> exact ⟨hsource, hprogram⟩

theorem Read.foldl (h : s.Read index source program)
    (hvalid : Valid calls s.engine.machine s.issues) (commands : List Command) :
    (commands.foldl step s).Read index source program := by
  induction commands generalizing s calls with
  | nil => exact h
  | cons c rest ih =>
    obtain ⟨calls', hvalid'⟩ := valid_step hvalid c
    exact ih (h.moves (step_moves hvalid c)) hvalid'

/-- A source that was compiled in the course of a history. -/
theorem read_after (options : EngineOptions) (before more : List Command)
    (compilation : Option CompilationOptions) (hparse : Grammar.parse source = .ok program) :
    (after options (before ++ .compile compilation source :: more)).Read
      (after options before).issues.length source program := by
  obtain ⟨calls, hvalid⟩ := valid_after options before
  obtain ⟨calls', hvalid'⟩ := valid_step hvalid (.compile compilation source)
  rw [after, List.foldl_append, List.foldl_cons]
  refine Read.foldl ?_ hvalid' more
  rw [step_compile_of_ok hparse]
  exact ⟨_, List.getElem?_concat_length, rfl, rfl⟩

/-! ### Places -/

/-- All that is told about the program of a number stands in the source. -/
structure PlacedIn (s : Session) (source : String) (index : Nat) : Prop where
  entered : ∃ i, s.issues[index]? = some i ∧ i.program.source = source
  nodes : ∀ root x span, s.Leads index root →
    Relation.ReflTransGen s.engine.machine.tree.Holds root x →
    s.engine.machine.tree.span x = .ok span → span.ValidIn source
  failures : ∀ maxDepth root failure, s.Leads index root →
    (s.engine.machine.run maxDepth root).1 = .error failure → failure.span.ValidIn source
  warnings : ∀ maxDepth result engine, s.ran maxDepth index = some (result, engine) →
    s.engine.machine.WarnsIn source engine.machine
  diagnostics : ∀ maxDepth error engine, s.ran maxDepth index = some (.error error, engine) →
    ∀ d ∈ error.diagnostics, d.span.ValidIn source

theorem Read.placedIn (h : s.Read index source program)
    (hvalid : Valid calls s.engine.machine s.issues) (hlocated : program.Located source) :
    s.PlacedIn source index := by
  obtain ⟨i, hi, hsource, rfl⟩ := h
  have hmem := List.mem_of_getElem? hi
  have hpart : (Part.ofProgram i.options i.source).LocatedIn source := .ofProgram hlocated
  have hroot {root : NodeId} (hleads : s.Leads index root) :
      s.engine.machine.tree.resolve i.program.root = .ok root ∧
        Shows calls (fun _ ↦ False) s.engine.machine.tree i.program.root
          (.ofProgram i.options i.source) := by
    obtain ⟨j, hj, hkept, hresolve⟩ := hleads
    obtain rfl := Option.some.inj (hi.symm.trans hj)
    obtain ⟨x, hx⟩ := hvalid.present i hmem hkept
    exact ⟨hresolve, hx.shows⟩
  have hrun {maxDepth : Option Nat} {result : Except EngineError Value} {engine : Engine}
      (hran : s.ran maxDepth index = some (result, engine)) :
      s.engine.runWith (maxDepth.getD s.engine.options.maxDepth) i.program = (result, engine) := by
    rw [ran, hi] at hran
    exact Option.some.inj hran
  constructor
  · exact ⟨i, hi, hsource⟩
  · intro root x span hleads hreach hspan
    obtain ⟨hresolve, hshows⟩ := hroot hleads
    rw [Tree.holds_eq_names] at hreach
    obtain ⟨part, hpart, hx⟩ := hshows.exists_located hpart hresolve hreach
    obtain ⟨n, hnode, rfl⟩ := Tree.map_node_eq_ok hspan
    exact hx.validIn_of_node? hpart hnode
  · intro maxDepth root failure hleads
    obtain ⟨hresolve, hshows⟩ := hroot hleads
    exact (Machine.placed_run maxDepth hvalid.sound
      ⟨_, hpart, hshows.resolved hresolve⟩).2 failure
  · intro maxDepth result engine hran
    have hplaced := hvalid.placed_runWith hmem hlocated (maxDepth.getD s.engine.options.maxDepth)
    rw [hrun hran] at hplaced
    exact hplaced.1
  · intro maxDepth error engine hran
    have hplaced := hvalid.placed_runWith hmem hlocated (maxDepth.getD s.engine.options.maxDepth)
    rw [hrun hran] at hplaced
    exact hplaced.2 error rfl

/-- What can be told about a source: a valid stretch is text of the source between two others, and
only valid stretches are given out. -/
structure Sliceable (source : String) : Prop where
  slice : ∀ span : Span, span.ValidIn source → ∃ before behind,
    source = before ++ span.textIn source ++ behind ∧ before.utf8ByteSize = span.start ∧
      (before ++ span.textIn source).utf8ByteSize = span.stop
  parsed : ∀ program, Grammar.parse source = .ok program → program.Located source
  rejected : ∀ failure, Grammar.parse source = .error failure → failure.span.ValidIn source
  compiled : ∀ (options : EngineOptions) (before more : List Command)
    (compilation : Option CompilationOptions) (program : Expr),
    Grammar.parse source = .ok program →
    (after options (before ++ .compile compilation source :: more)).PlacedIn source
      (after options before).issues.length

/-- No place that front end and evaluator give out cuts a character in two or leaves the source. -/
theorem sliceable (source : String) : Sliceable source where
  slice := fun _ hvalid ↦ hvalid.exists_around
  parsed := fun _ hparse ↦ Grammar.located_of_parse hparse
  rejected := fun _ hparse ↦ Grammar.validIn_of_parse hparse
  compiled := fun options before more compilation program hparse ↦ by
    obtain ⟨calls, hvalid⟩ :=
      valid_after options (before ++ .compile compilation source :: more)
    exact (read_after options before more compilation hparse).placedIn hvalid
      (Grammar.located_of_parse hparse)

/-- A condition behind a comment that has more bytes than characters. -/
def accented : String := "# é\r\nif (c(TRUE, NA)) x"

/-- The warning about the condition has its own place, counted in bytes. -/
theorem sliceable_accented :
    accented.length = 23 ∧ accented.utf8ByteSize = 24 ∧
      (Grammar.parse accented).toOption.map Expr.span = some ⟨0, 24⟩ ∧
      (after .standard [.compile none accented, .run none 0]).engine.machine.warnings.toList.map
        Diagnostic.span = [⟨10, 21⟩] ∧
      (⟨10, 21⟩ : Span).textIn accented = "c(TRUE, NA)" ∧
      (after .standard [.compile none accented, .run none 0]).PlacedIn accented 0 := by
  have hspan : (Grammar.parse accented).toOption.map Expr.span = some ⟨0, 24⟩ := by decide +kernel
  refine ⟨by decide +kernel, by decide +kernel, hspan, by decide +kernel, by decide +kernel, ?_⟩
  cases hparse : Grammar.parse accented with
  | error failure =>
    rw [hparse] at hspan
    cases hspan
  | ok program => exact (sliceable accented).compiled .standard [] [.run none 0] none program hparse

end Session

end AdaptiveTree
