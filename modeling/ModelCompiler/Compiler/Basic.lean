import ModelCompiler.Compiler.Config
import ModelCompiler.ForkJoin
import ModelCompiler.Progress
import ModelCompiler.Registry
import ModelCompiler.Source

/-!
The compiler: its workspace, its registrations, its sources and the changes staged for the next
compile.
-/
namespace ModelCompiler

structure Compiler where
  config : Config
  pool : Pool
  dispatch : Dispatch
  factories : Table Path Factory
  visibility : List VisibilityRule
  workspace : Workspace
  sources : Catalog SourceUnit := ∅
  staged : Catalog Change := ∅
  meter : Progress := .start "" 0
  progress : List String := []

abbrev Compiling (α : Type) := Action Compiler CompileError α

namespace Compiler

/-- A compiler over the metamodel and what the registry adds to it, its workers on a schedule. -/
def new (config : Config) (registry : Registry) (schedule : Schedule := .inTurn) :
    Except Breach (Except CompileError Compiler) := do
  match config.check with
  | .error e => return .error e
  | .ok () =>
    let (answer, graph) ← registry.extend Graph.initial
    return answer.map fun _ => {
      config
      pool := { parallel := config.parallel, schedule }
      dispatch := registry.dispatch
      factories := registry.factories
      visibility := registry.visibility
      workspace := { graph, lineage := ∅, trace := [] } }

def graph (c : Compiler) : Graph :=
  c.workspace.graph

/-- The workers at this moment: they may take up work in another order with every progress line. -/
def workers (c : Compiler) : Pool :=
  { c.pool with moment := c.progress.length }

def stateOf (c : Compiler) (id : SourceId) : SourceState :=
  match c.sources.find? id with
  | some unit => unit.state
  | none => .unregistered

def diagnosticsOf (c : Compiler) (id : SourceId) : List CompileError :=
  match c.sources.find? id with
  | some unit => unit.diagnostics
  | none => []

def inState (c : Compiler) (state : SourceState) : List SourceId :=
  (c.sources.entries.filter fun (_, unit) => unit.state = state).map (·.1)

def items (c : Compiler) (sources : List SourceId) : List (SourceId × NodeId) :=
  sources.flatMap fun id => (c.graph.persistentNodes id).map (id, ·)

variable {ε α : Type}

def onWorkspace (act : Work ε α) : Action Compiler ε α :=
  act.within (·.workspace) (fun w c => { c with workspace := w }) (fun e => e)

def ask (f : Dispatch → Graph → Lineage.Query α) : Compiling α := do
  let d := (← get).dispatch
  onWorkspace (Work.ask (f d))

def modifyUnit (id : SourceId) (f : SourceUnit → SourceUnit) : Action Compiler ε Unit :=
  modify fun c => { c with sources := c.sources.modify id f }

def setState (id : SourceId) (state : SourceState) : Action Compiler ε Unit :=
  modifyUnit id fun unit => { unit with state }

def setDiagnostics (id : SourceId) (diagnostics : List CompileError) : Action Compiler ε Unit :=
  modifyUnit id fun unit => { unit with diagnostics }

/-- Moves a source on if it is without errors, else records them. -/
def conclude (id : SourceId) (next : SourceState) (errors : List CompileError)
    (halted : Bool) : Action Compiler ε Unit := do
  setDiagnostics id errors
  if errors.isEmpty && !halted then setState id next

def startProgress (phase : Phase) (total : Nat) : Action Compiler ε Unit :=
  modify fun c => { c with meter := .start phase.label total }

def advance : Action Compiler ε Unit :=
  modify fun c =>
    let meter := c.meter.step
    { c with meter, progress := c.progress ++ [meter.text] }

end Compiler

end ModelCompiler
