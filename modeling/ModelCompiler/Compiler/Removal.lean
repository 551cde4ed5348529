import ModelCompiler.Compiler.Basic

/-!
Unbinding and removing sources.
-/
namespace ModelCompiler.Compiler

def unbindNode (removing : Bool) (id : NodeId) : Compiling Unit := do
  let (unbinder, _) ← ask fun d g => d.unbinder g id
  onWorkspace (unbinder.run removing id)
  advance

def unbindSource (removing : Bool) (id : SourceId) : Compiling Unit := do
  setState id .unbinding
  let nodes := (← get).graph.persistentNodes id
  nodes.reverse.forM (unbindNode removing)
  setState id (if removing then .removed else .parsed)
  setDiagnostics id []

def unbindSources (sources : List SourceId) (removing : Bool) : Compiling Unit := do
  startProgress .unbind ((← get).items sources).length
  sources.forM (unbindSource removing)

def removalError : GraphError → CompileError
  | .danglingReference user property target =>
    .danglingReference (.danglingReference user property target)
  | e => .internal e

def onGraph {α : Type} (cause : GraphError → CompileError) (act : Action Graph GraphError α) :
    Compiling α :=
  onWorkspace (Work.onGraph cause act)

def checkConsistency : Compiling Unit := do
  match (← get).graph.audit with
  | .ok () => return
  | .error e => throw (.internal e)

/-- Removes all nodes of the sources at once and forgets the lineages that are out of date. -/
def removeSources (sources : List SourceId) : Compiling Unit := do
  let nodes := ((← get).items sources).map (·.2)
  if !nodes.isEmpty then discard (onGraph removalError (Graph.removeNodes nodes))
  sources.forM fun id => modifyUnit id fun unit => { unit with importGroups := [] }
  modify fun c =>
    let w := c.workspace
    { c with workspace := { w with lineage := w.lineage.retainFresh w.graph } }
  if (← get).config.checkConsistency then checkConsistency

end ModelCompiler.Compiler
