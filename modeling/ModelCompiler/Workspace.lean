import ModelCompiler.Lineage

/-!
The workspace of the handlers: the graph, the lineages remembered so far, and a trace of the notes
that handlers leave.
-/
namespace ModelCompiler

structure Workspace where
  graph : Graph
  lineage : Lineage
  trace : List String

abbrev Work (ε α : Type) := Action Workspace ε α

namespace Work

variable {ε α : Type}

def graph : Work ε Graph := do
  return (← get).graph

def inspect (f : Graph → StateM Lineage α) : Work ε α := do
  let w ← get
  let (a, lineage) := (f w.graph).run w.lineage
  set { w with lineage }
  return a

def ask (f : Graph → Lineage.Query α) : Work CompileError α := do
  match ← inspect (fun g => (f g).run) with
  | .ok a => return a
  | .error e => throw e

def update (f : Graph → Except Breach Graph) : Work ε Unit :=
  Action.write fun w => (f w.graph).map fun g => ((), { w with graph := g })

def addValue (id : NodeId) (property : String) (value : NodeId) : Work ε Unit :=
  update fun g => g.addValue id property value

def setValues (id : NodeId) (property : String) (values : List NodeId) : Work ε Unit :=
  update fun g => g.setValues id property values

def onGraph (cause : GraphError → ε) (act : Action Graph GraphError α) : Work ε α :=
  act.within (·.graph) (fun g w => { w with graph := g }) cause

def note (text : String) : Work ε Unit :=
  modify fun w => { w with trace := w.trace ++ [text] }

end Work

end ModelCompiler
