import ModelCompiler.Handler.Element
import ModelCompiler.Workspace

/-!
Recipes: handlers for extensions that need no more than a note, a refusal, a link or a fixed list of
nodes.
-/
namespace ModelCompiler.Handler

inductive Recipe.Act where
  | idle
  | note
  /-- Fails for nodes whose name begins with `start`. -/
  | reject (start : String) (error : CompileError)
  /-- Links the node to the element at `target`, or that one to the node. -/
  | link (property target : String) (reverse : Bool)
deriving DecidableEq, Repr

structure Recipe where
  act : Recipe.Act
  targets : List String := []
  early : Bool := false
deriving DecidableEq, Repr

namespace Recipe

variable {ε : Type}

def matchesName (g : Graph) (start : String) (id : NodeId) : Bool :=
  start.toList.isPrefixOf ((g.name? id).getD "").toList

def noteNode (word : String) (id : NodeId) : Work ε Unit := do
  let g ← Work.graph
  Work.note s!"{word} {g.describe id}"

/-- The link that a recipe asks for, if its target exists. -/
def binding? (g : Graph) (property target : String) (reverse : Bool) (id : NodeId) :
    Option Binding :=
  (g.lookupText target).map fun other =>
    if reverse then ⟨other, property, id⟩ else ⟨id, property, other⟩

def bind (r : Recipe) (id : NodeId) : Work CompileError (List Binding) := do
  let g ← Work.graph
  match r.act with
  | .idle => return []
  | .note => do
    noteNode "bind" id
    return []
  | .reject start error => if matchesName g start id then throw error else return []
  | .link property target reverse => return (binding? g property target reverse id).toList

def process (r : Recipe) (id : NodeId) : Work CompileError Unit := do
  let g ← Work.graph
  match r.act with
  | .idle => return
  | .note => noteNode "process" id
  | .reject start error => if matchesName g start id then throw error
  | .link property target reverse =>
    match binding? g property target reverse id with
    | some b => Work.addValue b.node b.property b.value
    | none => return

def check (word : String) (r : Recipe) (id : NodeId) : Work ε (List CompileError) := do
  let g ← Work.graph
  match r.act with
  | .note => do
    noteNode word id
    return []
  | .reject start error => return if matchesName g start id then [error] else []
  | _ => return []

def unbind (r : Recipe) (removing : Bool) (id : NodeId) : Work CompileError Unit := do
  let g ← Work.graph
  match r.act with
  | .note => noteNode (if removing then "unbind-removing" else "unbind") id
  | .reject start error => if matchesName g start id then throw error
  | _ => return

def walk (r : Recipe) (id : NodeId) : Work ε (List NodeId) := do
  let g ← Work.graph
  if r.act = .note then noteNode "walk" id
  return r.targets.filterMap g.lookupText

end Recipe

end ModelCompiler.Handler
