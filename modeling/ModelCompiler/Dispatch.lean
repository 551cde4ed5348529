import ModelCompiler.Handler

/-!
Dispatch: the handler of a node is the one registered for its classifier, else for the first
ancestor of the classifier that has one.
-/
namespace ModelCompiler

inductive PhaseHandler where
  | bind (h : Binder)
  | process (h : Processor)
  | validate (h : Validator)
  | unbind (h : Unbinder)
  | walk (h : Walker)
deriving DecidableEq, Repr

def PhaseHandler.phase : PhaseHandler → Phase
  | .bind _ => .bind
  | .process _ => .process
  | .validate _ => .validate
  | .unbind _ => .unbind
  | .walk _ => .walk

structure Dispatch where
  binders : Table Path Binder := ∅
  processors : Table Path Processor := ∅
  validators : Table Path Validator := ∅
  unbinders : Table Path Unbinder := ∅
  walkers : Table Path Walker := ∅

namespace Dispatch

inductive Origin where
  | exact (path : Path)
  | ancestor (path : Path)
  | default
deriving DecidableEq

def registered (d : Dispatch) : Phase → List Path
  | .bind => d.binders.keys
  | .process => d.processors.keys
  | .validate => d.validators.keys
  | .unbind => d.unbinders.keys
  | .walk => d.walkers.keys

def isRegistered (d : Dispatch) (phase : Phase) (path : Path) : Bool :=
  path ∈ d.registered phase

def register (d : Dispatch) (path : Path) (handler : PhaseHandler) :
    Except CompileError Dispatch :=
  if d.isRegistered handler.phase path then
    .error (.duplicateRegistration handler.phase.name path.text)
  else
    .ok <| match handler with
      | .bind h => { d with binders := d.binders.insert path h }
      | .process h => { d with processors := d.processors.insert path h }
      | .validate h => { d with validators := d.validators.insert path h }
      | .unbind h => { d with unbinders := d.unbinders.insert path h }
      | .walk h => { d with walkers := d.walkers.insert path h }

variable {η : Type}

def handlerAt? (table : Table Path η) (g : Graph) (id : NodeId) : Option (η × Path) := do
  let path ← g.path? id
  return (← table.find? path, path)

/-- Finds the handler of a node. Ancestors are searched only if a handler may be found. -/
def find (table : Table Path η) (g : Graph) (id : NodeId) :
    Lineage.Query (Option η × Origin) := do
  match g.classifier? id with
  | none => return (none, .default)
  | some classifier =>
    if table.entries.isEmpty then return (none, .default)
    else
      match handlerAt? table g classifier with
      | some (h, path) => return (some h, .exact path)
      | none =>
        match (← Lineage.ancestors g classifier).findSome? (handlerAt? table g) with
        | some (h, path) => return (some h, .ancestor path)
        | none => return (none, .default)

def origin (d : Dispatch) (phase : Phase) (g : Graph) (id : NodeId) : Lineage.Query Origin := do
  match phase with
  | .bind => return (← find d.binders g id).2
  | .process => return (← find d.processors g id).2
  | .validate => return (← find d.validators g id).2
  | .unbind => return (← find d.unbinders g id).2
  | .walk => return (← find d.walkers g id).2

def unrecognized (g : Graph) (phase : Phase) (id : NodeId) : CompileError :=
  let kind := match g.classifierPath? id with
    | some path => path.text
    | none => "<unclassified>"
  .unrecognizedElementKind (g.span? id) kind phase

/-- The handler found, or the default, which an element of a source does not have. -/
def orDemand (phase : Phase) (default : η) (g : Graph) (id : NodeId) :
    Option η × Origin → Lineage.Query (η × Origin)
  | (some h, origin) => return (h, origin)
  | (none, _) =>
    match g.node? id with
    | some n =>
      if n.lifetime.isPersistent then throw (unrecognized g phase id)
      else return (default, .default)
    | none => return (default, .default)

def orDefault (default : η) : Option η × Origin → η × Origin
  | (some h, origin) => (h, origin)
  | (none, _) => (default, .default)

def binder (d : Dispatch) (g : Graph) (id : NodeId) : Lineage.Query (Binder × Origin) := do
  orDemand .bind .idle g id (← find d.binders g id)

def processor (d : Dispatch) (g : Graph) (id : NodeId) : Lineage.Query (Processor × Origin) := do
  orDemand .process .idle g id (← find d.processors g id)

def validator (d : Dispatch) (g : Graph) (id : NodeId) : Lineage.Query (Validator × Origin) := do
  return orDefault .idle (← find d.validators g id)

def unbinder (d : Dispatch) (g : Graph) (id : NodeId) : Lineage.Query (Unbinder × Origin) := do
  return orDefault .strip (← find d.unbinders g id)

def walker (d : Dispatch) (g : Graph) (id : NodeId) : Lineage.Query (Walker × Origin) := do
  return orDefault .users (← find d.walkers g id)

end Dispatch

end ModelCompiler
