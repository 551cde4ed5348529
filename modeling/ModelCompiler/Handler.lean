import ModelCompiler.Handler.Association
import ModelCompiler.Handler.Class
import ModelCompiler.Handler.Enumeration
import ModelCompiler.Handler.Function
import ModelCompiler.Handler.Recipe

/-!
The handlers of each phase.
-/
namespace ModelCompiler

open Handler (Binding Recipe)

inductive Binder where
  | idle
  | element
  | recipe (r : Recipe)
deriving DecidableEq, Repr

def Binder.run : Binder → NodeId → Work (List CompileError) (List Binding)
  | .idle, _ => return []
  | .element, id => do
    match Handler.bindElement (← Work.graph) id with
    | .ok bindings => return bindings
    | .error errors => throw errors
  | .recipe r, id => (r.bind id).relabel ([·])

inductive Processor where
  | idle
  | class_
  | association
  | enumeration
  | function
  | recipe (r : Recipe)
deriving DecidableEq, Repr

/-- Whether the processor runs before the others: it attaches what they look up. -/
def Processor.isEarly : Processor → Bool
  | .association => true
  | .recipe r => r.early
  | _ => false

def Processor.act : Processor → NodeId → Work CompileError (List CompileError)
  | .idle, _ => return []
  | .class_, id => do Handler.Class.process id; return []
  | .association, id => do Handler.Association.process id; return []
  | .enumeration, id => do Handler.Enumeration.process id; return []
  | .function, id => Handler.Function.process id
  | .recipe r, id => do r.process id; return []

def Processor.run (p : Processor) (id : NodeId) : Work (List CompileError) Unit := do
  match ← (p.act id).attempt with
  | .ok [] => return
  | .ok errors => throw errors
  | .error e => throw [e]

inductive Validator where
  | idle
  | class_
  | association
  | enumeration
  | function
  | recipe (r : Recipe)
deriving DecidableEq, Repr

def Validator.run {ε : Type} : Validator → NodeId → Work ε (List CompileError)
  | .idle, _ => return []
  | .class_, id => Work.inspect fun g => Handler.Class.validate g id
  | .association, id => Work.inspect fun g => Handler.Association.validate g id
  | .enumeration, id => return Handler.Enumeration.validate (← Work.graph) id
  | .function, id => Work.inspect fun g => Handler.Function.validate g id
  | .recipe r, id => r.check "validate" id

inductive Unbinder where
  | strip
  | class_
  | association
  | enumeration
  | function
  | recipe (r : Recipe)
deriving DecidableEq, Repr

/-- Undoes binding and processing; `removing` says that the node is about to go. -/
def Unbinder.run (removing : Bool) : Unbinder → NodeId → Work CompileError Unit
  | .strip, id => Work.update fun g => Handler.stripReferences g id
  | .class_, id => Handler.Class.unbind id
  | .association, id => Handler.Association.unbind id
  | .enumeration, id => Handler.Enumeration.unbind id
  | .function, id => Handler.Function.unbind removing id
  | .recipe r, id => r.unbind removing id

inductive Walker where
  | users
  | class_
  | recipe (r : Recipe)
deriving DecidableEq, Repr

def Walker.run {ε : Type} : Walker → NodeId → Work ε (List NodeId)
  | .users, id => return Handler.users (← Work.graph) id
  | .class_, id => return Handler.Class.walk (← Work.graph) id
  | .recipe r, id => r.walk id

inductive VisibilityRule where
  | access
  | recipe (r : Recipe)
deriving DecidableEq, Repr

def VisibilityRule.run {ε : Type} : VisibilityRule → NodeId → Work ε (List CompileError)
  | .access, id => return Handler.accessErrors (← Work.graph) id
  | .recipe r, id => r.check "visibility" id

end ModelCompiler
