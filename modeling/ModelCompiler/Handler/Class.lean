import ModelCompiler.Handler.Typing
import ModelCompiler.Handler.Usage
import ModelCompiler.Workspace

/-!
Classes. Processing registers a class with its generalizations; validation checks the types it uses
and its properties against the inherited ones.
-/
namespace ModelCompiler.Handler.Class

/-- Enters the class under each of its direct generalizations. A cycle is an error. -/
def process (id : NodeId) : Work CompileError Unit := do
  discard (Work.ask fun g => Lineage.ancestors g id)
  let generals ← Work.ask fun g => ExceptT.mk (pure (Lineage.direct g id))
  generals.forM fun general => Work.addValue general "specializations" id

def generalizationErrors (g : Graph) (kind id stub : NodeId) :
    StateM Lineage (List CompileError) :=
  match g.referenced? stub with
  | none => return []
  | some general =>
    kindErrors g kind general <| .constraintValidation (g.spanOf stub)
      s!"class '{g.describe id}' cannot extend '{g.describe general}': it is not a type"

def propertyErrors (g : Graph) (kind id : NodeId) :
    NodeId × Bool → StateM Lineage (List CompileError) := fun (property, repeats) => do
  let name := (g.name? property).getD ""
  let twice := if repeats then
      [.constraintValidation (g.spanOf property)
        s!"property '{name}' is defined more than once in class '{g.describe id}'"]
    else []
  match g.declaredType? property with
  | none => return twice
  | some ty =>
    let found ← kindErrors g kind ty <| .constraintValidation (g.spanOf property)
      (s!"property '{name}' of class '{g.describe id}' has type '{g.describe ty}', "
        ++ "which is not a type")
    return twice ++ found

def inherited? (g : Graph) (ancestors : List NodeId) (name : String) :
    Option (NodeId × NodeId) :=
  ancestors.findSome? fun ancestor =>
    ((g.values ancestor "properties").find? fun p => g.name? p = some name).map (ancestor, ·)

/-- A property that is inherited keeps its type. -/
def overrideError? (g : Graph) (id : NodeId) (ancestors : List NodeId) (property : NodeId) :
    Option CompileError := do
  let name := (g.name? property).getD ""
  let ty ← g.declaredType? property
  let (ancestor, overridden) ← inherited? g ancestors name
  let former ← g.declaredType? overridden
  if ty = former then none
  else
    return .constraintValidation (g.spanOf property)
      (s!"property '{name}' of class '{g.describe id}' conflicts with the property inherited "
        ++ s!"from '{g.describe ancestor}': '{g.describe ty}' is not '{g.describe former}'")

def validate (g : Graph) (id : NodeId) : StateM Lineage (List CompileError) := do
  match g.lookup Metamodel.type with
  | none => return []
  | some kind =>
    let properties := g.values id "properties"
    let generals ← (g.values id "generalizations").mapM (generalizationErrors g kind id)
    let declared ← (flagRepeats g [] properties).mapM (propertyErrors g kind id)
    let overriding := match ← (Lineage.ancestors g id).run with
      | .ok ancestors => properties.filterMap (overrideError? g id ancestors)
      | .error e => [e]
    return generals.flatten ++ declared.flatten ++ overriding

def unbind (id : NodeId) : Work CompileError Unit := do
  Work.update fun g => stripReferences g id
  modify fun w => { w with lineage := w.lineage.erase id }

def walk (g : Graph) (id : NodeId) : List NodeId :=
  ascending (users g id ++ g.values id "specializations")

end ModelCompiler.Handler.Class
