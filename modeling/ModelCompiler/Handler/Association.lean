import ModelCompiler.Handler.Typing
import ModelCompiler.Handler.Usage
import ModelCompiler.Workspace

/-!
Associations. Each of the two ends becomes a property of the class at the other end, kept there as a
back-reference.
-/
namespace ModelCompiler.Handler.Association

def ends (g : Graph) (id : NodeId) : List (NodeId × Option NodeId) :=
  (g.values id "properties").map fun p => (p, g.declaredType? p)

def isClass (g : Graph) (id : NodeId) : Lineage.Query Bool :=
  match g.lookup Metamodel.class_ with
  | some kind => Lineage.isInstance g id kind
  | none => return false

/-- Attaches the ends if there are two and both have classes for types. -/
def process (id : NodeId) : Work CompileError Unit := do
  match ends (← Work.graph) id with
  | [(first, some firstType), (second, some secondType)] =>
    let both ← Work.ask fun g => do
      if ← isClass g firstType then isClass g secondType else return false
    if both then
      Work.addValue secondType "propertiesFromAssociations" first
      Work.addValue firstType "propertiesFromAssociations" second
  | _ => return

def endErrors (g : Graph) (id : NodeId) :
    NodeId × Option NodeId → StateM Lineage (List CompileError)
  | (_, none) => return []
  | (property, some ty) => do
    let name := (g.name? property).getD ""
    match ← (isClass g ty).run with
    | .ok true => return []
    | .ok false =>
      return [.constraintValidation (g.spanOf property)
        (s!"property '{name}' of association '{g.describe id}' must have a class type, "
          ++ s!"not '{g.describe ty}'")]
    | .error e => return [e]

def validate (g : Graph) (id : NodeId) : StateM Lineage (List CompileError) := do
  let ends := ends g id
  let count := if ends.length = 2 then []
    else
      [.constraintValidation (g.spanOf id)
        (s!"association '{g.describe id}' must have exactly two properties, "
          ++ s!"found {ends.length}")]
  return count ++ (← ends.mapM (endErrors g id)).flatten

def attachments (g : Graph) (id : NodeId) : List (NodeId × String × NodeId) :=
  (g.values id "properties").flatMap fun property =>
    ((g.usagesOf property).filter (·.property = "propertiesFromAssociations")).map fun u =>
      (u.user, u.property, property)

def unbind (id : NodeId) : Work CompileError Unit :=
  Work.update fun g => do
    stripReferences (← removeReferences g (attachments g id)) id

end ModelCompiler.Handler.Association
