import ModelCompiler.Handler.Typing
import ModelCompiler.Handler.Usage
import ModelCompiler.Workspace

/-!
Functions.
-/
namespace ModelCompiler.Handler.Function

/-- Binds one expression of the body to the property that it reads. -/
def processExpression (expression : NodeId) : Work CompileError (List CompileError) := do
  let g ← Work.graph
  if !g.isPropertyStub expression then return []
  else
    match g.value? expression "owner" >>= g.declaredType? with
    | none => return []
    | some receiver =>
      let name := (g.name? expression).getD ""
      match ← Work.inspect fun g => (Lineage.findProperty g receiver name).run with
      | .ok (some property) => do
        Work.setValues expression "resolvedProperty" [property]
        return []
      | .ok none =>
        return [.unresolvedProperty (g.spanOf expression) name (g.describe receiver)]
      | .error e => return [e]

def deriveType (id : NodeId) : Work CompileError Unit := do
  let classifier ← Work.onGraph .internal (Graph.require Metamodel.functionType)
  let type ← Work.onGraph .internal (Graph.createEphemeral id { classifier := some classifier })
  let g ← Work.graph
  ((g.values id "parameters").filterMap g.declaredType?).forM fun ty =>
    Work.addValue type "parameters" ty
  if let some ty := g.value? id "returnType" >>= g.referenced? then
    Work.addValue type "returnType" ty
  Work.setValues id "functionType" [type]

/-- The type is derived also if an expression is in error. -/
def process (id : NodeId) : Work CompileError (List CompileError) := do
  let errors ← ((← Work.graph).values id "expressionSequence").mapM processExpression
  deriveType id
  return errors.flatten

def parameterErrors (g : Graph) (id : NodeId) : List CompileError :=
  (repeated g (g.values id "parameters")).map fun parameter =>
    let name := (g.name? parameter).getD ""
    .constraintValidation (g.spanOf parameter)
      s!"parameter '{name}' is declared more than once in '{g.describe id}'"

/-- The types that a function uses, each with the place that names it. -/
def typeUses (g : Graph) (id : NodeId) : List (NodeId × NodeId) :=
  ((g.values id "parameters").filterMap fun p => (g.declaredType? p).map (p, ·))
    ++ ((g.value? id "returnType").toList.filterMap fun stub =>
      (g.referenced? stub).map (stub, ·))

def validate (g : Graph) (id : NodeId) : StateM Lineage (List CompileError) := do
  match g.lookup Metamodel.type with
  | none => return []
  | some kind =>
    let uses ← (typeUses g id).mapM fun (site, ty) =>
      kindErrors g kind ty <| .constraintValidation (g.spanOf site)
        s!"'{g.describe ty}' used in '{g.describe id}' is not a type"
    return parameterErrors g id ++ uses.flatten

/-- A function that stays loses its type; one that goes takes it along. -/
def unbind (removing : Bool) (id : NodeId) : Work CompileError Unit := do
  Work.update fun g => stripReferences g id
  if !removing then
    let derived ← Action.write fun w =>
      (w.graph.clearProperty id "functionType").map fun (old, g) => (old, { w with graph := g })
    if !derived.isEmpty then
      discard (Work.onGraph CompileError.internal (Graph.removeNodes derived))

end ModelCompiler.Handler.Function
