import ModelCompiler.Lineage

/-!
Checks on the types that declarations use.
-/
namespace ModelCompiler.Handler

def flagRepeats (g : Graph) : List String → List NodeId → List (NodeId × Bool)
  | _, [] => []
  | seen, id :: ids =>
    let name := (g.name? id).getD ""
    (id, decide (name ∈ seen)) :: flagRepeats g (name :: seen) ids

def repeated (g : Graph) (ids : List NodeId) : List NodeId :=
  ((flagRepeats g [] ids).filter (·.2)).map (·.1)

/-- No error if `ty` is an instance of `kind`, the given one if it is not. -/
def kindErrors (g : Graph) (kind ty : NodeId) (error : CompileError) :
    StateM Lineage (List CompileError) := do
  match ← (Lineage.isInstance g ty kind).run with
  | .ok true => return []
  | .ok false => return [error]
  | .error e => return [e]

end ModelCompiler.Handler
