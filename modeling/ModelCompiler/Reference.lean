import ModelCompiler.Metamodel
import ModelCompiler.CompileError

/-!
References through stubs. A stub stands for a name; once bound, it leads to the node of that name.
-/
namespace ModelCompiler.Graph

def isImportStub (g : Graph) (id : NodeId) : Bool :=
  g.classifierPath? id = some Metamodel.importStub

def isPropertyStub (g : Graph) (id : NodeId) : Bool :=
  g.classifierPath? id = some Metamodel.propertyStub

def referenced? (g : Graph) (id : NodeId) : Option NodeId :=
  if g.isImportStub id then g.value? id "resolvedNode" else some id

def declaredType? (g : Graph) (id : NodeId) : Option NodeId :=
  g.value? id "genericType" >>= g.referenced?

/-- The span of a node, else of its owner, else the start of its source. -/
def spanOf (g : Graph) (id : NodeId) : Span :=
  match (g.span? id).or (g.ownerRoot? id >>= g.span?) with
  | some span => span
  | none => .point ((g.sourceOf? id).getD "<bootstrap>") 0 0

end ModelCompiler.Graph
