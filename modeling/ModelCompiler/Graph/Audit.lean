import ModelCompiler.Graph.Basic

/-!
The audit of a graph: every value lives, the usages are those of the property values, classifiers
live, parts are listed under their owners, and sources list live nodes only.
-/
namespace ModelCompiler.Graph

def references (n : Node) : List (String × NodeId) :=
  n.properties.entries.flatMap fun (property, values) => values.map (property, ·)

def recorded (g : Graph) (id : NodeId) : List (String × NodeId) :=
  (g.usages.filter (·.user = id)).map fun u => (u.property, u.target)

def missingReference? (g : Graph) (n : Node) : Option (String × NodeId) :=
  (references n).find? fun (_, value) => !g.contains value

def unlisted (g : Graph) (id : NodeId) (n : Node) : Bool :=
  match n.lifetime with
  | .ephemeral owner => !(g.ownedBy owner).contains id
  | _ => false

def nodeFault? (g : Graph) (id : NodeId) (n : Node) : Option String :=
  match g.missingReference? n with
  | some (property, value) =>
    some s!"'{g.describe id}'.{property} refers to missing node {value}"
  | none =>
    if !(references n).isPerm (g.recorded id) then
      some s!"usage edges of '{g.describe id}' do not match its property values"
    else if n.classifier.any (!g.contains ·) then
      some s!"'{g.describe id}' has a missing classifier"
    else if g.unlisted id n then some s!"'{g.describe id}' is not listed under its owner"
    else none

def sourceFault? (g : Graph) : Option String :=
  g.bySource.entries.findSome? fun (source, nodes) =>
    (nodes.find? (!g.contains ·)).map fun missing =>
      s!"source '{source}' lists missing node {missing}"

def fault? (g : Graph) : Option String :=
  (g.ids.findSome? fun id => g.node? id >>= g.nodeFault? id).or g.sourceFault?

def audit (g : Graph) : Except GraphError Unit :=
  match g.fault? with
  | some reason => .error (.inconsistent reason)
  | none => .ok ()

end ModelCompiler.Graph
