import ModelCompiler.Graph.Basic

/-!
Writing properties. Each value that is added or taken away adds or takes away one usage.
-/
namespace ModelCompiler.Graph

def declareBackReference (g : Graph) (property : String) : Graph :=
  if g.isBackReference property then g
  else { g with backReferences := g.backReferences ++ [property] }

def modifyNode (g : Graph) (id : NodeId) (f : Node → Node) : Graph :=
  { g with slots := g.slots.modify id (·.map f) }

/-- Gives a node and its owner the next stamp. -/
def touch (g : Graph) (id : NodeId) : Graph :=
  let stamped (n : Node) : Node := { n with stamp := g.nextStamp }
  let owner := g.node? id >>= (·.owner)
  let g' := { g with nextStamp := g.nextStamp + 1 }.modifyNode id stamped
  match owner with
  | some owner => g'.modifyNode owner stamped
  | none => g'

def touchUnlessBack (g : Graph) (id : NodeId) (property : String) : Graph :=
  if g.isBackReference property then g else g.touch id

def link (g : Graph) (id : NodeId) (property : String) (value : NodeId) : Graph :=
  let g' := g.modifyNode id fun n => { n with properties := n.properties.push property value }
  { g' with
    usages := ⟨id, property, value, g.isBackReference property⟩ :: g'.usages
  }.touchUnlessBack id property

def addValue (g : Graph) (id : NodeId) (property : String) (value : NodeId) :
    Except Breach Graph :=
  if !g.contains id then .error (.missingHolder property id)
  else if !g.contains value then .error (.missingValue property (g.describe id) value)
  else .ok (g.link id property value)

def clearProperty (g : Graph) (id : NodeId) (property : String) :
    Except Breach (List NodeId × Graph) :=
  match g.node? id with
  | none => .error (.missingHolder property id)
  | some n =>
    match n.properties.find? property with
    | none => .ok ([], g)
    | some old =>
      let g' := g.modifyNode id fun n => { n with properties := n.properties.erase property }
      let kept := g'.usages.filter fun u => !(u.user = id && u.property = property)
      .ok (old, { g' with usages := kept }.touchUnlessBack id property)

def setValues (g : Graph) (id : NodeId) (property : String) (values : List NodeId) :
    Except Breach Graph := do
  let (_, g) ← g.clearProperty id property
  values.foldlM (fun g v => g.addValue id property v) g

/-- The properties without the first occurrence of a value; an emptied property goes. -/
def withoutValue (properties : Table String (List NodeId)) (property : String) (value : NodeId) :
    Table String (List NodeId) :=
  match (properties.values property).erase value with
  | [] => properties.erase property
  | rest => properties.insert property rest

def removeValue (g : Graph) (id : NodeId) (property : String) (value : NodeId) :
    Except Breach (Bool × Graph) :=
  match g.node? id with
  | none => .error (.missingHolder property id)
  | some n =>
    if value ∈ n.values property then
      let g' := g.modifyNode id fun n =>
        { n with properties := withoutValue n.properties property value }
      let kept := g'.usages.eraseP fun u =>
        u.user = id && u.property = property && u.target = value
      .ok (true, { g' with usages := kept }.touchUnlessBack id property)
    else .ok (false, g)

end ModelCompiler.Graph
