import ModelCompiler.Graph.Node

/-!
The graph store. Nodes live in slots; a freed slot is given out again, the one freed last first.
-/
namespace ModelCompiler

/-- One reference: `user` holds `target` under `property`. -/
structure Usage where
  user : NodeId
  property : String
  target : NodeId
  /-- Whether the property was a back-reference when the reference was written. -/
  back : Bool
deriving DecidableEq, Repr, Inhabited

namespace Usage

def isForward (u : Usage) : Bool :=
  !u.back

end Usage

structure Graph where
  slots : Array (Option Node)
  /-- Freed slots, the latest first. -/
  free : List NodeId
  /-- All references, the newest first. -/
  usages : List Usage
  paths : Table Path NodeId
  bySource : Table SourceId (List NodeId)
  /-- The ephemeral nodes of each owner in creation order. -/
  owned : Table NodeId (List NodeId)
  byName : Table String (List NodeId)
  instances : Table NodeId (List NodeId)
  packages : List NodeId
  backReferences : List String
  packageClassifier : Option NodeId
  nextStamp : Nat

namespace Graph

def root : NodeId := 0

def node? (g : Graph) (id : NodeId) : Option Node :=
  (g.slots[id]?).join

def contains (g : Graph) (id : NodeId) : Bool :=
  (g.node? id).isSome

def ids (g : Graph) : List NodeId :=
  (List.range g.slots.size).filter g.contains

def size (g : Graph) : Nat :=
  g.ids.length

def isBackReference (g : Graph) (property : String) : Bool :=
  property ∈ g.backReferences

def classifier? (g : Graph) (id : NodeId) : Option NodeId :=
  g.node? id >>= (·.classifier)

def path? (g : Graph) (id : NodeId) : Option Path :=
  g.node? id >>= (·.path)

def classifierPath? (g : Graph) (id : NodeId) : Option Path :=
  g.classifier? id >>= g.path?

def name? (g : Graph) (id : NodeId) : Option String :=
  g.node? id >>= (·.name)

def span? (g : Graph) (id : NodeId) : Option Span :=
  g.node? id >>= (·.span)

def stamp? (g : Graph) (id : NodeId) : Option Nat :=
  (g.node? id).map (·.stamp)

def values (g : Graph) (id : NodeId) (property : String) : List NodeId :=
  match g.node? id with
  | some n => n.values property
  | none => []

def value? (g : Graph) (id : NodeId) (property : String) : Option NodeId :=
  (g.values id property).head?

def lookup (g : Graph) (path : Path) : Option NodeId :=
  g.paths.find? path

/-- The node at the path that a text is; none for a text that is no path. -/
def lookupText (g : Graph) (path : String) : Option NodeId :=
  Path.ofText? path >>= g.lookup

def elementsNamed (g : Graph) (name : String) : List NodeId :=
  g.byName.values name

def instancesOf (g : Graph) (classifier : NodeId) : List NodeId :=
  g.instances.values classifier

def persistentNodes (g : Graph) (source : SourceId) : List NodeId :=
  g.bySource.values source

def sources (g : Graph) : List SourceId :=
  g.bySource.keys

def ownedBy (g : Graph) (owner : NodeId) : List NodeId :=
  g.owned.values owner

/-- The owner of an ephemeral node; any other node answers for itself. -/
def ownerRoot? (g : Graph) (id : NodeId) : Option NodeId :=
  (g.node? id).map fun n => n.owner.getD id

/-- The source that owns a node, directly or through its owner. -/
def sourceOf? (g : Graph) (id : NodeId) : Option SourceId := do
  let root ← g.ownerRoot? id
  match (← g.node? root).lifetime with
  | .persistent source => some source
  | _ => none

/-- A node and the ephemeral nodes that it owns. -/
def tree (g : Graph) (id : NodeId) : List NodeId :=
  id :: g.ownedBy id

def usagesOf (g : Graph) (target : NodeId) : List Usage :=
  if g.contains target then g.usages.filter (·.target = target) else []

def isPackage (g : Graph) (id : NodeId) : Bool :=
  id ∈ g.packages

def packageOf? (g : Graph) (id : NodeId) : Option NodeId :=
  g.value? id "package"

/-- The package's path; an element at the top has the root package. -/
def packagePath? (g : Graph) (id : NodeId) : Option Path :=
  g.packageOf? id >>= g.path?

def children (g : Graph) (package : NodeId) : List NodeId :=
  g.values package "children"

/-- How messages name a node: by its path, by its name, or by its slot. -/
def describe (g : Graph) (id : NodeId) : String :=
  match g.node? id with
  | some n =>
    match n.path, n.name with
    | some path, _ => path.text
    | none, some name => s!"{name}#{id}"
    | none, none => s!"#{id}"
  | none => s!"<removed #{id}>"

end Graph

end ModelCompiler
