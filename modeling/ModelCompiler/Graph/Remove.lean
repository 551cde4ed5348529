import ModelCompiler.Graph.Audit
import ModelCompiler.Graph.Create

/-!
Removing nodes together with their parts.
-/
namespace ModelCompiler.Graph

def removalOrder (g : Graph) : List NodeId → List NodeId → Except GraphError (List NodeId)
  | order, [] => .ok order
  | order, id :: ids =>
    match g.node? id with
    | none => .error (.nodeNotFound id)
    | some n =>
      if n.lifetime = .bootstrap then
        .error (.inconsistent s!"bootstrap node '{g.describe id}' cannot be removed")
      else
        let order := (g.tree id).foldl (fun o m => if m ∈ o then o else o ++ [m]) order
        removalOrder g order ids

/-- Whether a reference keeps its target from being removed with `order`. -/
def holds (g : Graph) (order : List NodeId) (u : Usage) : Bool :=
  u.user ∉ order && !(u.property = "children" && g.isPackage u.user)

/-- The first reference from outside to one of the nodes in `order`. -/
def holder? (g : Graph) (order : List NodeId) (target : NodeId) : Option GraphError :=
  match (g.usagesOf target).find? (g.holds order) with
  | some u => some (.danglingReference (g.describe u.user) u.property (g.describe target))
  | none =>
    ((g.instancesOf target).find? (· ∉ order)).map fun i =>
      .danglingReference (g.describe i) "classifier" (g.describe target)

def unindex (g : Graph) (id : NodeId) : Graph :=
  match g.node? id with
  | none => g
  | some n =>
    let paths := match n.path with
      | some path => g.paths.erase path
      | none => g.paths
    let byName := match n.path with
      | some path => g.byName.drop path.name id
      | none => g.byName
    let instances := match n.classifier with
      | some classifier => g.instances.drop classifier id
      | none => g.instances
    let bySource := match n.lifetime with
      | .persistent source => g.bySource.drop source id
      | _ => g.bySource
    let owned := match n.lifetime with
      | .ephemeral owner => (g.owned.erase id).drop owner id
      | _ => g.owned.erase id
    { g with
      paths, byName, bySource, owned
      instances := instances.erase id
      packages := g.packages.filter (· ≠ id) }

/-- Frees the slot of a live node and forgets the references from and to it. -/
def vacate (g : Graph) (id : NodeId) : Graph :=
  if g.contains id then
    { g with
      slots := g.slots.setIfInBounds id none
      free := id :: g.free
      usages := g.usages.filter fun u => u.user ≠ id && u.target ≠ id }
  else g

def evict (g : Graph) (id : NodeId) : Graph :=
  (g.unindex id).vacate id

/-- Takes `id` out of the children of its package if that one stays; returns the package. -/
def detach (order : List NodeId) (g : Graph) (id : NodeId) :
    Except Breach (Option NodeId × Graph) :=
  match g.packageOf? id with
  | some package =>
    if package ∈ order then .ok (none, g)
    else do
      let (_, g) ← g.removeValue package "children" id
      return (some package, g)
  | none => .ok (none, g)

def detachAll (order : List NodeId) : Graph → List NodeId → Except Breach (List NodeId × Graph)
  | g, [] => .ok ([], g)
  | g, id :: ids => do
    let (package, g) ← detach order g id
    let (packages, g) ← detachAll order g ids
    return (package.toList ++ packages, g)

/-- Removes an implicit package without children, then its package in the same way. The fuel
bounds the number of packages. -/
def prune : Nat → Graph → NodeId → Except Breach (List NodeId × Graph)
  | 0, g, _ => .ok ([], g)
  | fuel + 1, g, package =>
    match g.node? package with
    | none => .ok ([], g)
    | some n =>
      if n.lifetime ≠ .implicit || !(g.children package).isEmpty then .ok ([], g)
      else
        match g.packageOf? package with
        | none => .ok ([package], g.evict package)
        | some parent => do
          let (_, g) ← g.removeValue parent "children" package
          let (pruned, g) ← prune fuel (g.evict package) parent
          return (package :: pruned, g)

def pruneAll : Graph → List NodeId → Except Breach (List NodeId × Graph)
  | g, [] => .ok ([], g)
  | g, package :: rest => do
    let (pruned, g) ← prune g.slots.size g package
    let (more, g) ← pruneAll g rest
    return (pruned ++ more, g)

/-- Removes `order` from the graph; returns what went, the pruned packages last. -/
def extract (order : List NodeId) (g : Graph) : Except Breach (List NodeId × Graph) := do
  let (packages, g) ← detachAll order g order
  let g := order.foldl evict g
  let (pruned, g) ← pruneAll g packages.reverse
  match g.audit with
  | .error e => .error (.audit e)
  | .ok () => return (order ++ pruned, g)

def removeNodes (ids : List NodeId) : Action Graph GraphError (List NodeId) := do
  let g ← get
  match g.removalOrder [] ids with
  | .error e => throw e
  | .ok order =>
    match order.findSome? (g.holder? order) with
    | some e => throw e
    | none => Action.write (extract order)

end ModelCompiler.Graph
