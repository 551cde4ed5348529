import ModelCompiler.Action
import ModelCompiler.Graph.Write

/-!
Creating nodes.
-/
namespace ModelCompiler

def Path.beginnings : List Char → List (List Char)
  | [] => []
  | ':' :: ':' :: cs => [] :: (Path.beginnings cs).map (':' :: ':' :: ·)
  | c :: cs => (Path.beginnings cs).map (c :: ·)

/-- The enclosing paths, the innermost first. -/
def Path.packages (p : Path) : List Path :=
  (Path.beginnings p.chars).reverse.filterMap fun cs => (Path.ofChars cs).toOption

namespace Graph

def insert (g : Graph) (spec : NodeSpec) (lifetime : Lifetime) : NodeId × Graph :=
  let node := spec.node lifetime g.nextStamp
  let (id, slots, free) := match g.free with
    | id :: free => (id, g.slots.setIfInBounds id (some node), free)
    | [] => (g.slots.size, g.slots.push (some node), [])
  let paths := match node.path with
    | some path => g.paths.insert path id
    | none => g.paths
  let instances := match node.classifier with
    | some classifier => g.instances.push classifier id
    | none => g.instances
  (id, { g with slots, free, paths, instances, nextStamp := g.nextStamp + 1 })

def attach (g : Graph) (id package : NodeId) : Graph :=
  (g.link id "package" package).link package "children" id

def insertNode (spec : NodeSpec) (lifetime : Lifetime) : Action Graph GraphError NodeId := do
  let (id, g) := (← get).insert spec lifetime
  set g
  return id

/-- The package at the head of a list of paths, each the package of the one before it. -/
def ensurePackage (lifetime : Lifetime) : List Path → Action Graph GraphError NodeId
  | [] => return root
  | path :: outer => do
    let g ← get
    match g.lookup path with
    | some id =>
      if g.isPackage id then return id
      else throw (.invalidPath path.text s!"'{g.describe id}' is not a package")
    | none => do
      let parent ← ensurePackage lifetime outer
      let spec := { classifier := (← get).packageClassifier, path := some path }
      let id ← insertNode spec lifetime
      modify fun g => { g with packages := id :: g.packages }.attach id parent
      return id

def checkClassifier (classifier : Option NodeId) : Action Graph GraphError Unit := do
  match classifier with
  | some id => if !(← get).contains id then throw (.nodeNotFound id)
  | none => return

def createElement (spec : NodeSpec) (path : Path) (lifetime : Lifetime) :
    Action Graph GraphError NodeId := do
  if ((← get).lookup path).isSome then throw (.duplicatePath path.text)
  checkClassifier spec.classifier
  let around := if lifetime = .bootstrap then .bootstrap else .implicit
  let package ← ensurePackage around path.packages
  let id ← insertNode { spec with path := some path } lifetime
  modify fun g => { g with byName := g.byName.push path.name id }.attach id package
  return id

def createBootstrap (spec : NodeSpec) : Action Graph GraphError NodeId :=
  match spec.path with
  | some path => createElement spec path .bootstrap
  | none => throw (.invalidPath "" "bootstrap nodes need a path")

def createPersistent (source : SourceId) (spec : NodeSpec) : Action Graph GraphError NodeId := do
  let id ← match spec.path with
    | some path => createElement spec path (.persistent source)
    | none => do
      checkClassifier spec.classifier
      insertNode spec (.persistent source)
  modify fun g => { g with bySource := g.bySource.push source id }
  return id

/-- Creates an anonymous node; a part of a part belongs to the same owner. -/
def createEphemeral (owner : NodeId) (spec : NodeSpec) : Action Graph GraphError NodeId := do
  if let some path := spec.path then
    throw (.invalidPath path.text "ephemeral nodes are anonymous")
  checkClassifier spec.classifier
  match (← get).ownerRoot? owner with
  | none => throw (.nodeNotFound owner)
  | some root => do
    let id ← insertNode spec (.ephemeral root)
    modify fun g => { g with owned := g.owned.push root id }
    return id

end Graph

end ModelCompiler
