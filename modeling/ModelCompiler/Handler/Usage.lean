import ModelCompiler.Order
import ModelCompiler.Reference

/-!
Users of an element, and the stripping of what binding and processing have added to it.
-/
namespace ModelCompiler.Handler

def ascending (ids : List NodeId) : List NodeId :=
  (Order.sort (fun a b => decide (a ≤ b)) ids).eraseDups

/-- The nodes outside the tree of `id` that hold a forward reference into it. -/
def users (g : Graph) (id : NodeId) : List NodeId :=
  let tree := g.tree id
  let held := (tree.flatMap g.usagesOf).filter fun u => u.isForward && u.user ∉ tree
  ascending (held.map (·.user))

/-- Back-references into the tree that nodes outside hold, membership in packages apart. -/
def heldByOthers (g : Graph) (tree : List NodeId) : List (NodeId × String × NodeId) :=
  let held := (tree.flatMap g.usagesOf).filter fun u =>
    u.back && u.property ≠ "children" && u.user ∉ tree
  held.map fun u => (u.user, u.property, u.target)

def isForeign (g : Graph) (own : Option SourceId) (id : NodeId) : Bool :=
  match g.sourceOf? id with
  | some source => some source ≠ own
  | none => false

/-- References from the tree to nodes of other sources. -/
def foreignReferences (g : Graph) (own : Option SourceId) (tree : List NodeId) :
    List (NodeId × String × NodeId) :=
  tree.flatMap fun id =>
    match g.node? id with
    | none => []
    | some n =>
      n.properties.entries.flatMap fun (property, values) =>
        (values.filter fun v => v ∉ tree && isForeign g own v).map (id, property, ·)

def removeReferences (g : Graph) (references : List (NodeId × String × NodeId)) :
    Except Breach Graph :=
  references.foldlM (fun g (user, property, target) =>
    (g.removeValue user property target).map (·.2)) g

def resetStub (g : Graph) (id : NodeId) : Except Breach Graph :=
  if g.isImportStub id then (g.clearProperty id "resolvedNode").map (·.2)
  else if g.isPropertyStub id then (g.clearProperty id "resolvedProperty").map (·.2)
  else .ok g

/-- Removes the back-references to an element, its references to other sources, and the bindings
of its stubs. -/
def stripReferences (g : Graph) (id : NodeId) : Except Breach Graph := do
  let tree := g.tree id
  let g ← removeReferences g (heldByOthers g tree)
  let g ← removeReferences g (foreignReferences g (g.sourceOf? id) tree)
  tree.foldlM resetStub g

end ModelCompiler.Handler
