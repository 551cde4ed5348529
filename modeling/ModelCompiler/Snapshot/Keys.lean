import ModelCompiler.Graph.Basic
import ModelCompiler.Text.Sorted

/-!
Keys of nodes that do not mention slots. A node with a path has its path for a key, a persistent
node without one its place in its source.
-/
namespace ModelCompiler.Snapshot

abbrev Keys := Table NodeId String

def topKey? (g : Graph) (id : NodeId) (n : Node) : Option String :=
  match n.lifetime, n.path with
  | .ephemeral _, _ => none
  | _, some path => some path.text
  | .persistent source, none => some s!"{source}#{(g.persistentNodes source).idxOf id}"
  | _, none => some s!"#{id}"

def topKeys (g : Graph) : List (String × NodeId) :=
  let tops := g.ids.filterMap fun id =>
    (g.node? id >>= topKey? g id).map (·, id)
  tops.mergeSort fun a b => decide (a.1 < b.1 ∨ a.1 = b.1 ∧ a.2 ≤ b.2)

/-- The references of a node with their addresses, properties in the order of their names. -/
def steps (address : String) (n : Node) : List (String × NodeId) :=
  (Text.sortedMap n.properties.entries).flatMap fun (property, values) =>
    values.zipIdx.map fun (value, index) => (s!"{address}/{property}.{index}", value)

/-- Keys the parts of `owner` that can be reached from `id`, depth first. The fuel bounds the
depth. -/
def visit (g : Graph) (owner : NodeId) : Nat → NodeId → String → Keys → Keys
  | 0, _, _, keys => keys
  | fuel + 1, id, address, keys =>
    match g.node? id with
    | none => keys
    | some n =>
      (steps address n).foldl (fun keys (step, value) =>
        if !keys.contains value && (g.node? value >>= (·.owner)) = some owner then
          visit g owner fuel value step (keys.insert value step)
        else keys) keys

/-- Keys the parts of `owner` that are still without a key. -/
def visitOrphans (g : Graph) (owner : NodeId) (key : String) :
    Nat → List NodeId → Keys → Keys
  | _, [], keys => keys
  | n, id :: ids, keys =>
    if keys.contains id then visitOrphans g owner key n ids keys
    else
      let address := s!"{key}/~{n}"
      visitOrphans g owner key (n + 1) ids
        (visit g owner g.slots.size id address (keys.insert id address))

def assignKeys (g : Graph) : Keys :=
  let tops := topKeys g
  tops.foldl (fun keys (key, id) =>
      visitOrphans g id key 0 (g.ownedBy id) (visit g id g.slots.size id key keys))
    ⟨tops.map fun (key, id) => (id, key)⟩

end ModelCompiler.Snapshot
