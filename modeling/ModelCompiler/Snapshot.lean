import ModelCompiler.Snapshot.Keys
import ModelCompiler.Digest.Blake3

/-!
Snapshots: pictures of a graph in which keys stand for slots. Two graphs with the same contents have
the same snapshot, whatever the slots.
-/
namespace ModelCompiler

namespace Snapshot

/-- The picture of one node; the properties are sorted by name. -/
structure Entry where
  classifier : Option String
  name : Option String
  lifetime : String
  span : Option Span
  properties : List (String × List String)
deriving DecidableEq, Repr

def lifetimeText : Lifetime → String
  | .bootstrap => "bootstrap"
  | .implicit => "implicit"
  | .persistent source => s!"persistent:{source}"
  | .ephemeral _ => "ephemeral"

/-- The keys of the values; those of a back-reference are sorted. -/
def valueKeys (g : Graph) (keys : Keys) (property : String) (values : List NodeId) :
    List String :=
  let rendered := values.map fun v => (keys.find? v).getD s!"#{v}"
  if g.isBackReference property then Text.sort rendered else rendered

def entry (g : Graph) (keys : Keys) (n : Node) : Entry where
  classifier := n.classifier >>= keys.find?
  name := n.name
  lifetime := lifetimeText n.lifetime
  span := n.span
  properties := Text.sortedMap <| n.properties.entries.map fun (property, values) =>
    (property, valueKeys g keys property values)

namespace Entry

def toJson (e : Entry) : Json :=
  .object [("classifier", (e.classifier.map Json.string).getD .null),
    ("name", (e.name.map Json.string).getD .null), ("lifetime", .string e.lifetime),
    ("span", (e.span.map Span.toJson).getD .null),
    ("properties", .object <| e.properties.map fun (property, values) =>
      (property, .array (values.map .string)))]

def readProperties? : Json → Option (List (String × List String))
  | .object fields => do
    return Text.sortedMap (← fields.mapM fun (k, v) => (Json.list? Json.string? v).map (k, ·))
  | _ => none

def ofJson? (v : Json) : Option Entry := do
  match ← Json.record? ["classifier", "name", "lifetime", "span", "properties"] 5 v with
  | [classifier, name, lifetime, span, properties] =>
    return {
      classifier := ← Json.defaulted none (Json.nullable? Json.string?) classifier
      name := ← Json.defaulted none (Json.nullable? Json.string?) name
      lifetime := ← Json.required Json.string? lifetime
      span := ← Json.defaulted none (Json.nullable? Span.ofJson?) span
      properties := ← Json.required readProperties? properties }
  | _ => none

end Entry

end Snapshot

structure Snapshot where
  entries : List (String × Snapshot.Entry)
deriving DecidableEq, Repr

namespace Snapshot

def capture (g : Graph) : Snapshot :=
  let keys := assignKeys g
  ⟨Text.sortedMap <| g.ids.filterMap fun id => do
    return (← keys.find? id, entry g keys (← g.node? id))⟩

def get? (s : Snapshot) (key : String) : Option Entry :=
  s.entries.lookup key

def size (s : Snapshot) : Nat :=
  s.entries.length

def isEmpty (s : Snapshot) : Bool :=
  s.entries.isEmpty

def toJson (s : Snapshot) : Json :=
  .object <| s.entries.map fun (key, e) => (key, e.toJson)

def text (s : Snapshot) : String :=
  s.toJson.text

def bytes (s : Snapshot) : List UInt8 :=
  s.text.toUTF8.toList

def fingerprint (s : Snapshot) : String :=
  Blake3.hexDigest s.bytes

/-- The keys of each classifier; a node without one counts under the empty key. -/
def byClassifier (s : Snapshot) : List (String × List String) :=
  let classifier (e : Entry) := e.classifier.getD ""
  (Text.sortedMap (s.entries.map fun (_, e) => (classifier e, ()))).map fun (c, _) =>
    (c, (s.entries.filter fun (_, e) => classifier e = c).map (·.1))

def diff (s t : Snapshot) : List String :=
  let changed := s.entries.filter fun (key, e) => t.get? key ≠ some e
  let added := t.entries.filter fun (key, _) => (s.get? key).isNone
  Text.sort ((changed ++ added).map (·.1))

end Snapshot

end ModelCompiler
