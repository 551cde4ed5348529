import ModelCompiler.Table
import ModelCompiler.Span
import ModelCompiler.Graph.Error

/-!
Nodes. What a node is, its classifier says, itself a node of the graph; what it holds are ordered
lists of nodes under property names.
-/
namespace ModelCompiler

/-- Who owns a node, and so when it goes. -/
inductive Lifetime where
  /-- Part of the metamodel; never removed. -/
  | bootstrap
  /-- A package made on demand; goes with its last child. -/
  | implicit
  | persistent (source : SourceId)
  | ephemeral (owner : NodeId)
deriving DecidableEq, Repr, Inhabited

namespace Lifetime

def isPersistent : Lifetime → Bool
  | .persistent _ => true
  | _ => false

def isEphemeral : Lifetime → Bool
  | .ephemeral _ => true
  | _ => false

def isShared : Lifetime → Bool
  | .bootstrap | .implicit => true
  | _ => false

end Lifetime

structure Node where
  name : Option String
  path : Option Path
  classifier : Option NodeId
  lifetime : Lifetime
  span : Option Span
  properties : Table String (List NodeId)
  /-- Renewed by each write to a forward property of the node or of a part that it owns. -/
  stamp : Nat
deriving DecidableEq

namespace Node

def values (n : Node) (property : String) : List NodeId :=
  n.properties.values property

def owner (n : Node) : Option NodeId :=
  match n.lifetime with
  | .ephemeral owner => some owner
  | _ => none

end Node

structure NodeSpec where
  classifier : Option NodeId := none
  name : Option String := none
  path : Option Path := none
  span : Option Span := none

namespace NodeSpec

def node (s : NodeSpec) (lifetime : Lifetime) (stamp : Nat) : Node where
  name := s.name.or (s.path.map (·.name))
  path := s.path
  classifier := s.classifier
  lifetime := lifetime
  span := s.span
  properties := ∅
  stamp := stamp

end NodeSpec

end ModelCompiler
