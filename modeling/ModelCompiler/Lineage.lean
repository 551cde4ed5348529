import ModelCompiler.Reference

/-!
The lineage of a type: its direct generalizations in their order, then the lineages of these in the
same order, each type at its first place only.
-/
namespace ModelCompiler

structure Ancestry where
  ancestors : List NodeId
  /-- The stamps of the type and of all its ancestors. -/
  stamps : Table NodeId Nat
deriving DecidableEq

namespace Ancestry

def isFresh (a : Ancestry) (g : Graph) : Bool :=
  a.stamps.entries.all fun (id, stamp) => g.stamp? id = some stamp

end Ancestry

abbrev Lineage := Table NodeId Ancestry

namespace Lineage

abbrev Query (α : Type) := ExceptT CompileError (StateM Lineage) α

def fresh? (l : Lineage) (g : Graph) (ty : NodeId) : Option Ancestry :=
  (l.find? ty).filter (·.isFresh g)

def retainFresh (l : Lineage) (g : Graph) : Lineage :=
  l.filter fun _ a => a.isFresh g

def forget (l : Lineage) (ty : NodeId) : Lineage :=
  l.erase ty

def unboundSpan (g : Graph) (owner stub : NodeId) : Span :=
  ((g.span? stub).or (g.span? owner)).getD (.point "<unknown>" 0 0)

def general (g : Graph) (owner node : NodeId) : Except CompileError NodeId :=
  match g.referenced? node with
  | some id => .ok id
  | none =>
    .error (.unresolvedIdentifier (unboundSpan g owner node) ((g.name? node).getD "?") [])

def direct (g : Graph) (ty : NodeId) : Except CompileError (List NodeId) :=
  if g.contains ty then (g.values ty "generalizations").mapM (general g ty)
  else .error (.internal (.nodeNotFound ty))

def cycleSpan (g : Graph) (way : List NodeId) (ty : NodeId) : Span :=
  ((ty :: way).findSome? g.span?).getD (.point "<bootstrap>" 0 0)

def cycleError (g : Graph) (way : List NodeId) (ty : NodeId) : CompileError :=
  .cyclicGeneralization (cycleSpan g way ty) ((way ++ [ty]).map g.describe)

/-- Whether an error is an unresolved name of a source other than that of `ty`. -/
def isForeign (g : Graph) (ty : NodeId) : CompileError → Bool
  | .unresolvedIdentifier span _ _ | .unresolvedSupertype span _ =>
    g.sourceOf? ty ≠ some span.source
  | _ => false

/-- Reports a foreign error at the generalization of `ty` that leads to it. -/
def localize (g : Graph) (ty stub general : NodeId) (e : CompileError) : CompileError :=
  if isForeign g ty e then
    match (g.span? stub).or (g.span? ty) with
    | some span => .unresolvedSupertype span (g.describe general)
    | none => e
  else e

/-- The lineage of `ty` from the lineages of its direct generalizations. -/
def merge (g : Graph) (ty : NodeId) (generals : List NodeId) (inherited : List Ancestry) :
    Ancestry where
  ancestors := (generals ++ inherited.flatMap (·.ancestors)).eraseDups
  stamps := (inherited.flatMap (·.stamps.entries)).foldl (fun t (id, stamp) => t.insert id stamp)
    ⟨[(ty, (g.stamp? ty).getD 0)]⟩

/-- Searches upwards from `ty`; `way` holds the types below it, and the fuel bounds its length. -/
def search (g : Graph) : Nat → List NodeId → NodeId → Query Ancestry
  | 0, _, ty => throw (.internal (.nodeNotFound ty))
  | fuel + 1, way, ty => do
    match (← get).fresh? g ty with
    | some known => return known
    | none =>
      if ty ∈ way then throw (cycleError g (way.dropWhile (· ≠ ty)) ty)
      else
        let generals ← ExceptT.mk (pure (direct g ty))
        let inherited ← ((g.values ty "generalizations").zip generals).mapM fun (stub, general) =>
          tryCatch (search g fuel (way ++ [ty]) general) fun e =>
            throw (localize g ty stub general e)
        let found := merge g ty generals inherited
        modify (·.insert ty found)
        return found

def ancestors (g : Graph) (ty : NodeId) : Query (List NodeId) := do
  return (← search g (g.slots.size + 2) [] ty).ancestors

def resolutionOrder (g : Graph) (ty : NodeId) : Query (List NodeId) := do
  return ty :: (← ancestors g ty)

def sameType (a b : NodeId) : Bool :=
  a = b

def isSubtype (g : Graph) (sub sup : NodeId) : Query Bool := do
  if sameType sub sup then return true
  else return (← ancestors g sub).contains sup

def isInstance (g : Graph) (id sup : NodeId) : Query Bool :=
  match g.classifier? id with
  | some classifier => isSubtype g classifier sup
  | none => return false

/-- The property of that name on one type; its own come before those of associations. -/
def ownProperty? (g : Graph) (ty : NodeId) (name : String) : Option NodeId :=
  (g.values ty "properties" ++ g.values ty "propertiesFromAssociations").find? fun p =>
    g.name? p = some name

/-- The property of that name on the type or on the first ancestor that has one. -/
def findProperty (g : Graph) (ty : NodeId) (name : String) : Query (Option NodeId) := do
  return (← resolutionOrder g ty).findSome? fun owner => ownProperty? g owner name

end Lineage

end ModelCompiler
