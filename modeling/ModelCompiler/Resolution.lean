import ModelCompiler.Reference
import ModelCompiler.Text.Sorted

/-!
What a name means. A qualified name is the path of an element.
-/
namespace ModelCompiler.Resolution

def afterSeparator? : List Char → Option (List Char)
  | [] => none
  | c :: cs =>
    match afterSeparator? cs, cs with
    | some rest, _ => some rest
    | none, d :: ds => if c = ':' && d = ':' then some ds else none
    | none, [] => none

def isQualified (identifier : String) : Bool :=
  (afterSeparator? identifier.toList).isSome

def simpleName (identifier : String) : String :=
  match afterSeparator? identifier.toList with
  | some cs => String.ofList cs
  | none => identifier

def elementAt? (g : Graph) (path : String) : Option NodeId :=
  (g.lookupText path).filter fun id => !g.isPackage id

def homePackage? (g : Graph) (stub : NodeId) : Option Path :=
  g.ownerRoot? stub >>= g.packagePath?

/-- The packages in which a bare name is looked up. -/
def scope (g : Graph) (stub : NodeId) : List String :=
  let imported := match g.value? stub "importGroup" with
    | some group => (g.values group "imports").filterMap g.name?
    | none => []
  let own := (homePackage? g stub).toList.filter (· ≠ Metamodel.rootPackage)
  imported ++ own.map (·.text)

def matching (g : Graph) (stub : NodeId) (identifier : String) : List NodeId :=
  ((scope g stub).filterMap fun package => elementAt? g s!"{package}::{identifier}").eraseDups

/-- The elements of that simple name: those that share more packages with `home` come first. -/
def candidates (g : Graph) (home : Option Path) (identifier : String) : List String :=
  let shared (p : Path) : Nat := match home with
    | some package => p.commonPrefixLength package
    | none => 0
  let named := (g.elementsNamed (simpleName identifier)).filterMap g.path?
  let ranked := (named.map fun p => (shared p, p.text)).mergeSort fun a b =>
    decide (b.1 < a.1 ∨ a.1 = b.1 ∧ a.2 ≤ b.2)
  ranked.map (·.2)

def unresolved (g : Graph) (stub : NodeId) (identifier : String) : CompileError :=
  .unresolvedIdentifier (g.spanOf stub) identifier (candidates g (homePackage? g stub) identifier)

def orUnresolved (g : Graph) (stub : NodeId) (identifier : String) :
    Option NodeId → Except CompileError NodeId
  | some id => .ok id
  | none => .error (unresolved g stub identifier)

def resolveBare (g : Graph) (stub : NodeId) (identifier : String) : Except CompileError NodeId :=
  match matching g stub identifier with
  | [] => orUnresolved g stub identifier (elementAt? g identifier)
  | [id] => .ok id
  | ids =>
    .error (.ambiguousIdentifier (g.spanOf stub) identifier
      (Text.sort (ids.filterMap fun id => (g.path? id).map (·.text))))

def resolve (g : Graph) (stub : NodeId) : Except CompileError NodeId :=
  let identifier := (g.name? stub).getD ""
  if isQualified identifier then orUnresolved g stub identifier (elementAt? g identifier)
  else if Metamodel.primitives.any (·.text = identifier) then
    match elementAt? g identifier with
    | some id => .ok id
    | none => resolveBare g stub identifier
  else resolveBare g stub identifier

end ModelCompiler.Resolution
