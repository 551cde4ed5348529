import ModelCompiler.Resolution

/-!
Binding the names of an element, and the access levels that names must respect.
-/
namespace ModelCompiler.Handler

structure Binding where
  node : NodeId
  property : String
  value : NodeId
deriving DecidableEq, Repr

def Binding.apply (b : Binding) (g : Graph) : Except Breach Graph :=
  g.setValues b.node b.property [b.value]

def openStubs (g : Graph) (id : NodeId) : List NodeId :=
  (g.ownedBy id).filter fun stub =>
    g.isImportStub stub && (g.value? stub "resolvedNode").isNone

/-- One binding for each open stub, or all errors of those that do not resolve. -/
def bindElement (g : Graph) (id : NodeId) : Except (List CompileError) (List Binding) :=
  let answers := (openStubs g id).map fun stub => (stub, Resolution.resolve g stub)
  let errors := answers.filterMap fun (_, answer) =>
    match answer with
    | .error e => some e
    | .ok _ => none
  if errors.isEmpty then
    .ok <| answers.filterMap fun (stub, answer) =>
      match answer with
      | .ok target => some ⟨stub, "resolvedNode", target⟩
      | .error _ => none
  else .error errors

inductive Access where
  | package
  | descendants
deriving DecidableEq, Repr

/-- The access stereotypes on a node. -/
def accessLevels (g : Graph) (id : NodeId) : List Access :=
  (g.values id "stereotypes").filterMap fun s =>
    if g.path? s = some Metamodel.privateAccess then some .package
    else if g.path? s = some Metamodel.protectedAccess then some .descendants
    else none

def Access.allows (home viewer : Path) : Access → Bool
  | .package => viewer = home
  | .descendants => viewer.startsWith home

/-- Whether what a stub is bound to can be seen from the element `id` in `viewer`. -/
def seesTarget (g : Graph) (viewer : Path) (id target : NodeId) : Bool :=
  target = id ||
    match g.packagePath? target with
    | some home => (accessLevels g target).all (Access.allows home viewer)
    | none => true

def accessError? (g : Graph) (viewer : Path) (id stub : NodeId) : Option CompileError :=
  if g.isImportStub stub then
    match g.value? stub "resolvedNode" with
    | some target =>
      if seesTarget g viewer id target then none
      else some (.constraintValidation (g.spanOf stub)
        s!"'{g.describe target}' is not visible from '{g.describe id}'")
    | none => none
  else none

/-- An element has at most one access level and refers to visible elements only. -/
def accessErrors (g : Graph) (id : NodeId) : List CompileError :=
  let levels := if (accessLevels g id).length > 1 then
      [.constraintValidation (g.spanOf id)
        s!"only one access level can be specified on '{g.describe id}'"]
    else []
  match g.packagePath? id with
  | some viewer => levels ++ (g.ownedBy id).filterMap (accessError? g viewer id)
  | none => levels

end ModelCompiler.Handler
