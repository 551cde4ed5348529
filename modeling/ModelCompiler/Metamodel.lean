import ModelCompiler.Graph.Remove

/-!
The metamodel that every graph starts with: the classifiers of all elements, the primitive types,
the access stereotypes and the package of import groups.
-/
namespace ModelCompiler

namespace Metamodel

def rootPackage : Path := .ofValid "Root".toList (by decide)
def any : Path := .ofValid "meta::pure::metamodel::type::Any".toList (by decide)
def type : Path := .ofValid "meta::pure::metamodel::type::Type".toList (by decide)
def class_ : Path := .ofValid "meta::pure::metamodel::type::Class".toList (by decide)
def primitiveType : Path := .ofValid "meta::pure::metamodel::type::PrimitiveType".toList (by decide)
def enumeration : Path := .ofValid "meta::pure::metamodel::type::Enumeration".toList (by decide)
def enum : Path := .ofValid "meta::pure::metamodel::type::Enum".toList (by decide)
def association : Path :=
  .ofValid "meta::pure::metamodel::relationship::Association".toList (by decide)
def packageableElement : Path :=
  .ofValid "meta::pure::metamodel::PackageableElement".toList (by decide)
def package : Path := .ofValid "Package".toList (by decide)
def property : Path :=
  .ofValid "meta::pure::metamodel::function::property::Property".toList (by decide)
def functionDefinition : Path :=
  .ofValid "meta::pure::metamodel::function::ConcreteFunctionDefinition".toList (by decide)
def functionType : Path := .ofValid "meta::pure::metamodel::type::FunctionType".toList (by decide)
def variableExpression : Path :=
  .ofValid "meta::pure::metamodel::valuespecification::VariableExpression".toList (by decide)
def importGroup : Path := .ofValid "meta::pure::metamodel::import::ImportGroup".toList (by decide)
def importedPackage : Path := .ofValid "meta::pure::metamodel::import::Import".toList (by decide)
def importStub : Path := .ofValid "meta::pure::metamodel::import::ImportStub".toList (by decide)
def propertyStub : Path := .ofValid "meta::pure::metamodel::import::PropertyStub".toList (by decide)
def stereotype : Path := .ofValid "meta::pure::metamodel::extension::Stereotype".toList (by decide)
def privateAccess : Path := .ofValid "meta::pure::profiles::access::private".toList (by decide)
def protectedAccess : Path := .ofValid "meta::pure::profiles::access::protected".toList (by decide)

def importsPackage : Path := .ofValid "system::imports".toList (by decide)

def primitives : List Path :=
  [.ofValid "String".toList (by decide), .ofValid "Integer".toList (by decide),
    .ofValid "Float".toList (by decide), .ofValid "Boolean".toList (by decide),
    .ofValid "Date".toList (by decide)]

/-- The properties that are kept on the target's side of a relationship. -/
def backReferences : List String :=
  ["children", "specializations", "propertiesFromAssociations"]

def classifiers : List (Path × List Path) :=
  [(any, []), (packageableElement, [any]), (package, [packageableElement]),
    (type, [packageableElement]), (class_, [type]), (primitiveType, [type]),
    (enumeration, [type]), (enum, [any]), (association, [packageableElement]), (property, [any]),
    (functionDefinition, [packageableElement]), (functionType, [any]),
    (variableExpression, [any]), (importGroup, [packageableElement]), (importedPackage, [any]),
    (importStub, [any]), (propertyStub, [any]), (stereotype, [any])]

end Metamodel

namespace Graph

def empty : Graph where
  slots := #[some (({ path := some Metamodel.rootPackage } : NodeSpec).node .bootstrap 0)]
  free := []
  usages := []
  paths := ⟨[(Metamodel.rootPackage, root)]⟩
  bySource := ∅
  owned := ∅
  byName := ∅
  instances := ∅
  packages := [root]
  backReferences := []
  packageClassifier := none
  nextStamp := 1

def setClassifier (g : Graph) (id classifier : NodeId) : Graph :=
  let instances := match g.classifier? id with
    | some former => g.instances.drop former id
    | none => g.instances
  { g with instances := instances.push classifier id }.modifyNode id
    fun n => { n with classifier := some classifier }

def orMissing (path : String) : Option NodeId → Action Graph GraphError NodeId
  | some id => return id
  | none => throw (.invalidPath path "no such element")

def require (path : Path) : Action Graph GraphError NodeId := do
  orMissing path.text ((← get).lookup path)

def requireText (path : String) : Action Graph GraphError NodeId := do
  orMissing path ((← get).lookupText path)

def addGeneralizations (id : NodeId) (generals : List NodeId) : Action Graph GraphError Unit :=
  generals.forM fun general =>
    Action.write fun g => (g.addValue id "generalizations" general).map ((), ·)

/-- Adds a classifier to the metamodel, its generalizations in order. -/
def declareClassifier (path : Path) (generals : List NodeId) :
    Action Graph GraphError NodeId := do
  let classifier ← require Metamodel.class_
  match generals.find? (!(← get).contains ·) with
  | some missing => throw (.nodeNotFound missing)
  | none => do
    let id ← createBootstrap { path := some path, classifier := some classifier }
    addGeneralizations id generals
    return id

/-- Fills the empty graph. `Class` and `Package` are classified once they exist. -/
def bootstrap : Action Graph GraphError Unit := do
  modify fun g => Metamodel.backReferences.foldl declareBackReference g
  let created ← Metamodel.classifiers.mapM fun (path, _) =>
    createBootstrap { path := some path }
  let classifier ← require Metamodel.class_
  let package ← require Metamodel.package
  modify fun g => { g with packageClassifier := some package }
  (created.zip Metamodel.classifiers).forM fun (id, _, generals) => do
    modify fun g => g.setClassifier id classifier
    addGeneralizations id (← generals.mapM require)
  modify fun g => g.packages.reverse.foldl (fun g id => g.setClassifier id package) g
  let any ← require Metamodel.any
  let primitive ← require Metamodel.primitiveType
  Metamodel.primitives.forM fun path => do
    let id ← createBootstrap { path := some path, classifier := some primitive }
    addGeneralizations id [any]
  let stereotype ← require Metamodel.stereotype
  [Metamodel.privateAccess, Metamodel.protectedAccess].forM fun path => do
    discard (createBootstrap { path := some path, classifier := some stereotype })
  discard (ensurePackage .bootstrap (Metamodel.importsPackage :: Metamodel.importsPackage.packages))

def initial : Graph :=
  match bootstrap empty with
  | .ok (_, g) => g
  | .error _ => empty

end Graph

end ModelCompiler
