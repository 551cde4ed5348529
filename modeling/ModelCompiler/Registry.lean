import ModelCompiler.Dispatch
import ModelCompiler.Source.Draft

/-!
The registry: what extensions add to the compiler before it is made. A registration that conflicts
with an earlier one is refused.
-/
namespace ModelCompiler

structure ClassifierDeclaration where
  path : Path
  generals : List Path

structure Registry where
  extensions : List String := []
  classifiers : List ClassifierDeclaration := []
  backReferences : List String := []
  factories : Table Path Factory := ∅
  dispatch : Dispatch := {}
  visibility : List VisibilityRule := []

/-- One thing to register; an extension is a named list of such things. -/
inductive Registration where
  | extension (name : String) (steps : List Registration)
  | classifier (path : String) (generals : List String)
  | backReference (property : String)
  | factory (classifier : String) (factory : Factory)
  | handler (classifier : String) (handler : PhaseHandler)
  | visibility (rule : VisibilityRule)

namespace Registry

abbrev Registering (α : Type) := Action Registry CompileError α

def readPath (path : String) : Registering Path :=
  match Path.parse path with
  | .ok p => return p
  | .error e => throw (.config e.message)

def declareClassifier (path : String) (generals : List String) : Registering Unit := do
  let path ← readPath path
  if (← get).classifiers.any (·.path = path) then
    throw (.duplicateRegistration "classifier" path.text)
  else
    let generals ← generals.mapM readPath
    modify fun r => { r with classifiers := r.classifiers ++ [⟨path, generals⟩] }

def declareBackReference (property : String) : Registering Unit :=
  modify fun r =>
    if property ∈ r.backReferences then r
    else { r with backReferences := r.backReferences ++ [property] }

def registerFactory (classifier : String) (factory : Factory) : Registering Unit := do
  let path ← readPath classifier
  if (← get).factories.contains path then throw (.duplicateRegistration "factory" path.text)
  else modify fun r => { r with factories := r.factories.insert path factory }

def registerHandler (classifier : String) (handler : PhaseHandler) : Registering Unit := do
  let path ← readPath classifier
  match (← get).dispatch.register path handler with
  | .ok dispatch => modify fun r => { r with dispatch }
  | .error e => throw e

mutual

/-- Registers one thing. An extension that fails half-way is not installed, what it had registered
stays. -/
def register : Registration → Registering Unit
  | .extension name steps => do
    if name ∈ (← get).extensions then throw (.duplicateRegistration "extension" name)
    else
      registerAll steps
      modify fun r => { r with extensions := r.extensions ++ [name] }
  | .classifier path generals => declareClassifier path generals
  | .backReference property => declareBackReference property
  | .factory classifier factory => registerFactory classifier factory
  | .handler classifier handler => registerHandler classifier handler
  | .visibility rule => modify fun r => { r with visibility := r.visibility ++ [rule] }

def registerAll : List Registration → Registering Unit
  | [] => return
  | r :: rs => do
    register r
    registerAll rs

end

def core : Registration :=
  .extension "core" <|
    [Metamodel.class_, Metamodel.association, Metamodel.enumeration, Metamodel.functionDefinition,
      Metamodel.importGroup].map (fun kind => .factory kind.text .element)
    ++ [.handler Metamodel.packageableElement.text (.bind .element),
      .handler Metamodel.class_.text (.process .class_),
      .handler Metamodel.class_.text (.validate .class_),
      .handler Metamodel.class_.text (.unbind .class_),
      .handler Metamodel.class_.text (.walk .class_),
      .handler Metamodel.association.text (.process .association),
      .handler Metamodel.association.text (.validate .association),
      .handler Metamodel.association.text (.unbind .association),
      .handler Metamodel.enumeration.text (.process .enumeration),
      .handler Metamodel.enumeration.text (.validate .enumeration),
      .handler Metamodel.enumeration.text (.unbind .enumeration),
      .handler Metamodel.functionDefinition.text (.process .function),
      .handler Metamodel.functionDefinition.text (.validate .function),
      .handler Metamodel.functionDefinition.text (.unbind .function),
      .handler Metamodel.importGroup.text (.process .idle), .visibility .access]

def withCore : Registry :=
  match register core {} with
  | .ok (_, r) => r
  | .error _ => {}

abbrev Extending (α : Type) := Action Graph CompileError α

def onGraph {α : Type} (act : Action Graph GraphError α) : Extending α :=
  act.relabel .internal

def addClassifier (d : ClassifierDeclaration) : Extending Unit := do
  if ((← get).lookup d.path).isSome then
    throw (.duplicateRegistration "classifier" d.path.text)
  else
    let generals ← d.generals.mapM fun general => do
      match (← get).lookup general with
      | some id => return id
      | none =>
        throw (.config s!"classifier '{d.path.text}' extends unknown classifier '{general.text}'")
    discard (onGraph (Graph.declareClassifier d.path generals))

def checkKnown (what : String) (path : Path) : Extending Unit := do
  if ((← get).lookup path).isNone then
    throw (.config s!"{what} registered for unknown classifier '{path.text}'")

/-- Adds the declared back-references and classifiers to a graph; factories and handlers have to
be for known classifiers. -/
def extend (r : Registry) : Extending Unit := do
  modify fun g => r.backReferences.foldl Graph.declareBackReference g
  r.classifiers.forM addClassifier
  r.factories.keys.forM (checkKnown "factory")
  Phase.all.forM fun phase =>
    (r.dispatch.registered phase).forM (checkKnown s!"{phase.name} handler")

end Registry

end ModelCompiler
