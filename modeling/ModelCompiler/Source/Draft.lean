import ModelCompiler.Reference

/-!
Drafts: the nodes that a source introduces. Elements are made by the factory of their kind.
-/
namespace ModelCompiler

inductive Factory where
  | element
  | renamed (name : String)
  | pathless
  | failing (error : GraphError)
deriving DecidableEq, Repr

def Factory.create (f : Factory) (source : SourceId) (kind : NodeId) (path : Path) (span : Span) :
    Action Graph GraphError NodeId :=
  let spec := { classifier := some kind, span := some span }
  match f with
  | .element => Graph.createPersistent source { spec with path := some path }
  | .renamed name =>
    Graph.createPersistent source { spec with path := some path, name := some name }
  | .pathless => Graph.createPersistent source spec
  | .failing error => throw error

structure Draft where
  graph : Graph
  importGroups : List NodeId

namespace Draft

structure Setting where
  source : SourceId
  factories : Table Path Factory

end Draft

abbrev Drafting (α : Type) := ReaderT Draft.Setting (Action Draft CompileError) α

namespace Draft

def onGraph {α : Type} (cause : GraphError → CompileError) (act : Action Graph GraphError α) :
    Drafting α :=
  fun _ => act.within (·.graph) (fun g d => { d with graph := g }) cause

def addValue (id : NodeId) (property : String) (value : NodeId) : Drafting Unit :=
  fun _ => Action.write fun d =>
    (d.graph.addValue id property value).map fun g => ((), { d with graph := g })

def span (startLine startColumn endLine endColumn : Nat) : Drafting Span := do
  return ⟨(← read).source, startLine, startColumn, endLine, endColumn⟩

def orUnknown (path : String) : Option NodeId → Drafting NodeId
  | some id => return id
  | none => throw (.config s!"unknown element '{path}'")

def known (path : Path) : Drafting NodeId := do
  orUnknown path.text ((← get).graph.lookup path)

def lookup (path : String) : Drafting NodeId := do
  orUnknown path ((← get).graph.lookupText path)

/-- The user's share in an error of the store. -/
def elementError (span : Span) : GraphError → CompileError
  | .duplicatePath path => .duplicateElement span path
  | .invalidPath path reason => .parse span s!"invalid element path '{path}': {reason}"
  | e => .internal e

def element (kind : Path) (path : String) (span : Span) : Drafting NodeId := do
  match (← get).graph.lookup kind with
  | none => throw (.config s!"unknown classifier '{kind.text}'")
  | some classifier =>
    match Path.parse path with
    | .error e => throw (.parse span e.message)
    | .ok path =>
      let factory := ((← read).factories.find? kind).getD .element
      onGraph (elementError span) (factory.create (← read).source classifier path span)

def elementNamed (kind path : String) (span : Span) : Drafting NodeId := do
  match Path.parse kind with
  | .error e => throw (.config e.message)
  | .ok kind => element kind path span

def part (owner classifier : NodeId) (name : Option String) (span : Option Span) :
    Drafting NodeId :=
  onGraph .internal (Graph.createEphemeral owner { classifier := some classifier, name, span })

def namedPart (owner : NodeId) (kind : Path) (name : String) (span : Span) : Drafting NodeId := do
  part owner (← known kind) (some name) (some span)

/-- One character of a source's name inside a segment: letters and digits stand for themselves, an
underscore is doubled, and all else is written by its number between underscores. -/
def encodeChar (c : Char) : List Char :=
  if c.isAlphanum then [c]
  else if c = '_' then ['_', '_']
  else '_' :: (Nat.toDigits 16 c.toNat ++ ['_'])

def encodeSource (source : SourceId) : String :=
  String.ofList (source.toList.flatMap encodeChar)

def importGroupPath (source : SourceId) (number : Nat) : String :=
  s!"{Metamodel.importsPackage.text}::import_{encodeSource source}_{number}"

def importGroup (span : Span) : Drafting NodeId := do
  let number := (← get).importGroups.length + 1
  let path := importGroupPath (← read).source number
  let group ← element Metamodel.importGroup path span
  modify fun d => { d with importGroups := d.importGroups ++ [group] }
  return group

def addImport (group : NodeId) (package : String) (span : Span) : Drafting NodeId := do
  let id ← namedPart group Metamodel.importedPackage package span
  addValue group "imports" id
  return id

def importStub (owner group : NodeId) (identifier : String) (span : Span) : Drafting NodeId := do
  let stub ← namedPart owner Metamodel.importStub identifier span
  addValue stub "importGroup" group
  return stub

def propertyStub (owner target : NodeId) (property : String) (span : Span) :
    Drafting NodeId := do
  let stub ← namedPart owner Metamodel.propertyStub property span
  addValue stub "owner" target
  return stub

end Draft

end ModelCompiler
