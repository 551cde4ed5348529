import ModelCompiler.Source.Declaration
import ModelCompiler.Source.Draft

/-!
Drafting text sources. Imports that follow one another share an import group; a declaration uses the
group opened last, an empty one if there is none.
-/
namespace ModelCompiler.Grammar

structure Line where
  number : Nat
  text : Piece

def Line.span (l : Line) : Drafting Span :=
  Draft.span l.number 1 l.number (max 1 l.text.length)

def Line.spanOf (l : Line) (piece : Piece) : Drafting Span :=
  match Text.cutAt piece l.text with
  | some (before, _) =>
    let start := Text.byteLength before + 1
    Draft.span l.number start l.number (start + max 1 piece.length - 1)
  | none => l.span

variable {α : Type}

def Line.fail (l : Line) (message : String) : Drafting α := do
  throw (.parse (← l.span) message)

def Line.demand (l : Line) : Except String α → Drafting α
  | .ok a => return a
  | .error message => l.fail message

def draftStereotype (l : Line) (id : NodeId) (stereotype : Piece) : Drafting Unit := do
  let path ← match String.ofList stereotype with
    | "private" => pure Metamodel.privateAccess
    | "protected" => pure Metamodel.protectedAccess
    | other => l.fail s!"unknown stereotype '{other}'"
  Draft.addValue id "stereotypes" (← Draft.known path)

def draftGeneral (l : Line) (group id : NodeId) (general : Piece) : Drafting Unit := do
  let stub ← Draft.importStub id group (String.ofList general) (← l.spanOf general)
  Draft.addValue id "generalizations" stub

def draftProperty (l : Line) (group owner : NodeId) (member : Except String Member) :
    Drafting Unit := do
  let m ← l.demand member
  let span ← l.spanOf m.text
  let property ← Draft.namedPart owner Metamodel.property (String.ofList m.name) span
  Draft.addValue owner "properties" property
  Draft.addValue property "owner" owner
  let stub ← Draft.importStub owner group (String.ofList m.type) span
  Draft.addValue property "genericType" stub

def draftValue (l : Line) (id : NodeId) (value : Piece) : Drafting Unit := do
  let span ← l.spanOf value
  let node ← Draft.namedPart id Metamodel.enum (String.ofList value) span
  Draft.addValue id "values" node

def draftParameter (l : Line) (group function : NodeId) (member : Except String Member) :
    Drafting (Piece × NodeId) := do
  let m ← l.demand member
  let span ← l.spanOf m.text
  let parameter ←
    Draft.namedPart function Metamodel.variableExpression (String.ofList m.name) span
  let stub ← Draft.importStub function group (String.ofList m.type) span
  Draft.addValue parameter "genericType" stub
  Draft.addValue function "parameters" parameter
  return (m.name, parameter)

def draftProjection (l : Line) (scope : List (Piece × NodeId)) (function : NodeId)
    (projection : Except String Projection) : Drafting Unit := do
  let a ← l.demand projection
  match scope.lookup a.receiver with
  | none => l.fail s!"unknown variable '{String.ofList a.receiver}'"
  | some receiver =>
    let span ← l.spanOf a.text
    let stub ← Draft.propertyStub function receiver (String.ofList a.property) span
    Draft.addValue function "expressionSequence" stub

def draftResult (l : Line) (group function : NodeId) (result : Piece) : Drafting Unit := do
  let stub ← Draft.importStub function group (String.ofList result) (← l.spanOf result)
  Draft.addValue function "returnType" stub

def draftDeclaration (l : Line) (group : NodeId) : Declaration → Drafting Unit
  | .imported package => do
    discard (Draft.addImport group (String.ofList package) (← l.spanOf package))
  | .class_ path stereotypes generals properties => do
    let id ← Draft.element Metamodel.class_ (String.ofList path) (← l.span)
    stereotypes.forM (draftStereotype l id)
    generals.forM (draftGeneral l group id)
    properties.forM (draftProperty l group id)
  | .association path properties => do
    let id ← Draft.element Metamodel.association (String.ofList path) (← l.span)
    properties.forM (draftProperty l group id)
  | .enumeration path values => do
    let id ← Draft.element Metamodel.enumeration (String.ofList path) (← l.span)
    values.forM (draftValue l id)
  | .function path parameters result body => do
    let id ← Draft.element Metamodel.functionDefinition (String.ofList path) (← l.span)
    let scope ← parameters.mapM (draftParameter l group id)
    result.forM (draftResult l group id)
    body.forM (draftProjection l scope id)
  | .element classifier path => do
    discard (Draft.elementNamed (String.ofList classifier) (String.ofList path) (← l.span))
  | .malformed message => l.fail message

structure Scope where
  group : Option NodeId := none
  importing : Bool := false

def isImport : Declaration → Bool
  | .imported _ => true
  | _ => false

/-- The open group; an import after another declaration opens a new one. -/
def groupFor (l : Line) (scope : Scope) (d : Declaration) : Drafting NodeId := do
  match scope.group with
  | some group =>
    if isImport d && !scope.importing then Draft.importGroup (← l.span) else return group
  | none => Draft.importGroup (← l.span)

def draftLine (scope : Scope) (l : Line) : Drafting Scope := do
  let text := Text.trim l.text
  if text.isEmpty then return scope
  else
    let d := Declaration.read text
    let group ← groupFor l scope d
    draftDeclaration l group d
    return { group := some group, importing := isImport d }

def lines (content : String) : List Line :=
  (Text.splitAt '\n' content.toList).zipIdx.map fun (text, i) => ⟨i + 1, Text.trimEnd text⟩

def draft (content : String) : Drafting Unit :=
  discard ((lines content).foldlM draftLine {})

end ModelCompiler.Grammar
