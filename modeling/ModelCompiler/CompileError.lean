import ModelCompiler.Span
import ModelCompiler.Phase
import ModelCompiler.Graph.Error

/-!
Compile errors by cause, and the diagnostics they are shown as.
-/
namespace ModelCompiler

/-- Who can mend an error: the author of a source, the one who set the compiler up, or neither. -/
inductive Blame where
  | user
  | configuration
  | internal
deriving DecidableEq, Repr, Inhabited

namespace Blame

def name : Blame → String
  | .user => "user"
  | .configuration => "configuration"
  | .internal => "internal"

def ofName? : String → Option Blame
  | "user" => some .user
  | "configuration" => some .configuration
  | "internal" => some .internal
  | _ => none

end Blame

inductive CompileError where
  | parse (span : Span) (message : String)
  | duplicateElement (span : Span) (path : String)
  /-- The candidates are elements of that name which are not visible, best first. -/
  | unresolvedIdentifier (span : Span) (identifier : String) (candidates : List String)
  | ambiguousIdentifier (span : Span) (identifier : String) (candidates : List String)
  | unresolvedSupertype (span : Span) (supertype : String)
  | unresolvedProperty (span : Span) (property owner : String)
  /-- The first and the last type of the cycle are the same. -/
  | cyclicGeneralization (span : Span) (cycle : List String)
  | constraintValidation (span : Span) (message : String)
  | duplicateRegistration (what path : String)
  | unrecognizedElementKind (span : Option Span) (classifier : String) (phase : Phase)
  | sourceRegistration (source : SourceId) (reason : String)
  | config (message : String)
  | danglingReference (cause : GraphError)
  | internal (cause : GraphError)
deriving DecidableEq, Repr, Inhabited

namespace CompileError

def message : CompileError → String
  | .parse span message => s!"parse error at {span.text}: {message}"
  | .duplicateElement span path => s!"{span.text}: element '{path}' is already defined"
  | .unresolvedIdentifier span identifier _ =>
    s!"{span.text}: {identifier} has not been defined!"
  | .ambiguousIdentifier span identifier candidates =>
    let listed := ", ".intercalate candidates
    s!"{span.text}: {identifier} has been found more than one time in the imports: [{listed}]"
  | .unresolvedSupertype span supertype =>
    s!"{span.text}: supertype '{supertype}' is not resolvable"
  | .unresolvedProperty span property owner =>
    s!"{span.text}: the property '{property}' can't be found in the type '{owner}' "
      ++ "(or any supertype)"
  | .cyclicGeneralization span cycle =>
    let listed := " -> ".intercalate cycle
    s!"{span.text}: class hierarchy cycle: {listed}"
  | .constraintValidation span message => s!"{span.text}: {message}"
  | .duplicateRegistration what path => s!"duplicate {what} registration for '{path}'"
  | .unrecognizedElementKind span classifier phase =>
    let place := match span with
      | some s => s!"{s.text}: "
      | none => ""
    s!"{place}no {phase.name} handler registered for element kind '{classifier}'"
  | .sourceRegistration source reason => s!"source '{source}': {reason}"
  | .config message => s!"invalid configuration: {message}"
  | .danglingReference cause => s!"dangling reference invariant violated: {cause.message}"
  | .internal cause => s!"internal error: {cause.message}"

def blame : CompileError → Blame
  | .parse .. | .duplicateElement .. | .unresolvedIdentifier .. | .ambiguousIdentifier ..
  | .unresolvedSupertype .. | .unresolvedProperty .. | .cyclicGeneralization ..
  | .constraintValidation .. => .user
  | .duplicateRegistration .. | .unrecognizedElementKind .. | .sourceRegistration ..
  | .config .. => .configuration
  | .danglingReference .. | .internal .. => .internal

/-- A fatal error ends the phase for the whole batch. -/
def isFatal : CompileError → Bool
  | .cyclicGeneralization .. => true
  | e => e.blame != .user

def span? : CompileError → Option Span
  | .parse span _ | .duplicateElement span _ | .unresolvedIdentifier span _ _
  | .ambiguousIdentifier span _ _ | .unresolvedSupertype span _ | .unresolvedProperty span _ _
  | .cyclicGeneralization span _ | .constraintValidation span _ => some span
  | .unrecognizedElementKind span _ _ => span
  | _ => none

def candidates : CompileError → List String
  | .unresolvedIdentifier _ _ candidates | .ambiguousIdentifier _ _ candidates => candidates
  | _ => []

end CompileError

/-- A compile error as it is shown: all zeros where no span is known. -/
structure Diagnostic where
  source : Option SourceId
  startLine : Nat
  startColumn : Nat
  endLine : Nat
  endColumn : Nat
  message : String
  kind : Blame
  candidates : List String
deriving DecidableEq, Repr

namespace Diagnostic

def ofError (e : CompileError) : Diagnostic where
  source := e.span?.map (·.source)
  startLine := (e.span?.map (·.startLine)).getD 0
  startColumn := (e.span?.map (·.startColumn)).getD 0
  endLine := (e.span?.map (·.endLine)).getD 0
  endColumn := (e.span?.map (·.endColumn)).getD 0
  message := e.message
  kind := e.blame
  candidates := e.candidates

/-- No candidates, no field for them. -/
def toJson (d : Diagnostic) : Json :=
  .object <|
    [("sourceId", (d.source.map Json.string).getD .null), ("startLine", .nat d.startLine),
      ("startColumn", .nat d.startColumn), ("endLine", .nat d.endLine),
      ("endColumn", .nat d.endColumn), ("message", .string d.message),
      ("kind", .string d.kind.name)]
    ++ if d.candidates.isEmpty then [] else [("candidates", .array (d.candidates.map .string))]

def ofJson? (v : Json) : Option Diagnostic := do
  match ← Json.record? ["sourceId", "startLine", "startColumn", "endLine", "endColumn",
    "message", "kind", "candidates"] 7 v with
  | [source, startLine, startColumn, endLine, endColumn, message, kind, candidates] =>
    return {
      source := ← Json.defaulted none (Json.nullable? Json.string?) source
      startLine := ← Json.required (Json.word? 32) startLine
      startColumn := ← Json.required (Json.word? 32) startColumn
      endLine := ← Json.required (Json.word? 32) endLine
      endColumn := ← Json.required (Json.word? 32) endColumn
      message := ← Json.required Json.string? message
      kind := ← Json.required (fun v => Json.tag? v >>= Blame.ofName?) kind
      candidates := ← Json.defaulted [] (Json.list? Json.string?) candidates }
  | _ => none

end Diagnostic

end ModelCompiler
