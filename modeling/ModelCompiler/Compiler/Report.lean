import ModelCompiler.Source

/-!
The report of a compile: where each source that it touched has come to.
-/
namespace ModelCompiler

structure SourceOutcome where
  state : SourceState
  diagnostics : List Diagnostic

structure CompileReport where
  outcomes : Catalog SourceOutcome := ∅
  removed : List SourceId := []
  rebound : List SourceId := []
  /-- The phase that a fatal error of the user halted. -/
  aborted : Option Phase := none

namespace CompileReport

def isClean (r : CompileReport) : Bool :=
  r.aborted.isNone &&
    r.outcomes.entries.all fun (_, o) => o.state = .active && o.diagnostics.isEmpty

def diagnostics (r : CompileReport) : List (SourceId × Diagnostic) :=
  r.outcomes.entries.flatMap fun (id, o) => o.diagnostics.map (id, ·)

def errorCount (r : CompileReport) : Nat :=
  r.diagnostics.length

end CompileReport

end ModelCompiler
