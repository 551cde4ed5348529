import ModelCompiler.Compiler.Dependents
import ModelCompiler.Compiler.Phases
import ModelCompiler.Compiler.Report
import ModelCompiler.Compiler.Staging

/-!
One compile.
-/
namespace ModelCompiler.Compiler

/-- What a compile is about: the sources that it deletes, rebuilds and parses, and the batch for its
phases. -/
structure Agenda where
  deleted : List SourceId
  /-- Sources without changes that are bound anew. -/
  rebound : List SourceId
  /-- Sources that are bound anew, those that failed before among them. -/
  rebuild : List SourceId
  unparsed : List SourceId
  batch : List SourceId

def Agenda.touched (a : Agenda) : List SourceId :=
  a.unparsed ++ a.batch ++ a.rebuild

def changedSources (staged : Catalog Change) : List SourceId :=
  staged.entries.filterMap fun (id, change) =>
    match change with
    | .create _ => none
    | _ => some id

def deletedSources (staged : Catalog Change) : List SourceId :=
  staged.entries.filterMap fun (id, change) =>
    match change with
    | .delete => some id
    | _ => none

def takeStaged : Compiling (Catalog Change) := do
  let staged := (← get).staged
  modify fun c => { c with staged := ∅ }
  staged.entries.forM fun (id, change) => do
    if let .create content := change then
      modify fun c => { c with sources := c.sources.insert id { content } }
  return staged

/-- The sources that failed before and are not changed now. -/
def retried (c : Compiler) (changed : List SourceId) : List SourceId :=
  (c.sources.entries.filter fun (id, unit) => unit.state.isPending && id ∉ changed).map (·.1)

/-- Unbinds what is to be built anew, and removes the sources that have changed. -/
def withdraw (rebuild changed : List SourceId) : Compiling Unit := do
  unbindSources rebuild false
  unbindSources changed true
  removeSources changed

def replaceSources (staged : Catalog Change) : Compiling Unit := do
  modify fun c => { c with sources := (deletedSources staged).foldl Catalog.erase c.sources }
  staged.entries.forM fun (id, change) => do
    if let .modify content := change then
      modifyUnit id fun unit => { unit with content, state := .unregistered, diagnostics := [] }

/-- Runs the phases over a batch and returns the phase that was halted. -/
def runPhases (batch : List SourceId) : Compiling (Option Phase) := do
  if batch.isEmpty then return none
  else
    bindPhase batch
    let aborted ← processPhase ((← get).inState .bound)
    if aborted.isNone then validatePhase ((← get).inState .processed)
    return aborted

def outcomeOf (unit : SourceUnit) : SourceOutcome :=
  ⟨unit.state, unit.diagnostics.map Diagnostic.ofError⟩

def outcomes (c : Compiler) (deleted touched : List SourceId) : Catalog SourceOutcome :=
  let gone := deleted.foldl (fun o id => o.insert id ⟨.removed, []⟩) (∅ : Catalog SourceOutcome)
  touched.foldl (fun o id =>
    match c.sources.find? id with
    | some unit => o.insert id (outcomeOf unit)
    | none => o) gone

/-- Takes up the staged changes, withdraws what they concern and parses what is new. -/
def prepare : Compiling Agenda := do
  let staged ← takeStaged
  let changed := changedSources staged
  let deleted := deletedSources staged
  let retry := retried (← get) changed
  let rebound ← dependents (changed ++ retry)
  let rebuild := (Text.sort (retry ++ rebound)).eraseDups
  withdraw rebuild changed
  replaceSources staged
  let unparsed := (← get).inState .unregistered
  unparsed.forM parseSource
  return { deleted, rebound, rebuild, unparsed, batch := (← get).inState .parsed }

def compile : Compiling CompileReport := do
  let agenda ← prepare
  let aborted ← runPhases agenda.batch
  let outcomes := outcomes (← get) agenda.deleted agenda.touched
  return { outcomes, removed := agenda.deleted, rebound := agenda.rebound, aborted }

def compileSource (id : SourceId) (content : Content) : Compiling CompileReport := do
  putSource id content
  compile

/-- Validates a processed or active source again and changes nothing of it. -/
def validateSource (id : SourceId) : Compiling (List CompileError) := do
  let c ← get
  match c.sources.find? id with
  | none => throw (unknownSource id)
  | some unit =>
    if unit.state = .processed ∨ unit.state = .active then
      return (← validateItems (c.items [id])).map (·.2)
    else
      throw (.sourceRegistration id s!"cannot validate a source in state {unit.state.title}")

end ModelCompiler.Compiler
