import ModelCompiler.Compiler.Removal

/-!
The phases of a batch: parsing, binding, processing and validation. A source moves on if none of its
nodes is in error.
-/
namespace ModelCompiler.Compiler

open Handler (Binding)

def runDraft (id : SourceId) (content : Content) :
    Compiling (Except CompileError Unit × List NodeId) := fun c => do
  let setting : Draft.Setting := ⟨id, c.factories⟩
  let (answer, draft) ← content.draft setting ⟨c.graph, []⟩
  let workspace := { c.workspace with graph := draft.graph }
  return (.ok (answer, draft.importGroups), { c with workspace })

/-- Parses a source. After an error nothing of it is left in the graph; an error that is not the
user's goes on. -/
def parseSource (id : SourceId) : Compiling Unit := do
  match (← get).sources.find? id with
  | none => return
  | some unit =>
    match ← runDraft id unit.content with
    | (.ok (), importGroups) =>
      modifyUnit id fun unit => { unit with state := .parsed, importGroups, diagnostics := [] }
    | (.error e, _) => do
      let rest := (← get).graph.persistentNodes id
      if !rest.isEmpty then discard (onGraph .internal (Graph.removeNodes rest))
      setState id .unregistered
      setDiagnostics id [e]
      if e.blame ≠ .user then throw e

def errorsOf (id : SourceId) (errors : List (SourceId × CompileError)) : List CompileError :=
  (errors.filter (·.1 = id)).map (·.2)

def fatal? (errors : List (SourceId × CompileError)) : Option CompileError :=
  (errors.map (·.2)).find? (·.isFatal)

def bindNode (item : SourceId × NodeId) :
    Compiling (SourceId × Except (List CompileError) (List Binding)) := do
  let answer ← match ← (ask fun d g => d.binder g item.2).attempt with
    | .ok (binder, _) => (onWorkspace (binder.run item.2)).attempt
    | .error e => pure (.error [e])
  advance
  return (item.1, answer)

def applyBindings (bindings : List Binding) : Compiling Unit :=
  onWorkspace (bindings.forM fun b => Work.update b.apply)

def bindingErrors (answers : List (SourceId × Except (List CompileError) (List Binding))) :
    List (SourceId × CompileError) :=
  answers.flatMap fun (id, answer) =>
    match answer with
    | .ok _ => []
    | .error errors => errors.map (id, ·)

def bindingsOf (id : SourceId)
    (answers : List (SourceId × Except (List CompileError) (List Binding))) : List Binding :=
  (answers.filter (·.1 = id)).flatMap fun (_, answer) =>
    match answer with
    | .ok bindings => bindings
    | .error _ => []

/-- Binds a batch: a source's bindings are written if all of them were found and nothing in the
batch is fatal. -/
def bindPhase (batch : List SourceId) : Compiling Unit := do
  let c ← get
  let items := c.items batch
  startProgress .bind items.length
  let answers ← c.workers.mapM c.config.bindThreshold bindNode items
  let errors := bindingErrors answers
  let halt := fatal? errors
  batch.forM fun id => do
    let own := errorsOf id errors
    if own.isEmpty && halt.isNone then applyBindings (bindingsOf id answers)
    conclude id .bound own halt.isSome
  match halt with
  | some e => throw e
  | none => return

/-- Fills the memory of lineages before processing; errors come up again later. -/
def warmUp (items : List (SourceId × NodeId)) : Compiling Unit := do
  let c ← get
  match c.graph.lookup Metamodel.type with
  | none => return
  | some kind =>
    discard <| c.workers.mapM c.config.processThreshold (fun (_, id) =>
      onWorkspace <| Work.inspect fun g => do
        if let .ok true := ← (Lineage.isInstance g id kind).run then
          discard (Lineage.ancestors g id).run) items

/-- The processors of the items up to the first that has none, and the error of that one. -/
def schedule : List (SourceId × NodeId) →
    Compiling (List (SourceId × NodeId × Processor) × Option (SourceId × CompileError))
  | [] => return ([], none)
  | (source, id) :: items => do
    match ← (ask fun d g => d.processor g id).attempt with
    | .error e => return ([], some (source, e))
    | .ok (processor, _) => do
      let (scheduled, missing) ← schedule items
      return ((source, id, processor) :: scheduled, missing)

/-- Runs the processors in turn; returns all errors and the fatal one that halted the run. -/
def processAll : List (SourceId × NodeId × Processor) →
    Compiling (List (SourceId × CompileError) × Option CompileError)
  | [] => return ([], none)
  | (source, id, processor) :: rest => do
    let found ← match ← (onWorkspace (processor.run id)).attempt with
      | .ok () => pure []
      | .error errors => pure (errors.map (source, ·))
    match fatal? found with
    | some e => return (found, some e)
    | none => do
      advance
      let (errors, halt) ← processAll rest
      return (found ++ errors, halt)

def inOrder (scheduled : List (SourceId × NodeId × Processor)) :
    List (SourceId × NodeId × Processor) :=
  scheduled.filter (·.2.2.isEarly) ++ scheduled.filter (!·.2.2.isEarly)

/-- Processes a batch. A fatal error of the user halts the phase and is returned; no source moves
on then. -/
def processPhase (batch : List SourceId) : Compiling (Option Phase) := do
  let items := (← get).items batch
  warmUp items
  startProgress .process items.length
  let (scheduled, missing) ← schedule items
  let (errors, halt) ← match missing with
    | some (source, e) => pure ([(source, e)], some e)
    | none => processAll (inOrder scheduled)
  batch.forM fun id => conclude id .processed (errorsOf id errors) halt.isSome
  match halt with
  | none => return none
  | some e => if e.blame = .user then return some .process else throw e

def validateNode (item : SourceId × NodeId) : Compiling (List (SourceId × CompileError)) := do
  let (source, id) := item
  let own ← match ← (ask fun d g => d.validator g id).attempt with
    | .ok (validator, _) => onWorkspace (validator.run id)
    | .error e => pure [e]
  let rules := (← get).visibility
  let seen ← rules.mapM fun rule => onWorkspace (rule.run id)
  advance
  return (own ++ seen.flatten).map (source, ·)

def validateItems (items : List (SourceId × NodeId)) :
    Compiling (List (SourceId × CompileError)) := do
  let c ← get
  startProgress .validate items.length
  return (← c.workers.mapM c.config.validateThreshold validateNode items).flatten

def validatePhase (batch : List SourceId) : Compiling Unit := do
  let errors ← validateItems ((← get).items batch)
  let halt := fatal? errors
  batch.forM fun id => conclude id .active (errorsOf id errors) halt.isSome
  match halt with
  | some e => throw e
  | none => return

end ModelCompiler.Compiler
