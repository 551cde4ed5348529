import ModelCompiler.Compiler.Basic

/-!
The sources that depend on others.
-/
namespace ModelCompiler.Compiler

/-- The sources that a walk from a node reaches; the error of a missing walker is handed over as a
value. -/
def walkNode (id : NodeId) : Compiling (Except CompileError (List SourceId)) := do
  match ← (ask fun d g => d.walker g id).attempt with
  | .error e => return .error e
  | .ok (walker, _) => do
    let reached ← onWorkspace (walker.run id)
    advance
    return .ok (reached.filterMap (← get).graph.sourceOf?)

def walkRound (frontier : List NodeId) : Compiling (List SourceId) := do
  let c ← get
  startProgress .walk frontier.length
  match (← c.workers.mapM c.config.walkThreshold walkNode frontier).mapM id with
  | .ok reached => return (← get).workers.arrange reached.flatten
  | .error e => throw e

/-- Walks round by round, each from the sources newly claimed. The fuel bounds the number of
rounds. -/
def walkRounds : Nat → Claims SourceId → List NodeId → Compiling (List SourceId)
  | 0, _, _ => return []
  | fuel + 1, claims, frontier => do
    if frontier.isEmpty then return []
    else
      let (granted, claims) := claims.claimAll (← walkRound frontier)
      let next := Text.sort granted
      let c ← get
      return next ++ (← walkRounds fuel claims ((c.items next).map (·.2)))

/-- The sources that depend on one of the seeds, directly or not, without the seeds. -/
def dependents (seeds : List SourceId) : Compiling (List SourceId) := do
  let c ← get
  let (_, claims) := Claims.empty.claimAll seeds
  let found ← walkRounds (c.graph.sources.length + 2) claims ((c.items seeds).map (·.2))
  return Text.sort found

end ModelCompiler.Compiler
