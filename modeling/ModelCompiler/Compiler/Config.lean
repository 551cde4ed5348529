import ModelCompiler.CompileError

/-!
The compiler's options: their defaults, their reading from JSON and from settings, their check.
-/
namespace ModelCompiler

structure Config where
  parallel : Bool := true
  /-- The number of workers; none leaves the choice to the machine. -/
  workerThreads : Option Nat := none
  bindThreshold : Nat := 50
  processThreshold : Nat := 50
  validateThreshold : Nat := 50
  walkThreshold : Nat := 100
  /-- Audits the graph after each removal of sources. -/
  checkConsistency : Bool := true
deriving DecidableEq, Repr, Inhabited

namespace Config

def sequential : Config :=
  { parallel := false }

def check (c : Config) : Except CompileError Unit :=
  if c.workerThreads = some 0 then .error (.config "worker_threads must be positive")
  else
    let thresholds := [("bind_threshold", c.bindThreshold),
      ("process_threshold", c.processThreshold), ("validate_threshold", c.validateThreshold),
      ("walk_threshold", c.walkThreshold)]
    match thresholds.find? (·.2 = 0) with
    | some (name, _) => .error (.config s!"{name} must be positive")
    | none => .ok ()

def fieldNames : List String :=
  ["parallel", "worker_threads", "bind_threshold", "process_threshold", "validate_threshold",
    "walk_threshold", "check_consistency"]

def ofJson? (v : Json) : Option Config := do
  let d : Config := {}
  match ← Json.record? fieldNames 0 v with
  | [parallel, workers, bind, process, validate, walk, audit] =>
    return {
      parallel := ← Json.defaulted d.parallel Json.bool? parallel
      workerThreads :=
        ← Json.defaulted d.workerThreads (Json.nullable? (Json.word? 64)) workers
      bindThreshold := ← Json.defaulted d.bindThreshold (Json.word? 64) bind
      processThreshold := ← Json.defaulted d.processThreshold (Json.word? 64) process
      validateThreshold := ← Json.defaulted d.validateThreshold (Json.word? 64) validate
      walkThreshold := ← Json.defaulted d.walkThreshold (Json.word? 64) walk
      checkConsistency := ← Json.defaulted d.checkConsistency Json.bool? audit }
  | _ => none

def ofText? (s : String) : Option (Except CompileError Config) := do
  let c ← Json.ofText? s >>= ofJson?
  return c.check.map fun _ => c

def toJson (c : Config) : Json :=
  .object [("parallel", .bool c.parallel),
    ("worker_threads", (c.workerThreads.map Json.nat).getD .null),
    ("bind_threshold", .nat c.bindThreshold), ("process_threshold", .nat c.processThreshold),
    ("validate_threshold", .nat c.validateThreshold), ("walk_threshold", .nat c.walkThreshold),
    ("check_consistency", .bool c.checkConsistency)]

inductive Setting where
  | parallel
  | workers
  | threshold
  | checkConsistency
deriving DecidableEq, Repr

def readBool? : String → Option Bool
  | "true" => some true
  | "false" => some false
  | _ => none

/-- A positive number below `2 ^ 64`: decimal digits, a plus sign may stand before them. -/
def readPositive? (s : String) : Option Nat :=
  let digits := match s.toList with
    | '+' :: ds => ds
    | ds => ds
  let n := Json.digitsValue digits
  if !digits.isEmpty && digits.all Char.isDigit && 0 < n && n < Nat.pow 2 64 then some n else none

/-- Applies a setting; a text that does not read changes nothing. -/
def apply (c : Config) : Setting → String → Config
  | .parallel, s => { c with parallel := (readBool? s).getD c.parallel }
  | .workers, s => { c with workerThreads := (readPositive? s).or c.workerThreads }
  | .threshold, s =>
    match readPositive? s with
    | some n =>
      { c with
        bindThreshold := n, processThreshold := n, validateThreshold := n, walkThreshold := n }
    | none => c
  | .checkConsistency, s => { c with checkConsistency := (readBool? s).getD c.checkConsistency }

def ofSettings (lookup : Setting → Option String) : Config :=
  [Setting.parallel, .workers, .threshold, .checkConsistency].foldl
    (fun c setting => match lookup setting with
      | some s => c.apply setting s
      | none => c) {}

end Config

end ModelCompiler
