import ModelCompiler.Source.Draft

/-!
Scripts: drafts given command by command.
-/
namespace ModelCompiler

inductive Script.Order where
  | group
  | imported (group package : String)
  | element (classifier path : String)
  | part (owner classifier : String) (name : Option String)
  | importStub (owner group identifier : String)
  | propertyStub (owner target property : String)
  | lookup (path : String)
  | add (node value property : String)
  | count
  | fail (error : CompileError)
  | unknown (word : String)
deriving DecidableEq, Repr

structure Script.Place where
  startLine : Nat := 0
  startColumn : Nat := 0
  endLine : Nat := 0
  endColumn : Nat := 0
deriving DecidableEq, Repr

structure Script.Command where
  order : Script.Order
  place : Option Script.Place := none
  keep : Option String := none
deriving DecidableEq, Repr

namespace Script

abbrev Names := Table String NodeId

def Place.span (p : Place) : Drafting Span :=
  Draft.span p.startLine p.startColumn p.endLine p.endColumn

def resolve (names : Names) (span : Span) (name : String) : Drafting NodeId :=
  match names.find? name with
  | some id => return id
  | none => throw (.parse span s!"unknown variable '{name}'")

def perform (names : Names) (c : Command) : Drafting (Option NodeId) := do
  let span ← (c.place.getD {}).span
  match c.order with
  | .group => return some (← Draft.importGroup span)
  | .imported group package =>
    return some (← Draft.addImport (← resolve names span group) package span)
  | .element classifier path => return some (← Draft.elementNamed classifier path span)
  | .part owner classifier name => do
    let owner ← resolve names span owner
    let classifier ← Draft.lookup classifier
    return some (← Draft.part owner classifier name (c.place.map fun _ => span))
  | .importStub owner group identifier => do
    let owner ← resolve names span owner
    let group ← resolve names span group
    return some (← Draft.importStub owner group identifier span)
  | .propertyStub owner target property => do
    let owner ← resolve names span owner
    let target ← resolve names span target
    return some (← Draft.propertyStub owner target property span)
  | .lookup path => return some (← Draft.lookup path)
  | .add node value property => do
    let node ← resolve names span node
    let value ← resolve names span value
    Draft.addValue node property value
    return none
  | .count => do
    let source := (← read).source
    let count := (← get).graph.size
    throw (.parse span s!"{source} has {count} nodes")
  | .fail error => throw error
  | .unknown word => throw (.parse span s!"unknown command '{word}'")

def step (names : Names) (c : Command) : Drafting Names := do
  match c.keep, ← perform names c with
  | some name, some id => return names.insert name id
  | _, _ => return names

def draft (commands : List Command) : Drafting Unit :=
  discard (commands.foldlM step ∅)

end Script

end ModelCompiler
