import ModelCompiler.Compiler.Basic

/-!
Staging: changes to sources are collected and made by the next compile.
-/
namespace ModelCompiler.Compiler

/-- Whether a source will be there after the staged changes. -/
def exists_ (c : Compiler) (id : SourceId) : Bool :=
  match c.staged.find? id with
  | some .delete => false
  | some _ => true
  | none => c.sources.contains id

def stage (id : SourceId) (change : Change) : Compiling Unit :=
  modify fun c => { c with staged := c.staged.insert id change }

def unknownSource (id : SourceId) : CompileError :=
  .sourceRegistration id "no such source"

/-- Stages a new source. One that is deleted and created again counts as modified. -/
def createSource (id : SourceId) (content : Content) : Compiling Unit := do
  let c ← get
  if c.exists_ id then throw (.sourceRegistration id "source already exists")
  else stage id (if c.sources.contains id then .modify content else .create content)

def modifySource (id : SourceId) (content : Content) : Compiling Unit := do
  let c ← get
  if c.exists_ id then
    match c.staged.find? id with
    | some (.create _) => stage id (.create content)
    | _ => stage id (.modify content)
  else throw (unknownSource id)

def deleteSource (id : SourceId) : Compiling Unit := do
  let c ← get
  if c.exists_ id then
    if c.sources.contains id then stage id .delete
    else set { c with staged := c.staged.erase id }
  else throw (unknownSource id)

def putSource (id : SourceId) (content : Content) : Compiling Unit := do
  if (← get).exists_ id then modifySource id content else createSource id content

end ModelCompiler.Compiler
