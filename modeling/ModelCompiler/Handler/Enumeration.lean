import ModelCompiler.Handler.Typing
import ModelCompiler.Handler.Usage
import ModelCompiler.Workspace

/-!
Enumerations. Each value leads back to its enumeration, and no name stands twice.
-/
namespace ModelCompiler.Handler.Enumeration

def process (id : NodeId) : Work CompileError Unit := do
  let g ← Work.graph
  (g.values id "values").forM fun value => Work.setValues value "enumeration" [id]

def validate (g : Graph) (id : NodeId) : List CompileError :=
  (repeated g (g.values id "values")).map fun value =>
    let name := (g.name? value).getD ""
    .constraintValidation (g.spanOf value)
      s!"value '{name}' is defined more than once in enumeration '{g.describe id}'"

def unbind (id : NodeId) : Work CompileError Unit :=
  Work.update fun g => do
    let g ← stripReferences g id
    (g.values id "values").foldlM (fun g value =>
      (g.clearProperty value "enumeration").map (·.2)) g

end ModelCompiler.Handler.Enumeration
