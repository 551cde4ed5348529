/-!
The phases in which an element is handled.
-/
namespace ModelCompiler

inductive Phase where
  | bind
  | process
  | validate
  | unbind
  | walk
deriving DecidableEq, Repr, Inhabited

namespace Phase

def all : List Phase :=
  [.bind, .process, .validate, .unbind, .walk]

def name : Phase → String
  | .bind => "bind"
  | .process => "process"
  | .validate => "validate"
  | .unbind => "unbind"
  | .walk => "walk"

def label : Phase → String
  | .bind => "Binding"
  | .process => "Processing"
  | .validate => "Validating"
  | .unbind => "Unbinding"
  | .walk => "Walking"

end Phase

end ModelCompiler
