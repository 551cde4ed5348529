import ModelCompiler.Path

/-!
What can go wrong in the graph store. An error refuses an operation and leaves the store usable.
-/
namespace ModelCompiler

abbrev NodeId := Nat

inductive GraphError where
  | nodeNotFound (id : NodeId)
  | duplicatePath (path : String)
  | invalidPath (path reason : String)
  | danglingReference (user property target : String)
  | inconsistent (reason : String)
deriving DecidableEq, Repr, Inhabited

namespace GraphError

def message : GraphError → String
  | .nodeNotFound id => s!"node not found: NodeId({id})"
  | .duplicatePath path => s!"duplicate path: '{path}'"
  | .invalidPath path reason => s!"invalid path '{path}': {reason}"
  | .danglingReference user property target =>
    s!"dangling reference: '{user}'.{property} still refers to removed node '{target}'"
  | .inconsistent reason => s!"graph inconsistency: {reason}"

end GraphError

def Path.parse (s : String) : Except GraphError Path :=
  (Path.ofText s).mapError fun f => .invalidPath s f.message

inductive Breach where
  | missingHolder (property : String) (id : NodeId)
  | missingValue (property holder : String) (value : NodeId)
  | audit (error : GraphError)
  | countOverflow
deriving DecidableEq, Repr, Inhabited

namespace Breach

def message : Breach → String
  | .missingHolder property id => s!"property '{property}' written on missing node {id}"
  | .missingValue property holder value =>
    s!"property '{property}' of {holder} written with missing node {value}"
  | .audit error => error.message
  | .countOverflow => "attempt to add with overflow"

end Breach

end ModelCompiler
