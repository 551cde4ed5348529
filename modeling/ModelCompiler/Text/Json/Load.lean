import ModelCompiler.Text.Json.Magnitude

/-!
Loading a text as one value.
-/
namespace ModelCompiler.Json

mutual

/-- Whether a value can be kept, with arrays and objects at most `depth` deep in each other. -/
def keepable : Nat → Json → Bool
  | _, .null => true
  | _, .bool _ => true
  | _, .nat n => isFiniteLiteral (Nat.toDigits 10 n)
  | _, .decimal literal => isFiniteLiteral literal.toList
  | _, .string _ => true
  | depth, .array items => 0 < depth && keepableItems (depth - 1) items
  | depth, .object fields => 0 < depth && keepableFields (depth - 1) fields
  | _, .unreadable => false

def keepableItems : Nat → List Json → Bool
  | _, [] => true
  | depth, v :: vs => keepable depth v && keepableItems depth vs

def keepableFields : Nat → List (String × Json) → Bool
  | _, [] => true
  | depth, (_, v) :: fs => keepable depth v && keepableFields depth fs

end

def maxDepth : Nat := 127

def load? (s : String) : Option Json :=
  (ofText? s).filter (keepable maxDepth)

end ModelCompiler.Json
