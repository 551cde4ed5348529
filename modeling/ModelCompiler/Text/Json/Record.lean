import ModelCompiler.Text.Json.Reader

/-!
Reading records out of JSON.
-/
namespace ModelCompiler.Json

def occurrences (name : String) (fields : List (String × Json)) : List Json :=
  fields.filterMap fun (k, v) => if k = name then some v else none

/-- The field's value, absent if it does not stand; none if it stands twice. -/
def field? (fields : List (String × Json)) (name : String) : Option (Option Json) :=
  match occurrences name fields with
  | [] => some none
  | [v] => some (some v)
  | _ => none

/-- The values of the named fields. As an array, a record gives at least its first `needed`
fields and no more than all of them. -/
def record? (names : List String) (needed : Nat) : Json → Option (List (Option Json))
  | .object fields => names.mapM (field? fields)
  | .array items =>
    if needed ≤ items.length ∧ items.length ≤ names.length then
      some (items.map some ++ List.replicate (names.length - items.length) none)
    else none
  | _ => none

def bool? : Json → Option Bool
  | .bool b => some b
  | _ => none

def string? : Json → Option String
  | .string s => some s
  | _ => none

def word? (bits : Nat) : Json → Option Nat
  | .nat n => if n < Nat.pow 2 bits then some n else none
  | _ => none

def nullable? {α : Type} (read : Json → Option α) : Json → Option (Option α)
  | .null => some none
  | v => (read v).map some

def list? {α : Type} (read : Json → Option α) : Json → Option (List α)
  | .array items => items.mapM read
  | _ => none

/-- A name from a fixed list, written as a string or as an object from the name to null. -/
def tag? : Json → Option String
  | .string s => some s
  | .object [(name, .null)] => some name
  | _ => none

def required {α : Type} (read : Json → Option α) : Option Json → Option α
  | some v => read v
  | none => none

def defaulted {α : Type} (default : α) (read : Json → Option α) : Option Json → Option α
  | some v => read v
  | none => some default

end ModelCompiler.Json
