import ModelCompiler.Order

/-!
Texts in the order of their code points, and lists of pairs as maps sorted by such keys.
-/
namespace ModelCompiler.Text

def sort (texts : List String) : List String :=
  Order.sort (fun a b => decide (a ≤ b)) texts

/-- Of neighbours with equal keys the last one stays. -/
def keepLast {α : Type} : List (String × α) → List (String × α)
  | [] => []
  | [e] => [e]
  | e :: f :: es => if e.1 = f.1 then keepLast (f :: es) else e :: keepLast (f :: es)

/-- Sorts by key; a later entry replaces an earlier one of the same key. -/
def sortedMap {α : Type} (entries : List (String × α)) : List (String × α) :=
  keepLast (entries.mergeSort fun a b => decide (a.1 ≤ b.1))

end ModelCompiler.Text
