import ModelCompiler.Text.Blank

/-!
Cutting texts at characters and at words.
-/
namespace ModelCompiler.Text

def after? : List Char → List Char → Option (List Char)
  | [], cs => some cs
  | _ :: _, [] => none
  | s :: start, c :: cs => if s = c then after? start cs else none

def cutAt (word : List Char) : List Char → Option (List Char × List Char)
  | [] => (after? word []).map ([], ·)
  | c :: cs =>
    match after? word (c :: cs) with
    | some rest => some ([], rest)
    | none => (cutAt word cs).map fun (a, b) => (c :: a, b)

def cutAtLast (c : Char) : List Char → Option (List Char × List Char)
  | [] => none
  | d :: ds =>
    match cutAtLast c ds with
    | some (a, b) => some (d :: a, b)
    | none => if d = c then some ([], ds) else none

def enclosed (opening closing : Char) (cs : List Char) :
    Option (List Char × List Char × List Char) := do
  let (before, rest) ← cutAt [opening] cs
  let (inner, behind) ← cutAtLast closing rest
  return (before, inner, behind)

def splitAt (c : Char) : List Char → List (List Char)
  | [] => [[]]
  | d :: ds =>
    if d = c then [] :: splitAt c ds
    else
      match splitAt c ds with
      | [] => [[d]]
      | piece :: pieces => (d :: piece) :: pieces

def items (c : Char) (cs : List Char) : List (List Char) :=
  ((splitAt c cs).map trim).filter (!·.isEmpty)

def byteLength : List Char → Nat
  | [] => 0
  | c :: cs => c.utf8Size + byteLength cs

end ModelCompiler.Text
