import ModelCompiler.Text.Cut

/-!
The declarations of text sources, one to a line: imports, classes, associations, enumerations,
functions and elements of any kind.
-/
namespace ModelCompiler

abbrev Piece := List Char

/-- A name with a type, as in `name: Type`; `text` is the whole piece. -/
structure Member where
  text : Piece
  name : Piece
  type : Piece
deriving DecidableEq, Repr

structure Projection where
  text : Piece
  receiver : Piece
  property : Piece
deriving DecidableEq, Repr

inductive Declaration where
  | imported (package : Piece)
  | class_ (path : Piece) (stereotypes generals : List Piece)
      (properties : List (Except String Member))
  | association (path : Piece) (properties : List (Except String Member))
  | enumeration (path : Piece) (values : List Piece)
  | function (path : Piece) (parameters : List (Except String Member)) (result : Option Piece)
      (body : List (Except String Projection))
  | element (classifier path : Piece)
  | malformed (message : String)

namespace Declaration

def dropWildcards : Piece → Piece
  | '*' :: ':' :: ':' :: cs => dropWildcards cs
  | cs => cs

def readImport (rest : Piece) : Declaration :=
  let package := Text.trim (Text.dropTailWhile (· = ';') rest)
  .imported (dropWildcards package.reverse).reverse

def readMember (text : Piece) : Except String Member :=
  match Text.cutAt [':'] text with
  | some (name, type) => .ok ⟨text, Text.trim name, Text.trim type⟩
  | none => .error s!"expected 'name: Type' in '{String.ofList text}'"

def readProjection (text : Piece) : Except String Projection :=
  match Text.cutAt ['.'] text with
  | some (receiver, property) => .ok ⟨text, Text.trim receiver, Text.trim property⟩
  | none => .error s!"expected 'variable.property' in '{String.ofList text}'"

def readMembers (separator : Char) (body : Piece) : List (Except String Member) :=
  (Text.items separator body).map readMember

/-- The stereotypes at the head of a text and what follows them; none if one is not closed. The
fuel bounds their number. -/
def readStereotypes : Nat → Piece → Option (List Piece × Piece)
  | 0, header => some ([], header)
  | fuel + 1, header =>
    match Text.after? ['<', '<'] header with
    | none => some ([], header)
    | some rest => do
      let (stereotype, rest) ← Text.cutAt ['>', '>'] rest
      let (stereotypes, rest) ← readStereotypes fuel (Text.trimStart rest)
      return (stereotype :: stereotypes, rest)

def noBody : Declaration :=
  .malformed "expected '\x7b'"

def body? (cs : Piece) : Option (Piece × Piece) :=
  (Text.enclosed '\x7b' '\x7d' cs).map fun (header, body, _) => (header, body)

def readClass (rest : Piece) : Declaration :=
  match body? rest with
  | none => noBody
  | some (header, body) =>
    match readStereotypes header.length (Text.trim header) with
    | none => .malformed "unclosed stereotype"
    | some (stereotypes, header) =>
      let properties := readMembers ';' body
      match Text.cutAt " extends ".toList header with
      | some (path, generals) =>
        .class_ (Text.trim path) stereotypes (Text.items ',' generals) properties
      | none => .class_ (Text.trim header) stereotypes [] properties

def readAssociation (rest : Piece) : Declaration :=
  match body? rest with
  | none => noBody
  | some (path, body) => .association (Text.trim path) (readMembers ';' body)

def readEnumeration (rest : Piece) : Declaration :=
  match body? rest with
  | none => noBody
  | some (path, body) => .enumeration (Text.trim path) (Text.items ',' body)

def readResult (tail : Piece) : Option Piece :=
  match Text.trim ((Text.trim tail).dropWhile (· = ':')) with
  | [] => none
  | type => some type

def readFunction (rest : Piece) : Declaration :=
  match Text.enclosed '(' ')' (rest.takeWhile (· ≠ '\x7b')) with
  | none => .malformed "expected parameter list"
  | some (path, parameters, tail) =>
    match body? rest with
    | none => noBody
    | some (_, body) =>
      .function (Text.trim path) (readMembers ',' parameters) (readResult tail)
        ((Text.items ';' body).map readProjection)

def readElement (rest : Piece) : Declaration :=
  match Text.words rest with
  | [classifier, path] => .element classifier path
  | _ => .malformed "expected: Element <classifier> <path>"

def forms : List (String × (Piece → Declaration)) :=
  [("import ", readImport), ("Class ", readClass), ("Association ", readAssociation),
    ("Enum ", readEnumeration), ("function ", readFunction), ("Element ", readElement)]

def read (text : Piece) : Declaration :=
  let found := forms.findSome? fun (word, reader) => (Text.after? word.toList text).map reader
  found.getD (.malformed s!"unexpected input '{String.ofList text}'")

end Declaration

end ModelCompiler
