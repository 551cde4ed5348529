import ModelCompiler.Text.Json

/-!
Reading JSON.
-/
namespace ModelCompiler.Json

def isSpace (c : Char) : Bool :=
  c = ' ' || c = '\n' || c = '\t' || c = '\r'

def skipSpace (cs : List Char) : List Char :=
  cs.dropWhile isSpace

def hexValue? (c : Char) : Option Nat :=
  if '0' ≤ c && c ≤ '9' then some (c.toNat - 48)
  else if 'a' ≤ c && c ≤ 'f' then some (c.toNat - 87)
  else if 'A' ≤ c && c ≤ 'F' then some (c.toNat - 55)
  else none

def hexUnit? (a b c d : Char) : Option Nat := do
  return 4096 * (← hexValue? a) + 256 * (← hexValue? b) + 16 * (← hexValue? c) + (← hexValue? d)

def simpleEscape? (c : Char) : Option Nat :=
  match c with
  | '"' => some 0x22
  | '\\' => some 0x5C
  | '/' => some 0x2F
  | 'b' => some 0x08
  | 'f' => some 0x0C
  | 'n' => some 0x0A
  | 'r' => some 0x0D
  | 't' => some 0x09
  | _ => none

def readUnits : List Char → Option (List Nat × List Char)
  | [] => none
  | '"' :: rest => some ([], rest)
  | '\\' :: 'u' :: a :: b :: c :: d :: rest => do
    let u ← hexUnit? a b c d
    let (us, rest) ← readUnits rest
    return (u :: us, rest)
  | '\\' :: c :: rest => do
    let u ← simpleEscape? c
    let (us, rest) ← readUnits rest
    return (u :: us, rest)
  | c :: rest =>
    if c.toNat < 0x20 || c = '\\' then none
    else do
      let (us, rest) ← readUnits rest
      return (c.toNat :: us, rest)

def isHighSurrogate (u : Nat) : Bool :=
  0xD800 ≤ u && u < 0xDC00

def isLowSurrogate (u : Nat) : Bool :=
  0xDC00 ≤ u && u < 0xE000

/-- Joins surrogate pairs; none if a surrogate stands alone. -/
def joinUnits : List Nat → Option (List Char)
  | [] => some []
  | h :: l :: us =>
    if isHighSurrogate h then
      if isLowSurrogate l then
        (joinUnits us).map (Char.ofNat (0x10000 + 0x400 * (h - 0xD800) + (l - 0xDC00)) :: ·)
      else none
    else if isLowSurrogate h then none
    else (joinUnits (l :: us)).map (Char.ofNat h :: ·)
  | [u] => if isHighSurrogate u || isLowSurrogate u then none else some [Char.ofNat u]

def decodeUnits (us : List Nat) : Option String :=
  (joinUnits us).map String.ofList

def digitsValue (ds : List Char) : Nat :=
  ds.foldl (fun n d => 10 * n + (d.toNat - 48)) 0

def readDigits (cs : List Char) : Option (List Char × List Char) :=
  match cs.takeWhile Char.isDigit with
  | [] => none
  | ds => some (ds, cs.dropWhile Char.isDigit)

def readFraction : List Char → Option (List Char × List Char)
  | '.' :: cs => (readDigits cs).map fun (ds, rest) => ('.' :: ds, rest)
  | cs => some ([], cs)

def readExponent : List Char → Option (List Char × List Char)
  | c :: cs =>
    if c = 'e' || c = 'E' then
      match cs with
      | s :: cs' =>
        if s = '+' || s = '-' then (readDigits cs').map fun (ds, rest) => (c :: s :: ds, rest)
        else (readDigits cs).map fun (ds, rest) => (c :: ds, rest)
      | [] => none
    else some ([], c :: cs)
  | [] => some ([], [])

def readUnsigned (cs : List Char) : Option (Json × List Char) := do
  let (int, rest) ← readDigits cs
  if int.head? = some '0' && int.length > 1 then none
  else
    let (frac, rest) ← readFraction rest
    let (exp, rest) ← readExponent rest
    if frac.isEmpty && exp.isEmpty then return (.nat (digitsValue int), rest)
    else return (.decimal (String.ofList (int ++ frac ++ exp)), rest)

def readNumber : List Char → Option (Json × List Char)
  | '-' :: cs => do
    let (v, rest) ← readUnsigned cs
    return (.decimal (String.ofList ('-' :: v.chars)), rest)
  | cs => readUnsigned cs

mutual

def readValue : Nat → List Char → Option (Json × List Char)
  | 0, _ => none
  | fuel + 1, cs =>
    match skipSpace cs with
    | 'n' :: 'u' :: 'l' :: 'l' :: rest => some (.null, rest)
    | 't' :: 'r' :: 'u' :: 'e' :: rest => some (.bool true, rest)
    | 'f' :: 'a' :: 'l' :: 's' :: 'e' :: rest => some (.bool false, rest)
    | '"' :: rest => do
      let (us, rest) ← readUnits rest
      match decodeUnits us with
      | some s => return (.string s, rest)
      | none => return (.unreadable, rest)
    | '[' :: rest =>
      match skipSpace rest with
      | ']' :: rest => some (.array [], rest)
      | rest => do
        let (vs, rest) ← readItems fuel rest
        return (.array vs, rest)
    | '\x7b' :: rest =>
      match skipSpace rest with
      | '\x7d' :: rest => some (.object [], rest)
      | rest => do
        let (fs, rest) ← readFields fuel rest
        match fs.mapM fun (k, v) => k.map (·, v) with
        | some fs => return (.object fs, rest)
        | none => return (.unreadable, rest)
    | cs => readNumber cs

def readItems : Nat → List Char → Option (List Json × List Char)
  | 0, _ => none
  | fuel + 1, cs => do
    let (v, rest) ← readValue fuel cs
    match skipSpace rest with
    | ',' :: rest => do
      let (vs, rest) ← readItems fuel rest
      return (v :: vs, rest)
    | ']' :: rest => return ([v], rest)
    | _ => none

def readFields : Nat → List Char → Option (List (Option String × Json) × List Char)
  | 0, _ => none
  | fuel + 1, cs =>
    match skipSpace cs with
    | '"' :: rest => do
      let (us, rest) ← readUnits rest
      match skipSpace rest with
      | ':' :: rest => do
        let (v, rest) ← readValue fuel rest
        match skipSpace rest with
        | ',' :: rest => do
          let (fs, rest) ← readFields fuel rest
          return ((decodeUnits us, v) :: fs, rest)
        | '\x7d' :: rest => return ([(decodeUnits us, v)], rest)
        | _ => none
      | _ => none
    | _ => none

end

def ofText? (s : String) : Option Json := do
  let cs := s.toList
  let (v, rest) ← readValue (2 * cs.length + 2) cs
  if (skipSpace rest).isEmpty then return v else none

end ModelCompiler.Json
