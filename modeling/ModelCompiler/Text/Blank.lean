/-!
Blank characters are the code points of the Unicode property White_Space. Trimming and splitting
at blanks work on lists of characters.
-/
namespace ModelCompiler.Text

def blankRanges : List (Nat × Nat) :=
  [(0x09, 0x0D), (0x20, 0x20), (0x85, 0x85), (0xA0, 0xA0), (0x1680, 0x1680), (0x2000, 0x200A),
    (0x2028, 0x2029), (0x202F, 0x202F), (0x205F, 0x205F), (0x3000, 0x3000)]

def isBlank (c : Char) : Bool :=
  blankRanges.any fun r => r.1 ≤ c.toNat && c.toNat ≤ r.2

def trimStart (cs : List Char) : List Char :=
  cs.dropWhile isBlank

def dropTailWhile (p : Char → Bool) : List Char → List Char
  | [] => []
  | c :: cs =>
    match dropTailWhile p cs with
    | [] => if p c then [] else [c]
    | kept => c :: kept

def trimEnd (cs : List Char) : List Char :=
  dropTailWhile isBlank cs

def trim (cs : List Char) : List Char :=
  trimEnd (trimStart cs)

def words : List Char → List (List Char)
  | [] => []
  | c :: cs =>
    if isBlank c then words cs
    else
      match cs, words cs with
      | d :: _, w :: ws => if isBlank d then [c] :: w :: ws else (c :: w) :: ws
      | _, ws => [c] :: ws

end ModelCompiler.Text
