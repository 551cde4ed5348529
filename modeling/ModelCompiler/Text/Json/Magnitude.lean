import ModelCompiler.Text.Json.Reader

/-!
Which numbers have a finite value.
-/
namespace ModelCompiler.Json

/-- The nearest number with 53 significant bits, of two such the even one. -/
def nearestDouble (n : Nat) : Nat :=
  let unit := Nat.pow 2 (n.log2 - 52)
  let quotient := n / unit
  let twice := 2 * (n % unit)
  if unit < twice || (unit = twice && quotient % 2 = 1) then (quotient + 1) * unit
  else quotient * unit

/-- The least product that rounds to infinity, half a unit above the largest double. -/
def overflowThreshold : Nat :=
  Nat.pow 2 1024 - Nat.pow 2 970

/-- The value of the longest run of leading digits that fits into 64 bits, and its length. -/
def leadingWord : Nat → Nat → List Char → Nat × Nat
  | value, taken, [] => (value, taken)
  | value, taken, d :: ds =>
    let next := 10 * value + (d.toNat - 48)
    if next < Nat.pow 2 64 then leadingWord next (taken + 1) ds else (value, taken)

def isFinite (value : Nat) : Int → Bool
  | .negSucc _ => true
  | .ofNat exponent =>
    value = 0 || (exponent ≤ 308 &&
      nearestDouble value * nearestDouble (Nat.pow 10 exponent) < overflowThreshold)

def exponentValue : List Char → Int
  | _ :: '-' :: ds => -(digitsValue ds)
  | _ :: '+' :: ds => digitsValue ds
  | _ :: ds => digitsValue ds
  | [] => 0

def isFiniteLiteral : List Char → Bool
  | '-' :: cs => isFiniteLiteral cs
  | cs =>
    let literal := do
      let (int, rest) ← readDigits cs
      let (frac, rest) ← readFraction rest
      let (exp, _) ← readExponent rest
      return (int, frac.drop 1, exp)
    match literal with
    | none => false
    | some (int, frac, exp) =>
      let (value, taken) := leadingWord 0 0 (int ++ frac)
      isFinite value ((int.length : Int) - taken + exponentValue exp)

end ModelCompiler.Json
