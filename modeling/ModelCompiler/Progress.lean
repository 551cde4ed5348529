import ModelCompiler.Graph.Error

/-!
Progress of one phase of one batch.
-/
namespace ModelCompiler

structure Progress where
  phase : String
  total : Nat
  done : Nat
deriving DecidableEq, Repr

namespace Progress

def start (phase : String) (total : Nat) : Progress :=
  ⟨phase, total, 0⟩

def limit : Nat :=
  Nat.pow 2 64

/-- One more item is finished. The items of a batch are all in memory, which keeps their number
below the limit, so nothing is checked here. -/
def step (p : Progress) : Progress :=
  { p with done := p.done + 1 }

def advance (p : Progress) (n : Nat) : Except Breach Progress :=
  if p.done + n < limit then .ok { p with done := p.done + n } else .error .countOverflow

def advanceAll (p : Progress) : List Nat → Except Breach (List Progress)
  | [] => .ok []
  | n :: rest => do
    let q ← p.advance n
    return q :: (← q.advanceAll rest)

def text (p : Progress) : String :=
  s!"{p.phase} ({p.done}/{p.total})"

end Progress

end ModelCompiler
