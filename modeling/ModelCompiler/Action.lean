import ModelCompiler.Graph.Error

/-!
Actions run on a state.
-/
namespace ModelCompiler

abbrev Action (σ ε α : Type) := ExceptT ε (StateT σ (Except Breach)) α

namespace Action

variable {σ τ ε δ α : Type}

def breach (b : Breach) : Action σ ε α :=
  fun _ => .error b

def write (f : σ → Except Breach (α × σ)) : Action σ ε α :=
  fun s => (f s).map fun (a, t) => (.ok a, t)

def within (part : τ → σ) (put : σ → τ → τ) (cause : ε → δ) (act : Action σ ε α) :
    Action τ δ α :=
  fun t => (act (part t)).map fun (r, s) => (r.mapError cause, put s t)

def relabel (cause : ε → δ) (act : Action σ ε α) : Action σ δ α :=
  fun s => (act s).map fun (r, t) => (r.mapError cause, t)

def attempt (act : Action σ ε α) : Action σ δ (Except ε α) :=
  fun s => (act s).map fun (r, t) => (.ok r, t)

end Action

end ModelCompiler
