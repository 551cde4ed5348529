/-!
Tables keep their keys in the order in which they were first entered.
-/
namespace ModelCompiler

structure Table (κ α : Type) where
  entries : List (κ × α)
deriving Repr, DecidableEq

namespace Table

variable {κ α : Type} [DecidableEq κ]

def empty : Table κ α := ⟨[]⟩

instance : EmptyCollection (Table κ α) := ⟨empty⟩

instance : Inhabited (Table κ α) := ⟨empty⟩

def keys (t : Table κ α) : List κ :=
  t.entries.map (·.1)

def find? (t : Table κ α) (k : κ) : Option α :=
  t.entries.lookup k

def contains (t : Table κ α) (k : κ) : Bool :=
  (t.find? k).isSome

def size (t : Table κ α) : Nat :=
  t.entries.length

def modify (t : Table κ α) (k : κ) (f : α → α) : Table κ α :=
  ⟨t.entries.map fun (j, a) => if j = k then (j, f a) else (j, a)⟩

/-- Enters `a` under `k`: in place if the key is known, at the end otherwise. -/
def insert (t : Table κ α) (k : κ) (a : α) : Table κ α :=
  if t.contains k then t.modify k fun _ => a else ⟨t.entries ++ [(k, a)]⟩

def erase (t : Table κ α) (k : κ) : Table κ α :=
  ⟨t.entries.filter fun e => e.1 ≠ k⟩

def filter (t : Table κ α) (p : κ → α → Bool) : Table κ α :=
  ⟨t.entries.filter fun (k, a) => p k a⟩

section Index

variable {β : Type} [DecidableEq β]

def values (t : Table κ (List β)) (k : κ) : List β :=
  (t.find? k).getD []

def push (t : Table κ (List β)) (k : κ) (b : β) : Table κ (List β) :=
  t.insert k (t.values k ++ [b])

/-- Takes `b` out from under `k`, and the key if nothing is left there. -/
def drop (t : Table κ (List β)) (k : κ) (b : β) : Table κ (List β) :=
  match t.find? k with
  | none => t
  | some bs =>
    match bs.filter (· ≠ b) with
    | [] => t.erase k
    | rest => t.insert k rest

end Index

end Table

end ModelCompiler
