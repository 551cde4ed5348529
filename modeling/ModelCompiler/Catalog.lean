/-!
Catalogs: entries under names, in the order of the names.
-/
namespace ModelCompiler

structure Catalog (α : Type) where
  entries : List (String × α)
deriving Repr, DecidableEq

namespace Catalog

variable {α : Type}

def empty : Catalog α := ⟨[]⟩

instance : EmptyCollection (Catalog α) := ⟨empty⟩

instance : Inhabited (Catalog α) := ⟨empty⟩

def find? (c : Catalog α) (name : String) : Option α :=
  c.entries.lookup name

def contains (c : Catalog α) (name : String) : Bool :=
  (c.find? name).isSome

def names (c : Catalog α) : List String :=
  c.entries.map (·.1)

def insertEntry (name : String) (a : α) : List (String × α) → List (String × α)
  | [] => [(name, a)]
  | (n, b) :: es =>
    if name = n then (name, a) :: es
    else if name < n then (name, a) :: (n, b) :: es
    else (n, b) :: insertEntry name a es

def insert (c : Catalog α) (name : String) (a : α) : Catalog α :=
  ⟨insertEntry name a c.entries⟩

def erase (c : Catalog α) (name : String) : Catalog α :=
  ⟨c.entries.filter fun e => e.1 ≠ name⟩

def modify (c : Catalog α) (name : String) (f : α → α) : Catalog α :=
  ⟨c.entries.map fun (n, a) => if n = name then (n, f a) else (n, a)⟩

end Catalog

end ModelCompiler
