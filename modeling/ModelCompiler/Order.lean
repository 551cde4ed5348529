/-!
Sorting by insertion.
-/
namespace ModelCompiler.Order

variable {α : Type}

/-- Puts an item before the first one that may follow it. -/
def insert (le : α → α → Bool) (a : α) : List α → List α
  | [] => [a]
  | b :: bs => if le a b then a :: b :: bs else b :: insert le a bs

def sort (le : α → α → Bool) : List α → List α
  | [] => []
  | a :: as => insert le a (sort le as)

theorem insert_perm (le : α → α → Bool) (a : α) (bs : List α) :
    (insert le a bs).Perm (a :: bs) := by
  induction bs with
  | nil => exact .refl _
  | cons b bs ih =>
    unfold insert
    split
    · exact .refl _
    · exact (ih.cons b).trans (.swap a b bs)

theorem sort_perm (le : α → α → Bool) (as : List α) : (sort le as).Perm as := by
  induction as with
  | nil => exact .refl _
  | cons a as ih => exact (insert_perm le a _).trans (ih.cons a)

@[simp]
theorem mem_sort {le : α → α → Bool} {as : List α} {a : α} : a ∈ sort le as ↔ a ∈ as :=
  (sort_perm le as).mem_iff

end ModelCompiler.Order
