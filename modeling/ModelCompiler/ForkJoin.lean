/-!
Fork-join over a list. The list is halved until a range is no longer than the threshold; the ranges
may run in any order.
-/
namespace ModelCompiler

/-- The order in which workers take up `n` ranges, for each moment and each `n`. -/
structure Schedule where
  order : Nat → Nat → List Nat
  perm : ∀ moment n, (order moment n).Perm (List.range n)

def Schedule.inTurn : Schedule where
  order _ := List.range
  perm _ _ := .refl _

def Schedule.arrange {α : Type} (s : Schedule) (moment : Nat) (items : List α) : List α :=
  let slots := items.toArray
  (s.order moment slots.size).filterMap (slots[·]?)

structure Range (α : Type) where
  start : Nat
  items : List α

namespace Range

variable {α β : Type}

def placed (r : Range α) : List (α × Nat) :=
  r.items.zipIdx r.start

/-- Halves a range until each part has at most `max 1 threshold` items. -/
def split (threshold : Nat) (r : Range α) : List (Range α) :=
  if _h : r.items.length ≤ max 1 threshold then [r]
  else
    let half := r.items.length / 2
    split threshold ⟨r.start, r.items.take half⟩
      ++ split threshold ⟨r.start + half, r.items.drop half⟩
termination_by r.items.length
decreasing_by
  all_goals
    simp only [List.length_take, List.length_drop]
    omega

/-- Runs `op` on each item in turn; the result goes into the slot at the place of the item. -/
def fill {m : Type → Type} [Monad m] (op : α → m β) (slots : Array (Option β)) (r : Range α) :
    m (Array (Option β)) :=
  r.placed.foldlM (fun slots (a, i) => do return slots.setIfInBounds i (some (← op a))) slots

end Range

structure Pool where
  parallel : Bool
  schedule : Schedule := .inTurn
  moment : Nat := 0

namespace Pool

def sequential : Pool where
  parallel := false

variable {α β : Type}

def plan (pool : Pool) (threshold : Nat) (items : List α) : List (Range α) :=
  if pool.parallel then Range.split threshold ⟨0, items⟩ else [⟨0, items⟩]

def arrange (pool : Pool) (items : List α) : List α :=
  if pool.parallel then pool.schedule.arrange pool.moment items else items

/-- Runs `op` on every item; the results are in the order of the items. -/
def mapM {m : Type → Type} [Monad m] (pool : Pool) (threshold : Nat) (op : α → m β)
    (items : List α) : m (List β) := do
  let slots ← (pool.arrange (pool.plan threshold items)).foldlM (Range.fill op)
    (Array.replicate items.length none)
  return slots.toList.filterMap id

def map (pool : Pool) (threshold : Nat) (op : α → β) (items : List α) : List β :=
  Id.run (pool.mapM threshold (fun a => pure (op a)) items)

/-- All results, or the error of the first failing item. Every item is attempted. -/
def tryMap {ε : Type} (pool : Pool) (threshold : Nat) (op : α → Except ε β) (items : List α) :
    Except ε (List β) :=
  (pool.map threshold op items).mapM id

end Pool

/-- The keys claimed so far; a key is granted to its first claimant only. -/
structure Claims (κ : Type) where
  taken : List κ

namespace Claims

variable {κ : Type} [DecidableEq κ]

def empty : Claims κ := ⟨[]⟩

def claim (c : Claims κ) (key : κ) : Bool × Claims κ :=
  if key ∈ c.taken then (false, c) else (true, ⟨key :: c.taken⟩)

def claimAll : Claims κ → List κ → List κ × Claims κ
  | c, [] => ([], c)
  | c, key :: keys =>
    let (granted, c) := c.claim key
    let (rest, c) := c.claimAll keys
    (if granted then key :: rest else rest, c)

def size (c : Claims κ) : Nat :=
  c.taken.length

def isEmpty (c : Claims κ) : Bool :=
  c.taken.isEmpty

end Claims

end ModelCompiler
