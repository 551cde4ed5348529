import ModelCompiler.Text.Blank

/-!
Paths name elements: one or more segments joined by a double colon. A segment is not empty and holds
neither a blank nor a colon.
-/
namespace ModelCompiler

inductive PathFault where
  | empty
  | emptySegment
  | illegalCharacter (segment : String)
deriving DecidableEq, Repr

def PathFault.message : PathFault → String
  | .empty => "path is empty"
  | .emptySegment => "empty segment"
  | .illegalCharacter segment => s!"illegal character in segment '{segment}'"

namespace Path

def consHead (c : Char) : List (List Char) → List (List Char)
  | [] => [[c]]
  | s :: ss => (c :: s) :: ss

def split : List Char → List (List Char)
  | [] => [[]]
  | ':' :: ':' :: cs => [] :: split cs
  | c :: cs => consHead c (split cs)

/-- Cuts a text at its last separator. -/
def cutLast : List Char → Option (List Char × List Char)
  | [] => none
  | ':' :: ':' :: cs =>
    match cutLast cs with
    | some (a, b) => some (':' :: ':' :: a, b)
    | none => some ([], cs)
  | c :: cs => (cutLast cs).map fun (a, b) => (c :: a, b)

def legalCharacter (c : Char) : Bool :=
  !Text.isBlank c && c != ':'

def segmentFault? (s : List Char) : Option PathFault :=
  if s.isEmpty then some .emptySegment
  else if s.all legalCharacter then none
  else some (.illegalCharacter (String.ofList s))

/-- The first fault of a text, read from the left. -/
def fault? (cs : List Char) : Option PathFault :=
  if cs.isEmpty then some .empty else (split cs).findSome? segmentFault?

end Path

structure Path where
  chars : List Char
  size : Nat
  size_eq : size = chars.length
  valid : Path.fault? chars = none

namespace Path

@[ext]
theorem ext {p q : Path} (h : p.chars = q.chars) : p = q := by
  obtain ⟨cs, n, rfl, hp⟩ := p
  obtain ⟨ds, m, rfl, hq⟩ := q
  cases h
  rfl

instance : DecidableEq Path := fun p q =>
  if hn : p.size = q.size then
    if hc : p.chars = q.chars then isTrue (ext hc)
    else isFalse fun h => hc (congrArg chars h)
  else isFalse fun h => hn (congrArg size h)

def ofValid (cs : List Char) (h : fault? cs = none) : Path :=
  ⟨cs, cs.length, rfl, h⟩

def text (p : Path) : String :=
  String.ofList p.chars

def ofChars (cs : List Char) : Except PathFault Path :=
  match h : fault? cs with
  | none => .ok (ofValid cs h)
  | some f => .error f

def ofText (s : String) : Except PathFault Path :=
  ofChars s.toList

def ofText? (s : String) : Option Path :=
  (ofText s).toOption

def segments (p : Path) : List String :=
  (split p.chars).map String.ofList

def name (p : Path) : String :=
  match cutLast p.chars with
  | some (_, b) => String.ofList b
  | none => p.text

def isQualified (p : Path) : Bool :=
  (cutLast p.chars).isSome

theorem split_ne_nil (cs : List Char) : split cs ≠ [] := by
  fun_induction split cs with
  | case1 => simp
  | case2 => simp
  | case3 c cs _ ih =>
    cases h : split cs with
    | nil => exact absurd h ih
    | cons s ss => simp [consHead]

theorem eq_append_of_cutLast {cs a b : List Char} (h : cutLast cs = some (a, b)) :
    cs = a ++ ':' :: ':' :: b := by
  fun_induction cutLast cs generalizing a b with
  | case1 => simp at h
  | case2 cs a' b' hc ih =>
    obtain ⟨rfl, rfl⟩ := Prod.mk.inj (Option.some.inj h)
    simp [ih hc]
  | case3 cs hc ih =>
    obtain ⟨rfl, rfl⟩ := Prod.mk.inj (Option.some.inj h)
    simp
  | case4 c cs hne ih =>
    obtain ⟨⟨a', b'⟩, hc, he⟩ := Option.map_eq_some_iff.1 h
    obtain ⟨rfl, rfl⟩ := Prod.mk.inj he
    simp [ih hc]

theorem split_cons {c : Char} {cs : List Char}
    (h : ∀ ds, c = ':' → cs = ':' :: ds → False) : split (c :: cs) = consHead c (split cs) := by
  rw [split]
  exact h

theorem split_of_cutLast_eq_none {cs : List Char} (h : cutLast cs = none) : split cs = [cs] := by
  fun_induction cutLast cs with
  | case1 => rfl
  | case2 => simp at h
  | case3 => simp at h
  | case4 c cs hne ih =>
    rw [split_cons hne, ih (by simpa using h)]
    rfl

/-- Cutting at the last separator takes off the last segment. -/
theorem split_of_cutLast {cs a b : List Char} (h : cutLast cs = some (a, b)) :
    split cs = split a ++ [b] := by
  fun_induction cutLast cs generalizing a b with
  | case1 => simp at h
  | case2 cs a' b' hc ih =>
    obtain ⟨rfl, rfl⟩ := Prod.mk.inj (Option.some.inj h)
    simp [split, ih hc]
  | case3 cs hc ih =>
    obtain ⟨rfl, rfl⟩ := Prod.mk.inj (Option.some.inj h)
    simp only [split, List.singleton_append, List.cons.injEq, true_and]
    exact split_of_cutLast_eq_none hc
  | case4 c cs hne ih =>
    obtain ⟨⟨a', b'⟩, hc, he⟩ := Option.map_eq_some_iff.1 h
    obtain ⟨rfl, rfl⟩ := Prod.mk.inj he
    have hcs := eq_append_of_cutLast hc
    rw [split_cons hne, ih hc, split_cons]
    · cases ha : split a' with
      | nil => exact absurd ha (split_ne_nil a')
      | cons s ss => simp [consHead]
    · rintro ds rfl rfl
      exact hne _ rfl (by rw [hcs]; rfl)

theorem fault?_eq_none_iff {cs : List Char} :
    fault? cs = none ↔ ∀ s ∈ split cs, segmentFault? s = none := by
  unfold fault?
  cases cs with
  | nil => simp [split, segmentFault?]
  | cons c cs => simp [List.findSome?_eq_none_iff]

def package (p : Path) : Option Path :=
  match h : cutLast p.chars with
  | some (a, _) => some <| ofValid a <| by
      rw [fault?_eq_none_iff]
      intro s hs
      apply fault?_eq_none_iff.1 p.valid
      rw [split_of_cutLast h]
      exact List.mem_append_left _ hs
  | none => none

def child (p : Path) (name : String) : Except PathFault Path :=
  ofChars (p.chars ++ ':' :: ':' :: name.toList)

/-- Whether `p` is `q` or lies under it. -/
def startsWith (p q : Path) : Bool :=
  p = q || (q.chars ++ [':', ':']).isPrefixOf p.chars

def commonPrefixLength (p q : Path) : Nat :=
  ((p.segments.zip q.segments).takeWhile fun (a, b) => a == b).length

instance : Ord Path := ⟨fun p q => compare p.text q.text⟩

end Path

end ModelCompiler
