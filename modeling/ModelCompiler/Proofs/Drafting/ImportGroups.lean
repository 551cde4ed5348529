import ModelCompiler.Source.Draft
import ModelCompiler.Proofs.Segments

/-!
The paths of import groups. The name of a source is written into a segment so that it can be read
back: an underscore is one of two, or it stands before or behind the number of a character. The one
before the number of the group has none behind it that could close such a number.
-/
namespace ModelCompiler.Draft

section Digits

variable {b m n : ℕ}

theorem isAlphanum_digitChar : ∀ n < 16, n.digitChar.isAlphanum = true := by decide

theorem digitChar_inj : ∀ m < 16, ∀ n < 16, m.digitChar = n.digitChar → m = n := by decide

theorem isAlphanum_of_mem_toDigits (hb : 1 < b) (hb' : b ≤ 16) {c : Char}
    (h : c ∈ Nat.toDigits b n) : c.isAlphanum = true := by
  induction n using Nat.strong_induction_on with
  | _ n ih =>
    rw [Nat.toDigits_eq_if hb] at h
    split at h
    · rename_i hn
      rw [List.mem_singleton.1 h]
      exact isAlphanum_digitChar n (by omega)
    · rename_i hn
      rcases List.mem_append.1 h with h | h
      · exact ih (n / b) (Nat.div_lt_self (by omega) hb) h
      · rw [List.mem_singleton.1 h]
        exact isAlphanum_digitChar _ ((Nat.mod_lt n (by omega)).trans_le hb')

theorem toDigits_inj (hb : 1 < b) (hb' : b ≤ 16) (h : Nat.toDigits b m = Nat.toDigits b n) :
    m = n := by
  induction m using Nat.strong_induction_on generalizing n with
  | _ m ih =>
    rw [Nat.toDigits_eq_if hb (n := m), Nat.toDigits_eq_if hb (n := n)] at h
    split at h <;> split at h
    · exact digitChar_inj m (by omega) n (by omega) (List.singleton_inj.1 h)
    · exact absurd (congrArg List.length h) (by simp)
    · exact absurd (congrArg List.length h) (by simp)
    · obtain ⟨hdiv, hmod⟩ := List.append_inj' h rfl
      have hd := ih (m / b) (Nat.div_lt_self (by omega) hb) hdiv
      have hr := digitChar_inj _ ((Nat.mod_lt m (by omega)).trans_le hb') _
        ((Nat.mod_lt n (by omega)).trans_le hb') (List.singleton_inj.1 hmod)
      rw [← Nat.div_add_mod m b, hd, hr, Nat.div_add_mod]

end Digits

section Codes

variable {c d : Char} {s t x y : List Char}

def number (c : Char) : List Char :=
  if c = '_' then [] else Nat.toDigits 16 c.toNat

theorem encodeChar_of_isAlphanum (h : c.isAlphanum = true) : encodeChar c = [c] :=
  if_pos h

theorem encodeChar_eq_number (h : c.isAlphanum = false) :
    encodeChar c = '_' :: (number c ++ ['_']) := by
  rw [encodeChar, number, if_neg (by simp [h])]
  split <;> rfl

theorem underscore_notMem_toDigits {b : ℕ} (hb : 1 < b) (hb' : b ≤ 16) (n : ℕ) :
    '_' ∉ Nat.toDigits b n :=
  fun h => absurd (isAlphanum_of_mem_toDigits hb hb' h) (by decide)

theorem underscore_notMem_number (c : Char) : '_' ∉ number c := by
  unfold number
  split
  · exact List.not_mem_nil
  · exact underscore_notMem_toDigits (by decide) (by decide) _

theorem number_inj (h : number c = number d) : c = d := by
  unfold number at h
  split at h <;> split at h
  · simp_all
  · exact absurd h.symm Nat.toDigits_ne_nil
  · exact absurd h Nat.toDigits_ne_nil
  · exact Char.toNat_inj.1 (toDigits_inj (by decide) (by decide) h)

theorem append_underscore_inj (hs : '_' ∉ s) (ht : '_' ∉ t) (h : s ++ '_' :: x = t ++ '_' :: y) :
    s = t ∧ x = y := by
  induction s generalizing t with
  | nil =>
    cases t with
    | nil => simpa using h
    | cons d t => exact absurd (List.cons.inj h).1 fun e => ht (e ▸ List.mem_cons_self)
  | cons c s ih =>
    cases t with
    | nil => exact absurd (List.cons.inj h).1 fun e => hs (e ▸ List.mem_cons_self)
    | cons d t =>
      simp only [List.mem_cons, not_or] at hs ht
      simp only [List.cons_append, List.cons.injEq] at h
      obtain ⟨rfl, rfl⟩ := ih hs.2 ht.2 h.2
      simp [h.1]

theorem encodeChar_append_inj (h : encodeChar c ++ x = encodeChar d ++ y) : c = d ∧ x = y := by
  cases hc : c.isAlphanum <;> cases hd : d.isAlphanum
  · rw [encodeChar_eq_number hc, encodeChar_eq_number hd] at h
    obtain ⟨hnumber, hrest⟩ := append_underscore_inj (underscore_notMem_number c)
      (underscore_notMem_number d) (by simpa using h)
    exact ⟨number_inj hnumber, hrest⟩
  · rw [encodeChar_eq_number hc, encodeChar_of_isAlphanum hd] at h
    obtain rfl : '_' = d := by simpa using congrArg List.head? h
    exact absurd hd (by decide)
  · rw [encodeChar_of_isAlphanum hc, encodeChar_eq_number hd] at h
    obtain rfl : c = '_' := by simpa using congrArg List.head? h
    exact absurd hc (by decide)
  · rw [encodeChar_of_isAlphanum hc, encodeChar_of_isAlphanum hd] at h
    simpa using h

theorem encodeChar_append_ne (ht : '_' ∉ t) : encodeChar c ++ x ≠ '_' :: t := by
  intro h
  cases hc : c.isAlphanum with
  | false =>
    rw [encodeChar_eq_number hc] at h
    simp only [List.cons_append, List.cons.injEq, true_and] at h
    exact ht (h ▸ by simp)
  | true =>
    rw [encodeChar_of_isAlphanum hc] at h
    obtain rfl : c = '_' := by simpa using congrArg List.head? h
    exact absurd hc (by decide)

theorem flatMap_encodeChar_inj (hx : '_' ∉ x) (hy : '_' ∉ y)
    (h : s.flatMap encodeChar ++ '_' :: x = t.flatMap encodeChar ++ '_' :: y) : s = t ∧ x = y := by
  induction s generalizing t with
  | nil =>
    cases t with
    | nil => simpa using h
    | cons d t =>
      rw [List.flatMap_nil, List.nil_append, List.flatMap_cons, List.append_assoc] at h
      exact absurd h.symm (encodeChar_append_ne hx)
  | cons c s ih =>
    rw [List.flatMap_cons, List.append_assoc] at h
    cases t with
    | nil => exact absurd h (encodeChar_append_ne hy)
    | cons d t =>
      rw [List.flatMap_cons, List.append_assoc] at h
      obtain ⟨rfl, hrest⟩ := encodeChar_append_inj h
      obtain ⟨rfl, rfl⟩ := ih hrest
      exact ⟨rfl, rfl⟩

end Codes

section Groups

variable {c : Char}

def groupName (source : SourceId) (number : ℕ) : List Char :=
  ['i', 'm', 'p', 'o', 'r', 't', '_'] ++
    (source.toList.flatMap encodeChar ++ '_' :: Nat.toDigits 10 number)

theorem toList_importGroupPath (source : SourceId) (number : ℕ) :
    (importGroupPath source number).toList =
      Metamodel.importsPackage.chars ++ ':' :: ':' :: groupName source number := by
  have hword : "::import_".toList = [':', ':', 'i', 'm', 'p', 'o', 'r', 't', '_'] := by decide
  have hmark : "_".toList = ['_'] := by decide
  have hpath : Metamodel.importsPackage.text.toList = Metamodel.importsPackage.chars :=
    String.toList_ofList
  simp only [importGroupPath, groupName, encodeSource, toString, String.toList_append, hword, hmark,
    hpath, String.toList_ofList, Nat.toList_repr, List.append_assoc, List.cons_append,
    List.nil_append]

theorem ofText_importGroupPath (source : SourceId) (number : ℕ) :
    Path.ofText (importGroupPath source number) =
      Metamodel.importsPackage.child (String.ofList (groupName source number)) := by
  rw [Path.ofText, toList_importGroupPath, Path.child, String.toList_ofList]

theorem legal_of_isAlphanum (h : c.isAlphanum = true ∨ c = '_') :
    Text.isBlank c = false ∧ c ≠ ':' := by
  rcases h with h | rfl
  · have hcolon : c ≠ ':' := by
      rintro rfl
      exact absurd h (by decide)
    simp only [Char.isAlphanum, Char.isAlpha, Char.isUpper, Char.isLower, Char.isDigit,
      Bool.or_eq_true, Bool.and_eq_true, decide_eq_true_eq, ge_iff_le, UInt32.le_iff_toNat_le,
      Char.toNat_val, Char.reduceToNat] at h
    refine ⟨?_, hcolon⟩
    simp only [Text.isBlank, Text.blankRanges, List.any_cons, List.any_nil, Bool.or_false,
      Bool.or_eq_false_iff, Bool.and_eq_false_imp, decide_eq_true_eq, decide_eq_false_iff_not,
      not_le]
    omega
  · decide

theorem mem_encodeChar {d : Char} (h : d ∈ encodeChar c) : d.isAlphanum = true ∨ d = '_' := by
  cases hc : c.isAlphanum with
  | true =>
    rw [encodeChar_of_isAlphanum hc, List.mem_singleton] at h
    exact .inl (h ▸ hc)
  | false =>
    rw [encodeChar_eq_number hc, number] at h
    split at h
    · exact .inr (by simpa using h)
    · simp only [List.mem_cons, List.mem_append, List.not_mem_nil, or_false] at h
      rcases h with h | h | h
      · exact .inr h
      · exact .inl (isAlphanum_of_mem_toDigits (by decide) (by decide) h)
      · exact .inr h

theorem isSegment_groupName (source : SourceId) (number : ℕ) :
    Path.IsSegment (groupName source number) := by
  have hword : ∀ c ∈ ['i', 'm', 'p', 'o', 'r', 't', '_'], c.isAlphanum = true ∨ c = '_' := by
    simp
  refine ⟨by simp [groupName], fun c hc => legal_of_isAlphanum ?_⟩
  rcases List.mem_append.1 hc with hc | hc
  · exact hword c hc
  · rcases List.mem_append.1 hc with hc | hc
    · obtain ⟨_, -, hc⟩ := List.mem_flatMap.1 hc
      exact mem_encodeChar hc
    · rcases List.mem_cons.1 hc with rfl | hc
      · exact .inr rfl
      · exact .inl (isAlphanum_of_mem_toDigits (by decide) (by decide) hc)

/-- The import groups of all sources stand side by side in one package, and no two have one path. -/
theorem importGroupPath_distinct (s t : SourceId) (m n : ℕ) :
    (∃ p, Path.ofText (importGroupPath s m) = .ok p ∧
      p.package = some Metamodel.importsPackage) ∧
    (importGroupPath s m = importGroupPath t n ↔ s = t ∧ m = n) := by
  constructor
  · obtain ⟨name, hname, hsegments⟩ := Path.exists_of_isSegment (isSegment_groupName s m)
    obtain ⟨p, hp⟩ := Metamodel.importsPackage.exists_child hname
    obtain ⟨name', hname', hrow⟩ := Path.child_eq_ok_iff.1 hp
    rw [← Except.ok.inj (hname.symm.trans hname'), hsegments] at hrow
    exact ⟨p, (ofText_importGroupPath s m).trans hp, Path.package_of_segments hrow⟩
  · refine ⟨fun h => ?_, fun ⟨hs, hm⟩ => hs ▸ hm ▸ rfl⟩
    rw [← String.toList_inj, toList_importGroupPath, toList_importGroupPath] at h
    have hname : groupName s m = groupName t n := by simpa using h
    have hdecimal (k : ℕ) : '_' ∉ Nat.toDigits 10 k :=
      underscore_notMem_toDigits (by decide) (by decide) k
    obtain ⟨hsource, hnumber⟩ := flatMap_encodeChar_inj (hdecimal m) (hdecimal n)
      (List.append_cancel_left hname)
    exact ⟨String.toList_inj.1 hsource, toDigits_inj (by decide) (by decide) hnumber⟩

end Groups

end ModelCompiler.Draft
