import Mathlib
import ModelCompiler.Path

/-!
Paths as rows of segments. A text is a path if and only if it is a row of segments joined by double
colons.
-/
namespace ModelCompiler.Path

def IsSegment (s : List Char) : Prop :=
  s ≠ [] ∧ ∀ c ∈ s, Text.isBlank c = false ∧ c ≠ ':'

theorem IsSegment.colon_notMem {s : List Char} (h : IsSegment s) : ':' ∉ s :=
  fun hm => (h.2 ':' hm).2 rfl

section Rows

variable {s cs : List Char} {ss : List (List Char)}

theorem segmentFault?_eq_none_iff : segmentFault? s = none ↔ IsSegment s := by
  cases s with
  | nil => simp [segmentFault?, IsSegment]
  | cons c cs => simp [segmentFault?, IsSegment, legalCharacter, and_assoc]

theorem intercalate_split (cs : List Char) : [':', ':'].intercalate (split cs) = cs := by
  fun_induction split cs with
  | case1 => rfl
  | case2 cs ih => simp [List.intercalate_cons_of_ne_nil (split_ne_nil cs), ih]
  | case3 c cs _ ih =>
    cases h : split cs with
    | nil => exact absurd h (split_ne_nil cs)
    | cons s ss => rw [consHead, List.intercalate_cons_cons_left, ← h, ih]

theorem split_of_colon_notMem (h : ':' ∉ s) : split s = [s] := by
  induction s with
  | nil => rfl
  | cons c s ih =>
    rw [List.mem_cons, not_or] at h
    rw [split_cons fun _ hc => absurd hc.symm h.1, ih h.2, consHead]

theorem split_append_separator (h : ':' ∉ s) (cs : List Char) :
    split (s ++ ':' :: ':' :: cs) = s :: split cs := by
  induction s with
  | nil => rfl
  | cons c s ih =>
    rw [List.mem_cons, not_or] at h
    rw [List.cons_append, split_cons fun _ hc => absurd hc.symm h.1, ih h.2, consHead]

theorem split_intercalate_append {t : List Char} {ts : List (List Char)} (hne : ss ≠ [])
    (h : ∀ s ∈ ss, ':' ∉ s) (ht : ∀ s, ':' ∉ s → split (s ++ t) = s :: ts) :
    split ([':', ':'].intercalate ss ++ t) = ss ++ ts := by
  induction ss with
  | nil => exact absurd rfl hne
  | cons s ss ih =>
    have hs := h s List.mem_cons_self
    by_cases hss : ss = []
    · rw [hss, List.intercalate_singleton, ht s hs, List.singleton_append]
    · rw [List.intercalate_cons_of_ne_nil hss, List.append_assoc, List.append_assoc]
      exact (split_append_separator hs _).trans
        (congrArg (s :: ·) (ih hss fun t ht => h t (List.mem_cons_of_mem s ht)))

theorem split_intercalate (hne : ss ≠ []) (h : ∀ s ∈ ss, ':' ∉ s) :
    split ([':', ':'].intercalate ss) = ss := by
  have hsplit := split_intercalate_append hne h fun s hs =>
    (congrArg split (List.append_nil s)).trans (split_of_colon_notMem hs)
  rwa [List.append_nil, List.append_nil] at hsplit

theorem intercalate_append {ts : List (List Char)} (hss : ss ≠ []) (hts : ts ≠ []) :
    [':', ':'].intercalate (ss ++ ts) =
      [':', ':'].intercalate ss ++ ':' :: ':' :: [':', ':'].intercalate ts := by
  induction ss with
  | nil => exact absurd rfl hss
  | cons s ss ih =>
    rw [List.cons_append, List.intercalate_cons_of_ne_nil (by simp [hts])]
    by_cases h : ss = []
    · simp [h]
    · simp [ih h, List.intercalate_cons_of_ne_nil h]

theorem fault?_eq_none_iff_row :
    fault? cs = none ↔ ∃ ss, ss ≠ [] ∧ (∀ s ∈ ss, IsSegment s) ∧
      [':', ':'].intercalate ss = cs := by
  simp only [fault?_eq_none_iff, segmentFault?_eq_none_iff]
  constructor
  · intro h
    exact ⟨split cs, split_ne_nil cs, h, intercalate_split cs⟩
  · rintro ⟨ss, hne, hss, rfl⟩
    rwa [split_intercalate hne fun s hs => (hss s hs).colon_notMem]

end Rows

variable {p q r : Path}

theorem ofChars_eq_ok_iff {cs : List Char} : ofChars cs = .ok p ↔ p.chars = cs := by
  unfold ofChars
  split
  · rename_i hvalid
    exact ⟨fun h => Except.ok.inj h ▸ rfl, fun h => congrArg Except.ok (ext h.symm)⟩
  · rename_i f hf
    refine ⟨fun h => (nomatch h), fun h => ?_⟩
    rw [← h, p.valid] at hf
    exact nomatch hf

theorem ofText_eq_ok_iff {s : String} : ofText s = .ok p ↔ p.text = s := by
  rw [ofText, ofChars_eq_ok_iff, text, ← String.toList_inj, String.toList_ofList]

theorem exists_ofText_iff {s : String} :
    (∃ p, ofText s = .ok p) ↔ fault? s.toList = none := by
  simp only [ofText_eq_ok_iff]
  constructor
  · rintro ⟨p, rfl⟩
    rw [text, String.toList_ofList]
    exact p.valid
  · intro h
    exact ⟨ofValid s.toList h, String.ofList_toList⟩

theorem isSegment_of_mem_split (p : Path) {s : List Char} (h : s ∈ split p.chars) : IsSegment s :=
  segmentFault?_eq_none_iff.1 (fault?_eq_none_iff.1 p.valid s h)

theorem split_chars_append (p : Path) (cs : List Char) :
    split (p.chars ++ ':' :: ':' :: cs) = split p.chars ++ split cs := by
  have h := split_intercalate_append (split_ne_nil p.chars)
    (fun s hs => (p.isSegment_of_mem_split hs).colon_notMem) fun s hs =>
      split_append_separator hs cs
  rwa [intercalate_split] at h

theorem map_toList_segments (p : Path) : p.segments.map String.toList = split p.chars := by
  simp [segments, Function.comp_def]

theorem intercalate_segments (p : Path) : "::".intercalate p.segments = p.text := by
  rw [← String.toList_inj, String.toList_intercalate, map_toList_segments]
  exact (intercalate_split p.chars).trans String.toList_ofList.symm

theorem segments_inj (h : p.segments = q.segments) : p = q := by
  have := p.intercalate_segments.symm.trans (h ▸ q.intercalate_segments)
  exact ext (String.ofList_injective this)

theorem segments_ne_nil (p : Path) : p.segments ≠ [] := by
  simp [segments, split_ne_nil]

theorem exists_of_isSegment {s : List Char} (h : IsSegment s) :
    ∃ t, ofText (String.ofList s) = .ok t ∧ t.segments = [String.ofList s] := by
  have hsplit := split_of_colon_notMem h.colon_notMem
  have hvalid : fault? s = none := by
    rw [fault?_eq_none_iff, hsplit]
    intro u hu
    exact segmentFault?_eq_none_iff.2 (List.mem_singleton.1 hu ▸ h)
  exact ⟨ofValid s hvalid, ofText_eq_ok_iff.2 rfl, congrArg (List.map String.ofList) hsplit⟩

theorem segments_eq (p : Path) : p.segments = (p.package.elim [] segments) ++ [p.name] := by
  unfold package name
  split
  · rename_i a b h
    simp [segments, split_of_cutLast h, ofValid, h]
  · rename_i h
    simp [segments, split_of_cutLast_eq_none h, h, text]

theorem package_map_segments (p : Path) : p.package.map segments =
    if p.segments.length = 1 then none else some p.segments.dropLast := by
  rw [segments_eq p]
  cases h : p.package with
  | none => simp
  | some q => simp [segments_ne_nil]

theorem package_of_segments {t : String} (h : p.segments = q.segments ++ [t]) :
    p.package = some q := by
  rw [segments_eq p] at h
  have hrest := (List.append_inj' h rfl).1
  cases hp : p.package with
  | none =>
    rw [hp] at hrest
    exact absurd hrest.symm q.segments_ne_nil
  | some r =>
    rw [hp] at hrest
    rw [segments_inj hrest]

theorem child_eq_ok_iff {s : String} : p.child s = .ok r ↔
    ∃ t, ofText s = .ok t ∧ r.segments = p.segments ++ t.segments := by
  rw [child, ofChars_eq_ok_iff]
  constructor
  · intro h
    have hvalid := r.valid
    rw [h, fault?_eq_none_iff, split_chars_append] at hvalid
    have hs : fault? s.toList = none :=
      fault?_eq_none_iff.2 fun u hu => hvalid u (List.mem_append_right _ hu)
    refine ⟨ofValid s.toList hs, ofText_eq_ok_iff.2 (String.ofList_toList), ?_⟩
    simp only [segments, h, split_chars_append, List.map_append, ofValid]
  · rintro ⟨t, ht, hr⟩
    have hchars : t.chars = s.toList := ofChars_eq_ok_iff.1 ht
    have hsplit : split r.chars = split p.chars ++ split t.chars := by
      simpa [map_toList_segments] using congrArg (List.map String.toList) hr
    rw [← intercalate_split r.chars, hsplit,
      intercalate_append (split_ne_nil _) (split_ne_nil _), intercalate_split,
      intercalate_split, hchars]

theorem exists_child (p : Path) {s : String} {t : Path} (h : ofText s = .ok t) :
    ∃ r, p.child s = .ok r := by
  have hvalid : fault? (p.chars ++ ':' :: ':' :: t.chars) = none := by
    rw [fault?_eq_none_iff, split_chars_append]
    intro u hu
    rcases List.mem_append.1 hu with hu | hu
    · exact fault?_eq_none_iff.1 p.valid u hu
    · exact fault?_eq_none_iff.1 t.valid u hu
  have hchars : t.chars = s.toList := ofChars_eq_ok_iff.1 h
  exact ⟨ofValid _ hvalid, ofChars_eq_ok_iff.2 (congrArg (p.chars ++ ':' :: ':' :: ·) hchars)⟩

theorem startsWith_iff : p.startsWith q = true ↔ q.segments <+: p.segments := by
  rw [segments, segments, List.prefix_map_iff_of_injective fun _ _ => String.ofList_injective]
  simp only [startsWith, Bool.or_eq_true, decide_eq_true_eq, List.isPrefixOf_iff_prefix]
  constructor
  · rintro (rfl | ⟨cs, hcs⟩)
    · exact List.prefix_rfl
    · rw [← hcs, List.append_assoc]
      exact ⟨split cs, (q.split_chars_append cs).symm⟩
  · rintro ⟨ts, hts⟩
    by_cases h : ts = []
    · rw [h, List.append_nil] at hts
      exact .inl (ext (by rw [← intercalate_split p.chars, ← hts, intercalate_split]))
    · refine .inr ⟨[':', ':'].intercalate ts, ?_⟩
      rw [← intercalate_split p.chars, ← hts, intercalate_append (split_ne_nil _) h,
        intercalate_split, List.append_assoc]
      rfl

theorem exists_longest_common {α : Type} [BEq α] [LawfulBEq α] (xs ys : List α) :
    ∃ l, l <+: xs ∧ l <+: ys ∧ l.length = ((xs.zip ys).takeWhile fun (a, b) => a == b).length ∧
      ∀ k, k <+: xs → k <+: ys → k <+: l := by
  induction xs generalizing ys with
  | nil => exact ⟨[], by simp, by simp, by simp, fun _ h _ => h⟩
  | cons x xs ih =>
    cases ys with
    | nil => exact ⟨[], by simp, by simp, by simp, fun _ _ h => h⟩
    | cons y ys =>
      by_cases hxy : x = y
      · subst hxy
        obtain ⟨l, hx, hy, hlen, hmax⟩ := ih ys
        refine ⟨x :: l, by simpa using hx, by simpa using hy, by simpa using hlen,
          fun k hk hk' => ?_⟩
        cases k with
        | nil => simp
        | cons z k =>
          obtain ⟨rfl, hkx⟩ := List.cons_prefix_cons.1 hk
          exact List.cons_prefix_cons.2 ⟨rfl, hmax k hkx (List.cons_prefix_cons.1 hk').2⟩
      · refine ⟨[], by simp, by simp, by simp [hxy], fun k hk hk' => ?_⟩
        cases k with
        | nil => simp
        | cons z k =>
          exact absurd ((List.cons_prefix_cons.1 hk).1.symm.trans
            (List.cons_prefix_cons.1 hk').1) hxy

/-- Texts are paths as rows of segments are, and every question to paths is answered as it would be
for their rows. -/
theorem text_reads_as_segments (s : String) (p q : Path) :
    ((∃ r, ofText s = .ok r) ↔
      ∃ l : List String, l ≠ [] ∧ (∀ t ∈ l, IsSegment t.toList) ∧ "::".intercalate l = s) ∧
    (∀ r, ofText s = .ok r → r.text = s) ∧
    "::".intercalate p.segments = p.text ∧
    p.segments.getLast? = some p.name ∧
    p.package.map segments = (if p.segments.length = 1 then none else some p.segments.dropLast) ∧
    (∀ r, p.package = some r → ofText r.text = .ok r) ∧
    ((∃ r, p.child s = .ok r) ↔ ∃ r, ofText s = .ok r) ∧
    (∀ r t, p.child s = .ok r → ofText s = .ok t → r.segments = p.segments ++ t.segments) ∧
    (p.startsWith q = true ↔ q.segments <+: p.segments) ∧
    ∃ l, l <+: p.segments ∧ l <+: q.segments ∧ l.length = p.commonPrefixLength q ∧
      ∀ k, k <+: p.segments → k <+: q.segments → k <+: l := by
  refine ⟨?_, fun r => ofText_eq_ok_iff.1, p.intercalate_segments, by simp [segments_eq p],
    p.package_map_segments, fun r _ => ofText_eq_ok_iff.2 rfl, ?_, fun r t hr ht => ?_,
    startsWith_iff,
    exists_longest_common p.segments q.segments⟩
  · rw [exists_ofText_iff, fault?_eq_none_iff_row]
    constructor
    · rintro ⟨ss, hne, hss, hjoin⟩
      refine ⟨ss.map String.ofList, by simpa using hne, by simpa using hss, ?_⟩
      rw [← String.toList_inj, String.toList_intercalate, ← hjoin]
      simp [Function.comp_def]
    · rintro ⟨l, hne, hl, rfl⟩
      exact ⟨l.map String.toList, by simpa using hne, by simpa using hl, by simp⟩
  · constructor
    · rintro ⟨r, hr⟩
      obtain ⟨t, ht, -⟩ := child_eq_ok_iff.1 hr
      exact ⟨t, ht⟩
    · rintro ⟨t, ht⟩
      exact exists_child p ht
  · obtain ⟨t', ht', hsegments⟩ := child_eq_ok_iff.1 hr
    rw [hsegments, Except.ok.inj (ht'.symm.trans ht)]

end ModelCompiler.Path
