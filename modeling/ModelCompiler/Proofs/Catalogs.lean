import Mathlib
import ModelCompiler.Catalog

/-!
Catalogs as maps. The names are in ascending order, so each name has one entry.
-/
namespace ModelCompiler.Catalog

variable {α : Type} {c : Catalog α} {n m : String} {a : α}

theorem find?_empty (n : String) : (∅ : Catalog α).find? n = none :=
  rfl

theorem lookup_cons_if (k : String) (b : α) (es : List (String × α)) (m : String) :
    ((k, b) :: es).lookup m = if m = k then some b else es.lookup m := by
  rw [List.lookup_cons]
  by_cases h : m = k
  · simp [h]
  · simp [h, beq_eq_false_iff_ne.2 h]

theorem lookup_insertEntry (n : String) (a : α) (m : String) : ∀ es : List (String × α),
    (insertEntry n a es).lookup m = if m = n then some a else es.lookup m
  | [] => lookup_cons_if n a [] m
  | (k, b) :: es => by
    have ih := lookup_insertEntry n a m es
    unfold insertEntry
    split
    · rename_i hnk
      simp only [lookup_cons_if, hnk]
      split <;> rfl
    · split
      · rw [lookup_cons_if]
      · rename_i hnk _
        rw [lookup_cons_if, ih, lookup_cons_if]
        by_cases h : m = n
        · simp [h, hnk]
        · simp [h]

theorem find?_insert (c : Catalog α) (n : String) (a : α) (m : String) :
    (c.insert n a).find? m = if m = n then some a else c.find? m :=
  lookup_insertEntry n a m c.entries

theorem find?_erase (c : Catalog α) (n m : String) :
    (c.erase n).find? m = if m = n then none else c.find? m := by
  obtain ⟨es⟩ := c
  simp only [find?, erase]
  induction es with
  | nil => simp
  | cons e es ih =>
    obtain ⟨k, b⟩ := e
    by_cases hk : k = n
    · rw [List.filter_cons_of_neg (by simpa using hk), ih, lookup_cons_if, hk]
      split <;> rfl
    · rw [List.filter_cons_of_pos (by simpa using hk), lookup_cons_if, ih, lookup_cons_if]
      by_cases hm : m = n
      · simp [hm, Ne.symm hk]
      · simp [hm]

theorem find?_modify (c : Catalog α) (n : String) (f : α → α) (m : String) :
    (c.modify n f).find? m = if m = n then (c.find? m).map f else c.find? m := by
  obtain ⟨es⟩ := c
  simp only [find?, modify]
  induction es with
  | nil => simp
  | cons e es ih =>
    obtain ⟨k, b⟩ := e
    rw [List.map_cons, lookup_cons_if]
    by_cases hk : k = n
    · rw [if_pos hk, lookup_cons_if, ih, hk]
      by_cases hm : m = n <;> simp [hm]
    · rw [if_neg hk, lookup_cons_if, ih]
      by_cases hm : m = k <;> simp [hm, hk]

def Sorted (c : Catalog α) : Prop :=
  c.names.Pairwise (· < ·)

theorem sorted_empty : (∅ : Catalog α).Sorted :=
  List.Pairwise.nil

theorem mem_names_insertEntry : ∀ es : List (String × α),
    m ∈ (insertEntry n a es).map (·.1) ↔ m = n ∨ m ∈ es.map (·.1)
  | [] => by simp [insertEntry]
  | (k, b) :: es => by
    unfold insertEntry
    split
    · rename_i h
      simp [h]
    · split
      · simp
      · simp only [List.map_cons, List.mem_cons, mem_names_insertEntry es]
        tauto

theorem Sorted.insert (h : c.Sorted) (n : String) (a : α) : (c.insert n a).Sorted := by
  obtain ⟨es⟩ := c
  simp only [Sorted, names, Catalog.insert] at h ⊢
  induction es with
  | nil => simp [insertEntry]
  | cons e es ih =>
    obtain ⟨k, b⟩ := e
    rw [List.map_cons, List.pairwise_cons] at h
    unfold insertEntry
    split
    · rename_i hnk
      rw [List.map_cons, List.pairwise_cons, hnk]
      exact h
    · split
      · rename_i hlt
        rw [List.map_cons, List.map_cons, List.pairwise_cons, List.pairwise_cons]
        refine ⟨fun m hm => ?_, h⟩
        rcases List.mem_cons.1 hm with rfl | hm
        · exact hlt
        · exact hlt.trans (h.1 m hm)
      · rename_i hne hlt
        rw [List.map_cons, List.pairwise_cons]
        refine ⟨fun m hm => ?_, ih h.2⟩
        rcases (mem_names_insertEntry es).1 hm with rfl | hm
        · exact lt_of_le_of_ne (not_lt.1 hlt) (Ne.symm hne)
        · exact h.1 m hm

theorem Sorted.erase (h : c.Sorted) (n : String) : (c.erase n).Sorted :=
  List.Pairwise.sublist (List.filter_sublist.map _) h

theorem names_modify (c : Catalog α) (n : String) (f : α → α) : (c.modify n f).names = c.names := by
  simp only [names, modify, List.map_map]
  refine List.map_congr_left fun e _ => ?_
  simp only [Function.comp_apply]
  split <;> rfl

theorem Sorted.modify (h : c.Sorted) (n : String) (f : α → α) : (c.modify n f).Sorted := by
  rw [Sorted, names_modify]
  exact h

theorem mem_entries_of_find? (h : c.find? n = some a) : (n, a) ∈ c.entries := by
  obtain ⟨es⟩ := c
  simp only [find?] at h
  induction es with
  | nil => simp at h
  | cons e es ih =>
    obtain ⟨k, b⟩ := e
    rw [lookup_cons_if] at h
    split at h
    · rename_i hk
      simp_all
    · exact List.mem_cons_of_mem _ (ih h)

theorem forall_entries_insert {P : String × α → Prop} (h : ∀ e ∈ c.entries, P e) (hn : P (n, a)) :
    ∀ e ∈ (c.insert n a).entries, P e := by
  obtain ⟨es⟩ := c
  show ∀ e ∈ insertEntry n a es, P e
  induction es with
  | nil => simpa [insertEntry] using hn
  | cons e es ih =>
    obtain ⟨he, hes⟩ := List.forall_mem_cons.1 h
    unfold insertEntry
    split
    · exact List.forall_mem_cons.2 ⟨hn, hes⟩
    · split
      · exact List.forall_mem_cons.2 ⟨hn, h⟩
      · exact List.forall_mem_cons.2 ⟨he, ih hes⟩

theorem forall_entries_modify {P : String × α → Prop} {f : α → α} (h : ∀ e ∈ c.entries, P e)
    (hf : ∀ e, P e → P (e.1, f e.2)) : ∀ e ∈ (c.modify n f).entries, P e := by
  intro e he
  obtain ⟨e', he', rfl⟩ := List.mem_map.1 he
  dsimp only
  split
  · exact hf e' (h e' he')
  · exact h e' he'

theorem Sorted.mem_entries_iff (h : c.Sorted) : (n, a) ∈ c.entries ↔ c.find? n = some a := by
  refine ⟨fun hmem => ?_, mem_entries_of_find?⟩
  obtain ⟨es⟩ := c
  simp only [Sorted, names, find?] at h ⊢
  induction es with
  | nil => simp at hmem
  | cons e es ih =>
    obtain ⟨k, b⟩ := e
    rw [List.map_cons, List.pairwise_cons] at h
    rcases List.mem_cons.1 hmem with hmem | hmem
    · obtain ⟨rfl, rfl⟩ := Prod.mk.inj hmem
      simp
    · have hne : n ≠ k := (h.1 n (List.mem_map_of_mem hmem)).ne'
      rw [lookup_cons_if, if_neg hne, ih h.2 hmem]

theorem mem_names_iff : n ∈ c.names ↔ (c.find? n).isSome = true := by
  obtain ⟨es⟩ := c
  simp only [names, find?]
  induction es with
  | nil => simp
  | cons e es ih =>
    obtain ⟨k, b⟩ := e
    by_cases h : n = k <;> simp [lookup_cons_if, h, ih]

theorem eq_empty (h : ∀ n, c.find? n = none) : c = ∅ := by
  have hnames : c.names = [] := List.eq_nil_iff_forall_not_mem.2 fun n hn => by
    simp [mem_names_iff, h] at hn
  obtain ⟨es⟩ := c
  obtain rfl := List.map_eq_nil_iff.1 hnames
  rfl

def Revised (f : String → α → α) (names : List String) (c c' : Catalog α) : Prop :=
  ∀ n, c'.find? n = if n ∈ names then (c.find? n).map (f n) else c.find? n

theorem revised_nil (f : String → α → α) (c : Catalog α) : Revised f [] c c := by
  simp [Revised]

theorem revised_modify (f : String → α → α) (c : Catalog α) (n : String) :
    Revised f [n] c (c.modify n (f n)) := by
  intro m
  rw [find?_modify]
  by_cases h : m = n <;> simp [h]

theorem Revised.concat {f : String → α → α} {names : List String} {c' d : Catalog α}
    (h : Revised f names c c') (h' : Revised f [n] c' d) (hf : ∀ n a, f n (f n a) = f n a) :
    Revised f (names ++ [n]) c d := by
  intro m
  rw [h' m, h m]
  by_cases hm : m = n
  · by_cases hn : n ∈ names <;> simp [hm, hn, Function.comp_def, hf]
  · simp [hm]

section Amended

variable {β : Type} {f : β → Option α → Option α} {changes : List (String × β)} {b : β}
  {c' d : Catalog α}

def Amended (f : β → Option α → Option α) (changes : List (String × β)) (c c' : Catalog α) : Prop :=
  ∀ n, c'.find? n = match changes.lookup n with
    | some b => f b (c.find? n)
    | none => c.find? n

theorem amended_nil (f : β → Option α → Option α) (c : Catalog α) : Amended f [] c c :=
  fun _ => rfl

theorem Amended.concat (h : Amended f changes c c') (hn : changes.lookup n = none)
    (h' : ∀ m, d.find? m = if m = n then f b (c'.find? m) else c'.find? m) :
    Amended f (changes ++ [(n, b)]) c d := by
  intro m
  rw [h' m, h m, List.lookup_append, lookup_cons_if, List.lookup_nil]
  by_cases hm : m = n
  · subst hm
    simp [hn]
  · simp [hm]

theorem Sorted.lookup_eq_none (h : c.Sorted) {done rest : List (String × α)}
    (hc : c.entries = done ++ (n, a) :: rest) : done.lookup n = none := by
  have hsorted : (done.map (·.1) ++ n :: rest.map (·.1)).Pairwise (· < ·) := by
    simpa [Sorted, names, hc] using h
  rw [List.lookup_eq_none_iff]
  intro e he
  simpa using ne_of_gt ((List.pairwise_append.1 hsorted).2.2 e.1
    (List.mem_map_of_mem he) n (by simp))

theorem find?_foldl_erase (m : String) : ∀ (gone : List String) (c : Catalog α),
    (gone.foldl erase c).find? m = if m ∈ gone then none else c.find? m
  | [], c => by simp
  | n :: gone, c => by
    rw [List.foldl_cons, find?_foldl_erase m gone, find?_erase]
    by_cases hm : m = n <;> simp [hm]

theorem Sorted.foldl_erase : ∀ (gone : List String) {c : Catalog α}, c.Sorted →
    (gone.foldl Catalog.erase c).Sorted
  | [], _, h => h
  | n :: gone, _, h => Sorted.foldl_erase gone (h.erase n)

end Amended

end ModelCompiler.Catalog
