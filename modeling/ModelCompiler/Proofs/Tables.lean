import Mathlib
import ModelCompiler.Table

/-!
What the operations of a table do to look-ups, to the lists of an index and to the keys.
-/
namespace ModelCompiler.Table

variable {κ α : Type} [DecidableEq κ]

theorem lookup_cons_of_ne {i j : κ} (h : j ≠ i) (a : α) (es : List (κ × α)) :
    ((i, a) :: es).lookup j = es.lookup j := by
  have hb : (j == i) = false := by simpa using h
  simp [List.lookup_cons, hb]

@[simp]
theorem find?_empty (k : κ) : (∅ : Table κ α).find? k = none := rfl

omit [DecidableEq κ] in
@[simp]
theorem keys_empty : (∅ : Table κ α).keys = [] := rfl

theorem contains_eq_isSome (t : Table κ α) (k : κ) : t.contains k = (t.find? k).isSome := rfl

theorem find?_modify (t : Table κ α) (k j : κ) (f : α → α) :
    (t.modify k f).find? j = if j = k then (t.find? j).map f else t.find? j := by
  obtain ⟨es⟩ := t
  simp only [find?, modify]
  induction es with
  | nil => simp
  | cons e es ih =>
    obtain ⟨i, a⟩ := e
    by_cases hji : j = i
    · subst hji
      by_cases hjk : j = k <;> simp [hjk]
    · rw [lookup_cons_of_ne hji, ← ih, List.map_cons]
      by_cases hik : i = k
      · simp only [hik, if_true]
        exact lookup_cons_of_ne (fun h => hji (h.trans hik.symm)) _ _
      · simp only [hik, if_false]
        exact lookup_cons_of_ne hji _ _

theorem lookup_append_singleton (es : List (κ × α)) (k j : κ) (a : α) :
    (es ++ [(k, a)]).lookup j = (es.lookup j).or (if j = k then some a else none) := by
  induction es with
  | nil =>
    by_cases h : j = k
    · simp [h]
    · simp [lookup_cons_of_ne h, h]
  | cons e es ih =>
    obtain ⟨i, b⟩ := e
    by_cases h : j = i
    · simp [h]
    · rw [List.cons_append, lookup_cons_of_ne h, lookup_cons_of_ne h, ih]

theorem find?_insert (t : Table κ α) (k j : κ) (a : α) :
    (t.insert k a).find? j = if j = k then some a else t.find? j := by
  unfold insert
  by_cases hc : t.contains k = true
  · rw [if_pos hc, find?_modify]
    by_cases hj : j = k
    · subst hj
      obtain ⟨b, hb⟩ := Option.isSome_iff_exists.1 hc
      simp [hb]
    · simp [hj]
  · have hk : t.find? k = none := by simpa [contains] using hc
    rw [if_neg hc]
    show (t.entries ++ [(k, a)]).lookup j = _
    rw [lookup_append_singleton]
    by_cases hj : j = k
    · subst hj
      have : t.entries.lookup j = none := hk
      simp [this]
    · simp [hj, find?]

theorem find?_erase (t : Table κ α) (k j : κ) :
    (t.erase k).find? j = if j = k then none else t.find? j := by
  obtain ⟨es⟩ := t
  simp only [find?, erase]
  induction es with
  | nil => simp
  | cons e es ih =>
    obtain ⟨i, a⟩ := e
    by_cases hik : i = k
    · subst hik
      by_cases hji : j = i
      · subst hji; simpa using ih
      · rw [lookup_cons_of_ne hji]
        simpa [hji] using ih
    · rw [List.filter_cons_of_pos (by simpa using hik)]
      by_cases hji : j = i
      · subst hji; simp [hik]
      · rw [lookup_cons_of_ne hji, lookup_cons_of_ne hji, ih]

theorem keys_modify (t : Table κ α) (k : κ) (f : α → α) : (t.modify k f).keys = t.keys := by
  simp only [keys, modify, List.map_map]
  apply List.map_congr_left
  rintro ⟨j, a⟩ -
  by_cases h : j = k <;> simp [h]

theorem contains_iff_mem_keys (t : Table κ α) (k : κ) : t.contains k = true ↔ k ∈ t.keys := by
  obtain ⟨es⟩ := t
  simp only [contains, find?, keys]
  induction es with
  | nil => simp
  | cons e es ih =>
    obtain ⟨i, a⟩ := e
    by_cases h : k = i
    · simp [h]
    · rw [lookup_cons_of_ne h, ih]
      simp [h]

theorem mem_keys_iff {t : Table κ α} {k : κ} : k ∈ t.keys ↔ ∃ a, t.find? k = some a := by
  rw [← contains_iff_mem_keys, contains, Option.isSome_iff_exists]

theorem keys_insert (t : Table κ α) (k : κ) (a : α) :
    (t.insert k a).keys = if k ∈ t.keys then t.keys else t.keys ++ [k] := by
  unfold insert
  by_cases h : t.contains k = true
  · rw [if_pos h, keys_modify, if_pos ((contains_iff_mem_keys t k).1 h)]
  · rw [if_neg h, if_neg fun hk => h ((contains_iff_mem_keys t k).2 hk)]
    simp [keys]

theorem nodup_keys_insert {t : Table κ α} (h : t.keys.Nodup) (k : κ) (a : α) :
    (t.insert k a).keys.Nodup := by
  rw [keys_insert]
  split
  · exact h
  · rename_i hk
    exact List.Nodup.append h (List.nodup_singleton k) (by simpa using hk)

theorem keys_erase (t : Table κ α) (k : κ) : (t.erase k).keys = t.keys.filter (· ≠ k) := by
  simp only [keys, erase, List.filter_map]
  rfl

theorem nodup_keys_erase {t : Table κ α} (h : t.keys.Nodup) (k : κ) : (t.erase k).keys.Nodup := by
  rw [keys_erase]
  exact h.filter _

theorem erase_of_not_contains {t : Table κ α} {k : κ} (h : t.contains k = false) :
    t.erase k = t := by
  obtain ⟨es⟩ := t
  have hk : k ∉ es.map (·.1) := fun hm => by
    simp [(contains_iff_mem_keys ⟨es⟩ k).2 hm] at h
  simp only [erase, mk.injEq, List.filter_eq_self]
  intro e he
  have : e.1 ≠ k := fun hek => hk (List.mem_map.2 ⟨e, he, hek⟩)
  simpa using this

theorem mem_entries_of_find? {t : Table κ α} {k : κ} {a : α} (h : t.find? k = some a) :
    (k, a) ∈ t.entries := by
  obtain ⟨l₁, l₂, he, -⟩ := List.lookup_eq_some_iff.1 h
  simp [he]

theorem forall_entries_insert {t : Table κ α} {P : κ × α → Prop} (h : ∀ e ∈ t.entries, P e) {k : κ}
    {a : α} (hk : P (k, a)) : ∀ e ∈ (t.insert k a).entries, P e := by
  unfold insert
  split
  · intro e he
    simp only [modify, List.mem_map] at he
    obtain ⟨f, hf, rfl⟩ := he
    split
    · rename_i hfk
      exact hfk ▸ hk
    · exact h f hf
  · intro e he
    rcases List.mem_append.1 he with he | he
    · exact h e he
    · exact List.mem_singleton.1 he ▸ hk

theorem mem_entries_iff {t : Table κ α} (h : t.keys.Nodup) {k : κ} {a : α} :
    (k, a) ∈ t.entries ↔ t.find? k = some a := by
  obtain ⟨es⟩ := t
  simp only [find?, keys] at h ⊢
  induction es with
  | nil => simp
  | cons e es ih =>
    obtain ⟨i, b⟩ := e
    simp only [List.map_cons, List.nodup_cons] at h
    by_cases hki : k = i
    · subst hki
      have hk : (k, a) ∉ es := fun hm => h.1 (List.mem_map.2 ⟨_, hm, rfl⟩)
      simp [hk, eq_comm]
    · rw [lookup_cons_of_ne hki, ← ih h.2]
      simp [hki]

section Index

variable {β : Type}

@[simp]
theorem values_empty (k : κ) : (∅ : Table κ (List β)).values k = [] := rfl

theorem values_eq_of_find? {t : Table κ (List β)} {k : κ} {bs : List β}
    (h : t.find? k = some bs) : t.values k = bs := by
  simp [values, h]

theorem values_eq_nil_of_find? {t : Table κ (List β)} {k : κ} (h : t.find? k = none) :
    t.values k = [] := by
  simp [values, h]

theorem values_of_not_mem_keys {t : Table κ (List β)} {k : κ} (h : k ∉ t.keys) :
    t.values k = [] :=
  values_eq_nil_of_find? (Option.eq_none_iff_forall_ne_some.2 fun bs hbs =>
    h (mem_keys_iff.2 ⟨bs, hbs⟩))

theorem values_insert (t : Table κ (List β)) (k j : κ) (bs : List β) :
    (t.insert k bs).values j = if j = k then bs else t.values j := by
  simp only [values, find?_insert]
  split <;> simp

theorem values_erase (t : Table κ (List β)) (k j : κ) :
    (t.erase k).values j = if j = k then [] else t.values j := by
  simp only [values, find?_erase]
  split <;> simp

theorem values_push (t : Table κ (List β)) (k j : κ) (b : β) :
    (t.push k b).values j = if j = k then t.values k ++ [b] else t.values j :=
  values_insert t k j _

theorem nodup_keys_push {t : Table κ (List β)} (h : t.keys.Nodup) (k : κ) (b : β) :
    (t.push k b).keys.Nodup :=
  nodup_keys_insert h k _

variable [DecidableEq β]

theorem values_drop (t : Table κ (List β)) (k j : κ) (b : β) :
    (t.drop k b).values j = if j = k then (t.values k).filter (· ≠ b) else t.values j := by
  unfold drop
  cases hf : t.find? k with
  | none =>
    by_cases hj : j = k
    · subst hj; simp [values, hf]
    · simp [hj]
  | some bs =>
    rw [values_eq_of_find? hf]
    simp only
    split
    · rename_i hr
      rw [values_erase, hr]
    · rw [values_insert]

theorem nodup_keys_drop {t : Table κ (List β)} (h : t.keys.Nodup) (k : κ) (b : β) :
    (t.drop k b).keys.Nodup := by
  unfold drop
  split
  · exact h
  · split
    · exact nodup_keys_erase h k
    · exact nodup_keys_insert h k _

end Index

end ModelCompiler.Table
