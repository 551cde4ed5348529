import ModelCompiler.Handler.Usage
import ModelCompiler.Proofs.Store.Remove

/-!
Stripping an element.
-/
namespace ModelCompiler

open Handler

namespace Graph

abbrev Ref := NodeId × String × NodeId

def Ref.of (u : Usage) : Ref :=
  (u.user, u.property, u.target)

def forget (g : Graph) (r : Ref) : Graph :=
  if r.2.2 ∈ g.values r.1 r.2.1 then g.unlink r.1 r.2.1 r.2.2 else g

variable {g : Graph} {tree : List NodeId} {m : NodeId} {own : Option SourceId} {r : Ref}
  {s : SourceId} {q : String} {c : Usage → Bool}

section Forget

theorem Coherent.trims_forget (hc : g.Coherent) (r : Ref) : Trims g (g.forget r) ∧
    (g.forget r).Coherent := by
  unfold forget
  split
  · rename_i h
    exact ⟨trims_unlink (contains_of_mem_values h), hc.unlink h⟩
  · exact ⟨.refl g, hc⟩

theorem values_forget (g : Graph) (r : Ref) (j : NodeId) (q : String) :
    (g.forget r).values j q =
      if j = r.1 ∧ q = r.2.1 then (g.values j q).erase r.2.2 else g.values j q := by
  unfold forget
  split
  · rename_i h
    rw [values_unlink (contains_of_mem_values h)]
    split
    · rename_i hjq
      rw [hjq.1, hjq.2]
    · rfl
  · rename_i h
    split
    · rename_i hjq
      rw [hjq.1, hjq.2, List.erase_of_not_mem h]
    · rfl

theorem usages_forget (hc : g.Coherent) (r : Ref) :
    (g.forget r).usages = g.usages.eraseP fun u => Ref.of u = r := by
  have hpred : (fun u : Usage => decide (Ref.of u = r)) =
      fun u => u.user = r.1 && u.property = r.2.1 && u.target = r.2.2 := by
    funext u
    obtain ⟨a, p, v⟩ := r
    simp [Ref.of, Bool.and_assoc]
  unfold forget
  split
  · rw [usages_unlink, hpred]
  · rename_i h
    rw [List.eraseP_of_forall_not]
    intro u hu he
    obtain rfl : Ref.of u = r := by simpa using he
    exact h (hc.target_mem_values hu)

theorem forget_all (hc : g.Coherent) : ∀ refs : List Ref,
    Trims g (refs.foldl forget g) ∧ (refs.foldl forget g).Coherent := by
  intro refs
  induction refs generalizing g with
  | nil => exact ⟨.refl g, hc⟩
  | cons r refs ih =>
    obtain ⟨t, hc'⟩ := hc.trims_forget r
    obtain ⟨t', hc''⟩ := ih hc'
    exact ⟨t.trans t', hc''⟩

theorem removeReferences_eq : ∀ {refs : List Ref} {g : Graph}, g.Coherent →
    (∀ r ∈ refs, g.contains r.1 = true) →
    removeReferences g refs = .ok (refs.foldl forget g)
  | [], _, _, _ => rfl
  | r :: refs, g, hc, h => by
    obtain ⟨t, hc'⟩ := hc.trims_forget r
    have hstep : (g.removeValue r.1 r.2.1 r.2.2).map (·.2) = .ok (g.forget r) := by
      rw [removeValue_eq (h r List.mem_cons_self), forget]
      split <;> rfl
    have ih : removeReferences (g.forget r) refs = .ok (refs.foldl forget (g.forget r)) :=
      removeReferences_eq hc' fun s hs => by
        rw [contains_congr t.frame]
        exact h s (List.mem_cons_of_mem _ hs)
    obtain ⟨a, p, v⟩ := r
    simp only [removeReferences, List.foldlM_cons, hstep, bind, Except.bind, List.foldl_cons]
    exact ih

def holding (g : Graph) (r : Ref) (c : Usage → Bool) : Nat :=
  g.usages.countP fun u => Ref.of u = r && c u

theorem holding_pos_iff :
    0 < g.holding r c ↔ ∃ u ∈ g.usages, Ref.of u = r ∧ c u = true := by
  simp [holding, List.countP_pos_iff]

/-- The newest usage of a reference satisfies the condition if one of its usages does. -/
def NewestFirst (g : Graph) (c : Usage → Bool) : Prop :=
  ∀ r u l₁ l₂, g.usages = l₁ ++ u :: l₂ → Ref.of u = r → (∀ v ∈ l₁, Ref.of v ≠ r) →
    0 < g.holding r c → c u = true

theorem newestFirst_true (g : Graph) : g.NewestFirst fun _ => true :=
  fun _ _ _ _ _ _ _ _ => rfl

theorem Flagged.newestFirst (hf : g.Flagged) : g.NewestFirst (·.back) := by
  intro r u l₁ l₂ hl hu hl₁ hpos
  obtain ⟨v, hv, hvr, hback⟩ := holding_pos_iff.1 hpos
  rw [hl] at hv
  rcases List.mem_append.1 hv with hv | hv
  · exact absurd hvr (hl₁ v hv)
  · rcases List.mem_cons.1 hv with rfl | hv
    · exact hback
    · have hrise := (List.pairwise_append.1 (hl ▸ hf.rising)).2.1
      refine (List.pairwise_cons.1 hrise).1 v hv ?_ hback
      exact congrArg (·.2.1) (hu.trans hvr.symm)

theorem holding_forget (hc : g.Coherent) (hfirst : g.NewestFirst c) (r s : Ref) :
    (g.forget s).holding r c = if r = s then g.holding r c - 1 else g.holding r c := by
  rw [holding, usages_forget hc]
  by_cases hs : ∃ u ∈ g.usages, Ref.of u = s
  · obtain ⟨u, hu, hus⟩ := hs
    obtain ⟨v, l₁, l₂, hl₁, hv, hl, he⟩ := List.exists_of_eraseP hu
      (p := fun u => decide (Ref.of u = s)) (by simpa using hus)
    have hvs : Ref.of v = s := by simpa using hv
    have hl₁' : ∀ w ∈ l₁, Ref.of w ≠ s := by simpa using hl₁
    rw [he, holding, hl]
    simp only [List.countP_append, List.countP_cons]
    by_cases hrs : r = s
    · subst hrs
      have hz : l₁.countP (fun u => decide (Ref.of u = r) && c u) = 0 := by
        rw [List.countP_eq_zero]
        intro w hw
        simp [hl₁' w hw]
      by_cases hcv : c v = true
      · simp [hvs, hcv, hz]
      · have hnone : ¬ 0 < g.holding r c := fun h => hcv (hfirst r v l₁ l₂ hl hvs hl₁' h)
        rw [holding, hl] at hnone
        simp only [List.countP_append, List.countP_cons] at hnone
        simp only [if_true]
        omega
    · have : ¬ (Ref.of v = r) := fun h => hrs (h.symm.trans hvs)
      simp [hrs, this]
  · rw [List.eraseP_of_forall_not]
    · split
      · rename_i hrs
        subst hrs
        have : g.holding r c = 0 := by
          by_contra hne
          obtain ⟨u, hu, hur, -⟩ := holding_pos_iff.1 (Nat.pos_of_ne_zero hne)
          exact hs ⟨u, hu, hur⟩
        rw [this]
        exact this
      · rfl
    · intro u hu he
      exact hs ⟨u, hu, by simpa using he⟩

theorem holding_forget_all {P : Graph → Prop}
    (hstep : ∀ (h : Graph) r, h.Coherent → P h → P (h.forget r))
    (hfirst : ∀ h, P h → NewestFirst h c) :
    ∀ (refs : List Ref) {g : Graph}, g.Coherent → P g →
      ∀ r, (refs.foldl forget g).holding r c = g.holding r c - refs.count r
  | [], _, _, _, r => by simp
  | s :: refs, g, hc, hP, r => by
    rw [List.foldl_cons, holding_forget_all hstep hfirst refs (hc.trims_forget s).2
      (hstep g s hc hP), holding_forget hc (hfirst g hP), List.count_cons]
    by_cases hrs : r = s
    · simp [hrs]
      omega
    · simp [hrs, Ne.symm hrs]

theorem Flagged.forget (hf : g.Flagged) (hc : g.Coherent) (r : Ref) : (g.forget r).Flagged := by
  obtain ⟨t, -⟩ := hc.trims_forget r
  exact hf.of_sublist t.usages (backReferences_congr t.frame)

theorem not_held_of_count (hc : g.Coherent) (refs : List Ref) (r : Ref)
    (h : g.holding r (fun _ => true) ≤ refs.count r) :
    ∀ u ∈ (refs.foldl Graph.forget g).usages, Ref.of u ≠ r := by
  intro u hu hur
  have := holding_forget_all (P := fun _ => True) (fun _ _ _ _ => trivial)
    (fun h _ => newestFirst_true h) refs hc trivial r
  have hpos : 0 < (refs.foldl Graph.forget g).holding r fun _ => true :=
    holding_pos_iff.2 ⟨u, hu, hur, rfl⟩
  omega

theorem not_held_back_of_count (hc : g.Coherent) (hf : g.Flagged) (refs : List Ref) (r : Ref)
    (h : g.holding r (·.back) ≤ refs.count r) :
    ∀ u ∈ (refs.foldl Graph.forget g).usages, u.back = true → Ref.of u ≠ r := by
  intro u hu hback hur
  have := holding_forget_all (P := Flagged) (fun _ r hc hf => hf.forget hc r)
    (fun _ hf => hf.newestFirst) refs hc hf r
  have hpos : 0 < (refs.foldl Graph.forget g).holding r (·.back) :=
    holding_pos_iff.2 ⟨u, hu, hur, hback⟩
  omega

end Forget

section Strip

variable {g : Graph} {x : NodeId}

def reset (g : Graph) (id : NodeId) : Graph :=
  if g.isImportStub id then g.purge id "resolvedNode"
  else if g.isPropertyStub id then g.purge id "resolvedProperty"
  else g

def strip (g : Graph) (x : NodeId) : Graph :=
  let held := (heldByOthers g (g.tree x)).foldl forget g
  let own := (foreignReferences held (held.sourceOf? x) (g.tree x)).foldl forget held
  (g.tree x).foldl reset own

theorem Coherent.reset (hc : g.Coherent) (id : NodeId) : Trims g (g.reset id) ∧
    (g.reset id).Coherent := by
  unfold Graph.reset
  split
  · exact ⟨trims_purge hc.toMirrored _ _, hc.purge _ _⟩
  · split
    · exact ⟨trims_purge hc.toMirrored _ _, hc.purge _ _⟩
    · exact ⟨.refl g, hc⟩

theorem Coherent.reset_all (hc : g.Coherent) : ∀ ids : List NodeId,
    Trims g (ids.foldl Graph.reset g) ∧ (ids.foldl Graph.reset g).Coherent := by
  intro ids
  induction ids generalizing g with
  | nil => exact ⟨.refl g, hc⟩
  | cons id ids ih =>
    obtain ⟨t, hc'⟩ := hc.reset id
    obtain ⟨t', hc''⟩ := ih hc'
    exact ⟨t.trans t', hc''⟩

theorem resetStub_eq (h : g.contains x = true) : resetStub g x = .ok (g.reset x) := by
  unfold resetStub Graph.reset
  split
  · rw [clearProperty_eq h]
    rfl
  · split
    · rw [clearProperty_eq h]
      rfl
    · rfl

theorem foldlM_resetStub_eq : ∀ {ids : List NodeId} {g : Graph}, g.Coherent →
    (∀ id ∈ ids, g.contains id = true) → ids.foldlM resetStub g = .ok (ids.foldl Graph.reset g)
  | [], _, _, _ => rfl
  | id :: ids, g, hc, h => by
    obtain ⟨t, hc'⟩ := hc.reset id
    simp only [List.foldlM_cons, resetStub_eq (h id List.mem_cons_self), bind, Except.bind,
      List.foldl_cons]
    exact foldlM_resetStub_eq hc' fun i hi => by
      rw [contains_congr t.frame]
      exact h i (List.mem_cons_of_mem _ hi)

theorem Coherent.tree_live (hc : g.Coherent) (hx : g.contains x = true)
    (hm : m ∈ g.tree x) : g.contains m = true := by
  rcases List.mem_cons.1 hm with rfl | hm
  · exact hx
  · exact contains_of_lifetime? ((hc.owned_iff x m).1 hm).1

theorem mem_heldByOthers (h : r ∈ heldByOthers g tree) :
    ∃ u ∈ g.usages, r = Ref.of u ∧ u.back = true ∧ u.property ≠ "children" ∧ u.target ∈ tree ∧
      u.user ∉ tree := by
  simp only [heldByOthers, List.mem_map, List.mem_filter, List.mem_flatMap, usagesOf] at h
  obtain ⟨u, ⟨⟨t, ht, hu⟩, hcond⟩, rfl⟩ := h
  simp only [Bool.and_eq_true, decide_eq_true_eq] at hcond
  split at hu
  · rw [List.mem_filter, decide_eq_true_eq] at hu
    exact ⟨u, hu.1, rfl, hcond.1.1, hcond.1.2, hu.2 ▸ ht, hcond.2⟩
  · simp at hu

theorem mem_foreignReferences (hm : g.Mirrored) (h : r ∈ foreignReferences g own tree) :
    r.1 ∈ tree ∧ r.2.2 ∈ g.values r.1 r.2.1 ∧ r.2.2 ∉ tree ∧ isForeign g own r.2.2 = true := by
  simp only [foreignReferences, List.mem_flatMap] at h
  obtain ⟨id, hid, h⟩ := h
  cases hn : g.node? id with
  | none => simp [hn] at h
  | some n =>
    simp only [hn, List.mem_flatMap, List.mem_map, List.mem_filter, Bool.and_eq_true,
      decide_eq_true_eq] at h
    obtain ⟨⟨p, vs⟩, he, v, ⟨hv, hcond⟩, rfl⟩ := h
    refine ⟨hid, ?_, hcond.1, hcond.2⟩
    have hf := (Table.mem_entries_iff (hm.nodup_properties hn)).1 he
    rwa [values_of_node? hn, Node.values, Table.values_eq_of_find? hf]

theorem stripReferences_eq (hc : g.Coherent) (hx : g.contains x = true) :
    stripReferences g x = .ok (g.strip x) := by
  have hheld (r : Ref) (hr : r ∈ heldByOthers g (g.tree x)) : g.contains r.1 = true := by
    obtain ⟨u, hu, rfl, -⟩ := mem_heldByOthers hr
    exact hc.toMirrored.user_live hu
  obtain ⟨t₁, hc₁⟩ := forget_all hc (heldByOthers g (g.tree x))
  have hown (r : Ref) (hr : r ∈ foreignReferences ((heldByOthers g (g.tree x)).foldl forget g)
      (((heldByOthers g (g.tree x)).foldl forget g).sourceOf? x) (g.tree x)) :
      ((heldByOthers g (g.tree x)).foldl forget g).contains r.1 = true :=
    contains_of_mem_values (mem_foreignReferences hc₁.toMirrored hr).2.1
  obtain ⟨t₂, hc₂⟩ := forget_all hc₁ (foreignReferences ((heldByOthers g (g.tree x)).foldl forget g)
    (((heldByOthers g (g.tree x)).foldl forget g).sourceOf? x) (g.tree x))
  simp only [stripReferences, removeReferences_eq hc hheld, removeReferences_eq hc₁ hown, bind,
    Except.bind]
  exact foldlM_resetStub_eq hc₂ fun m hm => by
    rw [contains_congr (t₁.trans t₂).frame]
    exact hc.tree_live hx hm

theorem Coherent.strip (hc : g.Coherent) (x : NodeId) : Trims g (g.strip x) ∧
    (g.strip x).Coherent := by
  obtain ⟨t₁, hc₁⟩ := forget_all hc (heldByOthers g (g.tree x))
  obtain ⟨t₂, hc₂⟩ := forget_all hc₁ (foreignReferences ((heldByOthers g (g.tree x)).foldl forget g)
    (((heldByOthers g (g.tree x)).foldl forget g).sourceOf? x) (g.tree x))
  obtain ⟨t₃, hc₃⟩ := hc₂.reset_all (g.tree x)
  exact ⟨(t₁.trans t₂).trans t₃, hc₃⟩

/-- Every back-reference into the tree from outside is among those to be removed. -/
theorem holding_le_count_held (hm : g.Mirrored) {u : Usage} (hu : u ∈ g.usages)
    (hp : u.property ≠ "children") (ht : u.target ∈ tree) (huser : u.user ∉ tree) :
    g.holding (Ref.of u) (·.back) ≤ (heldByOthers g tree).count (Ref.of u) := by
  have hsub : ((g.usagesOf u.target).filter fun v =>
      v.back && v.property ≠ "children" && v.user ∉ tree).Sublist
      ((tree.flatMap g.usagesOf).filter fun v =>
        v.back && v.property ≠ "children" && v.user ∉ tree) :=
    (List.sublist_flatten_of_mem (List.mem_map_of_mem ht)).filter _
  have hcount : (heldByOthers g tree).count (Ref.of u) =
      ((tree.flatMap g.usagesOf).filter fun v =>
        v.back && v.property ≠ "children" && v.user ∉ tree).countP (Ref.of · = Ref.of u) := by
    rw [heldByOthers, List.count, List.countP_map]
    apply List.countP_congr
    intro v _
    simp [Ref.of]
  rw [hcount]
  refine le_trans ?_ hsub.countP_le
  rw [usagesOf, if_pos (hm.target_live u hu), List.countP_filter, List.countP_filter, holding]
  apply List.countP_mono_left
  intro v _ hv
  simp only [Bool.and_eq_true, decide_eq_true_eq] at hv ⊢
  have h1 : v.user = u.user := congrArg (·.1) hv.1
  have h2 : v.property = u.property := congrArg (·.2.1) hv.1
  have h3 : v.target = u.target := congrArg (·.2.2) hv.1
  rw [h1, h2]
  exact ⟨⟨hv.1, ⟨hv.2, hp⟩, huser⟩, h3⟩

/-- Every reference from the tree to another source is among those to be removed. -/
theorem holding_le_count_foreign (hc : g.Coherent)
    (hid : r.1 ∈ tree) (hv : r.2.2 ∉ tree) (hf : isForeign g own r.2.2 = true) :
    g.holding r (fun _ => true) ≤ (foreignReferences g own tree).count r := by
  obtain ⟨id, p, v⟩ := r
  simp only at hid hv hf
  have htally : g.holding (id, p, v) (fun _ => true) = g.tally id p v := by
    rw [holding, tally]
    apply List.countP_congr
    intro u _
    simp [Ref.of, and_assoc]
  rw [htally]
  cases hn : g.node? id with
  | none =>
    have : ¬ 0 < g.tally id p v := fun h => by
      obtain ⟨b, hb⟩ := tally_pos_iff.1 h
      have := hc.toMirrored.user_live hb
      simp [contains, hn] at this
    omega
  | some n =>
    have hblock : ((references n).filter fun e => e.2 ∉ tree && isForeign g own e.2).map (id, ·) =
        n.properties.entries.flatMap fun e =>
          (e.2.filter fun v => v ∉ tree && isForeign g own v).map (id, e.1, ·) := by
      simp only [references, List.filter_flatMap, List.map_flatMap, List.filter_map, List.map_map]
      rfl
    have hsub : (((references n).filter fun e => e.2 ∉ tree && isForeign g own e.2).map
        (id, ·)).Sublist (foreignReferences g own tree) := by
      rw [hblock, foreignReferences, List.flatMap_def]
      apply List.sublist_flatten_of_mem
      refine List.mem_map.2 ⟨id, hid, ?_⟩
      simp only [hn, List.flatMap_def]
    refine le_trans (le_of_eq ?_) (hsub.count_le _)
    rw [List.count_map_of_injective _ _ (Prod.mk_right_injective id), List.count_filter (by
      simp [hv, hf]), count_references (hc.nodup_properties hn), ← values_of_node? hn]
    by_cases hlive : g.contains v = true
    · exact hc.tally_eq id p v hlive
    · have h1 : v ∉ g.values id p := fun h => hlive (hc.value_live _ _ _ h)
      have h2 : ¬ 0 < g.tally id p v := fun h => by
        obtain ⟨b, hb⟩ := tally_pos_iff.1 h
        exact hlive (hc.target_live _ hb)
      rw [List.count_eq_zero.2 h1]
      omega

/-- The element is free of back-references from outside and of references to other sources, and its
stubs are not bound. -/
structure Stripped (g : Graph) (x : NodeId) : Prop where
  back : ∀ u ∈ g.usages, u.back = true → u.property ≠ "children" → u.target ∈ g.tree x →
    u.user ∈ g.tree x
  foreign : ∀ u ∈ g.usages, u.user ∈ g.tree x → u.target ∉ g.tree x →
    isForeign g (g.sourceOf? x) u.target = false
  importStub : ∀ m ∈ g.tree x, g.isImportStub m = true → g.values m "resolvedNode" = []
  propertyStub : ∀ m ∈ g.tree x, g.isPropertyStub m = true → g.values m "resolvedProperty" = []

theorem isForeign_congr {h : Graph} (e : g.frame = h.frame) (own : Option SourceId) (id : NodeId) :
    isForeign g own id = isForeign h own id := by
  simp only [isForeign, sourceOf?_congr e]

theorem Stripped.of_trims {g' : Graph} (hs : Stripped g x) (t : Trims g g') : Stripped g' x where
  back u hu hb hp ht := by
    rw [tree_congr t.frame] at ht ⊢
    exact hs.back u (t.usages.subset hu) hb hp ht
  foreign u hu huser ht := by
    rw [tree_congr t.frame] at huser ht
    rw [isForeign_congr t.frame, sourceOf?_congr t.frame]
    exact hs.foreign u (t.usages.subset hu) huser ht
  importStub m hm hi := by
    rw [tree_congr t.frame] at hm
    rw [isImportStub_congr t.frame] at hi
    have := t.values m "resolvedNode"
    rw [hs.importStub m hm hi] at this
    exact List.sublist_nil.1 this
  propertyStub m hm hi := by
    rw [tree_congr t.frame] at hm
    rw [isPropertyStub_congr t.frame] at hi
    have := t.values m "resolvedProperty"
    rw [hs.propertyStub m hm hi] at this
    exact List.sublist_nil.1 this

theorem not_isPropertyStub (h : g.isImportStub x = true) : g.isPropertyStub x = false := by
  simp only [isImportStub, decide_eq_true_eq] at h
  simp only [isPropertyStub, h, decide_eq_false_iff_not, Option.some.injEq]
  decide +kernel

theorem reset_all_values (hc : g.Coherent) {ids : List NodeId} (hm : m ∈ ids) :
    (g.isImportStub m = true → (ids.foldl Graph.reset g).values m "resolvedNode" = []) ∧
    (g.isPropertyStub m = true → (ids.foldl Graph.reset g).values m "resolvedProperty" = []) := by
  induction ids generalizing g with
  | nil => simp at hm
  | cons id ids ih =>
    obtain ⟨t, hc'⟩ := hc.reset id
    rw [List.foldl_cons]
    by_cases hmi : m ∈ ids
    · have := ih hc' hmi
      rwa [isImportStub_congr t.frame, isPropertyStub_congr t.frame] at this
    · obtain rfl : m = id := (List.mem_cons.1 hm).resolve_right hmi
      obtain ⟨t', -⟩ := hc'.reset_all ids
      constructor
      · intro hi
        have hz : (g.reset m).values m "resolvedNode" = [] := by
          rw [Graph.reset, if_pos hi, values_purge]
          simp
        exact List.sublist_nil.1 (hz ▸ t'.values m "resolvedNode")
      · intro hp
        have hi : ¬ g.isImportStub m = true := fun h => by simp [not_isPropertyStub h] at hp
        have hz : (g.reset m).values m "resolvedProperty" = [] := by
          rw [Graph.reset, if_neg hi, if_pos hp, values_purge]
          simp
        exact List.sublist_nil.1 (hz ▸ t'.values m "resolvedProperty")

theorem stripped_strip (hc : g.Coherent) (hf : g.Flagged) (x : NodeId) :
    Stripped (g.strip x) x := by
  -- the three stages: back-references from outside, references to other sources, stubs
  obtain ⟨t₁, hc₁⟩ := forget_all hc (heldByOthers g (g.tree x))
  have hback := not_held_back_of_count hc hf (heldByOthers g (g.tree x))
  revert t₁ hc₁ hback
  simp only [strip]
  generalize (heldByOthers g (g.tree x)).foldl forget g = g₁
  intro t₁ hc₁ hback
  obtain ⟨t₂, hc₂⟩ := forget_all hc₁ (foreignReferences g₁ (g₁.sourceOf? x) (g.tree x))
  have hforeign := not_held_of_count hc₁ (foreignReferences g₁ (g₁.sourceOf? x) (g.tree x))
  revert t₂ hc₂ hforeign
  generalize (foreignReferences g₁ (g₁.sourceOf? x) (g.tree x)).foldl forget g₁ = g₂
  intro t₂ hc₂ hforeign
  obtain ⟨t₃, -⟩ := hc₂.reset_all (g.tree x)
  have e := ((t₁.trans t₂).trans t₃).frame
  have hstubs := fun m (hm : m ∈ g.tree x) => reset_all_values hc₂ hm
  refine ⟨fun u hu hb hp ht => ?_, fun u hu huser ht => ?_, fun m hm hi => ?_, fun m hm hi => ?_⟩
  · rw [tree_congr e] at ht ⊢
    by_contra hn
    have hu₁ := (t₂.trans t₃).usages.subset hu
    exact hback (Ref.of u) (holding_le_count_held hc.toMirrored (t₁.usages.subset hu₁) hp ht hn)
      u hu₁ hb rfl
  · rw [tree_congr e] at huser ht
    by_contra hn
    rw [isForeign_congr (t₂.trans t₃).frame, sourceOf?_congr (t₂.trans t₃).frame] at hn
    have hn' : isForeign g₁ (g₁.sourceOf? x) u.target = true := by simpa using hn
    exact hforeign (Ref.of u) (holding_le_count_foreign hc₁ huser ht hn') u
      (t₃.usages.subset hu) rfl
  · rw [tree_congr e] at hm
    rw [isImportStub_congr t₃.frame] at hi
    exact (hstubs m hm).1 hi
  · rw [tree_congr e] at hm
    rw [isPropertyStub_congr t₃.frame] at hi
    exact (hstubs m hm).2 hi

theorem Indexed.not_isPackage_of_tree (hi : g.Indexed)
    (hx : g.lifetime? x = some (.persistent s)) (hm : m ∈ g.tree x) :
    g.isPackage m = false := by
  by_contra hp
  obtain ⟨l, hl, hs⟩ := hi.package_shared m (by simpa using hp)
  rcases List.mem_cons.1 hm with rfl | hm
  · rw [hx] at hl
    simp [← Option.some.inj hl, Lifetime.isShared] at hs
  · rw [((hi.owned_iff x m).1 hm).1] at hl
    simp [← Option.some.inj hl, Lifetime.isShared] at hs

theorem Indexed.isForeign_package (hi : g.Indexed) (hm : g.isPackage m = true)
    (own : Option SourceId) : isForeign g own m = false := by
  obtain ⟨l, hl, hs⟩ := hi.package_shared m hm
  have : g.sourceOf? m = none := by
    rw [sourceOf?_eq, ownerRoot?_eq, hl]
    cases l with
    | bootstrap | implicit => simp [hl]
    | persistent s | ephemeral o => simp [Lifetime.isShared] at hs
  simp [isForeign, this]

theorem values_forget_all : ∀ {refs : List Ref} {g : Graph},
    (∀ r ∈ refs, r.2.1 ≠ q) → ∀ j, (refs.foldl forget g).values j q = g.values j q
  | [], _, _, _ => rfl
  | r :: refs, g, h, j => by
    rw [List.foldl_cons, values_forget_all fun s hs => h s (List.mem_cons_of_mem _ hs),
      values_forget, if_neg fun e => h r List.mem_cons_self e.2.symm]

theorem values_reset (h₁ : q ≠ "resolvedNode") (h₂ : q ≠ "resolvedProperty")
    (g : Graph) (id j : NodeId) : (g.reset id).values j q = g.values j q := by
  unfold Graph.reset
  split
  · rw [values_purge, if_neg fun e => h₁ e.2]
  · split
    · rw [values_purge, if_neg fun e => h₂ e.2]
    · rfl

theorem values_reset_all (h₁ : q ≠ "resolvedNode") (h₂ : q ≠ "resolvedProperty") :
    ∀ (ids : List NodeId) (g : Graph) (j : NodeId),
      (ids.foldl Graph.reset g).values j q = g.values j q
  | [], _, _ => rfl
  | id :: ids, g, j => by
    rw [List.foldl_cons, values_reset_all h₁ h₂ ids, values_reset h₁ h₂]

theorem Housed.membership_strip (hh : g.Housed) (hc : g.Coherent)
    (hx : g.lifetime? x = some (.persistent s)) :
    (∀ j, (g.strip x).values j "package" = g.values j "package") ∧
      ∀ j, (g.strip x).values j "children" = g.values j "children" := by
  have hheld (r : Ref) (hr : r ∈ heldByOthers g (g.tree x)) :
      r.2.1 ≠ "package" ∧ r.2.1 ≠ "children" := by
    obtain ⟨u, hu, rfl, -, hp, ht, -⟩ := mem_heldByOthers hr
    refine ⟨fun hpk => ?_, hp⟩
    have hmem := hc.target_mem_values hu
    rw [show u.property = "package" from hpk] at hmem
    have := hh.parent_isPackage _ _ (hh.child_of_package _ _ hmem)
    simp [hc.toIndexed.not_isPackage_of_tree hx ht] at this
  obtain ⟨t₁, hc₁⟩ := forget_all hc (heldByOthers g (g.tree x))
  have hpack₁ := values_forget_all (g := g) fun r hr => (hheld r hr).1
  have hkids₁ := values_forget_all (g := g) fun r hr => (hheld r hr).2
  revert t₁ hc₁ hpack₁ hkids₁
  simp only [Graph.strip]
  generalize (heldByOthers g (g.tree x)).foldl forget g = g₁
  intro t₁ hc₁ hpack₁ hkids₁
  have hown (r : Ref) (hr : r ∈ foreignReferences g₁ (g₁.sourceOf? x) (g.tree x)) :
      r.2.1 ≠ "package" ∧ r.2.1 ≠ "children" := by
    obtain ⟨hid, hv, -, hfor⟩ := mem_foreignReferences hc₁.toMirrored hr
    have hi := hc.toIndexed
    constructor
    · intro hpk
      rw [hpk, hpack₁] at hv
      have := hh.parent_isPackage _ _ (hh.child_of_package _ _ hv)
      rw [isForeign_congr t₁.frame, hi.isForeign_package this] at hfor
      simp at hfor
    · intro hpk
      rw [hpk, hkids₁] at hv
      have := hh.parent_isPackage _ _ hv
      simp [hi.not_isPackage_of_tree hx hid] at this
  refine ⟨fun j => ?_, fun j => ?_⟩
  · rw [values_reset_all (by decide) (by decide), values_forget_all fun r hr => (hown r hr).1,
      hpack₁]
  · rw [values_reset_all (by decide) (by decide), values_forget_all fun r hr => (hown r hr).2,
      hkids₁]

theorem Housed.strip (hh : g.Housed) (hc : g.Coherent)
    (hx : g.lifetime? x = some (.persistent s)) : (g.strip x).Housed :=
  hh.congr (hc.strip x).1.frame (hh.membership_strip hc hx).1 (hh.membership_strip hc hx).2

end Strip

end Graph

end ModelCompiler
