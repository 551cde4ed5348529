import ModelCompiler.Proofs.Store.Excerpt

/-!
What the indexes keep besides the laws of `Indexed`: under a name stand nodes of that name only, no
instance is listed twice, and a source without nodes is not listed.
-/
namespace ModelCompiler

namespace Table

variable {κ β : Type} [DecidableEq κ] [DecidableEq β] {t : Table κ (List β)}

def Full (t : Table κ (List β)) : Prop :=
  ∀ k ∈ t.keys, t.values k ≠ []

omit [DecidableEq β] in
theorem Full.push (h : t.Full) (k : κ) (b : β) : (t.push k b).Full := by
  intro j hj
  rw [values_push]
  split
  · simp
  · rename_i hne
    have hkeys : j ∈ t.keys := by
      rw [Table.push, keys_insert] at hj
      split at hj
      · exact hj
      · simpa [hne] using hj
    exact h j hkeys

theorem Full.drop (h : t.Full) (k : κ) (b : β) : (t.drop k b).Full := by
  intro j hj
  unfold Table.drop at hj ⊢
  split at hj
  · exact h j hj
  · split at hj
    · rw [keys_erase, List.mem_filter, decide_eq_true_eq] at hj
      rw [values_erase, if_neg hj.2]
      exact h j hj.1
    · rename_i rest hrest
      rw [values_insert]
      split
      · exact hrest
      · rename_i hne
        have hkeys : j ∈ t.keys := by
          rw [keys_insert] at hj
          split at hj
          · exact hj
          · simpa [hne] using hj
        exact h j hkeys

omit [DecidableEq β] in
theorem Full.mem_keys_iff (h : t.Full) (k : κ) : k ∈ t.keys ↔ t.values k ≠ [] := by
  refine ⟨h k, fun hv => ?_⟩
  by_contra hk
  have hnone : t.find? k = none := by
    simpa [contains_eq_isSome] using (contains_iff_mem_keys t k).not.2 hk
  exact hv (values_eq_nil_of_find? hnone)

theorem keys_drop_sublist (t : Table κ (List β)) (k : κ) (b : β) :
    (t.drop k b).keys.Sublist t.keys := by
  unfold Table.drop
  split
  · exact .refl _
  · rename_i hfind
    split
    · rw [keys_erase]
      exact List.filter_sublist
    · rw [keys_insert, if_pos ((contains_iff_mem_keys t k).1 (by simp [contains_eq_isSome, hfind]))]

end Table

namespace Graph

variable {g g' h : Graph} {id : NodeId}

def title? (g : Graph) (id : NodeId) : Option String :=
  (g.path? id).map (·.name)

structure Tabled (g : Graph) : Prop where
  named : ∀ name, ∀ id ∈ g.elementsNamed name, g.title? id = some name
  instances_nodup : ∀ c, (g.instancesOf c).Nodup
  sources_full : g.bySource.Full

theorem title?_congr (e : g.frame = h.frame) (id : NodeId) : g.title? id = h.title? id := by
  rw [title?, path?_congr e, title?]

theorem title?_live {name : String} (hid : g.title? id = some name) : g.contains id = true := by
  obtain ⟨p, hp, -⟩ := Option.map_eq_some_iff.1 hid
  exact contains_of_path? hp

theorem title?_seat (hi : g.Indexed) (spec : NodeSpec) (lifetime : Lifetime) (package : Bool)
    (j : NodeId) : (g.seat spec lifetime package).title? j =
      if j = g.fresh then spec.path.map (·.name) else g.title? j := by
  rw [title?, path?_seat _ _ _ hi]
  split <;> rfl

theorem title?_evict (j : NodeId) :
    (g.evict id).title? j = if j = id then none else g.title? j := by
  rw [title?, path?_evict]
  split <;> rfl

namespace Tabled

theorem congr (ht : g.Tabled) (e : g'.frame = g.frame) : g'.Tabled where
  named name id hid := by
    rw [title?_congr e]
    exact ht.named name id (elementsNamed_congr e name ▸ hid)
  instances_nodup c := instancesOf_congr e c ▸ ht.instances_nodup c
  sources_full := bySource_congr e ▸ ht.sources_full

theorem seat (ht : g.Tabled) (hi : g.Indexed) (spec : NodeSpec) (lifetime : Lifetime)
    (package : Bool) : (g.seat spec lifetime package).Tabled where
  named name id hid := by
    rw [title?_seat hi]
    rw [elementsNamed_seat] at hid
    have hold (hmem : id ∈ g.elementsNamed name) : id ≠ g.fresh :=
      hi.ne_fresh (title?_live (ht.named name id hmem))
    split at hid
    · rename_i hnew
      rcases List.mem_append.1 hid with hmem | hmem
      · rw [if_neg (hold hmem)]
        exact ht.named name id hmem
      · rw [if_pos (List.mem_singleton.1 hmem)]
        exact hnew.1
    · rw [if_neg (hold hid)]
      exact ht.named name id hid
  instances_nodup c := by
    rw [instancesOf_seat]
    split
    · refine (ht.instances_nodup c).append (List.nodup_singleton _) ?_
      rw [List.disjoint_singleton]
      intro hmem
      exact hi.ne_fresh (contains_of_classifier? ((hi.instance_iff c _).1 hmem).1) rfl
    · exact ht.instances_nodup c
  sources_full := by
    cases lifetime with
    | persistent s => exact ht.sources_full.push s _
    | bootstrap | implicit | ephemeral o => exact ht.sources_full

theorem elementsNamed_eq (ht : g.Tabled) (id : NodeId) (name : String) :
    (g.evict id).elementsNamed name = (g.elementsNamed name).filter (· ≠ id) := by
  have hother {n : Node} (hn : g.node? id = some n) (hname : n.path.map (·.name) ≠ some name) :
      (g.elementsNamed name).filter (· ≠ id) = g.elementsNamed name :=
    filter_ne_of_not_mem fun hmem =>
    hname (by simpa [title?, path?, hn] using ht.named name id hmem)
  cases hn : g.node? id with
  | none =>
    have hc : g.contains id = false := by simp [contains, hn]
    rw [evict_of_not_contains hc, filter_ne_of_not_mem]
    intro hmem
    simp [title?_live (ht.named name id hmem)] at hc
  | some n =>
    have hc : (g.unindex id).contains id = true := by
      rw [contains_unindex, contains, hn]
      rfl
    unfold evict vacate
    rw [if_pos hc]
    simp only [elementsNamed, unindex, hn]
    cases hp : n.path with
    | none => exact (hother hn (by simp [hp])).symm
    | some path =>
      simp only [Table.values_drop]
      split
      · rename_i hname
        rw [hname]
      · rename_i hname
        exact (hother hn (by simpa [hp] using Ne.symm hname)).symm

theorem evict (ht : g.Tabled) (hi : g.Indexed) (id : NodeId) : (g.evict id).Tabled where
  named name j hj := by
    rw [ht.elementsNamed_eq, List.mem_filter, decide_eq_true_eq] at hj
    rw [title?_evict, if_neg hj.2]
    exact ht.named name j hj.1
  instances_nodup c := by
    rw [hi.instancesOf_evict]
    split
    · exact List.nodup_nil
    · exact (ht.instances_nodup c).filter _
  sources_full := by
    cases hn : g.node? id with
    | none =>
      rw [evict_of_not_contains (by simp [contains, hn])]
      exact ht.sources_full
    | some n =>
      rw [(evict_tables hn).2.2.1]
      cases n.lifetime with
      | persistent s => exact ht.sources_full.drop s id
      | bootstrap | implicit | ephemeral o => exact ht.sources_full

theorem mem_sources_iff (ht : g.Tabled) (s : SourceId) :
    s ∈ g.sources ↔ g.persistentNodes s ≠ [] :=
  ht.sources_full.mem_keys_iff s

end Tabled

theorem sources_evict_sublist (g : Graph) (id : NodeId) :
    (g.evict id).sources.Sublist g.sources := by
  cases hn : g.node? id with
  | none => rw [evict_of_not_contains (by simp [contains, hn])]
  | some n =>
    rw [sources, (evict_tables hn).2.2.1]
    cases n.lifetime with
    | persistent s => exact Table.keys_drop_sublist _ s id
    | bootstrap | implicit | ephemeral o => exact .refl _

theorem filter_sources_seat (g : Graph) (spec : NodeSpec) {lifetime : Lifetime} (package : Bool)
    {s : SourceId} (hl : ∀ t, lifetime = .persistent t → t = s) :
    (g.seat spec lifetime package).sources.filter (· ≠ s) = g.sources.filter (· ≠ s) := by
  cases lifetime with
  | persistent t =>
    obtain rfl := hl t rfl
    show ((g.bySource.push t g.fresh).keys.filter _) = g.bySource.keys.filter _
    rw [Table.push, Table.keys_insert]
    split <;> simp
  | bootstrap | implicit | ephemeral o => rfl

theorem sources_congr (e : g.frame = h.frame) : g.sources = h.sources := by
  rw [sources, bySource_congr e, sources]

end Graph

end ModelCompiler
