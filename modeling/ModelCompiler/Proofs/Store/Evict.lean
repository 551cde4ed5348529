import ModelCompiler.Proofs.Store.Packages

/-!
Evicting nodes. The node leaves its slot and every index, and the references from it and to it are
forgotten.
-/
namespace ModelCompiler.Graph

section Evict

variable (g : Graph) (id : NodeId)

theorem evict_of_not_contains {g : Graph} {id : NodeId} (h : g.contains id = false) :
    g.evict id = g := by
  have hn : g.node? id = none := by simpa [contains] using h
  simp [evict, unindex, vacate, hn, contains]

theorem contains_unindex : (g.unindex id).contains id = g.contains id := by
  unfold unindex
  split <;> rfl

theorem slots_unindex : (g.unindex id).slots = g.slots := by
  unfold unindex
  split <;> rfl

theorem node?_evict (j : NodeId) : (g.evict id).node? j = if j = id then none else g.node? j := by
  by_cases hc : g.contains id = true
  · have hlt := lt_size_of_contains hc
    simp only [evict, vacate, contains_unindex, hc, if_true, node?, slots_unindex,
      Array.getElem?_setIfInBounds]
    by_cases hj : id = j
    · subst hj
      simp [hlt]
    · simp [hj, Ne.symm hj]
  · rw [evict_of_not_contains (by simpa using hc)]
    split
    · rename_i hj
      subst hj
      simpa [contains] using hc
    · rfl

theorem contains_evict (j : NodeId) :
    (g.evict id).contains j = (decide (j ≠ id) && g.contains j) := by
  rw [contains, node?_evict]
  by_cases hj : j = id <;> simp [hj, contains]

theorem lifetime?_evict (j : NodeId) :
    (g.evict id).lifetime? j = if j = id then none else g.lifetime? j := by
  rw [lifetime?, node?_evict]
  split <;> rfl

theorem path?_evict (j : NodeId) :
    (g.evict id).path? j = if j = id then none else g.path? j := by
  rw [path?, node?_evict]
  split <;> rfl

theorem classifier?_evict (j : NodeId) :
    (g.evict id).classifier? j = if j = id then none else g.classifier? j := by
  rw [classifier?, node?_evict]
  split <;> rfl

theorem propertiesOf_evict (j : NodeId) :
    (g.evict id).propertiesOf j = if j = id then ∅ else g.propertiesOf j := by
  rw [propertiesOf, node?_evict]
  split <;> rfl

theorem values_evict (j : NodeId) (p : String) :
    (g.evict id).values j p = if j = id then [] else g.values j p := by
  rw [values_eq, propertiesOf_evict, values_eq]
  split <;> rfl

variable {g id}

theorem usages_evict (hm : g.Mirrored) :
    (g.evict id).usages = g.usages.filter fun u => u.user ≠ id && u.target ≠ id := by
  by_cases hc : g.contains id = true
  · have hu : (g.unindex id).usages = g.usages := by
      unfold unindex
      split <;> rfl
    simp only [evict, vacate, contains_unindex, hc, if_true, hu]
  · rw [evict_of_not_contains (by simpa using hc), eq_comm, List.filter_eq_self]
    intro u hu
    have huser : u.user ≠ id := fun e => hc (e ▸ hm.user_live hu)
    have htarget : u.target ≠ id := fun e => hc (e ▸ hm.target_live u hu)
    simp [huser, htarget]

theorem sublist_usages_evict (hm : g.Mirrored) : (g.evict id).usages.Sublist g.usages := by
  rw [usages_evict hm]
  exact List.filter_sublist

theorem backReferences_evict (g : Graph) (id : NodeId) :
    (g.evict id).backReferences = g.backReferences := by
  have hu : (g.unindex id).backReferences = g.backReferences := by
    unfold unindex
    split <;> rfl
  simp only [evict, vacate]
  split
  · exact hu
  · exact hu

theorem packageClassifier_evict (g : Graph) (id : NodeId) :
    (g.evict id).packageClassifier = g.packageClassifier := by
  have hu : (g.unindex id).packageClassifier = g.packageClassifier := by
    unfold unindex
    split <;> rfl
  simp only [evict, vacate]
  split
  · exact hu
  · exact hu

theorem size_slots_evict (g : Graph) (id : NodeId) : (g.evict id).slots.size = g.slots.size := by
  simp only [evict, vacate]
  split
  · simp [slots_unindex]
  · rw [slots_unindex]

theorem evict_tables {n : Node} (hn : g.node? id = some n) :
    (g.evict id).free = id :: g.free ∧
    (g.evict id).paths = (match n.path with
      | some path => g.paths.erase path
      | none => g.paths) ∧
    (g.evict id).bySource = (match n.lifetime with
      | .persistent source => g.bySource.drop source id
      | _ => g.bySource) ∧
    (g.evict id).owned = (match n.lifetime with
      | .ephemeral owner => (g.owned.erase id).drop owner id
      | _ => g.owned.erase id) ∧
    (g.evict id).instances = (match n.classifier with
      | some classifier => g.instances.drop classifier id
      | none => g.instances).erase id ∧
    (g.evict id).packages = g.packages.filter (· ≠ id) := by
  have hc : g.contains id = true := contains_iff.2 ⟨n, hn⟩
  have hu : (g.unindex id).contains id = true := by rw [contains_unindex, hc]
  rw [evict, vacate, if_pos hu, unindex, hn]
  exact ⟨rfl, rfl, rfl, rfl, rfl, rfl⟩

theorem values_drop_eq_filter {κ : Type} [DecidableEq κ] {t : Table κ (List NodeId)} {k : κ}
    {b : NodeId} (h : ∀ j, b ∈ t.values j → j = k) (j : κ) :
    (t.drop k b).values j = (t.values j).filter (· ≠ b) := by
  rw [Table.values_drop]
  split
  · rename_i hj
    rw [hj]
  · rename_i hj
    rw [eq_comm, List.filter_eq_self]
    intro c hc
    have : c ≠ b := by
      rintro rfl
      exact hj (h j hc)
    simpa using this

theorem filter_ne_of_not_mem {l : List NodeId} {b : NodeId} (h : b ∉ l) :
    l.filter (· ≠ b) = l := by
  rw [List.filter_eq_self]
  intro c hc
  have : c ≠ b := by
    rintro rfl
    exact h hc
  simpa using this

namespace Indexed

variable (hi : g.Indexed)
include hi

theorem persistentNodes_evict (s : SourceId) :
    (g.evict id).persistentNodes s = (g.persistentNodes s).filter (· ≠ id) := by
  cases hn : g.node? id with
  | none =>
    have hc : g.contains id = false := by simp [contains, hn]
    rw [evict_of_not_contains hc, filter_ne_of_not_mem]
    intro h
    simp [hi.persistent_live h] at hc
  | some n =>
    have hmem (t : SourceId) (h : id ∈ g.persistentNodes t) : n.lifetime = .persistent t := by
      have := (hi.persistent_iff t id).1 h
      rw [lifetime?_of_node? hn] at this
      exact Option.some.inj this
    rw [persistentNodes, (evict_tables hn).2.2.1]
    cases hl : n.lifetime with
    | persistent t =>
      exact values_drop_eq_filter (fun j hj => (Lifetime.persistent.inj (hl ▸ hmem j hj)).symm) s
    | bootstrap | implicit | ephemeral o =>
      exact (filter_ne_of_not_mem fun h => by simp [hmem s h] at hl).symm

theorem ownedBy_evict (o : NodeId) : (g.evict id).ownedBy o =
    if o = id then [] else (g.ownedBy o).filter (· ≠ id) := by
  cases hn : g.node? id with
  | none =>
    have hc : g.contains id = false := by simp [contains, hn]
    rw [evict_of_not_contains hc]
    split
    · rename_i ho
      rw [List.eq_nil_iff_forall_not_mem]
      intro e he
      rw [ho] at he
      exact absurd ((hi.owned_iff id e).1 he).2 (by simp [hc])
    · rw [filter_ne_of_not_mem]
      intro h
      simp [contains_of_lifetime? ((hi.owned_iff o id).1 h).1] at hc
  | some n =>
    have hmem (r : NodeId) (h : id ∈ g.ownedBy r) : n.lifetime = .ephemeral r := by
      have := ((hi.owned_iff r id).1 h).1
      rw [lifetime?_of_node? hn] at this
      exact Option.some.inj this
    have herase : (g.owned.erase id).values o = if o = id then [] else g.ownedBy o :=
      Table.values_erase _ _ _
    rw [ownedBy, (evict_tables hn).2.2.2.1]
    by_cases ho : o = id
    · subst ho
      rw [if_pos rfl] at herase ⊢
      cases hl : n.lifetime with
      | ephemeral r =>
        rw [Table.values_drop, herase]
        split
        · rename_i hr
          rw [← hr, herase]
          rfl
        · rfl
      | bootstrap | implicit | persistent s => exact herase
    · rw [if_neg ho] at herase ⊢
      cases hl : n.lifetime with
      | ephemeral r =>
        rw [← herase]
        apply values_drop_eq_filter
        intro j hj
        rw [Table.values_erase] at hj
        split at hj
        · simp at hj
        · exact (Lifetime.ephemeral.inj (hl ▸ hmem j hj)).symm
      | bootstrap | implicit | persistent s =>
        rw [← herase, filter_ne_of_not_mem fun h => by simp [hmem o (herase ▸ h)] at hl]

theorem instancesOf_evict (c : NodeId) : (g.evict id).instancesOf c =
    if c = id then [] else (g.instancesOf c).filter (· ≠ id) := by
  cases hn : g.node? id with
  | none =>
    have hc : g.contains id = false := by simp [contains, hn]
    rw [evict_of_not_contains hc]
    split
    · rename_i ho
      rw [List.eq_nil_iff_forall_not_mem]
      intro e he
      rw [ho] at he
      exact absurd ((hi.instance_iff id e).1 he).2 (by simp [hc])
    · rw [filter_ne_of_not_mem]
      intro h
      simp [contains_of_classifier? ((hi.instance_iff c id).1 h).1] at hc
  | some n =>
    have hmem (d : NodeId) (h : id ∈ g.instancesOf d) : n.classifier = some d := by
      have := ((hi.instance_iff d id).1 h).1
      simpa [classifier?, hn] using this
    rw [instancesOf, (evict_tables hn).2.2.2.2.1, Table.values_erase]
    split
    · rfl
    · cases hcl : n.classifier with
      | none => exact (filter_ne_of_not_mem fun h => by simp [hmem c h] at hcl).symm
      | some d =>
        exact values_drop_eq_filter (fun j hj => by simpa [hcl, eq_comm] using hmem j hj) c

end Indexed

theorem lookup_evict (g : Graph) (id : NodeId) (p : Path) : (g.evict id).lookup p =
    if g.path? id = some p then none else g.lookup p := by
  cases hn : g.node? id with
  | none =>
    have hc : g.contains id = false := by simp [contains, hn]
    have hp : g.path? id = none := by simp [path?, hn]
    simp [evict_of_not_contains hc, hp]
  | some n =>
    have hp : g.path? id = n.path := by simp [path?, hn]
    rw [lookup, (evict_tables hn).2.1, hp]
    cases n.path with
    | none => simp [lookup]
    | some q =>
      simp only [Table.find?_erase, Option.some.injEq, lookup]
      by_cases h : p = q
      · simp [h]
      · simp [h, Ne.symm h]

theorem isPackage_evict (hi : g.Indexed) (j : NodeId) :
    (g.evict id).isPackage j = (g.isPackage j && decide (j ≠ id)) := by
  cases hn : g.node? id with
  | none =>
    have hc : g.contains id = false := by simp [contains, hn]
    rw [evict_of_not_contains hc]
    by_cases hj : j = id
    · subst hj
      have : g.isPackage j = false := by
        by_contra h
        simp [hi.isPackage_live (by simpa using h)] at hc
      simp [this]
    · simp [hj]
  | some n =>
    rw [isPackage, (evict_tables hn).2.2.2.2.2]
    by_cases hj : j = id <;> simp [hj, isPackage]

theorem Indexed.evict (hi : g.Indexed) (id : NodeId) : (g.evict id).Indexed := by
  by_cases hlive : g.contains id = true
  swap
  · rwa [evict_of_not_contains (by simpa using hlive)]
  obtain ⟨n, hn⟩ := contains_iff.1 hlive
  refine ⟨fun j hj => ?_, ?_, fun p j => ?_, fun s j => ?_, fun s => ?_, ?_, fun o j => ?_,
    fun o => ?_, fun j o hj l hl => ?_, fun j o hj => ?_, fun c j => ?_, fun j hj => ?_,
    fun j hj => ?_⟩
  · rw [(evict_tables hn).1] at hj
    rw [size_slots_evict, contains_evict]
    rcases List.mem_cons.1 hj with rfl | hj
    · exact ⟨lt_size_of_contains hlive, by simp⟩
    · have := hi.free_dead j hj
      exact ⟨this.1, by simp [this.2]⟩
  · rw [(evict_tables hn).1, List.nodup_cons]
    exact ⟨fun h => by simp [(hi.free_dead id h).2] at hlive, hi.free_nodup⟩
  · rw [lookup_evict, path?_evict]
    by_cases hj : j = id
    · subst hj
      by_cases hp : g.path? j = some p
      · simp [hp]
      · simp [hp, hi.lookup_iff]
    · by_cases hp : g.path? id = some p
      · have hno : g.path? j ≠ some p := fun h => by
          have h1 := (hi.lookup_iff p j).2 h
          have h2 := (hi.lookup_iff p id).2 hp
          exact hj (Option.some.inj (h1.symm.trans h2))
        simp [hp, hj, hno]
      · simp [hp, hj, hi.lookup_iff]
  · rw [hi.persistentNodes_evict, lifetime?_evict, List.mem_filter, hi.persistent_iff]
    by_cases hj : j = id <;> simp [hj]
  · rw [hi.persistentNodes_evict]
    exact (hi.persistent_nodup s).filter _
  · rw [(evict_tables hn).2.2.1]
    split
    · exact Table.nodup_keys_drop hi.source_keys _ _
    · exact hi.source_keys
  · rw [hi.ownedBy_evict, lifetime?_evict, contains_evict]
    by_cases ho : o = id
    · simp [ho]
    · by_cases hj : j = id
      · simp [ho, hj]
      · simp [ho, hj, hi.owned_iff]
  · rw [hi.ownedBy_evict]
    split
    · exact List.nodup_nil
    · exact (hi.owned_nodup o).filter _
  · rw [lifetime?_evict] at hj hl
    split at hj
    · simp at hj
    · split at hl
      · simp at hl
      · exact hi.owner_plain j o hj l hl
  · rw [lifetime?_evict] at hj
    rw [path?_evict]
    split at hj
    · simp at hj
    · rename_i hne
      rw [if_neg hne]
      exact hi.ephemeral_path j o hj
  · rw [hi.instancesOf_evict, classifier?_evict, contains_evict]
    by_cases hc : c = id
    · simp [hc]
    · by_cases hj : j = id
      · simp [hc, hj]
      · simp [hc, hj, hi.instance_iff]
  · rw [isPackage_evict hi, Bool.and_eq_true, decide_eq_true_eq] at hj
    rw [lifetime?_evict, if_neg hj.2]
    exact hi.package_shared j hj.1
  · rw [lifetime?_evict] at hj
    split at hj
    · simp at hj
    · rename_i hne
      simp [isPackage_evict hi, hi.implicit_package j hj, hne]

theorem Mirrored.evict (hm : g.Mirrored) (id : NodeId) : (g.evict id).Mirrored where
  nodup_keys j := by
    rw [propertiesOf_evict]
    split
    · simp
    · exact hm.nodup_keys j
  ne_nil j p vs h := by
    rw [propertiesOf_evict] at h
    split at h
    · simp at h
    · exact hm.ne_nil j p vs h
  tally_eq j p v hv := by
    rw [contains_evict, Bool.and_eq_true, decide_eq_true_eq] at hv
    rw [values_evict, tally, usages_evict hm, List.countP_filter]
    by_cases hj : j = id
    · subst hj
      simp only [if_true, List.count_nil, List.countP_eq_zero]
      intro u _
      simp only [Bool.and_eq_true, decide_eq_true_eq]
      tauto
    · rw [if_neg hj, ← hm.tally_eq j p v hv.2, tally]
      apply List.countP_congr
      intro u _
      simp only [Bool.and_eq_true, decide_eq_true_eq]
      constructor
      · exact fun h => h.1
      · rintro ⟨⟨rfl, rfl⟩, rfl⟩
        exact ⟨⟨⟨rfl, rfl⟩, rfl⟩, hj, hv.1⟩
  target_live u hu := by
    rw [usages_evict hm, List.mem_filter] at hu
    simp only [Bool.and_eq_true, decide_eq_true_eq] at hu
    rw [contains_evict, Bool.and_eq_true, decide_eq_true_eq]
    exact ⟨hu.2.2, hm.target_live u hu.1⟩

end Evict

end ModelCompiler.Graph
