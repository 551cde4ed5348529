import ModelCompiler.Proofs.Store.Coherence

/-!
Creating nodes.
-/
namespace ModelCompiler.Graph

def fresh (g : Graph) : NodeId :=
  match g.free with
  | id :: _ => id
  | [] => g.slots.size

def seat (g : Graph) (spec : NodeSpec) (lifetime : Lifetime) (package : Bool) : Graph :=
  { (g.insert spec lifetime).2 with
    byName := match spec.path with
      | some path => if package then g.byName else g.byName.push path.name g.fresh
      | none => g.byName
    bySource := match lifetime with
      | .persistent source => g.bySource.push source g.fresh
      | _ => g.bySource
    owned := match lifetime with
      | .ephemeral owner => g.owned.push owner g.fresh
      | _ => g.owned
    packages := if package then g.fresh :: g.packages else g.packages }

structure Admissible (g : Graph) (spec : NodeSpec) (lifetime : Lifetime) (package : Bool) :
    Prop where
  path_free : ∀ p, spec.path = some p → g.lookup p = none
  classifier_live : ∀ c, spec.classifier = some c → g.contains c = true
  owner_plain : ∀ o, lifetime = .ephemeral o → ∃ l, g.lifetime? o = some l ∧ l.isEphemeral = false
  ephemeral_path : ∀ o, lifetime = .ephemeral o → spec.path = none
  package_shared : package = true → lifetime.isShared = true
  implicit_package : lifetime = .implicit → package = true

section Admit

variable {g : Graph} (spec : NodeSpec) (lifetime : Lifetime) (package : Bool)

theorem insert_fst (g : Graph) : (g.insert spec lifetime).1 = g.fresh := by
  unfold insert fresh
  cases g.free <;> rfl

theorem Indexed.contains_fresh (hi : g.Indexed) : g.contains g.fresh = false := by
  unfold fresh
  split
  · rename_i id rest hf
    exact (hi.free_dead id (by simp [hf])).2
  · by_contra hc
    exact Nat.lt_irrefl _ (lt_size_of_contains (by simpa using hc))

theorem Indexed.ne_fresh (hi : g.Indexed) {id : NodeId} (h : g.contains id = true) :
    id ≠ g.fresh := by
  rintro rfl
  simp [hi.contains_fresh] at h

theorem node?_seat (hi : g.Indexed) (j : NodeId) : (g.seat spec lifetime package).node? j =
    if j = g.fresh then some (spec.node lifetime g.nextStamp) else g.node? j := by
  cases hf : g.free with
  | nil =>
    simp only [node?, seat, insert, fresh, hf, Array.getElem?_push]
    split <;> simp_all
  | cons id rest =>
    have hid := hi.free_dead id (by simp [hf])
    simp only [node?, seat, insert, fresh, hf, Array.getElem?_setIfInBounds]
    by_cases hj : id = j
    · subst hj
      simp [hid.1]
    · simp [hj, Ne.symm hj]

theorem contains_seat (hi : g.Indexed) (j : NodeId) :
    (g.seat spec lifetime package).contains j = (decide (j = g.fresh) || g.contains j) := by
  rw [contains, node?_seat _ _ _ hi]
  by_cases hj : j = g.fresh <;> simp [hj, contains]

theorem contains_seat_of_contains (hi : g.Indexed) {j : NodeId} (h : g.contains j = true) :
    (g.seat spec lifetime package).contains j = true := by
  simp [contains_seat _ _ _ hi, h]

theorem lifetime?_seat (hi : g.Indexed) (j : NodeId) : (g.seat spec lifetime package).lifetime? j =
    if j = g.fresh then some lifetime else g.lifetime? j := by
  rw [lifetime?, node?_seat _ _ _ hi]
  split <;> rfl

theorem path?_seat (hi : g.Indexed) (j : NodeId) : (g.seat spec lifetime package).path? j =
    if j = g.fresh then spec.path else g.path? j := by
  rw [path?, node?_seat _ _ _ hi]
  split <;> rfl

theorem classifier?_seat (hi : g.Indexed) (j : NodeId) :
    (g.seat spec lifetime package).classifier? j =
      if j = g.fresh then spec.classifier else g.classifier? j := by
  rw [classifier?, node?_seat _ _ _ hi]
  split <;> rfl

theorem propertiesOf_seat (hi : g.Indexed) (j : NodeId) :
    (g.seat spec lifetime package).propertiesOf j = g.propertiesOf j := by
  rw [propertiesOf, node?_seat _ _ _ hi]
  split
  · rename_i hj
    rw [hj, propertiesOf_of_not_contains hi.contains_fresh]
    rfl
  · rfl

theorem values_seat (hi : g.Indexed) (j : NodeId) (p : String) :
    (g.seat spec lifetime package).values j p = g.values j p := by
  rw [values_eq, propertiesOf_seat _ _ _ hi, ← values_eq]

theorem backReferences_seat (g : Graph) :
    (g.seat spec lifetime package).backReferences = g.backReferences := rfl

theorem packageClassifier_seat (g : Graph) :
    (g.seat spec lifetime package).packageClassifier = g.packageClassifier := rfl

theorem lookup_seat (g : Graph) (p : Path) : (g.seat spec lifetime package).lookup p =
    if spec.path = some p then some g.fresh else g.lookup p := by
  have hpaths : (g.seat spec lifetime package).paths = match spec.path with
      | some path => g.paths.insert path g.fresh
      | none => g.paths := by
    simp only [seat, insert, fresh, NodeSpec.node]
    cases g.free <;> rfl
  rw [lookup, hpaths]
  cases spec.path with
  | none => rfl
  | some q =>
    simp only [Table.find?_insert, Option.some.injEq]
    by_cases h : p = q
    · simp [h]
    · simp [h, Ne.symm h, lookup]

theorem instancesOf_seat (g : Graph) (c : NodeId) :
    (g.seat spec lifetime package).instancesOf c =
      if spec.classifier = some c then g.instancesOf c ++ [g.fresh] else g.instancesOf c := by
  have hinstances : (g.seat spec lifetime package).instances =
      spec.classifier.elim g.instances fun classifier => g.instances.push classifier g.fresh := by
    simp only [seat, insert, fresh, NodeSpec.node]
    cases g.free <;> cases spec.classifier <;> rfl
  rw [instancesOf, hinstances]
  cases spec.classifier with
  | none => rfl
  | some d =>
    simp only [Option.elim_some, Table.values_push, Option.some.injEq]
    by_cases h : c = d
    · simp [h, instancesOf]
    · simp [h, Ne.symm h, instancesOf]

theorem persistentNodes_seat (g : Graph) (s : SourceId) :
    (g.seat spec lifetime package).persistentNodes s =
      if lifetime = .persistent s then g.persistentNodes s ++ [g.fresh]
      else g.persistentNodes s := by
  unfold persistentNodes seat
  cases lifetime with
  | persistent t =>
    simp only [Table.values_push, Lifetime.persistent.injEq]
    by_cases h : s = t
    · simp [h]
    · simp [h, Ne.symm h]
  | bootstrap | implicit | ephemeral o => simp

theorem ownedBy_seat (g : Graph) (o : NodeId) : (g.seat spec lifetime package).ownedBy o =
    if lifetime = .ephemeral o then g.ownedBy o ++ [g.fresh] else g.ownedBy o := by
  unfold ownedBy seat
  cases lifetime with
  | ephemeral r =>
    simp only [Table.values_push, Lifetime.ephemeral.injEq]
    by_cases h : o = r
    · simp [h]
    · simp [h, Ne.symm h]
  | bootstrap | implicit | persistent t => simp

theorem isPackage_seat (g : Graph) (j : NodeId) : (g.seat spec lifetime package).isPackage j =
    ((package && decide (j = g.fresh)) || g.isPackage j) := by
  cases package <;> simp [isPackage, seat]

theorem free_seat (g : Graph) : (g.seat spec lifetime package).free = g.free.tail := by
  simp only [seat, insert]
  cases g.free <;> rfl

theorem size_slots_seat (g : Graph) :
    g.slots.size ≤ (g.seat spec lifetime package).slots.size := by
  simp only [seat, insert]
  cases g.free <;> simp

variable {spec lifetime package}

theorem Closed.ne_fresh_of_mem (hi : g.Indexed) (hc : g.Closed) {id v : NodeId} {p : String}
    (h : v ∈ g.values id p) : v ≠ g.fresh :=
  hi.ne_fresh (hc.value_live _ _ _ h)

theorem mem_ite_append {l : List NodeId} {a id : NodeId} {C : Prop} [Decidable C] (ha : a ∉ l) :
    id ∈ (if C then l ++ [a] else l) ↔ if id = a then C else id ∈ l := by
  by_cases hid : id = a
  · subst hid
    by_cases hC : C <;> simp [hC, ha]
  · by_cases hC : C <;> simp [hC, hid]

theorem nodup_ite_append {l : List NodeId} {a : NodeId} {C : Prop} [Decidable C] (hl : l.Nodup)
    (ha : a ∉ l) : (if C then l ++ [a] else l).Nodup := by
  split
  · exact hl.append (List.nodup_singleton _) (by simpa using ha)
  · exact hl

namespace Indexed

section Seat

variable (hi : g.Indexed)
include hi

theorem fresh_not_mem_persistentNodes (s : SourceId) : g.fresh ∉ g.persistentNodes s :=
  fun h => hi.ne_fresh (hi.persistent_live h) rfl

theorem fresh_not_mem_ownedBy (o : NodeId) : g.fresh ∉ g.ownedBy o :=
  fun h => hi.ne_fresh (contains_of_lifetime? ((hi.owned_iff o _).1 h).1) rfl

theorem fresh_not_mem_instancesOf (c : NodeId) : g.fresh ∉ g.instancesOf c :=
  fun h => hi.ne_fresh (contains_of_classifier? ((hi.instance_iff c _).1 h).1) rfl

theorem free_dead_seat {id : NodeId} (hid : id ∈ (g.seat spec lifetime package).free) :
    id < (g.seat spec lifetime package).slots.size ∧
      (g.seat spec lifetime package).contains id = false := by
  rw [free_seat] at hid
  have hfree := hi.free_dead id (List.mem_of_mem_tail hid)
  have hne : id ≠ g.fresh := by
    rintro rfl
    -- the slot given out stands at the head of the free list, once
    have hn := hi.free_nodup
    unfold fresh at hid
    cases hf : g.free with
    | nil => simp [hf] at hid
    | cons i rest =>
      simp only [hf, List.tail_cons] at hid
      simp only [hf, List.nodup_cons] at hn
      exact hn.1 hid
  refine ⟨lt_of_lt_of_le hfree.1 (size_slots_seat _ _ _ g), ?_⟩
  simp [contains_seat _ _ _ hi, hne, hfree.2]

theorem lookup_seat_iff (hfree : ∀ p, spec.path = some p → g.lookup p = none) (p : Path)
    (id : NodeId) : (g.seat spec lifetime package).lookup p = some id ↔
      (g.seat spec lifetime package).path? id = some p := by
  rw [lookup_seat, path?_seat _ _ _ hi]
  by_cases hid : id = g.fresh
  · subst hid
    have hno : g.lookup p ≠ some g.fresh := fun h => hi.ne_fresh (hi.lookup_live h) rfl
    by_cases hp : spec.path = some p <;> simp [hp, hno]
  · by_cases hp : spec.path = some p
    · have hno : g.path? id ≠ some p := fun h => by
        simpa [hfree p hp] using (hi.lookup_iff p id).2 h
      simp [hp, hid, hno, Ne.symm hid]
    · simp [hp, hid, hi.lookup_iff]

theorem mem_persistentNodes_seat (s : SourceId) (id : NodeId) :
    id ∈ (g.seat spec lifetime package).persistentNodes s ↔
      (g.seat spec lifetime package).lifetime? id = some (.persistent s) := by
  rw [persistentNodes_seat, mem_ite_append (hi.fresh_not_mem_persistentNodes s),
    lifetime?_seat _ _ _ hi]
  split
  · rw [Option.some.injEq]
  · exact hi.persistent_iff s id

variable (hc : g.Closed) (ha : g.Admissible spec lifetime package)
include hc ha

theorem mem_ownedBy_seat (o id : NodeId) : id ∈ (g.seat spec lifetime package).ownedBy o ↔
    (g.seat spec lifetime package).lifetime? id = some (.ephemeral o) ∧
      (g.seat spec lifetime package).contains o = true := by
  rw [ownedBy_seat, mem_ite_append (hi.fresh_not_mem_ownedBy o), lifetime?_seat _ _ _ hi]
  split
  · rw [Option.some.injEq, and_iff_left_of_imp]
    intro h
    obtain ⟨l, hl, -⟩ := ha.owner_plain o h
    exact contains_seat_of_contains _ _ _ hi (contains_of_lifetime? hl)
  · rw [hi.owned_iff]
    exact and_congr_right fun h => by simp [contains_seat _ _ _ hi, hc.owner_live id o h]

theorem mem_instancesOf_seat (c id : NodeId) :
    id ∈ (g.seat spec lifetime package).instancesOf c ↔
      (g.seat spec lifetime package).classifier? id = some c ∧
        (g.seat spec lifetime package).contains c = true := by
  rw [instancesOf_seat, mem_ite_append (hi.fresh_not_mem_instancesOf c), classifier?_seat _ _ _ hi]
  split
  · rw [and_iff_left_of_imp]
    exact fun h => contains_seat_of_contains _ _ _ hi (ha.classifier_live c h)
  · rw [hi.instance_iff]
    exact and_congr_right fun h => by simp [contains_seat _ _ _ hi, hc.classifier_live id c h]

theorem owner_plain_seat (id o : NodeId)
    (hid : (g.seat spec lifetime package).lifetime? id = some (.ephemeral o)) (l : Lifetime)
    (hl : (g.seat spec lifetime package).lifetime? o = some l) : l.isEphemeral = false := by
  rw [lifetime?_seat _ _ _ hi] at hid hl
  have hold : ∃ l, g.lifetime? o = some l ∧ l.isEphemeral = false := by
    split at hid
    · exact ha.owner_plain o (Option.some.inj hid)
    · obtain ⟨n, hn⟩ := contains_iff.1 (hc.owner_live id o hid)
      have hn := lifetime?_of_node? hn
      exact ⟨_, hn, hi.owner_plain id o hid _ hn⟩
  obtain ⟨l', hl', hplain⟩ := hold
  rw [if_neg (hi.ne_fresh (contains_of_lifetime? hl')), hl'] at hl
  exact Option.some.inj hl ▸ hplain

omit hc in
theorem package_shared_seat (id : NodeId)
    (hid : (g.seat spec lifetime package).isPackage id = true) :
    ∃ l, (g.seat spec lifetime package).lifetime? id = some l ∧ l.isShared = true := by
  rw [isPackage_seat] at hid
  rw [lifetime?_seat _ _ _ hi]
  rcases Bool.or_eq_true_iff.1 hid with hnew | hold
  · obtain ⟨hpackage, hid⟩ := Bool.and_eq_true_iff.1 hnew
    exact ⟨lifetime, if_pos (of_decide_eq_true hid), ha.package_shared hpackage⟩
  · rw [if_neg (hi.ne_fresh (hi.isPackage_live hold))]
    exact hi.package_shared id hold

end Seat

theorem seat (hi : g.Indexed) (hc : g.Closed)
    (ha : g.Admissible spec lifetime package) : (g.seat spec lifetime package).Indexed where
  free_dead _ hid := hi.free_dead_seat hid
  free_nodup := by
    rw [free_seat]
    exact hi.free_nodup.tail
  lookup_iff := hi.lookup_seat_iff ha.path_free
  persistent_iff := hi.mem_persistentNodes_seat
  persistent_nodup s := by
    rw [persistentNodes_seat]
    exact nodup_ite_append (hi.persistent_nodup s) (hi.fresh_not_mem_persistentNodes s)
  source_keys := by
    show Table.keys (match lifetime with
      | .persistent source => g.bySource.push source g.fresh
      | _ => g.bySource) |>.Nodup
    split
    · exact Table.nodup_keys_push hi.source_keys _ _
    · exact hi.source_keys
  owned_iff := hi.mem_ownedBy_seat hc ha
  owned_nodup o := by
    rw [ownedBy_seat]
    exact nodup_ite_append (hi.owned_nodup o) (hi.fresh_not_mem_ownedBy o)
  owner_plain := hi.owner_plain_seat hc ha
  ephemeral_path id o hid := by
    rw [lifetime?_seat _ _ _ hi] at hid
    rw [path?_seat _ _ _ hi]
    split at hid
    · rename_i hif
      rw [if_pos hif, ha.ephemeral_path o (Option.some.inj hid)]
    · rename_i hif
      rw [if_neg hif, hi.ephemeral_path id o hid]
  instance_iff := hi.mem_instancesOf_seat hc ha
  package_shared := hi.package_shared_seat ha
  implicit_package id hid := by
    rw [lifetime?_seat _ _ _ hi] at hid
    rw [isPackage_seat]
    split at hid
    · rename_i hif
      simp [ha.implicit_package (Option.some.inj hid), hif]
    · simp [hi.implicit_package id hid]

end Indexed

theorem Coherent.mirrored_seat (hc : g.Coherent) : (g.seat spec lifetime package).Mirrored :=
  have hi := hc.toIndexed
  { nodup_keys := fun id => by
      rw [propertiesOf_seat _ _ _ hi]
      exact hc.nodup_keys id
    ne_nil := fun id p vs h => by
      rw [propertiesOf_seat _ _ _ hi] at h
      exact hc.ne_nil id p vs h
    tally_eq := fun id p v hv => by
      rw [values_seat _ _ _ hi]
      show g.tally id p v = _
      by_cases hvf : v = g.fresh
      · -- nothing refers to a slot that was free
        subst hvf
        have hno : g.fresh ∉ g.values id p := fun h => hc.toClosed.ne_fresh_of_mem hi h rfl
        have hnone : ¬ 0 < g.tally id p g.fresh := fun h => by
          obtain ⟨b, hb⟩ := tally_pos_iff.1 h
          exact hi.ne_fresh (hc.target_live _ hb) rfl
        rw [List.count_eq_zero.2 hno]
        omega
      · simp only [contains_seat _ _ _ hi, hvf, decide_false, Bool.false_or] at hv
        exact hc.tally_eq id p v hv
    target_live := fun u hu => contains_seat_of_contains _ _ _ hi (hc.target_live u hu) }

theorem Coherent.seat (hc : g.Coherent) (ha : g.Admissible spec lifetime package) :
    (g.seat spec lifetime package).Coherent :=
  have hi := hc.toIndexed
  { hi.seat hc.toClosed ha, hc.mirrored_seat with
    value_live := fun id p v h => by
      rw [values_seat _ _ _ hi] at h
      exact contains_seat_of_contains _ _ _ hi (hc.value_live id p v h)
    classifier_live := fun id c h => by
      rw [classifier?_seat _ _ _ hi] at h
      apply contains_seat_of_contains _ _ _ hi
      split at h
      · exact ha.classifier_live c h
      · exact hc.classifier_live id c h
    owner_live := fun id o h => by
      rw [lifetime?_seat _ _ _ hi] at h
      apply contains_seat_of_contains _ _ _ hi
      split at h
      · obtain ⟨l, hl, -⟩ := ha.owner_plain o (Option.some.inj h)
        exact contains_of_lifetime? hl
      · exact hc.owner_live id o h }

theorem Flagged.seat (hf : g.Flagged) (spec : NodeSpec) (lifetime : Lifetime) (package : Bool) :
    (g.seat spec lifetime package).Flagged :=
  ⟨hf.declared, hf.rising⟩

end Admit

end ModelCompiler.Graph
