import ModelCompiler.Proofs.Store.Write

/-!
Coherent graphs. The indexes list the nodes that live, the usages mirror the property values, and
what a live node refers to lives as well.
-/
namespace ModelCompiler.Graph

variable {n : Node} {id : NodeId} {s : SourceId}

/-- The indexes say what the nodes say. Owners and classifiers count only while they live. -/
structure Indexed (g : Graph) : Prop where
  free_dead : ∀ id ∈ g.free, id < g.slots.size ∧ g.contains id = false
  free_nodup : g.free.Nodup
  lookup_iff : ∀ p id, g.lookup p = some id ↔ g.path? id = some p
  persistent_iff : ∀ s id, id ∈ g.persistentNodes s ↔ g.lifetime? id = some (.persistent s)
  persistent_nodup : ∀ s, (g.persistentNodes s).Nodup
  source_keys : g.bySource.keys.Nodup
  owned_iff : ∀ o id,
    id ∈ g.ownedBy o ↔ g.lifetime? id = some (.ephemeral o) ∧ g.contains o = true
  owned_nodup : ∀ o, (g.ownedBy o).Nodup
  owner_plain : ∀ id o, g.lifetime? id = some (.ephemeral o) →
    ∀ l, g.lifetime? o = some l → l.isEphemeral = false
  ephemeral_path : ∀ id o, g.lifetime? id = some (.ephemeral o) → g.path? id = none
  instance_iff : ∀ c id,
    id ∈ g.instancesOf c ↔ g.classifier? id = some c ∧ g.contains c = true
  package_shared : ∀ id, g.isPackage id = true → ∃ l, g.lifetime? id = some l ∧ l.isShared = true
  implicit_package : ∀ id, g.lifetime? id = some .implicit → g.isPackage id = true

structure Closed (g : Graph) : Prop where
  value_live : ∀ id p v, v ∈ g.values id p → g.contains v = true
  classifier_live : ∀ id c, g.classifier? id = some c → g.contains c = true
  owner_live : ∀ id o, g.lifetime? id = some (.ephemeral o) → g.contains o = true

structure Coherent (g : Graph) : Prop extends Indexed g, Mirrored g, Closed g

theorem Indexed.persistent_live {g : Graph} (hi : g.Indexed) (h : id ∈ g.persistentNodes s) :
    g.contains id = true :=
  contains_of_lifetime? ((hi.persistent_iff s id).1 h)

theorem Indexed.congr {g h : Graph} (e : g.frame = h.frame) (hi : h.Indexed) : g.Indexed where
  free_dead id hid := by
    rw [size_slots_congr e, contains_congr e]
    exact hi.free_dead id (free_congr e ▸ hid)
  free_nodup := free_congr e ▸ hi.free_nodup
  lookup_iff p id := by rw [lookup_congr e, path?_congr e, hi.lookup_iff]
  persistent_iff s id := by rw [persistentNodes_congr e, lifetime?_congr e, hi.persistent_iff]
  persistent_nodup s := persistentNodes_congr e s ▸ hi.persistent_nodup s
  source_keys := bySource_congr e ▸ hi.source_keys
  owned_iff o id := by
    rw [ownedBy_congr e, lifetime?_congr e, contains_congr e, hi.owned_iff]
  owned_nodup o := ownedBy_congr e o ▸ hi.owned_nodup o
  owner_plain id o ho l hl :=
    hi.owner_plain id o (lifetime?_congr e id ▸ ho) l (lifetime?_congr e o ▸ hl)
  ephemeral_path id o ho := by
    rw [path?_congr e]
    exact hi.ephemeral_path id o (lifetime?_congr e id ▸ ho)
  instance_iff c id := by
    rw [instancesOf_congr e, classifier?_congr e, contains_congr e, hi.instance_iff]
  package_shared id hid := by
    rw [lifetime?_congr e]
    exact hi.package_shared id (isPackage_congr e id ▸ hid)
  implicit_package id hid := by
    rw [isPackage_congr e]
    exact hi.implicit_package id (lifetime?_congr e id ▸ hid)

section Reading

variable {g : Graph}

namespace Indexed

variable (hi : g.Indexed) {id : NodeId}
include hi

theorem lookup_live {p : Path} (h : g.lookup p = some id) : g.contains id = true :=
  contains_of_path? ((hi.lookup_iff p id).1 h)

theorem isPackage_live (h : g.isPackage id = true) : g.contains id = true := by
  obtain ⟨l, hl, -⟩ := hi.package_shared id h
  exact contains_of_lifetime? hl

theorem not_ephemeral_of_path? {p : Path} (h : g.path? id = some p) (o : NodeId) :
    g.lifetime? id ≠ some (.ephemeral o) := fun he => by
  simp [hi.ephemeral_path id o he] at h

theorem ownedBy_ephemeral {o : NodeId} (h : g.lifetime? id = some (.ephemeral o)) :
    g.ownedBy id = [] := by
  rw [List.eq_nil_iff_forall_not_mem]
  intro e he
  have hp := hi.owner_plain e id ((hi.owned_iff id e).1 he).1 _ h
  simp [Lifetime.isEphemeral] at hp

end Indexed

theorem sourceOf?_persistent
    (h : g.lifetime? id = some (.persistent s)) : g.sourceOf? id = some s := by
  simp [sourceOf?_eq, ownerRoot?_eq, h]

theorem sourceOf?_ephemeral {o : NodeId} (h : g.lifetime? id = some (.ephemeral o)) :
    g.sourceOf? id = (g.lifetime? o).bind fun
      | .persistent s => some s
      | _ => none := by
  simp only [sourceOf?_eq, ownerRoot?_eq, h]
  rfl

theorem sourceOf?_eq_some_iff :
    g.sourceOf? id = some s ↔ g.lifetime? id = some (.persistent s) ∨
      ∃ o, g.lifetime? id = some (.ephemeral o) ∧ g.lifetime? o = some (.persistent s) := by
  cases hl : g.lifetime? id with
  | none => simp [sourceOf?_eq, ownerRoot?_eq, hl]
  | some l =>
    cases l with
    | persistent t => simp [sourceOf?_persistent hl]
    | ephemeral o =>
      rw [sourceOf?_ephemeral hl]
      rcases ho : g.lifetime? o with - | (- | - | t | o') <;> simp [ho]
    | bootstrap | implicit => simp [sourceOf?_eq, ownerRoot?_eq, hl]

theorem Indexed.sourceOf?_iff_tree (hi : g.Indexed) :
    g.sourceOf? id = some s ↔ ∃ r ∈ g.persistentNodes s, id ∈ g.tree r := by
  rw [sourceOf?_eq_some_iff]
  constructor
  · rintro (h | ⟨o, h, ho⟩)
    · exact ⟨id, (hi.persistent_iff s id).2 h, List.mem_cons_self⟩
    · exact ⟨o, (hi.persistent_iff s o).2 ho,
        List.mem_cons_of_mem _ ((hi.owned_iff o id).2 ⟨h, contains_of_lifetime? ho⟩)⟩
  · rintro ⟨r, hr, hid⟩
    have hp := (hi.persistent_iff s r).1 hr
    rcases List.mem_cons.1 hid with rfl | hid
    · exact .inl hp
    · exact .inr ⟨r, ((hi.owned_iff r id).1 hid).1, hp⟩

end Reading

section Writes

variable {g : Graph} {id value : NodeId} {p : String}

theorem Coherent.target_mem_values (hc : g.Coherent) {u : Usage} (hu : u ∈ g.usages) :
    u.target ∈ g.values u.user u.property :=
  hc.toMirrored.target_mem hu

theorem Coherent.mem_values_iff (hc : g.Coherent) {v : NodeId} :
    v ∈ g.values id p ↔ ∃ b, (⟨id, p, v, b⟩ : Usage) ∈ g.usages := by
  constructor
  · exact fun h => (hc.toMirrored.mem_values_iff (hc.value_live _ _ _ h)).1 h
  · rintro ⟨b, hb⟩
    exact hc.target_mem_values hb

theorem Closed.of_trims {g' : Graph} (hc : g.Closed) (t : Trims g g') : g'.Closed where
  value_live i q v hv := by
    rw [contains_congr t.frame]
    exact hc.value_live i q v ((t.values i q).subset hv)
  classifier_live i c h := by
    rw [contains_congr t.frame]
    exact hc.classifier_live i c (classifier?_congr t.frame i ▸ h)
  owner_live i o h := by
    rw [contains_congr t.frame]
    exact hc.owner_live i o (lifetime?_congr t.frame i ▸ h)

theorem Coherent.of_trims {g' : Graph} (hc : g.Coherent) (t : Trims g g') (hm : g'.Mirrored) :
    g'.Coherent :=
  { hc.toIndexed.congr t.frame, hm, hc.toClosed.of_trims t with }

theorem Coherent.link (hc : g.Coherent) (h : g.contains id = true) (hv : g.contains value = true) :
    (g.link id p value).Coherent :=
  { hc.toIndexed.congr (frame_link g id value p), hc.toMirrored.link h hv with
    value_live := fun j q v hmem => by
      rw [contains_congr (frame_link g id value p)]
      rw [values_link h] at hmem
      split at hmem
      · rcases List.mem_append.1 hmem with hmem | hmem
        · exact hc.value_live _ _ _ hmem
        · rwa [List.mem_singleton.1 hmem]
      · exact hc.value_live _ _ _ hmem
    classifier_live := fun j c hj => by
      rw [contains_congr (frame_link g id value p)]
      exact hc.classifier_live j c (classifier?_congr (frame_link g id value p) j ▸ hj)
    owner_live := fun j o hj => by
      rw [contains_congr (frame_link g id value p)]
      exact hc.owner_live j o (lifetime?_congr (frame_link g id value p) j ▸ hj) }

theorem Coherent.unlink (hc : g.Coherent) (hmem : value ∈ g.values id p) :
    (g.unlink id p value).Coherent :=
  hc.of_trims (trims_unlink (contains_of_mem_values hmem))
    (hc.toMirrored.unlink (hc.value_live _ _ _ hmem) hmem)

theorem Coherent.purge (hc : g.Coherent) (id : NodeId) (p : String) : (g.purge id p).Coherent :=
  hc.of_trims (trims_purge hc.toMirrored id p) (hc.toMirrored.purge id p)

end Writes

section Audit

variable {g : Graph}

theorem count_flatMap_entries {es : List (String × List NodeId)} (h : (es.map (·.1)).Nodup)
    (p : String) (v : NodeId) :
    (es.flatMap fun (q, vs) => vs.map (q, ·)).count (p, v) = ((es.lookup p).getD []).count v := by
  induction es with
  | nil => rfl
  | cons e es ih =>
    obtain ⟨q, vs⟩ := e
    simp only [List.map_cons, List.nodup_cons] at h
    rw [List.flatMap_cons, List.count_append, ih h.2]
    by_cases hpq : p = q
    · subst hpq
      have hnone : es.lookup p = none := List.lookup_eq_none_iff.2 fun e he =>
        bne_iff_ne.2 fun hp => h.1 (List.mem_map.2 ⟨e, he, hp.symm⟩)
      rw [hnone, List.count_map_of_injective _ _ (Prod.mk_right_injective p)]
      simp
    · rw [Table.lookup_cons_of_ne hpq]
      have hz : (vs.map (q, ·)).count (p, v) = 0 := by
        rw [List.count_eq_zero]
        intro hm
        obtain ⟨w, -, hw⟩ := List.mem_map.1 hm
        exact hpq (Prod.mk.inj hw).1.symm
      rw [hz, Nat.zero_add]

theorem count_references (h : n.properties.keys.Nodup) (p : String) (v : NodeId) :
    (references n).count (p, v) = (n.values p).count v :=
  count_flatMap_entries h p v

theorem count_recorded (g : Graph) (id : NodeId) (p : String) (v : NodeId) :
    (g.recorded id).count (p, v) = g.tally id p v := by
  rw [recorded, tally, List.count, List.countP_map, List.countP_filter]
  apply List.countP_congr
  intro u _
  simp only [Function.comp, Bool.and_eq_true, beq_iff_eq, Prod.mk.injEq, decide_eq_true_eq]
  tauto

theorem Mirrored.nodup_properties (hm : g.Mirrored)
    (hn : g.node? id = some n) : n.properties.keys.Nodup := by
  have := hm.nodup_keys id
  simpa [propertiesOf, hn] using this

theorem values_of_node? (hn : g.node? id = some n) (p : String) :
    g.values id p = n.values p := by
  simp [values, hn]

theorem mem_references_iff (hm : g.Mirrored) (hn : g.node? id = some n)
    (p : String) (v : NodeId) : (p, v) ∈ references n ↔ v ∈ g.values id p := by
  rw [← List.count_pos_iff, count_references (hm.nodup_properties hn), values_of_node? hn,
    List.count_pos_iff]

theorem nodeFault?_eq_none_iff : g.nodeFault? id n = none ↔
    g.missingReference? n = none ∧ (references n).isPerm (g.recorded id) = true ∧
      n.classifier.any (!g.contains ·) = false ∧ g.unlisted id n = false := by
  unfold nodeFault?
  cases g.missingReference? n <;> cases (references n).isPerm (g.recorded id) <;>
    cases n.classifier.any (!g.contains ·) <;> cases g.unlisted id n <;> simp

theorem Coherent.nodeFault?_eq_none (hc : g.Coherent)
    (hn : g.node? id = some n) : g.nodeFault? id n = none := by
  have hmissing : g.missingReference? n = none := by
    simp only [missingReference?, List.find?_eq_none]
    rintro ⟨p, v⟩ hv
    have := hc.value_live id p v ((mem_references_iff hc.toMirrored hn p v).1 hv)
    simp [this]
  have hperm : (references n).isPerm (g.recorded id) = true := by
    rw [List.isPerm_iff, List.perm_iff_count]
    rintro ⟨p, v⟩
    rw [count_references (hc.nodup_properties hn), count_recorded, ← values_of_node? hn]
    by_cases hv : g.contains v = true
    · exact (hc.tally_eq id p v hv).symm
    · -- a node that does not live is neither a value nor the target of a usage
      have hno : v ∉ g.values id p := fun h => hv (hc.value_live _ _ _ h)
      have hnone : ¬ 0 < g.tally id p v := fun h => by
        obtain ⟨b, hb⟩ := tally_pos_iff.1 h
        exact hv (hc.target_live _ hb)
      rw [List.count_eq_zero.2 hno]
      omega
  have hclassifier : n.classifier.any (!g.contains ·) = false := by
    cases hcl : n.classifier with
    | none => rfl
    | some c =>
      have : g.classifier? id = some c := by simp [classifier?, hn, hcl]
      simp [hc.classifier_live id c this]
  have hlisted : g.unlisted id n = false := by
    unfold unlisted
    split
    · rename_i o ho
      have hl : g.lifetime? id = some (.ephemeral o) := by rw [lifetime?_of_node? hn, ho]
      have := (hc.owned_iff o id).2 ⟨hl, hc.owner_live id o hl⟩
      simp [this]
    · rfl
  exact nodeFault?_eq_none_iff.2 ⟨hmissing, hperm, hclassifier, hlisted⟩

theorem Indexed.sourceFault?_eq_none (hi : g.Indexed) : g.sourceFault? = none := by
  simp only [sourceFault?, List.findSome?_eq_none_iff, Option.map_eq_none_iff, List.find?_eq_none]
  rintro ⟨s, nodes⟩ he id hid
  have hs := (Table.mem_entries_iff hi.source_keys).1 he
  have : id ∈ g.persistentNodes s := by
    rwa [persistentNodes, Table.values_eq_of_find? hs]
  simp [hi.persistent_live this]

theorem Coherent.audit_eq_ok (hc : g.Coherent) : g.audit = .ok () := by
  have hnodes : (g.ids.findSome? fun id => g.node? id >>= g.nodeFault? id) = none := by
    rw [List.findSome?_eq_none_iff]
    intro id _
    cases hn : g.node? id with
    | none => rfl
    | some n => exact hc.nodeFault?_eq_none hn
  have hfault : g.fault? = none := by
    rw [fault?, hnodes, hc.toIndexed.sourceFault?_eq_none]
    rfl
  simp [audit, hfault]

/-- Only coherent graphs pass the audit, if the laws that every step keeps are given. -/
theorem Closed.of_audit (hi : g.Indexed) (hm : g.Mirrored) (h : g.audit = .ok ()) : g.Closed := by
  have hnode {id : NodeId} {n : Node} (hn : g.node? id = some n) : g.nodeFault? id n = none := by
    have hf : g.fault? = none := by
      unfold audit at h
      split at h
      · simp at h
      · assumption
    have hid : id ∈ g.ids := by
      have hc : g.contains id = true := contains_iff.2 ⟨n, hn⟩
      simp [ids, hc, lt_size_of_contains hc]
    have := List.findSome?_eq_none_iff.1 (Option.or_eq_none_iff.1 hf).1 id hid
    simpa [hn] using this
  refine ⟨fun id p v hv => ?_, fun id c hcl => ?_, fun id o ho => ?_⟩
  · obtain ⟨n, hn⟩ := contains_iff.1 (contains_of_mem_values hv)
    have hmissing := (nodeFault?_eq_none_iff.1 (hnode hn)).1
    have := List.find?_eq_none.1 hmissing _ ((mem_references_iff hm hn p v).2 hv)
    simpa using this
  · obtain ⟨n, hn, hnc⟩ := Option.bind_eq_some_iff.1 hcl
    have hclassifier := (nodeFault?_eq_none_iff.1 (hnode hn)).2.2.1
    simpa [hnc] using hclassifier
  · obtain ⟨n, hn, hno⟩ := Option.map_eq_some_iff.1 ho
    have hlisted := (nodeFault?_eq_none_iff.1 (hnode hn)).2.2.2
    have : id ∈ g.ownedBy o := by simpa [unlisted, hno] using hlisted
    exact ((hi.owned_iff o id).1 this).2

end Audit

end ModelCompiler.Graph
