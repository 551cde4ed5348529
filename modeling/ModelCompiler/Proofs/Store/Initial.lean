import ModelCompiler.Proofs.Store.Evict

/-!
The graph that holds the metamodel keeps the laws of the store, and all its nodes are part of the
metamodel.
-/
open ModelCompiler.Action

namespace ModelCompiler.Graph

structure Basal (g : Graph) : Prop extends Sound g where
  bootstrap : ∀ id l, g.lifetime? id = some l → l = .bootstrap

def Basal.Grows (g h : Graph) : Prop :=
  h.Basal ∧ ∀ id, g.contains id = true → h.contains id = true

theorem Basal.Grows.trans {g h k : Graph} (a : Basal.Grows g h) (b : Basal.Grows h k) :
    Basal.Grows g k :=
  ⟨b.1, fun id hid => b.2 id (a.2 id hid)⟩

theorem node?_empty (j : NodeId) : empty.node? j =
    if j = root then some (({ path := some Metamodel.rootPackage } : NodeSpec).node .bootstrap 0)
    else none := by
  unfold node? empty root
  cases j with
  | zero => rfl
  | succ j => simp

theorem propertiesOf_empty (j : NodeId) : empty.propertiesOf j = ∅ := by
  rw [propertiesOf, node?_empty]
  split <;> rfl

theorem lifetime?_empty (j : NodeId) :
    empty.lifetime? j = if j = root then some .bootstrap else none := by
  rw [lifetime?, node?_empty]
  split <;> rfl

theorem path?_empty (j : NodeId) :
    empty.path? j = if j = root then some Metamodel.rootPackage else none := by
  rw [path?, node?_empty]
  split <;> rfl

theorem classifier?_empty (j : NodeId) : empty.classifier? j = none := by
  rw [classifier?, node?_empty]
  split <;> rfl

theorem values_empty (j : NodeId) (q : String) : empty.values j q = [] := by
  rw [values_eq, propertiesOf_empty, Table.values_empty]

theorem isPackage_empty (j : NodeId) : empty.isPackage j = decide (j = root) := by
  simp [isPackage, empty]

theorem not_ephemeral_empty (j o : NodeId) : empty.lifetime? j ≠ some (.ephemeral o) := by
  rw [lifetime?_empty]
  split <;> simp

theorem indexed_empty : empty.Indexed where
  free_dead := by simp [empty]
  free_nodup := by simp [empty]
  lookup_iff p j := by
    rw [path?_empty]
    simp only [lookup, Table.find?, empty, List.lookup_cons, List.lookup_nil]
    by_cases h : p = Metamodel.rootPackage
    · subst h
      by_cases hj : j = root <;> simp [hj, eq_comm]
    · have hb : (p == Metamodel.rootPackage) = false := by simpa using h
      by_cases hj : j = root <;> simp [hb, hj, Ne.symm h]
  persistent_iff s j := by
    rw [lifetime?_empty]
    by_cases hj : j = root <;> simp [hj, persistentNodes, empty]
  persistent_nodup := by simp [persistentNodes, empty]
  source_keys := by simp [empty]
  owned_iff o j := by
    have : empty.ownedBy o = [] := rfl
    simp [this, not_ephemeral_empty]
  owned_nodup o := List.nodup_nil
  owner_plain j o h := absurd h (not_ephemeral_empty j o)
  ephemeral_path j o h := absurd h (not_ephemeral_empty j o)
  instance_iff c j := by
    have : empty.instancesOf c = [] := rfl
    simp [this, classifier?_empty]
  package_shared j h := by
    rw [isPackage_empty, decide_eq_true_eq] at h
    exact ⟨.bootstrap, by simp [lifetime?_empty, h], rfl⟩
  implicit_package j h := by
    rw [lifetime?_empty] at h
    split at h <;> simp at h

theorem basal_empty : empty.Basal :=
  { indexed_empty with
    nodup_keys := by simp [propertiesOf_empty]
    ne_nil := by simp [propertiesOf_empty]
    tally_eq := fun j q v _ => by
      rw [values_empty]
      rfl
    target_live := fun u hu => by simp [empty] at hu
    value_live := by simp [values_empty]
    classifier_live := by simp [classifier?_empty]
    owner_live := fun j o h => absurd h (not_ephemeral_empty j o)
    package_of_child := by simp [children, values_empty]
    child_of_package := by simp [values_empty]
    children_nodup := by simp [children, values_empty]
    parent_isPackage := by simp [children, values_empty]
    child_path := by simp [children, values_empty]
    root_isPackage := by simp [isPackage_empty]
    root_bootstrap := by simp [lifetime?_empty]
    classifier_bootstrap := fun c h => by simp [empty] at h
    declared := fun u hu => by simp [empty] at hu
    rising := List.Pairwise.nil
    bootstrap := fun j l h => by
      rw [lifetime?_empty] at h
      split at h
      · exact (Option.some.inj h).symm
      · simp at h }

section Steps

variable {g : Graph}

theorem Basal.declareBackReference (hb : g.Basal) (p : String) :
    (g.declareBackReference p).Basal := by
  unfold Graph.declareBackReference
  split
  · exact hb
  · exact { hb with
      declared := fun u hu hback => by
        have := hb.declared u hu hback
        simp only [isBackReference, decide_eq_true_eq] at this
        simp [isBackReference, this] }

theorem Basal.link (hb : g.Basal) {id value : NodeId} {p : String} (hid : g.contains id = true)
    (hv : g.contains value = true) (hp : p ≠ "package") (hc : p ≠ "children") :
    Grows g (g.link id p value) :=
  have e := frame_link g id value p
  ⟨{ hb.toSound.link hid hv hp hc with
      bootstrap := fun j l h => hb.bootstrap j l (lifetime?_congr e j ▸ h) },
    fun j hj => by rwa [contains_congr e]⟩

theorem Basal.found (hb : g.Basal) {spec : NodeSpec} {package : Bool} {parent : NodeId}
    (hs : (g.found spec .bootstrap package parent).Sound) :
    Grows g (g.found spec .bootstrap package parent) :=
  have e := frame_found g spec .bootstrap package parent
  ⟨{ hs with
      bootstrap := fun j l h => by
        rw [lifetime?_congr e, lifetime?_seat _ _ _ hb.toIndexed] at h
        split at h
        · exact (Option.some.inj h).symm
        · exact hb.bootstrap j l h },
    fun j hj => by
      rw [contains_congr e]
      exact contains_seat_of_contains _ _ _ hb.toIndexed hj⟩

theorem Basal.founded {h : Graph} {package : NodeId} (hb : g.Basal)
    (hf : Founded .bootstrap g h package) : Grows g h := by
  induction hf with
  | refl => exact ⟨hb, fun _ h => h⟩
  | step hf hpath ih =>
    have hs := (hf.step hpath).sound rfl hb.toSound
    exact ih.trans (ih.1.found hs)

theorem Basal.createBootstrap (hb : g.Basal) (spec : NodeSpec) :
    Ensures (Graph.createBootstrap spec) g (fun id h => Grows g h ∧ h.contains id = true)
      fun _ h => Grows g h := by
  refine (createBootstrap_ensures hb.root_isPackage).mono (fun id k hk => ?_) fun _ _ he => ?_
  · obtain ⟨path, -, he⟩ := hk
    have hs := he.sound hb.toSound (by simp) (by simp)
    obtain ⟨h, parent, hf, -, rfl, -, rfl⟩ := he.founded
    have hg := hb.founded hf
    refine ⟨hg.trans (hg.1.found hs), ?_⟩
    rw [contains_congr (frame_found _ _ _ _ _), contains_seat _ _ _ hg.1.toIndexed]
    simp
  · rw [he.1]
    exact ⟨hb, fun _ h => h⟩

section SetClassifier

variable (g) (id classifier : NodeId)

theorem node?_setClassifier (j : NodeId) : (g.setClassifier id classifier).node? j =
    if j = id then (g.node? j).map fun n => { n with classifier := some classifier }
    else g.node? j := by
  unfold setClassifier
  rw [node?_modifyNode]
  rfl

theorem lifetime?_setClassifier (j : NodeId) :
    (g.setClassifier id classifier).lifetime? j = g.lifetime? j := by
  rw [lifetime?, node?_setClassifier]
  split
  · rw [Option.map_map]
    rfl
  · rfl

theorem path?_setClassifier (j : NodeId) :
    (g.setClassifier id classifier).path? j = g.path? j := by
  rw [path?, node?_setClassifier]
  split
  · show ((g.node? j).map _).bind _ = (g.node? j).bind _
    rw [Option.bind_map]
    rfl
  · rfl

theorem contains_setClassifier (j : NodeId) :
    (g.setClassifier id classifier).contains j = g.contains j := by
  rw [contains, node?_setClassifier]
  split <;> simp [contains]

theorem propertiesOf_setClassifier (j : NodeId) :
    (g.setClassifier id classifier).propertiesOf j = g.propertiesOf j := by
  rw [propertiesOf, node?_setClassifier]
  split
  · rw [Option.map_map]
    rfl
  · rfl

theorem values_setClassifier (j : NodeId) (p : String) :
    (g.setClassifier id classifier).values j p = g.values j p := by
  rw [values_eq, propertiesOf_setClassifier, values_eq]

variable {g id classifier}

theorem classifier?_setClassifier (hid : g.contains id = true) (j : NodeId) :
    (g.setClassifier id classifier).classifier? j =
      if j = id then some classifier else g.classifier? j := by
  rw [classifier?, node?_setClassifier]
  split
  · rename_i hj
    obtain ⟨n, hn⟩ := contains_iff.1 hid
    simp [hj, hn]
  · rfl

theorem instancesOf_setClassifier (hi : g.Indexed) (c : NodeId) :
    (g.setClassifier id classifier).instancesOf c =
      if c = classifier then (g.instancesOf c).filter (· ≠ id) ++ [id]
      else (g.instancesOf c).filter (· ≠ id) := by
  have hmem (d : NodeId) (h : id ∈ g.instancesOf d) : g.classifier? id = some d :=
    ((hi.instance_iff d id).1 h).1
  obtain ⟨t, ht, hdrop⟩ : ∃ t : Table NodeId (List NodeId),
      (g.setClassifier id classifier).instances = t.push classifier id ∧
        ∀ d, t.values d = (g.instancesOf d).filter (· ≠ id) := by
    cases hf : g.classifier? id with
    | none =>
      refine ⟨g.instances, by simp [setClassifier, modifyNode, hf], fun d => ?_⟩
      exact (filter_ne_of_not_mem fun h => by simp [hmem d h] at hf).symm
    | some former =>
      refine ⟨g.instances.drop former id, by simp [setClassifier, modifyNode, hf], fun d => ?_⟩
      exact values_drop_eq_filter (fun j hj => by simpa [hf, eq_comm] using hmem j hj) d
  rw [instancesOf, ht, Table.values_push, hdrop, hdrop]
  split
  · rename_i h
    rw [h]
  · rfl

theorem mem_instancesOf_setClassifier (hi : g.Indexed) (hid : g.contains id = true)
    (hc : g.contains classifier = true) (c j : NodeId) :
    j ∈ (g.setClassifier id classifier).instancesOf c ↔
      (g.setClassifier id classifier).classifier? j = some c ∧
        (g.setClassifier id classifier).contains c = true := by
  rw [instancesOf_setClassifier hi, classifier?_setClassifier hid, contains_setClassifier]
  by_cases hj : j = id
  · subst hj
    by_cases hcc : c = classifier
    · simp [hcc, hc]
    · simp [hcc, Ne.symm hcc]
  · by_cases hcc : c = classifier <;> simp [hcc, hj, hi.instance_iff]

theorem Indexed.setClassifier (hi : g.Indexed) (hid : g.contains id = true)
    (hc : g.contains classifier = true) : (g.setClassifier id classifier).Indexed where
  free_dead j hj := by
    have hsize : (g.setClassifier id classifier).slots.size = g.slots.size := Array.size_modify
    rw [hsize, contains_setClassifier]
    exact hi.free_dead j hj
  free_nodup := hi.free_nodup
  lookup_iff p j := path?_setClassifier g id classifier j ▸ hi.lookup_iff p j
  persistent_iff s j := lifetime?_setClassifier g id classifier j ▸ hi.persistent_iff s j
  persistent_nodup := hi.persistent_nodup
  source_keys := hi.source_keys
  owned_iff o j := by
    rw [lifetime?_setClassifier, contains_setClassifier]
    exact hi.owned_iff o j
  owned_nodup := hi.owned_nodup
  owner_plain j o := by
    simp only [lifetime?_setClassifier]
    exact hi.owner_plain j o
  ephemeral_path j o := by
    rw [lifetime?_setClassifier, path?_setClassifier]
    exact hi.ephemeral_path j o
  instance_iff := mem_instancesOf_setClassifier hi hid hc
  package_shared j := by
    rw [lifetime?_setClassifier]
    exact hi.package_shared j
  implicit_package j := by
    rw [lifetime?_setClassifier]
    exact hi.implicit_package j

theorem Mirrored.setClassifier (hm : g.Mirrored) : (g.setClassifier id classifier).Mirrored where
  nodup_keys j := by
    rw [propertiesOf_setClassifier]
    exact hm.nodup_keys j
  ne_nil j := by
    rw [propertiesOf_setClassifier]
    exact hm.ne_nil j
  tally_eq j p v := by
    rw [contains_setClassifier, values_setClassifier]
    exact hm.tally_eq j p v
  target_live u := by
    rw [contains_setClassifier]
    exact hm.target_live u

theorem Closed.setClassifier (hl : g.Closed) (hid : g.contains id = true)
    (hc : g.contains classifier = true) : (g.setClassifier id classifier).Closed where
  value_live j p v := by
    rw [values_setClassifier, contains_setClassifier]
    exact hl.value_live j p v
  classifier_live j c h := by
    rw [classifier?_setClassifier hid] at h
    rw [contains_setClassifier]
    split at h
    · exact Option.some.inj h ▸ hc
    · exact hl.classifier_live j c h
  owner_live j o := by
    rw [lifetime?_setClassifier, contains_setClassifier]
    exact hl.owner_live j o

theorem Housed.setClassifier (hh : g.Housed) : (g.setClassifier id classifier).Housed := by
  have hchildren (P : NodeId) : (g.setClassifier id classifier).children P = g.children P :=
    values_setClassifier g id classifier P "children"
  exact { hh with
    package_of_child := fun P m => by
      rw [hchildren, values_setClassifier]
      exact hh.package_of_child P m
    child_of_package := fun m P => by
      rw [hchildren, values_setClassifier]
      exact hh.child_of_package m P
    children_nodup := fun P => hchildren P ▸ hh.children_nodup P
    parent_isPackage := fun P m h => hh.parent_isPackage P m (hchildren P ▸ h)
    child_path := fun P m => by
      rw [hchildren, path?_setClassifier]
      exact hh.child_path P m
    root_bootstrap := lifetime?_setClassifier g id classifier root ▸ hh.root_bootstrap
    classifier_bootstrap := fun c => by
      rw [lifetime?_setClassifier]
      exact hh.classifier_bootstrap c }

theorem Basal.setClassifier (hb : g.Basal) (hid : g.contains id = true)
    (hc : g.contains classifier = true) : Grows g (g.setClassifier id classifier) := by
  refine ⟨?_, fun j hj => by rwa [contains_setClassifier]⟩
  exact { hb.toIndexed.setClassifier hid hc, hb.toMirrored.setClassifier,
    hb.toClosed.setClassifier hid hc, hb.toHoused.setClassifier, hb with
    bootstrap := fun j l h => hb.bootstrap j l (by rwa [lifetime?_setClassifier] at h) }

end SetClassifier

end Steps

section Bootstrap

variable {g : Graph}

theorem require_ensures (hi : g.Indexed) (path : Path) :
    Ensures (require path) g (fun id h => h = g ∧ g.contains id = true ∧ g.path? id = some path)
      fun _ h => h = g := by
  unfold require
  refine ensures_get_bind ?_
  cases hp : g.lookup path with
  | none => exact ensures_throw rfl
  | some id => exact ensures_pure ⟨rfl, hi.lookup_live hp, (hi.lookup_iff path id).1 hp⟩

theorem addGeneralizations_ensures {I : Graph → Prop} {E : GraphError → Graph → Prop} {id : NodeId}
    {generals : List NodeId} (hg : I g) (hid : g.contains id = true)
    (hlive : ∀ i ∈ generals, g.contains i = true)
    (hlink : ∀ k, ∀ i ∈ generals, I k → k.contains id = true → k.contains i = true →
      I (k.link id "generalizations" i)) :
    Ensures (addGeneralizations id generals) g (fun _ t => I t) E := by
  refine (ensures_forM_invariant (I := fun t => I t ∧ t.frame = g.frame) ⟨hg, rfl⟩
    fun i hi t ht => ?_).imp fun _ _ ht => ht.1
  have hid' : t.contains id = true := contains_congr ht.2 id ▸ hid
  have hi' : t.contains i = true := contains_congr ht.2 i ▸ hlive i hi
  exact ensures_write (a := ()) (by simp [addValue, hid', hi', Except.map])
    ⟨hlink t i hi ht.1 hid' hi', (frame_link t id i _).trans ht.2⟩

/-- A law holds after a classifier is declared if the new element comes with it and it is kept by
each link from that element to one of its generals. -/
theorem declareClassifier_ensures (hi : g.Indexed) {I : NodeId → Graph → Prop}
    {E : GraphError → Graph → Prop} {path : Path} {generals : List NodeId} (hg : ∀ e, E e g)
    (hnew : ∀ c, g.path? c = some Metamodel.class_ →
      Ensures (createBootstrap { path := some path, classifier := some c }) g
        (fun id k => I id k ∧ k.contains id = true ∧ ∀ j, g.contains j = true →
          k.contains j = true) E)
    (hlink : ∀ id k i, g.contains i = true → I id k → k.contains id = true → k.contains i = true →
      I id (k.link id "generalizations" i)) :
    Ensures (declareClassifier path generals) g I E := by
  unfold declareClassifier
  refine ensures_bind ((require_ensures hi _).mono (fun c h hh => ?_) fun e _ he => he ▸ hg e)
  obtain ⟨rfl, -, hc⟩ := hh
  refine ensures_get_bind ?_
  cases hf : generals.find? (!h.contains ·) with
  | some missing => exact ensures_throw (hg _)
  | none =>
    have hlive (i : NodeId) (hi : i ∈ generals) : h.contains i = true := by
      simpa using List.find?_eq_none.1 hf i hi
    refine ensures_bind ((hnew c hc).imp fun id k hk => ?_)
    obtain ⟨hI, hid, hkeep⟩ := hk
    exact ensures_bind ((addGeneralizations_ensures hI hid (fun i hi => hkeep i (hlive i hi))
      fun k i hi => hlink id k i (hlive i hi)).imp fun _ _ ht => ensures_pure ht)

theorem Basal.addGeneralizations (hb : g.Basal) {id : NodeId} (hid : g.contains id = true)
    {generals : List NodeId} (hg : ∀ i ∈ generals, g.contains i = true) :
    Ensures (Graph.addGeneralizations id generals) g (fun _ h => Grows g h) fun _ _ => False :=
  addGeneralizations_ensures (I := Grows g) ⟨hb, fun _ h => h⟩ hid hg
    fun _ _ _ hk hid hi => hk.trans (hk.1.link hid hi (by decide) (by decide))

theorem Basal.require_all (hb : g.Basal) (paths : List Path) :
    Ensures (paths.mapM require) g (fun ids h => h = g ∧ ∀ id ∈ ids, g.contains id = true)
      fun _ h => h = g := by
  refine ensures_mapM (I := fun ids h => h = g ∧ ∀ id ∈ ids, g.contains id = true)
    ⟨rfl, by simp⟩ fun path _ ids h hih => ?_
  obtain ⟨rfl, hids⟩ := hih
  refine (require_ensures hb.toIndexed path).imp (fun id k hk => ⟨hk.1, ?_⟩)
  intro j hj
  rcases List.mem_append.1 hj with hj | hj
  · exact hids j hj
  · rw [List.mem_singleton.1 hj]
    exact hk.2.1

theorem Basal.setClassifiers {classifier : NodeId} (ids : List NodeId) :
    ∀ {g : Graph}, g.Basal → g.contains classifier = true → (∀ id ∈ ids, g.contains id = true) →
      (ids.foldl (fun g id => g.setClassifier id classifier) g).Basal := by
  induction ids with
  | nil => exact fun hb _ _ => hb
  | cons id ids ih =>
    intro g hb hc hids
    have hstep := hb.setClassifier (hids id List.mem_cons_self) hc
    exact ih hstep.1 (hstep.2 _ hc) fun i hi => hstep.2 i (hids i (List.mem_cons_of_mem _ hi))

theorem Basal.declareBackReferences (hb : g.Basal) (properties : List String) :
    (properties.foldl Graph.declareBackReference g).Basal := by
  induction properties generalizing g with
  | nil => exact hb
  | cons p ps ih => exact ih (hb.declareBackReference p)

theorem bootstrap_ensures :
    Ensures bootstrap empty (fun _ h => h.Basal) fun _ h => h.Basal := by
  unfold bootstrap
  refine ensures_modify_bind ?_
  have hb := basal_empty.declareBackReferences Metamodel.backReferences
  generalize Metamodel.backReferences.foldl Graph.declareBackReference empty = g at hb
  refine ensures_bind ((ensures_mapM (I := fun ids h => Basal.Grows g h ∧
    ∀ id ∈ ids, h.contains id = true) ⟨⟨hb, fun _ h => h⟩, by simp⟩
    fun c _ ids h hih => ?_).mono (fun created h hh => ?_) fun _ h hh => hh)
  · refine (hih.1.1.createBootstrap _).mono (fun id k hk => ⟨hih.1.trans hk.1, ?_⟩)
      fun _ k hk => hk.1
    intro j hj
    rcases List.mem_append.1 hj with hj | hj
    · exact hk.1.2 j (hih.2 j hj)
    · rw [List.mem_singleton.1 hj]
      exact hk.2
  obtain ⟨⟨hb, -⟩, hcreated⟩ := hh
  refine ensures_bind ((require_ensures hb.toIndexed _).mono (fun classifier _ hcl => ?_)
    fun _ k hk => hk ▸ hb)
  obtain ⟨rfl, hclassifier, -⟩ := hcl
  refine ensures_bind ((require_ensures hb.toIndexed _).mono (fun package k hp => ?_)
    fun _ k hk => hk ▸ hb)
  obtain ⟨rfl, hpackage, -⟩ := hp
  refine ensures_modify_bind ?_
  -- from here on packages are classified, by a node of the metamodel
  have hb : Basal { k with packageClassifier := some package } := { hb with
    classifier_bootstrap := fun c hc => by
      rw [← Option.some.inj hc]
      obtain ⟨l, hl⟩ := exists_lifetime? hpackage
      exact hb.bootstrap package l hl ▸ hl }
  have hcreated (id : NodeId) (hid : id ∈ created) :
      Graph.contains { k with packageClassifier := some package } id = true := hcreated id hid
  have hclassifier : Graph.contains { k with packageClassifier := some package }
      classifier = true :=
    hclassifier
  have hpackage : Graph.contains { k with packageClassifier := some package } package = true :=
    hpackage
  generalize { k with packageClassifier := some package } = k₁ at hb hcreated hclassifier hpackage
  refine ensures_bind ((ensures_forM_invariant (I := Basal.Grows k₁) ⟨hb, fun _ h => h⟩
    fun item hitem h hgh => ?_).imp fun _ k₂ hg₂ => ?_)
  · obtain ⟨id, path, generals⟩ := item
    have hid := hgh.2 id (hcreated id (List.of_mem_zip hitem).1)
    refine ensures_modify_bind ?_
    have hset := hgh.1.setClassifier hid (hgh.2 _ hclassifier)
    refine ensures_bind ((hset.1.require_all generals).mono (fun ids k hk => ?_)
      fun _ k hk => hk ▸ hset.1)
    obtain ⟨rfl, hids⟩ := hk
    exact (hset.1.addGeneralizations (hset.2 id hid) hids).mono
      (fun _ _ hgr => (hgh.trans hset).trans hgr) fun _ _ he => he.elim
  refine ensures_modify_bind ?_
  have hb := hg₂.1.setClassifiers k₂.packages.reverse (hg₂.2 _ hpackage) fun id hid =>
    hg₂.1.isPackage_live (by simpa [isPackage] using hid)
  generalize k₂.packages.reverse.foldl (fun g id => g.setClassifier id package) k₂ = k₃ at hb
  refine ensures_bind ((require_ensures hb.toIndexed _).mono (fun any _ h => ?_)
    fun _ k hk => hk ▸ hb)
  obtain ⟨rfl, hany, -⟩ := h
  refine ensures_bind ((require_ensures hb.toIndexed _).mono (fun primitive k h => ?_)
    fun _ k hk => hk ▸ hb)
  obtain ⟨rfl, -⟩ := h
  refine ensures_bind ((ensures_forM_invariant (I := Basal.Grows k) ⟨hb, fun _ h => h⟩
    fun path _ h hgh => ?_).imp fun _ k₄ hg₄ => ?_)
  · refine ensures_bind ((hgh.1.createBootstrap _).mono (fun id h₁ hh₁ => ?_) fun _ k hk => hk.1)
    have hgen (i : NodeId) (hi : i ∈ [any]) : h₁.contains i = true := by
      rw [List.mem_singleton.1 hi]
      exact hh₁.1.2 _ (hgh.2 _ hany)
    exact (hh₁.1.1.addGeneralizations hh₁.2 hgen).mono
      (fun _ _ hgr => (hgh.trans hh₁.1).trans hgr) fun _ _ he => he.elim
  refine ensures_bind ((require_ensures hg₄.1.toIndexed _).mono (fun stereotype k h => ?_)
    fun _ k hk => hk ▸ hg₄.1)
  obtain ⟨rfl, -⟩ := h
  refine ensures_bind ((ensures_forM_invariant (I := Graph.Basal) hg₄.1
    fun path _ h hbh => ?_).imp fun _ k₅ hb₅ => ?_)
  · exact ensures_discard ((hbh.createBootstrap _).mono (fun _ _ hk => hk.1.1) fun _ _ hk => hk.1)
  refine ensures_discard ((ensurePackage_ensures rfl (Path.nodup_packages _)
    hb₅.root_isPackage).mono (fun _ _ hk => (hb₅.founded hk.1).1) fun _ _ hk => hk.1 ▸ hb₅)

theorem basal_initial : initial.Basal := by
  unfold initial
  rcases bootstrap_ensures with ⟨a, h, he, hb⟩ | ⟨e, h, he, hb⟩
  · rw [he]
    exact hb
  · rw [he]
    exact hb

end Bootstrap

open Metamodel in
/-- The same graph with the texts of its paths taken apart, which makes samples fast to evaluate. -/
def spelledOut : { g : Graph // initial = g } :=
  ⟨_, by
    dsimp only [initial, bootstrap, empty, classifiers, primitives, rootPackage, any, type, class_,
      primitiveType, enumeration, enum, association, packageableElement, package, property,
      functionDefinition, functionType, variableExpression, importGroup, importedPackage,
      importStub, propertyStub, stereotype, privateAccess, protectedAccess, importsPackage,
      String.reduceToList]⟩

end ModelCompiler.Graph
