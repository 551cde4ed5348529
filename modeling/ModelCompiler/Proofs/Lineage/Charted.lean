import ModelCompiler.Proofs.Store.Upheld

/-!
Metamodels that extensions declare.
-/
open ModelCompiler.Action ModelCompiler.Graph

namespace ModelCompiler

namespace Graph

variable {g h k : Graph} {id : NodeId}

/-- All nodes are part of the metamodel, none of them is a stub, and each has a lineage. -/
structure Charted (g : Graph) : Prop extends Basal g where
  issued : g.Issued
  not_importStub : ∀ id, g.contains id = true → g.isImportStub id = false
  packaging : ∀ c, g.packageClassifier = some c → g.path? c ≠ some Metamodel.importStub
  lineal : ∀ id, g.contains id = true → ∃ as, g.Lineal id as

theorem generals_of_not_importStub (hc : g.Closed)
    (hs : ∀ id, g.contains id = true → g.isImportStub id = false) (id : NodeId) :
    g.generals id = (g.values id "generalizations").map some := by
  refine List.map_congr_left fun v hv => ?_
  simp [referenced?, hs v (hc.value_live id _ v hv)]

theorem Charted.generals (hc : g.Charted) (id : NodeId) :
    g.generals id = (g.values id "generalizations").map some :=
  generals_of_not_importStub hc.toClosed hc.not_importStub id

theorem Charted.lifetime? (hc : g.Charted) (h : g.contains id = true) :
    g.lifetime? id = some .bootstrap := by
  obtain ⟨l, hl⟩ := exists_lifetime? h
  rw [hl, hc.bootstrap id l hl]

theorem Charted.upheld (hc : g.Charted) : g.Upheld :=
  { hc.toCoherent with
    root_isPackage := hc.root_isPackage
    root_bootstrap := hc.root_bootstrap
    classifier_bootstrap := hc.classifier_bootstrap
    issued := hc.issued }

theorem charted_initial : initial.Charted where
  toBasal := basal_initial
  issued := issued_of_isMetamodel isMetamodel_initial
  not_importStub _ := not_importStub_of_isMetamodel isMetamodel_initial
  packaging c hc := by
    rw [path?_of_packageClassifier isMetamodel_initial hc]
    decide +kernel
  lineal _ h := (lineal_of_isMetamodel isMetamodel_initial basal_initial.toClosed h).imp
    fun _ h => h.1

theorem Charted.declareBackReference (hc : g.Charted) (p : String) :
    (g.declareBackReference p).Charted := by
  have hb := hc.toBasal.declareBackReference p
  unfold Graph.declareBackReference at hb ⊢
  split
  · exact hc
  · rename_i hp
    rw [if_neg hp] at hb
    exact { hb with
      issued := hc.issued
      not_importStub := hc.not_importStub
      packaging := hc.packaging
      lineal := fun id h => (hc.lineal id h).imp fun as has => has.congr rfl fun _ _ => rfl }

theorem Charted.declareBackReferences (properties : List String) : ∀ {g : Graph}, g.Charted →
    (properties.foldl Graph.declareBackReference g).Charted := by
  induction properties with
  | nil => exact fun hc => hc
  | cons p ps ih => exact fun hc => ih (hc.declareBackReference p)

/-- The graph has grown and is still charted; nodes have kept their paths and nobody has got another
generalization. -/
structure Charts (g h : Graph) : Prop where
  charted : h.Charted
  contains : ∀ j, g.contains j = true → h.contains j = true
  path : ∀ j, g.contains j = true → h.path? j = g.path? j
  generalizations : ∀ j, h.values j "generalizations" = g.values j "generalizations"

theorem Charts.refl (hc : g.Charted) : Charts g g :=
  ⟨hc, fun _ h => h, fun _ _ => rfl, fun _ => rfl⟩

theorem Charts.trans (a : Charts g h) (b : Charts h k) : Charts g k where
  charted := b.charted
  contains j hj := b.contains j (a.contains j hj)
  path j hj := (b.path j (a.contains j hj)).trans (a.path j hj)
  generalizations j := (b.generalizations j).trans (a.generalizations j)

section Founding

variable {spec : NodeSpec} {package : Bool} {parent : NodeId}

theorem Charted.found (hc : g.Charted) (hs : (g.found spec .bootstrap package parent).Sound)
    (hp : g.contains parent = true) (hk : ∀ c, spec.classifier = some c → g.contains c = true ∧
      g.path? c ≠ some Metamodel.importStub) :
        Charts g (g.found spec .bootstrap package parent) := by
  have hi := hc.toIndexed
  have e := frame_found g spec .bootstrap package parent
  have hpath (c : NodeId) (h : g.contains c = true) :
      (g.found spec .bootstrap package parent).path? c = g.path? c := by
    rw [path?_congr e, path?_seat _ _ _ hi, if_neg (hi.ne_fresh h)]
  have hstub (id : NodeId) (h : (g.found spec .bootstrap package parent).contains id = true) :
      (g.found spec .bootstrap package parent).isImportStub id = false := by
    rw [contains_congr e, contains_seat _ _ _ hi, Bool.or_eq_true, decide_eq_true_eq] at h
    by_cases hid : g.contains id = true
    · rw [isImportStub_congr e, isImportStub, hc.toCoherent.classifierPath?_seat _ _ _ hid]
      exact hc.not_importStub id hid
    · obtain rfl := h.resolve_right hid
      rw [isImportStub, classifierPath?, classifier?_congr e, classifier?_seat _ _ _ hi, if_pos rfl]
      cases hcl : spec.classifier with
      | none => simp
      | some c =>
        obtain ⟨hlive, hne⟩ := hk c hcl
        simpa [hpath c hlive] using hne
  have hvalues (j : NodeId) : (g.found spec .bootstrap package parent).values j "generalizations" =
      g.values j "generalizations" := by
    rw [values_found hi hp, if_neg (by simp), if_neg (by simp)]
  have hgenerals (j : NodeId) :
      (g.found spec .bootstrap package parent).generals j = g.generals j := by
    rw [generals_of_not_importStub hs.toClosed hstub, hc.generals, hvalues]
  obtain ⟨hb, hgrow⟩ := hc.toBasal.found hs
  have hstamps : Restamps g (g.found spec .bootstrap package parent) :=
    (restamps_seat hi _ _ _).trans ((restamps_link _ _ _ _).trans (restamps_link _ _ _ _))
  refine ⟨{ hb with
    issued := hstamps.issued hc.issued
    not_importStub := hstub
    packaging := fun c hcl => ?_
    lineal := fun id h => ?_ }, hgrow, hpath, hvalues⟩
  · rw [packageClassifier_congr e, packageClassifier_seat] at hcl
    rw [hpath c (contains_of_lifetime? (hc.classifier_bootstrap c hcl))]
    exact hc.packaging c hcl
  · by_cases hid : g.contains id = true
    · obtain ⟨as, has⟩ := hc.lineal id hid
      exact ⟨as, has.congr (hgenerals id) fun x _ => hgenerals x⟩
    · refine ⟨_, .intro [] (fun _ => []) ?_ (by simp)⟩
      rw [hgenerals, hc.generals, values_eq, propertiesOf_of_not_contains (by simpa using hid)]
      rfl

theorem Charted.founded {package : NodeId} (hc : g.Charted) (hf : Founded .bootstrap g h package) :
    Charts g h := by
  induction hf with
  | refl => exact .refl hc
  | step hf hpath ih =>
    have hh := ih.charted
    refine ih.trans (hh.found ((hf.step hpath).sound rfl hc.toSound)
      (hh.isPackage_live hf.isPackage) fun c hcl => ?_)
    exact ⟨contains_of_lifetime? (hh.classifier_bootstrap c hcl), hh.packaging c hcl⟩

theorem Charted.established {path : Path} (hc : g.Charted)
    (he : Established g spec path .bootstrap id k)
    (hk : ∀ c, spec.classifier = some c → g.path? c ≠ some Metamodel.importStub) :
    Charts g k ∧ k.contains id = true ∧ g.contains id = false := by
  have hs := he.sound hc.toSound (by simp) (by simp)
  obtain ⟨h, parent, hf, -, rfl, hcl, rfl⟩ := he.founded
  have hh := hc.founded hf
  have hi := hh.charted.toIndexed
  refine ⟨hh.trans (hh.charted.found hs (hh.charted.isPackage_live hf.isPackage) fun c hcs => ?_),
    ?_, ?_⟩
  · have hlive := hcl c hcs
    rw [hh.path c hlive]
    exact ⟨hh.contains c hlive, hk c hcs⟩
  · simp [contains_congr (frame_found h { spec with path := some path } .bootstrap false parent),
      contains_seat _ _ _ hi]
  · exact Bool.eq_false_iff.2 fun hid => hi.ne_fresh (hh.contains _ hid) rfl

end Founding

section Declaring

/-- Lineages that do not lead to a node do not depend on its generalizations. -/
theorem Lineal.of_apart {x : NodeId} {as : List NodeId} (hx : k.Lineal x as)
    (hsame : ∀ j, j ≠ id → h.generals j = k.generals j) (hapart : ∀ j, some id ∉ k.generals j)
    (hne : x ≠ id) : h.Lineal x as := by
  induction hx with
  | @intro x gs ls hgs _ ih =>
    refine .intro gs ls ((hsame x hne).trans hgs) fun y hy => ih y hy ?_
    rintro rfl
    exact hapart x (hgs ▸ List.mem_map_of_mem hy)

structure Widens (id : NodeId) (k t : Graph) : Prop where
  basal : t.Basal
  issued : t.Issued
  frame : t.frame = k.frame
  others : ∀ j, j ≠ id → t.values j "generalizations" = k.values j "generalizations"
  own : ∀ v ∈ t.values id "generalizations", k.contains v = true ∧ v ≠ id

theorem Widens.link {t : Graph} {v : NodeId} (hw : Widens id k t) (hid : k.contains id = true)
    (hv : k.contains v = true) (hne : v ≠ id) : Widens id k (t.link id "generalizations" v) := by
  have hlive {j : NodeId} (hj : k.contains j = true) : t.contains j = true := by
    rwa [contains_congr hw.frame]
  refine ⟨(hw.basal.link (hlive hid) (hlive hv) (by decide) (by decide)).1,
    (restamps_link _ _ _ _).issued hw.issued, (frame_link _ _ _ _).trans hw.frame, fun j hj => ?_,
    fun x hx => ?_⟩
  · rw [values_link (hlive hid), if_neg fun e => hj e.1]
    exact hw.others j hj
  · rw [values_link (hlive hid), if_pos ⟨rfl, rfl⟩, List.mem_append, List.mem_singleton] at hx
    rcases hx with hx | rfl
    · exact hw.own x hx
    · exact ⟨hv, hne⟩

theorem Widens.charted {t : Graph} (hw : Widens id k t) (hk : k.Charted)
    (hapart : ∀ j, id ∉ k.values j "generalizations") : t.Charted := by
  have hstub (j : NodeId) (hj : t.contains j = true) : t.isImportStub j = false := by
    rw [isImportStub_congr hw.frame]
    exact hk.not_importStub j (contains_congr hw.frame j ▸ hj)
  have hgenerals := generals_of_not_importStub hw.basal.toClosed hstub
  have hold (x : NodeId) (hx : k.contains x = true) (hne : x ≠ id) : ∃ as, t.Lineal x as := by
    obtain ⟨as, has⟩ := hk.lineal x hx
    refine ⟨as, has.of_apart (fun j hj => ?_) (fun j hj => ?_) hne⟩
    · rw [hgenerals, hk.generals, hw.others j hj]
    · rw [hk.generals] at hj
      exact hapart j (by simpa using hj)
  refine { hw.basal with
    issued := hw.issued
    not_importStub := hstub
    packaging := fun c hc => ?_
    lineal := fun x hx => ?_ }
  · rw [path?_congr hw.frame]
    exact hk.packaging c (packageClassifier_congr hw.frame ▸ hc)
  · by_cases hne : x = id
    · subst hne
      choose! ls hls using fun v (hv : v ∈ t.values x "generalizations") =>
        hold v (hw.own v hv).1 (hw.own v hv).2
      exact ⟨_, .intro _ ls (hgenerals x) hls⟩
    · exact hold x (contains_congr hw.frame x ▸ hx) hne

theorem Charted.declareClassifier (hc : g.Charted) (path : Path) (generals : List NodeId) :
    Ensures (Graph.declareClassifier path generals) g (fun _ t => t.Charted) fun _ _ => True := by
  -- the new element is no general of any node, so that what it is linked to lies above it
  refine (declareClassifier_ensures (I := fun id t => ∃ k : Graph, k.Charted ∧ Widens id k t ∧
    (∀ j, id ∉ k.values j "generalizations") ∧ g.contains id = false) hc.toIndexed
    (fun _ => trivial) (fun c hpath => ?_) fun id t i hlive ht hid hi => ?_).imp fun id t ht => ?_
  · refine (createBootstrap_ensures hc.root_isPackage).mono (fun id k hk => ?_) fun _ _ _ => trivial
    obtain ⟨_, -, he⟩ := hk
    have hclass (c' : NodeId) (hc' : some c = some c') :
        g.path? c' ≠ some Metamodel.importStub := by
      rw [← Option.some.inj hc', hpath]
      decide +kernel
    obtain ⟨hk, hid, hnew⟩ := hc.established he hclass
    have hapart (j : NodeId) : id ∉ k.values j "generalizations" := by
      rw [hk.generalizations]
      intro hmem
      simp [hc.value_live j _ id hmem] at hnew
    refine ⟨⟨k, hk.charted, ⟨hk.charted.toBasal, hk.charted.issued, rfl, fun _ _ => rfl,
      fun v hv => ⟨hk.charted.value_live id _ v hv, ?_⟩⟩, hapart, hnew⟩, hid, hk.contains⟩
    rintro rfl
    exact hapart v hv
  · obtain ⟨k, hk, hw, hapart, hnew⟩ := ht
    have hne : i ≠ id := by
      rintro rfl
      simp [hlive] at hnew
    rw [contains_congr hw.frame] at hid hi
    exact ⟨k, hk, hw.link hid hi hne, hapart, hnew⟩
  · obtain ⟨k, hk, hw, hapart, -⟩ := ht
    exact hw.charted hk hapart

end Declaring

end Graph

namespace Registry

variable {g : Graph}

theorem addClassifier_charted (hc : g.Charted) (d : ClassifierDeclaration) :
    Ensures (addClassifier d) g (fun _ t => t.Charted) fun _ _ => True := by
  unfold addClassifier
  refine ensures_get_bind ?_
  split
  · exact ensures_throw trivial
  · refine ensures_bind ((ensures_mapM (I := fun _ t => t = g) rfl fun general _ _ t ht => ?_).imp
      fun generals t ht => ?_)
    · refine ensures_get_bind ?_
      split
      · exact ensures_pure ht
      · exact ensures_throw trivial
    · rw [ht]
      exact ensures_discard (ensures_relabel (hc.declareClassifier d.path generals))

theorem checkKnown_ensures (what : String) (path : Path) {I : Graph → Prop} (hg : I g) :
    Ensures (checkKnown what path) g (fun _ t => I t) fun _ _ => True := by
  unfold checkKnown
  refine ensures_get_bind ?_
  split
  · exact ensures_throw trivial
  · exact ensures_pure hg

theorem extend_charted (registry : Registry) (hc : g.Charted) :
    Ensures registry.extend g (fun _ t => t.Charted) fun _ _ => True := by
  unfold extend
  refine ensures_modify_bind (ensures_bind ?_)
  refine (ensures_forM_invariant (I := Graph.Charted) (hc.declareBackReferences _)
    fun d _ t ht => addClassifier_charted ht d).imp (fun _ t ht => ensures_bind ?_)
  refine (ensures_forM_invariant ht fun path _ t ht => checkKnown_ensures _ path ht).imp
    (fun _ t ht => ?_)
  exact ensures_forM_invariant ht fun phase _ t ht =>
    ensures_forM_invariant ht fun path _ t ht => checkKnown_ensures _ path ht

end Registry

end ModelCompiler
