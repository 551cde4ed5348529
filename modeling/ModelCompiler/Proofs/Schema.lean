import ModelCompiler.Proofs.Stripping
import ModelCompiler.Proofs.Store.Indexes

/-!
The schema of the graphs that a compiler makes: what may stand under which property.
-/
namespace ModelCompiler

namespace Metamodel

def derived : List String :=
  ["resolvedNode", "resolvedProperty", "specializations", "propertiesFromAssociations",
    "enumeration", "functionType"]

end Metamodel

namespace Graph

variable {g' : Graph} {id m o : NodeId} {spec : NodeSpec} {path : Path} {q : String}

structure Part (g : Graph) (owner : NodeId) (kind : Path) (m : NodeId) : Prop where
  lifetime : g.lifetime? m = some (.ephemeral owner)
  kind : g.classifierPath? m = some kind

structure Named (g : Graph) (m : NodeId) : Prop where
  path : ∃ p, g.path? m = some p
  package : g.isPackage m = false

def IsType (g : Graph) (m : NodeId) : Prop :=
  ∃ o, g.Part o Metamodel.functionType m

def Propertied (g : Graph) (m : NodeId) : Prop :=
  g.classifierPath? m = some Metamodel.class_ ∨ g.classifierPath? m = some Metamodel.association

structure Ruled (g : Graph) (j : NodeId) (q : String) (v : NodeId) : Prop where
  functionType : q = "functionType" → g.Part j Metamodel.functionType v
  generalization : q = "generalizations" →
    g.Part j Metamodel.importStub v ∧ g.classifierPath? j = some Metamodel.class_ ∨
      g.Named v ∧ g.isImportStub v = false ∧ g.sourceOf? j = none
  typing : q = "genericType" ∨ q = "returnType" →
    (∃ o, g.ownerRoot? j = some o ∧ g.Part o Metamodel.importStub v) ∨ g.IsType j ∧ g.Named v
  property : q = "properties" → g.Part j Metamodel.property v ∧
    (g.classifierPath? j = some Metamodel.class_ ∨ g.classifierPath? j = some Metamodel.association)
  value : q = "values" →
    g.Part j Metamodel.enum v ∧ g.classifierPath? j = some Metamodel.enumeration
  expression : q = "expressionSequence" → g.Part j Metamodel.propertyStub v
  resolvedNode : q = "resolvedNode" → g.isImportStub j = true ∧ g.Named v
  resolvedProperty : q = "resolvedProperty" →
    g.isPropertyStub j = true ∧ ∃ o, g.Part o Metamodel.property v
  specialization : q = "specializations" → (∃ s, g.lifetime? v = some (.persistent s)) ∧ j ≠ v ∧
    ∀ o, g.lifetime? j ≠ some (.ephemeral o)
  attachment : q = "propertiesFromAssociations" → ∃ o, g.Part o Metamodel.property v ∧ j ≠ o ∧
    ∀ o, g.lifetime? j ≠ some (.ephemeral o)
  enumeration : q = "enumeration" → g.Part v Metamodel.enum j ∧
    g.classifierPath? v = some Metamodel.enumeration

structure Fits (g : Graph) (j : NodeId) (q : String) (v : NodeId) : Prop extends
    Ruled g j q v where
  implicit : g.lifetime? v = some .implicit → q = "package" ∨ q = "children"
  shared : g.sourceOf? j = none → g.isBackReference q = true ∨ g.sourceOf? v = none
  within : q ∉ Metamodel.derived → q ≠ "children" → ¬ g.IsType j →
    g.sourceOf? v = none ∨ g.sourceOf? v = g.sourceOf? j
  type : g.IsType v → q = "functionType"

section Agree

variable {g g' : Graph} {j v m : NodeId} {q : String}

structure Agree (g g' : Graph) (m : NodeId) : Prop where
  lifetime : g'.lifetime? m = g.lifetime? m
  classifierPath : g'.classifierPath? m = g.classifierPath? m
  source : g'.sourceOf? m = g.sourceOf? m
  path : g'.path? m = g.path? m
  package : g'.isPackage m = g.isPackage m

theorem Agree.symm (h : Agree g g' m) : Agree g' g m :=
  ⟨h.lifetime.symm, h.classifierPath.symm, h.source.symm, h.path.symm, h.package.symm⟩

theorem Agree.trans {h : Graph} (a : Agree g h m) (b : Agree h g' m) : Agree g g' m :=
  ⟨b.lifetime.trans a.lifetime, b.classifierPath.trans a.classifierPath, b.source.trans a.source,
    b.path.trans a.path, b.package.trans a.package⟩

theorem agree_of_frame (e : g'.frame = g.frame) (m : NodeId) : Agree g g' m :=
  ⟨lifetime?_congr e m, classifierPath?_congr e m, sourceOf?_congr e m, path?_congr e m,
    isPackage_congr e m⟩

theorem Agree.contains (a : Agree g g' m) : g'.contains m = g.contains m := by
  have h := a.lifetime
  simp only [lifetime?] at h
  simpa [Graph.contains] using congrArg Option.isSome h

theorem Agree.isImportStub (h : Agree g g' m) : g'.isImportStub m = g.isImportStub m := by
  rw [Graph.isImportStub, Graph.isImportStub, h.classifierPath]

theorem Agree.isPropertyStub (h : Agree g g' m) : g'.isPropertyStub m = g.isPropertyStub m := by
  rw [Graph.isPropertyStub, Graph.isPropertyStub, h.classifierPath]

theorem Part.agree {kind : Path} (hp : g.Part o kind m) (h : Agree g g' m) :
    g'.Part o kind m :=
  ⟨h.lifetime.trans hp.lifetime, h.classifierPath.trans hp.kind⟩

theorem Part.isImportStub (hp : g.Part o Metamodel.importStub m) :
    g.isImportStub m = true := by
  simp [Graph.isImportStub, hp.kind]

theorem Ruled.refers (h : g.Ruled j q v) (hq : q = "genericType" ∨ q = "returnType") :
    g.isImportStub v = true ∨ g.Named v :=
  (h.typing hq).imp (fun ⟨_, _, hp⟩ => hp.isImportStub) fun hn => hn.2

theorem Named.agree (hn : g.Named m) (h : Agree g g' m) : g'.Named m :=
  ⟨by rw [h.path]; exact hn.path, h.package.trans hn.package⟩

theorem IsType.agree (ht : g.IsType m) (h : Agree g g' m) : g'.IsType m :=
  ht.imp fun _ hp => hp.agree h

theorem Fits.agree (hf : g.Fits j q v) (hj : Agree g g' j) (hv : Agree g g' v)
    (hb : g'.backReferences = g.backReferences) : g'.Fits j q v where
  implicit h := hf.implicit (hv.lifetime ▸ h)
  shared h := by
    rw [isBackReference, hb, hv.source]
    exact hf.shared (hj.source ▸ h)
  within hq hc ht := by
    rw [hv.source, hj.source]
    exact hf.within hq hc fun h => ht (h.agree hj)
  type h := hf.type (h.agree hv.symm)
  functionType h := (hf.functionType h).agree hv
  generalization h := by
    rw [hv.isImportStub, hj.classifierPath, hj.source]
    exact (hf.generalization h).imp (fun hp => ⟨hp.1.agree hv, hp.2⟩)
      fun hn => ⟨hn.1.agree hv, hn.2⟩
  typing h := by
    rw [ownerRoot?_eq, hj.lifetime, ← ownerRoot?_eq]
    exact (hf.typing h).imp (fun ⟨o, ho, hp⟩ => ⟨o, ho, hp.agree hv⟩)
      fun hn => ⟨hn.1.agree hj, hn.2.agree hv⟩
  property h := by
    rw [hj.classifierPath]
    exact ⟨(hf.property h).1.agree hv, (hf.property h).2⟩
  value h := by
    rw [hj.classifierPath]
    exact ⟨(hf.value h).1.agree hv, (hf.value h).2⟩
  expression h := (hf.expression h).agree hv
  resolvedNode h := by
    rw [hj.isImportStub]
    exact ⟨(hf.resolvedNode h).1, (hf.resolvedNode h).2.agree hv⟩
  resolvedProperty h := by
    rw [hj.isPropertyStub]
    exact ⟨(hf.resolvedProperty h).1, (hf.resolvedProperty h).2.imp fun _ hp => hp.agree hv⟩
  specialization h := by
    rw [hj.lifetime, hv.lifetime]
    exact hf.specialization h
  attachment h := by
    rw [hj.lifetime]
    obtain ⟨o, hp, hne, hl⟩ := hf.attachment h
    exact ⟨o, hp.agree hv, hne, hl⟩
  enumeration h := by
    rw [hv.classifierPath]
    exact ⟨(hf.enumeration h).1.agree hj, (hf.enumeration h).2⟩

theorem agree_of_bare (e : (g'.node? m).map Node.bare = (g.node? m).map Node.bare)
    (hc : ∀ c, g.classifier? m = some c → g'.path? c = g.path? c)
    (ho : ∀ o, g.lifetime? m = some (.ephemeral o) → g'.lifetime? o = g.lifetime? o)
    (hp : g'.isPackage m = g.isPackage m) : Agree g g' m where
  lifetime := lifetime?_of_bare e
  classifierPath := classifierPath?_of_bare e hc
  source := by
    ext s
    rw [sourceOf?_eq_some_iff, sourceOf?_eq_some_iff, lifetime?_of_bare e]
    refine or_congr_right (exists_congr fun o => and_congr_right fun hl => ?_)
    rw [ho o hl]
  path := path?_of_bare e
  package := hp

theorem Coherent.agree_seat (hc : g.Coherent) (spec : NodeSpec) (lifetime : Lifetime)
    (package : Bool) (h : g.contains m = true) : Agree g (g.seat spec lifetime package) m := by
  have hbare {x : NodeId} (hx : g.contains x = true) :=
    hc.toIndexed.bare_seat spec lifetime package hx
  refine agree_of_bare (hbare h) (fun c hcl => path?_of_bare (hbare (hc.classifier_live m c hcl)))
    (fun o ho => lifetime?_of_bare (hbare (hc.owner_live m o ho))) ?_
  rw [isPackage_seat]
  simp [hc.toIndexed.ne_fresh h]

end Agree

/-- A graph in which every reference fits and the metamodel is in its place. The classifiers are all
among `K`. -/
structure Regular (K : NodeId → Prop) (g : Graph) : Prop extends Sound g, Rooted g, Tabled g where
  owner : ∀ m o, g.lifetime? m = some (.ephemeral o) → ∃ s, g.lifetime? o = some (.persistent s)
  fits : ∀ j q v, v ∈ g.values j q → g.Fits j q v
  flags : ∀ u ∈ g.usages, u.back = g.isBackReference u.property
  issued : g.Issued
  kind : ∀ m k, g.classifier? m = some k → K k ∧ ∃ p, g.path? k = some p
  enumerated : ∀ v e, e ∈ g.values v "enumeration" → v ∈ g.values e "values"
  located : ∀ m s, g.lifetime? m = some (.persistent s) → ∃ p, g.path? m = some p

/-- References under derived properties, or held by the types of functions, have been taken away,
and nothing else has changed. -/
structure Sheds (g g' : Graph) : Prop extends Trims g g' where
  plain : ∀ j q, q ∉ Metamodel.derived → ¬ g.IsType j → g'.values j q = g.values j q
  coherent : g'.Coherent
  ages : Ages g g'

namespace Regular

variable {K : NodeId → Prop} {g g' : Graph}

theorem tracked (hr : g.Regular K) : g.Tracked where
  stub j v hv hs := by
    rcases (hr.fits j _ v hv).generalization rfl with ⟨hp, -⟩ | ⟨-, hn, -⟩
    · exact hp.lifetime
    · simp [hs] at hn
  generalizations := by
    rw [← Bool.not_eq_true, hr.isBackReference_iff]
    decide
  resolvedNode := by
    rw [← Bool.not_eq_true, hr.isBackReference_iff]
    decide

section Types

variable (hr : g.Regular K) {m : NodeId}
include hr

theorem sourceOf?_package (h : g.isPackage m = true) : g.sourceOf? m = none := by
  obtain ⟨l, hl, hs⟩ := hr.package_shared m h
  cases hm : g.sourceOf? m with
  | none => rfl
  | some s =>
    rcases sourceOf?_eq_some_iff.1 hm with hl' | ⟨o, hl', -⟩ <;> rw [hl'] at hl <;>
      simp [← Option.some.inj hl, Lifetime.isShared] at hs

theorem not_isType_of_package (h : g.isPackage m = true) : ¬ g.IsType m := by
  rintro ⟨o, hp⟩
  obtain ⟨l, hl, hs⟩ := hr.package_shared m h
  rw [hp.lifetime] at hl
  simp [← Option.some.inj hl, Lifetime.isShared] at hs

theorem not_isType_of_path {p : Path} (h : g.path? m = some p) : ¬ g.IsType m :=
  fun ⟨o, hp⟩ => hr.not_ephemeral_of_path? h o hp.lifetime

theorem not_isType_of_initial (h : initial.contains m = true) : ¬ g.IsType m := by
  rintro ⟨o, hp⟩
  have := hp.lifetime
  rw [hr.lifetime? h] at this
  simp at this

end Types

theorem of_frame (hr : g.Regular K) (e : g'.frame = g.frame) (hs : g'.Sound)
    (hgen : ∀ id, initial.contains id = true →
      g'.values id "generalizations" = g.values id "generalizations")
    (hfits : ∀ j q v, v ∈ g'.values j q → g.Fits j q v)
    (hflags : ∀ u ∈ g'.usages, u.back = g'.isBackReference u.property) (hissued : g'.Issued)
    (henum : ∀ v f, f ∈ g'.values v "enumeration" → v ∈ g'.values f "values") :
    g'.Regular K :=
  { hs, hr.toTabled.congr e with
    node := fun id h => by
      rw [← node?_frame, e, node?_frame]
      exact hr.node id h
    bootstrap := fun id h => hr.bootstrap id (lifetime?_congr e id ▸ h)
    generalizations := fun id h => (hgen id h).trans (hr.generalizations id h)
    backReferences := (backReferences_congr e).trans hr.backReferences
    owner := fun m o h => by
      rw [lifetime?_congr e] at h ⊢
      exact hr.owner m o h
    fits := fun j q v hv => (hfits j q v hv).agree (agree_of_frame e j) (agree_of_frame e v)
      (backReferences_congr e)
    flags := hflags
    issued := hissued
    kind := fun m k h => by
      rw [classifier?_congr e] at h
      rw [path?_congr e]
      exact hr.kind m k h
    enumerated := henum
    located := fun m t h => by
      rw [lifetime?_congr e] at h
      rw [path?_congr e]
      exact hr.located m t h }

section Sheds

variable (hr : g.Regular K) (s : Sheds g g')
include hr s

theorem package_sheds (j : NodeId) : g'.values j "package" = g.values j "package" := by
  by_cases hj : g.IsType j
  · have : g.values j "package" = [] := List.eq_nil_iff_forall_not_mem.2 fun P hP => by
      obtain ⟨p, hp⟩ := hr.child_path P j (hr.child_of_package j P hP)
      exact hr.not_isType_of_path hp hj
    have hsub := s.values j "package"
    rw [this] at hsub ⊢
    exact List.sublist_nil.1 hsub
  · exact s.plain j _ (by decide) hj

theorem children_sheds (j : NodeId) : g'.values j "children" = g.values j "children" := by
  by_cases hj : g.IsType j
  · have : g.values j "children" = [] := List.eq_nil_iff_forall_not_mem.2 fun m hm =>
      hr.not_isType_of_package (hr.parent_isPackage j m hm) hj
    have hsub := s.values j "children"
    rw [this] at hsub ⊢
    exact List.sublist_nil.1 hsub
  · exact s.plain j _ (by decide) hj

theorem sheds : g'.Regular K := by
  refine hr.of_frame s.frame (hr.toSound.of_trims s.toTrims s.coherent (hr.package_sheds s)
    (hr.children_sheds s)) (fun id h => s.plain id _ (by decide) (hr.not_isType_of_initial h))
    (fun j q v hv => hr.fits j q v ((s.values j q).subset hv)) (fun u hu => ?_)
    (s.ages.issued hr.issued) fun v f hf => ?_
  · rw [isBackReference_congr s.frame]
    exact hr.flags u (s.usages.subset hu)
  · have hf' := (s.values v _).subset hf
    have hne : ¬ g.IsType f := fun ⟨o, hp⟩ => by
      have := ((hr.fits v _ f hf').enumeration rfl).2
      rw [hp.kind] at this
      exact absurd (Option.some.inj this) (by decide +kernel)
    rw [s.plain f _ (by decide) hne]
    exact hr.enumerated v f hf'

end Sheds

theorem link (hr : g.Regular K) {j v : NodeId} {q : String} (hfit : g.Fits j q v)
    (hj : g.contains j = true) (hv : g.contains v = true) (hp : q ≠ "package")
    (hc : q ≠ "children") (hg : q = "generalizations" → initial.contains j = false)
    (he : q = "enumeration" → j ∈ g.values v "values") : (g.link j q v).Regular K := by
  refine hr.of_frame (frame_link g j v q) (hr.toSound.link hj hv hp hc) (fun id h => ?_)
    (fun i p w hw => ?_) (fun u hu => ?_) ((restamps_link g j v q).issued hr.issued)
    fun w f hw => (mem_values_link hj).2 (.inl ?_)
  · rw [values_link hj, if_neg]
    rintro ⟨rfl, hq⟩
    simp [hg hq.symm] at h
  · rcases (mem_values_link hj).1 hw with hw | ⟨rfl, rfl, rfl⟩
    · exact hr.fits i p w hw
    · exact hfit
  · rw [isBackReference_congr (frame_link g j v q)]
    rw [usages_link] at hu
    rcases List.mem_cons.1 hu with rfl | hu
    · rfl
    · exact hr.flags u hu
  · rcases (mem_values_link hj).1 hw with hw | ⟨rfl, hq, rfl⟩
    · exact hr.enumerated w f hw
    · exact he hq.symm

theorem fits_package {j P : NodeId} (hs : g.sourceOf? P = none) (ht : ¬ g.IsType P) :
    g.Fits j "package" P where
  toRuled := by constructor <;> exact fun h => absurd h (by decide)
  implicit _ := .inl rfl
  shared _ := .inr hs
  within _ _ _ := .inl hs
  type h := absurd h ht

theorem fits_children {P v : NodeId} (hb : g.isBackReference "children" = true)
    (ht : ¬ g.IsType v) : g.Fits P "children" v where
  toRuled := by constructor <;> exact fun h => absurd h (by decide)
  implicit _ := .inr rfl
  shared _ := .inl hb
  within _ h := absurd rfl h
  type h := absurd h ht

section Grow

variable (hr : g.Regular K) {spec : NodeSpec} {lifetime : Lifetime} {package : Bool}
include hr

theorem grow (hboot : lifetime ≠ .bootstrap)
    (hown : ∀ o, lifetime = .ephemeral o → ∃ s, g.lifetime? o = some (.persistent s))
    (hk : ∀ k, spec.classifier = some k → K k ∧ ∃ p, g.path? k = some p)
    (hloc : ∀ s, lifetime = .persistent s → ∃ p, spec.path = some p) (hs : g'.Sound)
    (e : g'.frame = (g.seat spec lifetime package).frame) (hst : Restamps g g')
    (hold : ∀ j q, g.contains j = true → q ≠ "children" → g'.values j q = g.values j q)
    (hnew : ∀ j q v, v ∈ g'.values j q →
      v ∈ g.values j q ∨ (q = "package" ∨ q = "children") ∧ g'.Fits j q v)
    (hu : ∀ u ∈ g'.usages, u ∈ g.usages ∨ u.back = g'.isBackReference u.property) :
    g'.Regular K := by
  have hi := hr.toIndexed
  have hagree {m : NodeId} (hm : g.contains m = true) : Agree g g' m :=
    (hr.agree_seat spec lifetime package hm).trans (agree_of_frame e m)
  have hback : g'.backReferences = g.backReferences :=
    (backReferences_congr e).trans (backReferences_seat spec lifetime package g)
  have hlife (m : NodeId) :
      g'.lifetime? m = if m = g.fresh then some lifetime else g.lifetime? m := by
    rw [lifetime?_congr e, lifetime?_seat _ _ _ hi]
  exact {
    hs, (hr.toTabled.seat hi spec lifetime package).congr e with
    node := fun id h => by
      have hid := hr.contains h
      rw [← hr.node id h, ← node?_frame, e, node?_frame]
      exact hi.bare_seat _ _ _ hid
    bootstrap := fun id h => by
      rw [hlife] at h
      split at h
      · exact absurd (Option.some.inj h) hboot
      · exact hr.bootstrap id h
    generalizations := fun id h => by
      rw [hold id _ (hr.contains h) (by decide)]
      exact hr.generalizations id h
    backReferences := hback.trans hr.backReferences
    owner := fun m o h => by
      have howner : ∃ s, g.lifetime? o = some (.persistent s) := by
        rw [hlife] at h
        split at h
        · exact hown o (Option.some.inj h)
        · exact hr.owner m o h
      obtain ⟨s, hso⟩ := howner
      exact ⟨s, (hagree (contains_of_lifetime? hso)).lifetime.trans hso⟩
    fits := fun j q v hv => by
      rcases hnew j q v hv with hv | ⟨-, hfit⟩
      · exact (hr.fits j q v hv).agree (hagree (contains_of_mem_values hv))
          (hagree (hr.value_live j q v hv)) hback
      · exact hfit
    flags := fun u hmem => by
      rcases hu u hmem with h | h
      · rw [isBackReference, hback]
        exact hr.flags u h
      · exact h
    issued := hst.issued hr.issued
    kind := fun m k h => by
      have hkind : K k ∧ ∃ p, g.path? k = some p := by
        rw [classifier?_congr e, classifier?_seat _ _ _ hi] at h
        split at h
        · exact hk k h
        · exact hr.kind m k h
      obtain ⟨hK, p, hp⟩ := hkind
      exact ⟨hK, p, (hagree (contains_of_path? hp)).path.trans hp⟩
    enumerated := fun v f hf => by
      rcases hnew v _ f hf with hf | ⟨hq | hq, -⟩
      · rw [hold f _ (hr.value_live v _ f hf) (by decide)]
        exact hr.enumerated v f hf
      · exact absurd hq (by decide)
      · exact absurd hq (by decide)
    located := fun m s h => by
      rw [hlife] at h
      rw [path?_congr e, path?_seat _ _ _ hi]
      split at h
      · rw [if_pos ‹_›]
        exact hloc s (Option.some.inj h)
      · rw [if_neg ‹_›]
        exact hr.located m s h }

theorem part {o : NodeId} {s : SourceId} (ho : g.lifetime? o = some (.persistent s))
    (hp : spec.path = none) (hk : ∀ k, spec.classifier = some k → K k ∧ ∃ p, g.path? k = some p) :
    (g.seat spec (.ephemeral o) false).Regular K := by
  have ha : g.Admissible spec (.ephemeral o) false := by
    refine ⟨by simp [hp], fun c hc => ?_, fun o' h => ?_, fun _ _ => hp, by simp, by simp⟩
    · obtain ⟨-, p, hp⟩ := hk c hc
      exact contains_of_path? hp
    · obtain rfl : o = o' := by simpa using h
      exact ⟨_, ho, rfl⟩
  refine hr.grow (by simp) (fun o' h => ?_) hk (by simp) (hr.toSound.seat ha) rfl
    (restamps_seat hr.toIndexed _ _ _) (fun j q _ _ => values_seat _ _ _ hr.toIndexed j q)
    (fun j q v hv => .inl ?_) fun u hu => .inl hu
  · obtain rfl : o = o' := by simpa using h
    exact ⟨s, ho⟩
  · rwa [values_seat _ _ _ hr.toIndexed] at hv

theorem found {parent : NodeId} {path : Path} (hpath : spec.path = some path)
    (hfree : g.lookup path = none) (hboot : lifetime ≠ .bootstrap)
    (hl : ∀ o, lifetime ≠ .ephemeral o) (hlp : package = true ↔ lifetime = .implicit)
    (hk : ∀ k, spec.classifier = some k → K k ∧ ∃ p, g.path? k = some p)
    (hparent : g.isPackage parent = true) :
    (g.found spec lifetime package parent).Regular K := by
  have hi := hr.toIndexed
  have ha : g.Admissible spec lifetime package := by
    refine ⟨fun p hp => ?_, fun c hc => ?_, fun o h => absurd h (hl o), fun o h => absurd h (hl o),
      fun h => ?_, hlp.2⟩
    · rw [hpath] at hp
      exact Option.some.inj hp ▸ hfree
    · obtain ⟨-, p, hp⟩ := hk c hc
      exact contains_of_path? hp
    · rw [hlp.1 h]
      rfl
  have hlive := hi.isPackage_live hparent
  have hs : (g.found spec lifetime package parent).Sound :=
    { hr.toCoherent.found ha hlive, hr.toHoused.found hr.toCoherent hpath hparent,
      hr.toFlagged.found _ _ _ _ with }
  have e := frame_found g spec lifetime package parent
  have hpar : Agree g (g.found spec lifetime package parent) parent :=
    (hr.agree_seat spec lifetime package hlive).trans (agree_of_frame e parent)
  have hfresh : (g.found spec lifetime package parent).path? g.fresh = some path := by
    rw [path?_congr e, path?_seat _ _ _ hi, if_pos rfl, hpath]
  refine hr.grow hboot (fun o h => absurd h (hl o)) hk (fun _ _ => ⟨path, hpath⟩) hs e ?_
    (fun j q hj hq => ?_)
    (fun j q v hv => ?_) fun u hu => ?_
  · exact ((restamps_seat hi _ _ _).trans (restamps_link _ _ _ _)).trans (restamps_link _ _ _ _)
  · rw [values_found hi hlive, if_neg fun h => hq h.2, if_neg fun h => hi.ne_fresh hj h.1]
  · rw [values_found hi hlive] at hv
    split at hv
    · rename_i hjq
      obtain ⟨rfl, rfl⟩ := hjq
      rcases List.mem_append.1 hv with hv | hv
      · exact .inl hv
      · rw [List.mem_singleton.1 hv]
        refine .inr ⟨.inr rfl, fits_children ?_ fun ⟨o, ht⟩ =>
          hs.not_ephemeral_of_path? hfresh o ht.lifetime⟩
        rw [isBackReference_congr e]
        exact (hr.isBackReference_iff _).2 (.inl rfl)
    · split at hv
      · rename_i hjq
        obtain ⟨rfl, rfl⟩ := hjq
        rw [List.mem_singleton.1 hv]
        exact .inr ⟨.inl rfl, fits_package (hpar.source.trans (hr.sourceOf?_package hparent))
          fun ht => hr.not_isType_of_package hparent (ht.agree hpar.symm)⟩
      · exact .inl hv
  · rw [usages_found] at hu
    have hback (q : String) :
        (g.found spec lifetime package parent).isBackReference q = g.isBackReference q :=
      isBackReference_congr e q
    rcases List.mem_cons.1 hu with rfl | hu
    · exact .inr (hback _).symm
    · rcases List.mem_cons.1 hu with rfl | hu
      · exact .inr (hback _).symm
      · exact .inl hu

end Grow

section Removal

variable {order pruned : List NodeId}

theorem agree_removed (hk : Removed g g' order pruned) (hc : g'.Closed) {m : NodeId}
    (hm : g'.contains m = true) : Agree g g' m := by
  refine agree_of_bare (hk.bare_of_contains hm) (fun c hcl => ?_) (fun o ho => ?_) ?_
  · rw [← classifier?_of_bare (hk.bare_of_contains hm)] at hcl
    exact path?_of_bare (hk.bare_of_contains (hc.classifier_live m c hcl))
  · rw [← lifetime?_of_bare (hk.bare_of_contains hm)] at ho
    exact lifetime?_of_bare (hk.bare_of_contains (hc.owner_live m o ho))
  · rw [hk.package]
    simp [hk.not_mem_of_contains hm]

theorem removed (hr : g.Regular K) (hk : Removed g g' order pruned) (hc : g'.Coherent)
    (hboot : ∀ m ∈ order, g.lifetime? m ≠ some .bootstrap) : g'.Regular K := by
  have hinit {id : NodeId} (h : initial.contains id = true) : id ∉ order ++ pruned := by
    intro hm
    rcases List.mem_append.1 hm with hm | hm
    · exact hboot id hm (hr.lifetime? h)
    · have := hk.implicit id hm
      rw [hr.lifetime? h] at this
      simp at this
  have hback : g'.backReferences = g.backReferences := hk.backReferences
  exact {
    hc, hk.housed, hr.toFlagged.of_sublist hk.usages hback, hk.tabled hr.toTabled with
    node := fun id h => by
      rw [hk.bare, if_neg (hinit h)]
      exact hr.node id h
    bootstrap := fun id h => hr.bootstrap id (hk.lifetime?_eq_some h).2
    generalizations := fun id h => by
      rw [hk.values, if_neg (hinit h), if_neg (by decide)]
      exact hr.generalizations id h
    backReferences := hback.trans hr.backReferences
    owner := fun m o h => by
      have ho := hc.owner_live m o h
      obtain ⟨s, hs⟩ := hr.owner m o (hk.lifetime?_eq_some h).2
      exact ⟨s, (lifetime?_of_bare (hk.bare_of_contains ho)).trans hs⟩
    fits := fun j q v hv => (hr.fits j q v (hk.mem_values hv).2.1).agree
      (agree_removed hk hc.toClosed (contains_of_mem_values hv))
      (agree_removed hk hc.toClosed (hc.value_live j q v hv)) hback
    flags := fun u hu => by
      rw [isBackReference, hback]
      exact hr.flags u (hk.usages.subset hu)
    issued := hk.stamps.issued hr.issued
    kind := fun m k h => by
      have hlive := hc.classifier_live m k h
      rw [classifier?_of_bare (hk.bare_of_contains (contains_of_classifier? h))] at h
      rw [path?_of_bare (hk.bare_of_contains hlive)]
      exact hr.kind m k h
    enumerated := fun v e he => by
      rw [hk.values_of_contains (hc.value_live v _ e he) (by decide)]
      exact hr.enumerated v e (hk.mem_values he).2.1
    located := fun m s h => by
      obtain ⟨hm, hl⟩ := hk.lifetime?_eq_some h
      rw [hk.path?, if_neg hm]
      exact hr.located m s hl }

end Removal

end Regular

/-- A regular graph without empty implicit packages, as between the steps of a compiler. -/
structure Tidy (K : NodeId → Prop) (g : Graph) : Prop extends Regular K g where
  filled : g.Filled

section Filled

variable {K : NodeId → Prop} {g h : Graph} {package : NodeId}

theorem Founded.regular (hf : Founded .implicit g h package) (hr : g.Regular K)
    (hK : CoversMetamodel K) : h.Regular K := by
  induction hf with
  | refl => exact hr
  | step hf hpath ih =>
    refine ih.found rfl hpath (by simp) (by simp) (by simp) (fun k hk => ?_) hf.isPackage
    have hboot := ih.bootstrap k (ih.classifier_bootstrap k hk)
    exact ⟨hK k hboot, ih.path hboot⟩

theorem Founded.agree (hf : Founded .implicit g h package) (hs : g.Sound)
    (hm : g.contains m = true) : Agree g h m := by
  induction hf with
  | refl => exact agree_of_frame rfl m
  | step hf hpath ih =>
    have hlive := hf.contains rfl hs hm
    exact (ih.trans ((hf.sound rfl hs).agree_seat _ _ _ hlive)).trans
      (agree_of_frame (frame_found _ _ _ _ _) m)

theorem Established.tidy {s : SourceId}
    (he : Established g spec path (.persistent s) id g') (ht : g.Tidy K) (hK : CoversMetamodel K)
    (hk : ∀ k, spec.classifier = some k → K k ∧ ∃ p, g.path? k = some p) : g'.Tidy K := by
  obtain ⟨h, parent, hf, hfree, -, -, rfl⟩ := he.founded
  have hr := hf.regular ht.toRegular hK
  refine ⟨hr.found rfl hfree (by simp) (by simp) (by simp) (fun k hks => ?_) hf.isPackage,
    he.filled (by simp) ht.toSound ht.filled⟩
  obtain ⟨hKk, p, hp⟩ := hk k hks
  exact ⟨hKk, p, (hf.agree ht.toSound (contains_of_path? hp)).path.trans hp⟩

theorem Established.agree {s : SourceId}
    (he : Established g spec path (.persistent s) id g') (hs : g.Sound)
    (hm : g.contains m = true) : Agree g g' m := by
  obtain ⟨h, parent, hf, -, -, -, rfl⟩ := he.founded
  have hlive := hf.contains rfl hs hm
  exact ((hf.agree hs hm).trans ((hf.sound rfl hs).agree_seat _ _ _ hlive)).trans
    (agree_of_frame (frame_found _ _ _ _ _) m)

theorem Established.node {s : SourceId}
    (he : Established g spec path (.persistent s) id g') (hs : g.Sound) :
    g'.lifetime? id = some (.persistent s) ∧ g'.classifier? id = spec.classifier := by
  obtain ⟨h, parent, hf, -, rfl, -, rfl⟩ := he.founded
  have hi := (hf.sound rfl hs).toIndexed
  have e := frame_found h { spec with path := some path } (.persistent s) false parent
  rw [lifetime?_congr e, classifier?_congr e, lifetime?_seat _ _ _ hi, classifier?_seat _ _ _ hi]
  simp

theorem Founded.values (hf : Founded .implicit g h package) (hs : g.Sound)
    (hc : q ≠ "children") (hp : q ≠ "package") (m : NodeId) : h.values m q = g.values m q := by
  induction hf with
  | refl => rfl
  | step hf _ ih =>
    have hh := hf.sound rfl hs
    rw [values_found hh.toIndexed (hh.isPackage_live hf.isPackage), if_neg fun e => hc e.2,
      if_neg fun e => hp e.2, ih]

theorem Established.values {s : SourceId}
    (he : Established g spec path (.persistent s) id g') (hs : g.Sound)
    (hc : q ≠ "children") (hp : q ≠ "package") (m : NodeId) : g'.values m q = g.values m q := by
  obtain ⟨h, parent, hf, -, -, -, rfl⟩ := he.founded
  have hh := hf.sound rfl hs
  rw [values_found hh.toIndexed (hh.isPackage_live hf.isPackage), if_neg fun e => hc e.2,
    if_neg fun e => hp e.2, hf.values hs hc hp]

theorem Rooted.fits_initial (hr : g.Rooted) (hc : g.Coherent) {j v : NodeId}
    (hj : initial.contains j = true) (hv : initial.contains v = true)
    (hq : q = "package" ∨ q = "children" ∨ q = "generalizations" ∧ g.isPackage v = false) :
    g.Fits j q v where
  toRuled := by
    rcases hq with rfl | rfl | ⟨rfl, hp⟩
    · constructor <;> exact fun h => absurd h (by decide)
    · constructor <;> exact fun h => absurd h (by decide)
    · constructor <;> intro h <;>
        first | exact .inr ⟨⟨hr.path hv, hp⟩, hr.not_importStub hv, hr.sourceOf? hj⟩ |
          exact absurd h (by decide)
  implicit h := by simp [hr.lifetime? hv] at h
  shared _ := .inr (hr.sourceOf? hv)
  within _ _ _ := .inl (hr.sourceOf? hv)
  type := fun ⟨o, hp⟩ => by
    obtain ⟨p, hpath⟩ := hr.path hv
    exact absurd hp.lifetime (hc.not_ephemeral_of_path? hpath o)

theorem tidy_initial (hK : CoversMetamodel K) : initial.Tidy K := by
  have hb := basal_initial
  have hr := rooted_initial
  exact {
    hb.toSound, hr, (logged_of_isCatalogued isCatalogued_initial).toTabled with
    owner := fun m o h => absurd (hb.bootstrap m _ h) (by simp)
    fits := fun j q v hv => by
      obtain ⟨b, hu⟩ := hb.toCoherent.mem_values_iff.1 hv
      exact hr.fits_initial hb.toCoherent (contains_of_mem_values hv) (hb.value_live j q v hv)
        (usage_of_isMetamodel isMetamodel_initial hu).1
    flags := fun u hu => (usage_of_isMetamodel isMetamodel_initial hu).2
    issued := issued_of_isMetamodel isMetamodel_initial
    kind := fun m k h => by
      have hk := hb.classifier_live m k h
      exact ⟨hK k hk, hr.path hk⟩
    enumerated := fun v e he => by
      obtain ⟨b, hu⟩ := hb.toCoherent.mem_values_iff.1 he
      have := (usage_of_isMetamodel isMetamodel_initial hu).1
      simp at this
    located := fun m s h => absurd (hb.bootstrap m _ h) (by simp)
    filled := fun P h => absurd (hb.bootstrap P _ h) (by simp) }

end Filled

end Graph

end ModelCompiler
