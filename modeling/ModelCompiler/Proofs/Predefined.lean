import ModelCompiler.Registry
import ModelCompiler.Proofs.Store.Initial
import ModelCompiler.Proofs.Lineage.Search

/-!
The metamodel as the fixed part of every graph.
-/
open ModelCompiler.Graph

namespace ModelCompiler

/-- `K` holds of every predefined node. -/
abbrev CoversMetamodel (K : NodeId → Prop) : Prop :=
  ∀ k, initial.contains k = true → K k

namespace Metamodel

def summits : List Path :=
  [any, packageableElement, type]

def landmarks : List Path :=
  classifiers.map (·.1) ++ [privateAccess, protectedAccess]

end Metamodel

namespace Graph

section Checks

def isWellMade (g : Graph) (id : NodeId) : Bool :=
  (g.path? id).isSome && !g.isImportStub id && (g.stamp? id).all (· < g.nextStamp) &&
    match ((Lineage.ancestors g id).run.run ∅).1 with
    | .ok as => as.all fun a => (g.path? a).any (· ∈ Metamodel.summits)
    | .error _ => false

def isMetamodel (g : Graph) : Bool :=
  g.ids.all g.isWellMade &&
    (g.usages.all fun u =>
      (u.property == "package" || u.property == "children" ||
          u.property == "generalizations" && !g.isPackage u.target) &&
        u.back == g.isBackReference u.property) &&
    g.backReferences == Metamodel.backReferences &&
    (Metamodel.landmarks.all fun p => (g.lookup p).isSome) &&
    (Metamodel.classifiers.all fun (p, generals) => (g.lookup p).all fun c => generals.all fun q =>
      (g.generals c).any fun general => general.any fun a => (g.path? a).any (· = q)) &&
    g.packageClassifier.all fun c => (g.path? c).any (· = Metamodel.package)

variable {g : Graph} (hm : g.isMetamodel = true) {id : NodeId}

section
include hm

theorem isWellMade_of_contains (h : g.contains id = true) : g.isWellMade id = true := by
  simp only [isMetamodel, Bool.and_eq_true, List.all_eq_true] at hm
  refine hm.1.1.1.1.1 id ?_
  rw [ids, List.mem_filter, List.mem_range]
  exact ⟨lt_size_of_contains h, h⟩

theorem exists_path_of_isMetamodel (h : g.contains id = true) : ∃ p, g.path? id = some p := by
  have := isWellMade_of_contains hm h
  simp only [isWellMade, Bool.and_eq_true] at this
  exact Option.isSome_iff_exists.1 this.1.1.1

theorem not_importStub_of_isMetamodel (h : g.contains id = true) : g.isImportStub id = false := by
  have := isWellMade_of_contains hm h
  simp only [isWellMade, Bool.and_eq_true, Bool.not_eq_true'] at this
  exact this.1.1.2

theorem issued_of_isMetamodel : g.Issued := by
  intro id s hs
  have hid : g.contains id = true := by
    obtain ⟨n, hn, -⟩ := Option.map_eq_some_iff.1 hs
    exact contains_iff.2 ⟨n, hn⟩
  have := isWellMade_of_contains hm hid
  simp only [isWellMade, Bool.and_eq_true, hs, Option.all_some, decide_eq_true_eq] at this
  exact this.1.2

theorem usage_of_isMetamodel {u : Usage} (h : u ∈ g.usages) :
    (u.property = "package" ∨ u.property = "children" ∨
      u.property = "generalizations" ∧ g.isPackage u.target = false) ∧
      u.back = g.isBackReference u.property := by
  simp only [isMetamodel, Bool.and_eq_true, List.all_eq_true] at hm
  simpa [or_assoc] using hm.1.1.1.1.2 u h

theorem backReferences_of_isMetamodel : g.backReferences = Metamodel.backReferences := by
  simp only [isMetamodel, Bool.and_eq_true, beq_iff_eq] at hm
  exact hm.1.1.1.2

theorem lookup_of_isMetamodel {p : Path} (h : p ∈ Metamodel.landmarks) :
    ∃ id, g.lookup p = some id := by
  simp only [isMetamodel, Bool.and_eq_true, List.all_eq_true] at hm
  exact Option.isSome_iff_exists.1 (hm.1.1.2 p h)

theorem general_of_isMetamodel {p q : Path} {generals : List Path} {c : NodeId}
    (h : (p, generals) ∈ Metamodel.classifiers) (hc : g.lookup p = some c) (hq : q ∈ generals) :
    ∃ a, some a ∈ g.generals c ∧ g.path? a = some q := by
  simp only [isMetamodel, Bool.and_eq_true, List.all_eq_true] at hm
  have hall := hm.1.2 _ h
  simp only [hc, Option.all_some, List.all_eq_true] at hall
  obtain ⟨_ | a, ha, hpath⟩ := List.any_eq_true.1 (hall q hq)
  · simp at hpath
  · rw [Option.any_some] at hpath
    obtain ⟨q', hq', he⟩ := (Option.any_eq_true _ _).1 hpath
    rw [of_decide_eq_true he] at hq'
    exact ⟨a, ha, hq'⟩

theorem path?_of_packageClassifier {c : NodeId} (h : g.packageClassifier = some c) :
    g.path? c = some Metamodel.package := by
  simp only [isMetamodel, Bool.and_eq_true] at hm
  have hc := hm.2
  rw [h, Option.all_some, Option.any_eq_true] at hc
  obtain ⟨p, hp, he⟩ := hc
  rw [hp, of_decide_eq_true he]

theorem lineal_of_isMetamodel (hc : g.Closed) (h : g.contains id = true) :
    ∃ as, g.Lineal id as ∧ ∀ a ∈ as, ∃ p ∈ Metamodel.summits, g.path? a = some p := by
  have hgives := Lineage.ancestors_gives hc (issued_of_isMetamodel hm) h (Lineage.valid_empty g)
  have hmade := isWellMade_of_contains hm h
  simp only [isWellMade, Bool.and_eq_true] at hmade
  have htop := hmade.2
  unfold Lineage.Gives Lineage.Recalls at hgives
  revert hgives htop
  generalize ((Lineage.ancestors g id).run.run ∅).1 = r
  cases r with
  | error e => simp
  | ok as =>
    intro hgives htop
    refine ⟨as, hgives.1, fun a ha => ?_⟩
    obtain ⟨p, hp, hsum⟩ := (Option.any_eq_true _ _).1 (List.all_eq_true.1 htop a ha)
    exact ⟨p, by simpa using hsum, hp⟩

end

theorem isMetamodel_initial : initial.isMetamodel = true := by
  rw [spelledOut.2]
  decide +kernel

end Checks

/-- The metamodel stands in the graph as it was in the beginning. -/
structure Rooted (g : Graph) : Prop where
  node : ∀ id, initial.contains id = true →
    (g.node? id).map Node.bare = (initial.node? id).map Node.bare
  bootstrap : ∀ id, g.lifetime? id = some .bootstrap → initial.contains id = true
  generalizations : ∀ id, initial.contains id = true →
    g.values id "generalizations" = initial.values id "generalizations"
  backReferences : g.backReferences = Metamodel.backReferences

theorem rooted_initial : initial.Rooted where
  node _ _ := rfl
  bootstrap _ h := contains_of_lifetime? h
  generalizations _ _ := rfl
  backReferences := backReferences_of_isMetamodel isMetamodel_initial

namespace Rooted

variable {g g' : Graph} {id c : NodeId}

theorem isBackReference_iff (hr : g.Rooted) (p : String) : g.isBackReference p = true ↔
    p = "children" ∨ p = "specializations" ∨ p = "propertiesFromAssociations" := by
  simp [isBackReference, hr.backReferences, Metamodel.backReferences]

theorem contains (hr : g.Rooted) (h : initial.contains id = true) : g.contains id = true := by
  rw [contains_of_bare (hr.node id h)]
  exact h

theorem lifetime? (hr : g.Rooted) (h : initial.contains id = true) :
    g.lifetime? id = some .bootstrap := by
  rw [lifetime?_of_bare (hr.node id h)]
  obtain ⟨l, hl⟩ := exists_lifetime? h
  rw [hl, basal_initial.bootstrap id l hl]

theorem path (hr : g.Rooted) (h : initial.contains id = true) : ∃ p, g.path? id = some p := by
  rw [path?_of_bare (hr.node id h)]
  exact exists_path_of_isMetamodel isMetamodel_initial h

theorem sourceOf? (hr : g.Rooted) (h : initial.contains id = true) : g.sourceOf? id = none := by
  cases hs : g.sourceOf? id with
  | none => rfl
  | some s =>
    rcases sourceOf?_eq_some_iff.1 hs with hl | ⟨o, hl, -⟩ <;> simp [hr.lifetime? h] at hl

theorem lookup (hr : g.Rooted) (hi : g.Indexed) {p : Path} (h : initial.lookup p = some id) :
    g.lookup p = some id := by
  have hp := (basal_initial.lookup_iff p id).1 h
  rw [hi.lookup_iff, path?_of_bare (hr.node id (contains_of_path? hp))]
  exact hp

theorem landmark (hr : g.Rooted) (hi : g.Indexed) {p : Path} (h : p ∈ Metamodel.landmarks) :
    ∃ id, g.lookup p = some id ∧ initial.contains id = true ∧ g.path? id = some p := by
  obtain ⟨id, hid⟩ := lookup_of_isMetamodel isMetamodel_initial h
  have hg := hr.lookup hi hid
  exact ⟨id, hg, basal_initial.lookup_live hid, (hi.lookup_iff p id).1 hg⟩

theorem initial_of_landmark (hr : g.Rooted) (hi : g.Indexed) {p : Path} (hc : g.path? c = some p)
    (h : p ∈ Metamodel.landmarks) : initial.lookup p = some c ∧ initial.contains c = true := by
  obtain ⟨id, hid⟩ := lookup_of_isMetamodel isMetamodel_initial h
  obtain rfl : c = id :=
    Option.some.inj (((hi.lookup_iff p c).2 hc).symm.trans (hr.lookup hi hid))
  exact ⟨hid, basal_initial.lookup_live hid⟩

theorem classifierPath? (hr : g.Rooted) (h : initial.contains id = true) :
    g.classifierPath? id = initial.classifierPath? id :=
  classifierPath?_of_bare (hr.node id h) fun c hc =>
    path?_of_bare (hr.node c (basal_initial.classifier_live id c hc))

theorem not_importStub (hr : g.Rooted) (h : initial.contains id = true) :
    g.isImportStub id = false := by
  rw [isImportStub, hr.classifierPath? h]
  exact not_importStub_of_isMetamodel isMetamodel_initial h

theorem generals (hr : g.Rooted) (h : initial.contains id = true) :
    g.generals id = initial.generals id := by
  unfold Graph.generals
  rw [hr.generalizations id h]
  refine List.map_congr_left fun v hv => ?_
  have hlive := basal_initial.value_live id _ v hv
  simp [referenced?, hr.not_importStub hlive,
    not_importStub_of_isMetamodel isMetamodel_initial hlive]

theorem exists_general (hr : g.Rooted) (hi : g.Indexed) {p q : Path} {generals : List Path}
    (h : (p, generals) ∈ Metamodel.classifiers) (hq : q ∈ generals) (hc : g.path? c = some p) :
    ∃ a, some a ∈ g.generals c ∧ g.path? a = some q := by
  obtain ⟨hlookup, hlive⟩ := hr.initial_of_landmark hi hc
    (List.mem_append_left _ (List.mem_map_of_mem (f := (·.1)) h))
  obtain ⟨a, ha, hpath⟩ := general_of_isMetamodel isMetamodel_initial h hlookup hq
  rw [← hr.generals hlive] at ha
  refine ⟨a, ha, ?_⟩
  rwa [path?_of_bare (hr.node a (contains_of_path? hpath))]

theorem lineal (hr : g.Rooted) (h : initial.contains id = true) :
    ∃ as, g.Lineal id as ∧ ∀ a ∈ as, ∃ p ∈ Metamodel.summits, g.path? a = some p := by
  obtain ⟨as, hl, htop⟩ := lineal_of_isMetamodel isMetamodel_initial basal_initial.toClosed h
  have hlive (a : NodeId) (ha : a ∈ as) : initial.contains a = true := by
    obtain ⟨p, -, hp⟩ := htop a ha
    exact contains_of_path? hp
  refine ⟨as, hl.congr (hr.generals h) fun a ha => hr.generals (hlive a ha), fun a ha => ?_⟩
  rw [path?_of_bare (hr.node a (hlive a ha))]
  exact htop a ha

/-- With a classifier of the metamodel, a handler is found at the classifier itself or not at all,
unless there is one at the top. -/
theorem finds_eq (hr : g.Rooted) {η : Type} {table : Table Path η} {r : Option η}
    (hf : Dispatch.Finds table g id r) (hcl : g.classifier? id = some c)
    (hc : initial.contains c = true) (htop : ∀ p ∈ Metamodel.summits, table.find? p = none) :
    r = g.path? c >>= table.find? := by
  have hnone {c' : NodeId} (hcl' : g.classifier? id = some c')
      (hat : Dispatch.handlerAt? table g c' = none) : (g.path? c >>= table.find?) = none := by
    obtain rfl : c = c' := Option.some.inj (hcl.symm.trans hcl')
    cases hp : g.path? c with
    | none => rfl
    | some p =>
      cases ht : table.find? p with
      | none => simpa using ht
      | some h => simp [Dispatch.handlerAt?_eq_some_iff.2 ⟨hp, ht⟩] at hat
  cases hf with
  | unclassified h => simp [h] at hcl
  | exact h hp ht =>
    obtain rfl := Option.some.inj (hcl.symm.trans h)
    simp [hp, ht]
  | ancestor h hat hl ha hp ht =>
    obtain rfl := Option.some.inj (hcl.symm.trans h)
    obtain ⟨as, hl', htop'⟩ := hr.lineal hc
    obtain ⟨q, hq, hqa⟩ := htop' _ (hl.unique hl' ▸ ha)
    obtain rfl : q = _ := Option.some.inj (hqa.symm.trans hp)
    simp [htop q hq] at ht
  | none h hat _ => exact (hnone h hat).symm

end Rooted

end Graph

end ModelCompiler
