import ModelCompiler.Proofs.Tables
import ModelCompiler.Reference

/-!
Two views of a graph.
-/
namespace ModelCompiler

def Node.bare (n : Node) : Node :=
  { n with properties := ∅, stamp := 0 }

namespace Graph

def frame (g : Graph) : Graph :=
  { g with slots := g.slots.map (·.map Node.bare), usages := [], nextStamp := 0 }

def lifetime? (g : Graph) (id : NodeId) : Option Lifetime :=
  (g.node? id).map (·.lifetime)

def propertiesOf (g : Graph) (id : NodeId) : Table String (List NodeId) :=
  ((g.node? id).map (·.properties)).getD ∅

section Frame

variable (g : Graph) (id : NodeId)

theorem node?_frame : g.frame.node? id = (g.node? id).map Node.bare := by
  simp only [node?, frame, Array.getElem?_map]
  cases g.slots[id]? <;> rfl

@[simp]
theorem contains_frame : g.frame.contains id = g.contains id := by
  simp [contains, node?_frame]

@[simp]
theorem lifetime?_frame : g.frame.lifetime? id = g.lifetime? id := by
  simp only [lifetime?, node?_frame, Option.map_map]
  rfl

@[simp]
theorem classifier?_frame : g.frame.classifier? id = g.classifier? id := by
  simp only [classifier?, node?_frame]
  cases g.node? id <;> rfl

@[simp]
theorem path?_frame : g.frame.path? id = g.path? id := by
  simp only [path?, node?_frame]
  cases g.node? id <;> rfl

@[simp]
theorem name?_frame : g.frame.name? id = g.name? id := by
  simp only [name?, node?_frame]
  cases g.node? id <;> rfl

@[simp]
theorem span?_frame : g.frame.span? id = g.span? id := by
  simp only [span?, node?_frame]
  cases g.node? id <;> rfl

@[simp]
theorem ownerRoot?_frame : g.frame.ownerRoot? id = g.ownerRoot? id := by
  simp only [ownerRoot?, node?_frame, Option.map_map]
  rfl

theorem sourceOf?_eq : g.sourceOf? id =
    (g.ownerRoot? id).bind fun root => (g.lifetime? root).bind fun
      | .persistent source => some source
      | _ => none := by
  simp only [sourceOf?, bind, lifetime?]
  congr 1
  funext root
  cases g.node? root <;> rfl

@[simp]
theorem sourceOf?_frame : g.frame.sourceOf? id = g.sourceOf? id := by
  simp [sourceOf?_eq]

@[simp]
theorem size_slots_frame : g.frame.slots.size = g.slots.size := by
  simp [frame]

end Frame

section SameFrame

variable {g h : Graph} (e : g.frame = h.frame)
include e

theorem contains_congr (id : NodeId) : g.contains id = h.contains id := by
  rw [← contains_frame, e, contains_frame]

theorem lifetime?_congr (id : NodeId) : g.lifetime? id = h.lifetime? id := by
  rw [← lifetime?_frame, e, lifetime?_frame]

theorem classifier?_congr (id : NodeId) : g.classifier? id = h.classifier? id := by
  rw [← classifier?_frame, e, classifier?_frame]

theorem path?_congr (id : NodeId) : g.path? id = h.path? id := by
  rw [← path?_frame, e, path?_frame]

theorem name?_congr (id : NodeId) : g.name? id = h.name? id := by
  rw [← name?_frame, e, name?_frame]

theorem span?_congr (id : NodeId) : g.span? id = h.span? id := by
  rw [← span?_frame, e, span?_frame]

theorem ownerRoot?_congr (id : NodeId) : g.ownerRoot? id = h.ownerRoot? id := by
  rw [← ownerRoot?_frame, e, ownerRoot?_frame]

theorem sourceOf?_congr (id : NodeId) : g.sourceOf? id = h.sourceOf? id := by
  rw [← sourceOf?_frame, e, sourceOf?_frame]

theorem size_slots_congr : g.slots.size = h.slots.size := by
  rw [← size_slots_frame, e, size_slots_frame]

theorem free_congr : g.free = h.free :=
  show g.frame.free = h.frame.free by rw [e]

theorem lookup_congr (p : Path) : g.lookup p = h.lookup p :=
  show g.frame.lookup p = h.frame.lookup p by rw [e]

theorem persistentNodes_congr (s : SourceId) : g.persistentNodes s = h.persistentNodes s :=
  show g.frame.persistentNodes s = h.frame.persistentNodes s by rw [e]

theorem bySource_congr : g.bySource = h.bySource :=
  show g.frame.bySource = h.frame.bySource by rw [e]

theorem ownedBy_congr (id : NodeId) : g.ownedBy id = h.ownedBy id :=
  show g.frame.ownedBy id = h.frame.ownedBy id by rw [e]

theorem tree_congr (id : NodeId) : g.tree id = h.tree id := by
  rw [tree, tree, ownedBy_congr e]

theorem elementsNamed_congr (s : String) : g.elementsNamed s = h.elementsNamed s :=
  show g.frame.elementsNamed s = h.frame.elementsNamed s by rw [e]

theorem instancesOf_congr (id : NodeId) : g.instancesOf id = h.instancesOf id :=
  show g.frame.instancesOf id = h.frame.instancesOf id by rw [e]

theorem isPackage_congr (id : NodeId) : g.isPackage id = h.isPackage id :=
  show g.frame.isPackage id = h.frame.isPackage id by rw [e]

theorem isBackReference_congr (p : String) : g.isBackReference p = h.isBackReference p :=
  show g.frame.isBackReference p = h.frame.isBackReference p by rw [e]

theorem backReferences_congr : g.backReferences = h.backReferences :=
  show g.frame.backReferences = h.frame.backReferences by rw [e]

theorem packageClassifier_congr : g.packageClassifier = h.packageClassifier :=
  show g.frame.packageClassifier = h.frame.packageClassifier by rw [e]

theorem classifierPath?_congr (id : NodeId) : g.classifierPath? id = h.classifierPath? id := by
  simp only [classifierPath?, classifier?_congr e]
  congr 1
  funext c
  exact path?_congr e c

theorem isImportStub_congr (id : NodeId) : g.isImportStub id = h.isImportStub id := by
  simp only [isImportStub, classifierPath?_congr e]

theorem isPropertyStub_congr (id : NodeId) : g.isPropertyStub id = h.isPropertyStub id := by
  simp only [isPropertyStub, classifierPath?_congr e]

end SameFrame

section SameNode

variable {g h : Graph} {id : NodeId} (e : (g.node? id).map Node.bare = (h.node? id).map Node.bare)
include e

theorem contains_of_bare : g.contains id = h.contains id := by
  simpa [contains] using congrArg Option.isSome e

theorem lifetime?_of_bare : g.lifetime? id = h.lifetime? id := by
  simpa [lifetime?, Function.comp_def, Node.bare] using congrArg (Option.map (·.lifetime)) e

theorem path?_of_bare : g.path? id = h.path? id := by
  simpa [path?, Node.bare, Option.bind_map, Function.comp_def] using congrArg (· >>= (·.path)) e

theorem classifier?_of_bare : g.classifier? id = h.classifier? id := by
  simpa [classifier?, Node.bare, Option.bind_map, Function.comp_def] using
    congrArg (· >>= (·.classifier)) e

theorem name?_of_bare : g.name? id = h.name? id := by
  simpa [name?, Node.bare, Option.bind_map, Function.comp_def] using congrArg (· >>= (·.name)) e

end SameNode

theorem values_eq (g : Graph) (id : NodeId) (p : String) :
    g.values id p = (g.propertiesOf id).values p := by
  unfold values propertiesOf
  cases g.node? id <;> rfl

theorem contains_iff {g : Graph} {id : NodeId} : g.contains id = true ↔ ∃ n, g.node? id = some n :=
  Option.isSome_iff_exists

theorem contains_of_lifetime? {g : Graph} {id : NodeId} {l : Lifetime}
    (h : g.lifetime? id = some l) : g.contains id = true := by
  obtain ⟨n, hn, -⟩ := Option.map_eq_some_iff.1 h
  exact contains_iff.2 ⟨n, hn⟩

theorem contains_of_path? {g : Graph} {id : NodeId} {p : Path} (h : g.path? id = some p) :
    g.contains id = true := by
  obtain ⟨n, hn, -⟩ := Option.bind_eq_some_iff.1 h
  exact contains_iff.2 ⟨n, hn⟩

theorem contains_of_classifier? {g : Graph} {id c : NodeId} (h : g.classifier? id = some c) :
    g.contains id = true := by
  obtain ⟨n, hn, -⟩ := Option.bind_eq_some_iff.1 h
  exact contains_iff.2 ⟨n, hn⟩

theorem lifetime?_of_node? {g : Graph} {id : NodeId} {n : Node} (h : g.node? id = some n) :
    g.lifetime? id = some n.lifetime := by
  simp [lifetime?, h]

theorem exists_lifetime? {g : Graph} {id : NodeId} (h : g.contains id = true) :
    ∃ l, g.lifetime? id = some l := by
  obtain ⟨n, hn⟩ := contains_iff.1 h
  exact ⟨_, lifetime?_of_node? hn⟩

theorem propertiesOf_of_not_contains {g : Graph} {id : NodeId} (h : g.contains id = false) :
    g.propertiesOf id = ∅ := by
  have : g.node? id = none := by simpa [contains] using h
  simp [propertiesOf, this]

theorem contains_of_mem_values {g : Graph} {id v : NodeId} {p : String} (h : v ∈ g.values id p) :
    g.contains id = true := by
  unfold values at h
  cases hn : g.node? id with
  | none => simp [hn] at h
  | some n => exact contains_iff.2 ⟨n, hn⟩

theorem ownerRoot?_eq (g : Graph) (id : NodeId) : g.ownerRoot? id =
    (g.lifetime? id).map fun
      | .ephemeral owner => owner
      | _ => id := by
  simp only [ownerRoot?, lifetime?, Option.map_map]
  congr 1
  funext n
  simp only [Function.comp, Node.owner]
  cases n.lifetime <;> rfl

theorem lt_size_of_contains {g : Graph} {id : NodeId} (h : g.contains id = true) :
    id < g.slots.size := by
  by_contra hlt
  have : g.slots[id]? = none := Array.getElem?_eq_none (Nat.le_of_not_lt hlt)
  simp [contains, node?, this] at h

theorem mem_ids_iff {g : Graph} {id : NodeId} : id ∈ g.ids ↔ g.contains id = true := by
  rw [ids, List.mem_filter, List.mem_range]
  exact and_iff_right_of_imp lt_size_of_contains

end Graph

end ModelCompiler
