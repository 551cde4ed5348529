import ModelCompiler.Proofs.Snapshot.Renaming

/-!
Graphs that are the same up to the names of their nodes.
-/
open ModelCompiler.Graph

namespace ModelCompiler

def Table.relabel (π : NodeId → NodeId) (t : Table String (List NodeId)) :
    Table String (List NodeId) :=
  ⟨t.entries.map fun e => (e.1, e.2.map π)⟩

namespace Table

variable {π : NodeId → NodeId} (t : Table String (List NodeId)) (k : String)

theorem find?_relabel : (t.relabel π).find? k = (t.find? k).map (List.map π) := by
  obtain ⟨es⟩ := t
  induction es with
  | nil => rfl
  | cons e es ih =>
    obtain ⟨j, vs⟩ := e
    simp only [find?, relabel, List.map_cons, List.lookup_cons] at ih ⊢
    cases k == j <;> simp [ih]

theorem contains_relabel : (t.relabel π).contains k = t.contains k := by
  simp [contains, find?_relabel]

theorem values_relabel : (t.relabel π).values k = (t.values k).map π := by
  unfold values
  rw [find?_relabel]
  cases t.find? k <;> rfl

theorem erase_relabel : (t.relabel π).erase k = (t.erase k).relabel π := by
  simp [erase, relabel, List.filter_map, Function.comp_def]

theorem insert_relabel (vs : List NodeId) :
    (t.relabel π).insert k (vs.map π) = (t.insert k vs).relabel π := by
  unfold insert
  rw [contains_relabel]
  split
  · simp only [modify, relabel, List.map_map, mk.injEq]
    refine List.map_congr_left fun e _ => ?_
    simp only [Function.comp]
    split <;> rfl
  · simp [relabel]

theorem push_relabel (v : NodeId) : (t.relabel π).push k (π v) = (t.push k v).relabel π := by
  rw [push, push, values_relabel, ← insert_relabel, List.map_append]
  rfl

theorem withoutValue_relabel (hπ : Function.Injective π) (v : NodeId) :
    withoutValue (t.relabel π) k (π v) = (withoutValue t k v).relabel π := by
  have h : ((t.relabel π).values k).erase (π v) = ((t.values k).erase v).map π := by
    rw [values_relabel, List.map_erase hπ]
  unfold withoutValue
  rw [h]
  cases hvs : (t.values k).erase v with
  | nil => exact erase_relabel t k
  | cons w ws => exact insert_relabel t k (w :: ws)

end Table

def Usage.relabel (π : NodeId → NodeId) (u : Usage) : Usage :=
  ⟨π u.user, u.property, π u.target, u.back⟩

def Node.relabel (π : NodeId → NodeId) (n : Node) : Node :=
  { n.bare with classifier := n.classifier.map π, lifetime := n.lifetime.rename π }

def NodeSpec.relabel (π : NodeId → NodeId) (spec : NodeSpec) : NodeSpec :=
  { spec with classifier := spec.classifier.map π }

theorem NodeSpec.relabel_id (spec : NodeSpec) : spec.relabel id = spec := by
  simp [NodeSpec.relabel]

theorem Lifetime.rename_id (l : Lifetime) : l.rename id = l := by
  cases l <;> rfl

theorem Lifetime.rename_eq_persistent {π : NodeId → NodeId} {l : Lifetime} {s : SourceId} :
    l.rename π = .persistent s ↔ l = .persistent s := by
  cases l <;> simp [Lifetime.rename]

namespace Graph

/-- `π` takes the nodes of `g` one to one to those of `h`, with all that is said of them: slots and
stamps are passed over, and everything else is the same. -/
structure SameUpTo (π : NodeId → NodeId) (g h : Graph) : Prop where
  injective : Function.Injective π
  onto : ∀ y, h.contains y = true → ∃ x, π x = y
  root : π root = root
  bare : ∀ id, (h.node? (π id)).map Node.bare = (g.node? id).map (Node.relabel π)
  properties : ∀ id, h.propertiesOf (π id) = (g.propertiesOf id).relabel π
  usages : h.usages = g.usages.map (Usage.relabel π)
  lookup : ∀ p, h.lookup p = (g.lookup p).map π
  persistentNodes : ∀ s, h.persistentNodes s = (g.persistentNodes s).map π
  ownedBy : ∀ o, h.ownedBy (π o) = (g.ownedBy o).map π
  elementsNamed : ∀ s, h.elementsNamed s = (g.elementsNamed s).map π
  instancesOf : ∀ c, h.instancesOf (π c) = (g.instancesOf c).map π
  isPackage : ∀ id, h.isPackage (π id) = g.isPackage id
  backReferences : h.backReferences = g.backReferences
  packageClassifier : h.packageClassifier = g.packageClassifier.map π

namespace SameUpTo

variable {π : NodeId → NodeId} {g h : Graph} (e : SameUpTo π g h) (id : NodeId) (p : String)
include e

section Nodes

theorem contains : h.contains (π id) = g.contains id := by
  simpa [Graph.contains] using congrArg Option.isSome (e.bare id)

theorem lifetime? : h.lifetime? (π id) = (g.lifetime? id).map (·.rename π) := by
  have := congrArg (Option.map (·.lifetime)) (e.bare id)
  simpa [Graph.lifetime?, Function.comp_def, Node.bare, Node.relabel] using this

theorem classifier? : h.classifier? (π id) = (g.classifier? id).map π := by
  have := congrArg (· >>= (·.classifier)) (e.bare id)
  simp only [Option.bind_eq_bind, Option.bind_map, Function.comp_def, Node.bare,
    Node.relabel] at this
  simpa only [Graph.classifier?, Option.bind_eq_bind, Option.map_bind, Function.comp_def] using this

theorem path? : h.path? (π id) = g.path? id := by
  have := congrArg (· >>= (·.path)) (e.bare id)
  simpa [Graph.path?, Option.bind_map, Function.comp_def, Node.bare, Node.relabel] using this

theorem name? : h.name? (π id) = g.name? id := by
  have := congrArg (· >>= (·.name)) (e.bare id)
  simpa [Graph.name?, Option.bind_map, Function.comp_def, Node.bare, Node.relabel] using this

theorem span? : h.span? (π id) = g.span? id := by
  have := congrArg (· >>= (·.span)) (e.bare id)
  simpa [Graph.span?, Option.bind_map, Function.comp_def, Node.bare, Node.relabel] using this

theorem classifierPath? : h.classifierPath? (π id) = g.classifierPath? id := by
  simp only [Graph.classifierPath?, e.classifier?]
  cases g.classifier? id with
  | none => rfl
  | some c => exact e.path? c

theorem isImportStub : h.isImportStub (π id) = g.isImportStub id := by
  simp only [Graph.isImportStub, e.classifierPath?]

theorem isPropertyStub : h.isPropertyStub (π id) = g.isPropertyStub id := by
  simp only [Graph.isPropertyStub, e.classifierPath?]

theorem ownerRoot? : h.ownerRoot? (π id) = (g.ownerRoot? id).map π := by
  rw [ownerRoot?_eq, ownerRoot?_eq, e.lifetime?]
  cases g.lifetime? id with
  | none => rfl
  | some l => cases l <;> rfl

theorem sourceOf? : h.sourceOf? (π id) = g.sourceOf? id := by
  rw [sourceOf?_eq, sourceOf?_eq, e.ownerRoot?]
  cases g.ownerRoot? id with
  | none => rfl
  | some r =>
    simp only [Option.map_some, Option.bind_some, e.lifetime?]
    cases g.lifetime? r with
    | none => rfl
    | some l => cases l <;> rfl

theorem describe {path : Path} (hp : g.path? id = some path) :
    h.describe (π id) = g.describe id := by
  have hdescribe {k : Graph} {x : NodeId} (hx : k.path? x = some path) :
      k.describe x = path.text := by
    obtain ⟨n, hn, hpath⟩ := Option.bind_eq_some_iff.1 hx
    simp [Graph.describe, hn, hpath]
  rw [hdescribe hp, hdescribe (e.path? id ▸ hp)]

end Nodes

section Values

theorem values : h.values (π id) p = (g.values id p).map π := by
  rw [values_eq, values_eq, e.properties, Table.values_relabel]

theorem value? : h.value? (π id) p = (g.value? id p).map π := by
  rw [Graph.value?, Graph.value?, e.values, List.head?_map]

theorem children : h.children (π id) = (g.children id).map π :=
  e.values id "children"

theorem packageOf? : h.packageOf? (π id) = (g.packageOf? id).map π :=
  e.value? id "package"

theorem packagePath? : h.packagePath? (π id) = g.packagePath? id := by
  simp only [Graph.packagePath?, e.packageOf?]
  cases g.packageOf? id with
  | none => rfl
  | some P => exact e.path? P

theorem referenced? : h.referenced? (π id) = (g.referenced? id).map π := by
  simp only [Graph.referenced?, e.isImportStub, e.value?]
  split <;> rfl

theorem declaredType? : h.declaredType? (π id) = (g.declaredType? id).map π := by
  simp only [Graph.declaredType?, e.value?]
  cases g.value? id "genericType" with
  | none => rfl
  | some v => exact e.referenced? v

theorem spanOf : h.spanOf (π id) = g.spanOf id := by
  have howner : (h.ownerRoot? (π id) >>= h.span?) = g.ownerRoot? id >>= g.span? := by
    rw [e.ownerRoot?]
    cases g.ownerRoot? id with
    | none => rfl
    | some r => exact e.span? r
  simp only [Graph.spanOf, e.span?, howner, e.sourceOf?]

end Values

section Indexes

theorem tree : h.tree (π id) = (g.tree id).map π := by
  rw [Graph.tree, Graph.tree, e.ownedBy, List.map_cons]

theorem lookupText (text : String) : h.lookupText text = (g.lookupText text).map π := by
  simp only [Graph.lookupText]
  cases Path.ofText? text with
  | none => rfl
  | some path => exact e.lookup path

theorem isBackReference : h.isBackReference p = g.isBackReference p := by
  simp only [Graph.isBackReference, e.backReferences]

theorem usagesOf : h.usagesOf (π id) = (g.usagesOf id).map (Usage.relabel π) := by
  simp only [Graph.usagesOf, e.contains, e.usages, List.filter_map]
  split
  · congr 1
    refine List.filter_congr fun u _ => ?_
    simp [Usage.relabel, e.injective.eq_iff]
  · rfl

theorem mem_map {x : NodeId} {xs : List NodeId} : π x ∈ xs.map π ↔ x ∈ xs :=
  List.mem_map_of_injective e.injective

end Indexes

end SameUpTo

def slot (g : Graph) (n : Nat) : NodeId :=
  (g.free[n]?).getD (g.slots.size + (n - g.free.length))

theorem slot_zero (g : Graph) : g.slot 0 = g.fresh := by
  unfold slot fresh
  cases g.free <;> simp

structure Packed (g : Graph) : Prop where
  nodup : g.free.Nodup
  mem_free : ∀ id, id ∈ g.free ↔ id < g.slots.size ∧ g.contains id = false

theorem Packed.of_frame {g g' : Graph} (hp : g.Packed) (hf : g'.frame = g.frame) : g'.Packed where
  nodup := free_congr hf ▸ hp.nodup
  mem_free id := by rw [free_congr hf, size_slots_congr hf, contains_congr hf, hp.mem_free]

/-- The nodes to come correspond as well, and nodes without a path have classifiers of the
metamodel. -/
structure SlotsCorrespond (π : NodeId → NodeId) (g h : Graph) : Prop where
  slot : ∀ n, h.slot n = π (g.slot n)
  packed : g.Packed ∧ h.Packed
  part : ∀ m c, g.path? m = none → g.classifier? m = some c → initial.contains c = true

/-- If `X` holds, the graphs are one and nothing is renamed; otherwise they are the same up to the
names of their nodes, those to come included. -/
structure InStep (X : Prop) (π : NodeId → NodeId) (g h : Graph) : Prop extends SameUpTo π g h where
  steps : X ∧ π = id ∧ h = g ∨ ¬ X ∧ SlotsCorrespond π g h

theorem SameUpTo.refl (g : Graph) : SameUpTo id g g where
  injective := Function.injective_id
  onto y _ := ⟨y, rfl⟩
  root := rfl
  bare i := by
    cases hn : g.node? i with
    | none => simp [hn]
    | some n => simp [hn, Node.bare, Node.relabel, Lifetime.rename_id]
  properties i := by simp [Table.relabel]
  usages := (List.map_id _).symm
  lookup p := by simp
  persistentNodes s := by simp
  ownedBy o := by simp
  elementsNamed s := by simp
  instancesOf c := by simp
  isPackage i := rfl
  backReferences := rfl
  packageClassifier := by simp

namespace InStep

variable {X : Prop} {π : NodeId → NodeId} {g h g' h' : Graph}

theorem refl (hX : X) (g : Graph) : InStep X id g g :=
  ⟨.refl g, .inl ⟨hX, rfl, rfl⟩⟩

theorem same (e : InStep X π g h) (hX : X) : π = id ∧ h = g :=
  (e.steps.resolve_right fun h => h.1 hX).2

theorem fresh (e : InStep X π g h) : h.fresh = π g.fresh := by
  rcases e.steps with ⟨-, rfl, rfl⟩ | ⟨-, hs⟩
  · rfl
  · rw [← slot_zero, ← slot_zero, hs.slot]

section Writes

theorem of_frame (e : InStep X π g h) (hg : g'.frame = g.frame) (hh : h'.frame = h.frame)
    (hproperties : ∀ id, h'.propertiesOf (π id) = (g'.propertiesOf id).relabel π)
    (husages : h'.usages = g'.usages.map (Usage.relabel π)) (hsame : π = id → h = g → h' = g') :
    InStep X π g' h' where
  injective := e.injective
  onto y hy := e.onto y (contains_congr hh y ▸ hy)
  root := e.root
  bare id := by
    have hg := node?_frame g' id ▸ hg ▸ node?_frame g id
    have hh := node?_frame h' (π id) ▸ hh ▸ node?_frame h (π id)
    have hrelabel (k : Graph) : (k.node? id).map (Node.relabel π) =
        ((k.node? id).map Node.bare).map (Node.relabel π) := by
      rw [Option.map_map]
      rfl
    rw [hh, e.bare, hrelabel g, ← hg, ← hrelabel]
  properties := hproperties
  usages := husages
  lookup p := by rw [lookup_congr hg, lookup_congr hh, e.lookup]
  persistentNodes s := by rw [persistentNodes_congr hg, persistentNodes_congr hh, e.persistentNodes]
  ownedBy o := by rw [ownedBy_congr hg, ownedBy_congr hh, e.ownedBy]
  elementsNamed s := by rw [elementsNamed_congr hg, elementsNamed_congr hh, e.elementsNamed]
  instancesOf c := by rw [instancesOf_congr hg, instancesOf_congr hh, e.instancesOf]
  isPackage id := by rw [isPackage_congr hg, isPackage_congr hh, e.isPackage]
  backReferences := by rw [backReferences_congr hg, backReferences_congr hh, e.backReferences]
  packageClassifier := by
    rw [packageClassifier_congr hg, packageClassifier_congr hh, e.packageClassifier]
  steps := by
    rcases e.steps with ⟨hX, hπ, he⟩ | ⟨hX, hs⟩
    · exact .inl ⟨hX, hπ, hsame hπ he⟩
    · have hslot {k k' : Graph} (n : Nat) (hk : k'.frame = k.frame) : k'.slot n = k.slot n := by
        rw [Graph.slot, Graph.slot, free_congr hk, size_slots_congr hk]
      exact .inr ⟨hX, fun n => by rw [hslot n hg, hslot n hh, hs.slot],
        ⟨hs.packed.1.of_frame hg, hs.packed.2.of_frame hh⟩,
        fun m c hp hc => hs.part m c (path?_congr hg m ▸ hp) (classifier?_congr hg m ▸ hc)⟩

variable (e : InStep X π g h) {id : NodeId} {p : String}
include e

omit e in
theorem propertiesOf_link_of_not_contains {k : Graph} {id : NodeId} (hid : k.contains id = false)
    (v j : NodeId) : (k.link id p v).propertiesOf j = k.propertiesOf j := by
  have hn : k.node? id = none := by simpa [Graph.contains] using hid
  unfold Graph.link
  rw [propertiesOf_touchUnlessBack]
  change ((k.modifyNode id _).propertiesOf j) = _
  rw [propertiesOf, propertiesOf, node?_modifyNode]
  split
  · rename_i hj
    rw [hj, hn]
    rfl
  · rfl

theorem link (id : NodeId) (p : String) (v : NodeId) :
    InStep X π (g.link id p v) (h.link (π id) p (π v)) := by
  refine e.of_frame (frame_link ..) (frame_link ..) (fun j => ?_) ?_
    fun hπ he => by rw [hπ, he]; rfl
  · by_cases hid : g.contains id = true
    · rw [propertiesOf_link hid, propertiesOf_link (e.contains id ▸ hid),
        e.properties, e.properties]
      simp only [e.injective.eq_iff, Table.push_relabel]
      split <;> rfl
    · rw [Bool.not_eq_true] at hid
      rw [propertiesOf_link_of_not_contains hid,
        propertiesOf_link_of_not_contains (e.contains id ▸ hid), e.properties]
  · rw [usages_link, usages_link, e.usages, e.isBackReference]
    rfl

theorem unlink (hid : g.contains id = true) (v : NodeId) :
    InStep X π (g.unlink id p v) (h.unlink (π id) p (π v)) := by
  refine e.of_frame (frame_unlink ..) (frame_unlink ..) (fun j => ?_) ?_ fun hπ he => by
    rw [hπ, he]; rfl
  · rw [propertiesOf_unlink hid, propertiesOf_unlink (e.contains id ▸ hid), e.properties,
      e.properties]
    simp only [e.injective.eq_iff, Table.withoutValue_relabel _ _ e.injective]
    split <;> rfl
  · rw [usages_unlink, usages_unlink, e.usages, List.eraseP_map]
    congr 2
    funext u
    simp only [Function.comp, Usage.relabel, e.injective.eq_iff]
    rfl

theorem purge (id : NodeId) (p : String) : InStep X π (g.purge id p) (h.purge (π id) p) := by
  refine e.of_frame (frame_purge ..) (frame_purge ..) (fun j => ?_) ?_
    fun hπ he => by rw [hπ, he]; rfl
  · rw [propertiesOf_purge, propertiesOf_purge, e.properties, e.properties]
    simp only [e.injective.eq_iff, Table.erase_relabel]
    split <;> rfl
  · simp only [Graph.purge, e.properties, Table.contains_relabel]
    split
    · rw [usages_touchUnlessBack, usages_touchUnlessBack]
      simp only [modifyNode, e.usages, List.filter_map]
      congr 1
      refine List.filter_congr fun u _ => ?_
      simp only [Function.comp, Usage.relabel, e.injective.eq_iff]
      rfl
    · exact e.usages

end Writes

section Seats

variable (spec : NodeSpec) (lifetime : Lifetime) (package : Bool)

theorem node?_seat_of_packed (hr : g.Packed) (j : NodeId) : (g.seat spec lifetime package).node? j =
    if j = g.fresh then some (spec.node lifetime g.nextStamp) else g.node? j := by
  cases hf : g.free with
  | nil =>
    simp only [node?, Graph.seat, insert, Graph.fresh, hf, Array.getElem?_push]
    split <;> simp_all
  | cons id rest =>
    have hid := ((hr.mem_free id).1 (by simp [hf])).1
    simp only [node?, Graph.seat, insert, Graph.fresh, hf, Array.getElem?_setIfInBounds]
    by_cases hj : id = j
    · subst hj
      simp [hid]
    · simp [hj, Ne.symm hj]

theorem size_slots_seat_eq (g : Graph) : (g.seat spec lifetime package).slots.size =
    if g.free = [] then g.slots.size + 1 else g.slots.size := by
  cases hf : g.free <;> simp [Graph.seat, insert, hf]

theorem slot_seat (g : Graph) (n : Nat) :
    (g.seat spec lifetime package).slot n = g.slot (n + 1) := by
  rw [Graph.slot, Graph.slot, free_seat, size_slots_seat_eq]
  cases hf : g.free with
  | nil => simp [Nat.add_assoc, Nat.add_comm 1 n]
  | cons id rest => simp [Nat.add_sub_add_right]

theorem packed_seat (hr : g.Packed) : (g.seat spec lifetime package).Packed := by
  refine ⟨free_seat spec lifetime package g ▸ hr.nodup.tail, fun id => ?_⟩
  have hmem := hr.mem_free id
  have hcontains : (g.seat spec lifetime package).contains id = false ↔
      id ≠ g.fresh ∧ g.contains id = false := by
    rw [contains, node?_seat_of_packed _ _ _ hr, contains]
    split <;> simp_all
  rw [free_seat, size_slots_seat_eq, hcontains]
  cases hf : g.free with
  | nil =>
    have hfresh : g.fresh = g.slots.size := by simp [Graph.fresh, hf]
    rw [hf] at hmem
    simp only [List.not_mem_nil, false_iff, not_and, List.tail_nil, if_true, hfresh] at hmem ⊢
    exact fun hlt hne => hmem (Nat.lt_of_le_of_ne (Nat.le_of_lt_succ hlt) hne)
  | cons i rest =>
    have hfresh : g.fresh = i := by simp [Graph.fresh, hf]
    have hi : i ∉ rest := (List.nodup_cons.1 (hf ▸ hr.nodup)).1
    rw [hf, List.mem_cons] at hmem
    rw [if_neg (List.cons_ne_nil i rest), hfresh, List.tail_cons, and_left_comm, ← hmem]
    refine ⟨fun h => ⟨fun he => hi (he ▸ h), .inr h⟩, fun h => h.2.resolve_left h.1⟩

theorem elementsNamed_seat (g : Graph) (s : String) :
    (g.seat spec lifetime package).elementsNamed s =
      if package = false ∧ spec.path.map (·.name) = some s then g.elementsNamed s ++ [g.fresh]
      else g.elementsNamed s := by
  simp only [elementsNamed, Graph.seat]
  cases spec.path with
  | none => simp
  | some path =>
    cases package with
    | true => simp
    | false =>
      simp only [Table.values_push, Bool.false_eq_true, if_false, Option.map_some,
        Option.some.injEq, true_and, eq_comm (a := s)]
      split
      · rename_i hs
        rw [hs]
      · rfl

theorem seat (e : InStep X π g h) (hpart : spec.path = none → ∀ c, spec.classifier = some c →
    initial.contains c = true) : InStep X π (g.seat spec lifetime package)
      (h.seat (spec.relabel π) (lifetime.rename π) package) := by
  rcases e.steps with ⟨hX, rfl, rfl⟩ | ⟨hX, hs⟩
  · rw [Lifetime.rename_id, NodeSpec.relabel_id]
    exact .refl hX _
  have hnode := node?_seat_of_packed spec lifetime package hs.packed.1
  have hnode' := node?_seat_of_packed (spec.relabel π) (lifetime.rename π) package hs.packed.2
  have hprops {k : Graph} {spec : NodeSpec} {lifetime : Lifetime} (hr : k.Packed) (j : NodeId) :
      (k.seat spec lifetime package).propertiesOf j =
        if j = k.fresh then ∅ else k.propertiesOf j := by
    rw [propertiesOf, node?_seat_of_packed _ _ _ hr]
    split <;> rfl
  have hpath : (spec.relabel π).path = spec.path := rfl
  have hclassifier (c : NodeId) : (spec.relabel π).classifier = some (π c) ↔
      spec.classifier = some c := by
    simp only [NodeSpec.relabel]
    cases spec.classifier <;> simp [e.injective.eq_iff]
  have howner (o : NodeId) : lifetime.rename π = .ephemeral (π o) ↔ lifetime = .ephemeral o := by
    cases lifetime <;> simp [Lifetime.rename, e.injective.eq_iff]
  exact {
    injective := e.injective
    onto := fun y hy => by
      rw [Graph.contains, hnode'] at hy
      split at hy
      · rename_i hy'
        exact ⟨g.fresh, by rw [hy', e.fresh]⟩
      · exact e.onto y hy
    root := e.root
    bare := fun id => by
      rw [hnode, hnode', e.fresh]
      simp only [e.injective.eq_iff]
      split
      · rfl
      · exact e.bare id
    properties := fun id => by
      rw [hprops hs.packed.1, hprops hs.packed.2, e.fresh, e.properties]
      simp only [e.injective.eq_iff]
      split <;> rfl
    usages := e.usages
    lookup := fun p => by
      rw [lookup_seat, lookup_seat, e.fresh, e.lookup, hpath]
      split <;> rfl
    persistentNodes := fun s => by
      rw [persistentNodes_seat, persistentNodes_seat, e.fresh, e.persistentNodes]
      simp only [Lifetime.rename_eq_persistent]
      split <;> simp
    ownedBy := fun o => by
      rw [ownedBy_seat, ownedBy_seat, e.fresh, e.ownedBy]
      simp only [howner]
      split <;> simp
    elementsNamed := fun s => by
      rw [elementsNamed_seat, elementsNamed_seat, e.fresh, e.elementsNamed, hpath]
      split <;> simp
    instancesOf := fun c => by
      rw [instancesOf_seat, instancesOf_seat, e.fresh, e.instancesOf]
      simp only [hclassifier]
      split <;> simp
    isPackage := fun id => by
      rw [isPackage_seat, isPackage_seat, e.fresh, e.isPackage]
      simp only [e.injective.eq_iff]
    backReferences := e.backReferences
    packageClassifier := e.packageClassifier
    steps := .inr ⟨hX, {
      slot := fun n => by rw [slot_seat, slot_seat, hs.slot]
      packed := ⟨packed_seat _ _ _ hs.packed.1, packed_seat _ _ _ hs.packed.2⟩
      part := fun m c hp hc => by
        rw [Graph.path?, hnode] at hp
        rw [Graph.classifier?, hnode] at hc
        split at hc
        · rename_i hm
          rw [if_pos hm] at hp
          exact hpart hp c hc
        · rename_i hm
          rw [if_neg hm] at hp
          exact hs.part m c hp hc }⟩ }

end Seats

section Evictions

variable {id : NodeId} {n : Node}

theorem slot_evict (hn : g.node? id = some n) (k : Nat) :
    (g.evict id).slot k = if k = 0 then id else g.slot (k - 1) := by
  rw [Graph.slot, Graph.slot, (evict_tables hn).1, size_slots_evict]
  cases k with
  | zero => simp
  | succ k => simp [Nat.add_sub_add_right]

theorem packed_evict (hr : g.Packed) (hn : g.node? id = some n) : (g.evict id).Packed := by
  have hid : g.contains id = true := contains_iff.2 ⟨n, hn⟩
  have hfree := (evict_tables hn).1
  refine ⟨?_, fun j => ?_⟩
  · rw [hfree, List.nodup_cons, hr.mem_free, hid]
    exact ⟨by simp, hr.nodup⟩
  · rw [hfree, List.mem_cons, hr.mem_free, size_slots_evict, contains_evict]
    by_cases hj : j = id
    · subst hj
      simpa using lt_size_of_contains hid
    · simp [hj]

theorem elementsNamed_evict (hn : g.node? id = some n) (s : String) :
    (g.evict id).elementsNamed s = if n.path.map (·.name) = some s then
      (g.elementsNamed s).filter (· ≠ id) else g.elementsNamed s := by
  have hc : (g.unindex id).contains id = true := by
    rw [contains_unindex]
    exact contains_iff.2 ⟨n, hn⟩
  have hbyName : (g.evict id).byName =
      n.path.elim g.byName fun path => g.byName.drop path.name id := by
    rw [Graph.evict, vacate, if_pos hc]
    simp only [unindex, hn]
    cases n.path <;> rfl
  simp only [elementsNamed, hbyName]
  cases n.path with
  | none => simp
  | some path =>
    simp only [Option.elim_some, Table.values_drop, Option.map_some, Option.some.injEq,
      eq_comm (a := s)]
    split
    · rename_i hs
      rw [hs]
    · rfl

theorem usages_evict_of_node (hn : g.node? id = some n) :
    (g.evict id).usages = g.usages.filter fun u => u.user ≠ id && u.target ≠ id := by
  have hc : (g.unindex id).contains id = true := by
    rw [contains_unindex]
    exact contains_iff.2 ⟨n, hn⟩
  rw [Graph.evict, vacate, if_pos hc]
  simp only [unindex, hn]

theorem filter_ne_map (hπ : Function.Injective π) (id : NodeId) (ids : List NodeId) :
    (ids.map π).filter (· ≠ π id) = (ids.filter (· ≠ id)).map π := by
  rw [List.filter_map]
  congr 1
  refine List.filter_congr fun x _ => ?_
  simp [hπ.eq_iff]

section Indexes

variable {m : Node} (e : InStep X π g h) (hn : g.node? id = some n) (hm : h.node? (π id) = some m)
include e hn hm

theorem bare_eq_relabel : m.bare = n.relabel π := by
  simpa [hn, hm] using e.bare id

theorem usages_evict_map : (h.evict (π id)).usages = (g.evict id).usages.map (·.relabel π) := by
  rw [usages_evict_of_node hn, usages_evict_of_node hm, e.usages, List.filter_map]
  congr 1
  refine List.filter_congr fun u _ => ?_
  simp [Usage.relabel, e.injective.eq_iff]

theorem persistentNodes_evict_map (s : SourceId) :
    (h.evict (π id)).persistentNodes s = ((g.evict id).persistentNodes s).map π := by
  have hlifetime : m.lifetime = n.lifetime.rename π :=
    (congrArg Node.lifetime (e.bare_eq_relabel hn hm) :)
  have hs := e.persistentNodes s
  simp only [Graph.persistentNodes, (evict_tables hn).2.2.1, (evict_tables hm).2.2.1,
    hlifetime] at hs ⊢
  cases n.lifetime with
  | persistent t =>
    simp only [Lifetime.rename, Table.values_drop]
    split
    · rename_i hst
      rw [← hst, hs, filter_ne_map e.injective]
    · exact hs
  | bootstrap | implicit | ephemeral => exact hs

theorem ownedBy_evict_map (j : NodeId) :
    (h.evict (π id)).ownedBy (π j) = ((g.evict id).ownedBy j).map π := by
  have hlifetime : m.lifetime = n.lifetime.rename π :=
    (congrArg Node.lifetime (e.bare_eq_relabel hn hm) :)
  have hj := e.ownedBy j
  simp only [Graph.ownedBy, (evict_tables hn).2.2.2.1, (evict_tables hm).2.2.2.1,
    hlifetime] at hj ⊢
  cases n.lifetime with
  | ephemeral o =>
    have ho := e.ownedBy o
    simp only [Graph.ownedBy] at ho
    simp only [Lifetime.rename, Table.values_drop, Table.values_erase, e.injective.eq_iff]
    split
    · split
      · rfl
      · rw [ho, filter_ne_map e.injective]
    · split
      · rfl
      · exact hj
  | bootstrap | implicit | persistent =>
    simp only [Lifetime.rename, Table.values_erase, e.injective.eq_iff]
    split
    · rfl
    · exact hj

theorem elementsNamed_evict_map (s : String) :
    (h.evict (π id)).elementsNamed s = ((g.evict id).elementsNamed s).map π := by
  have hpath : m.path = n.path := (congrArg Node.path (e.bare_eq_relabel hn hm) :)
  rw [elementsNamed_evict hn, elementsNamed_evict hm, hpath, e.elementsNamed]
  split
  · rw [filter_ne_map e.injective]
  · rfl

theorem instancesOf_evict_map (c : NodeId) :
    (h.evict (π id)).instancesOf (π c) = ((g.evict id).instancesOf c).map π := by
  have hclassifier : m.classifier = n.classifier.map π :=
    (congrArg Node.classifier (e.bare_eq_relabel hn hm) :)
  have hc := e.instancesOf c
  simp only [Graph.instancesOf, (evict_tables hn).2.2.2.2.1, (evict_tables hm).2.2.2.2.1,
    hclassifier, Table.values_erase, e.injective.eq_iff] at hc ⊢
  split
  · rfl
  · cases n.classifier with
    | none => exact hc
    | some k =>
      simp only [Option.map_some, Table.values_drop, e.injective.eq_iff]
      split
      · rename_i hk
        rw [← hk, hc, filter_ne_map e.injective]
      · exact hc

theorem isPackage_evict_map (j : NodeId) :
    (h.evict (π id)).isPackage (π j) = (g.evict id).isPackage j := by
  have hj := e.isPackage j
  simp only [Graph.isPackage, (evict_tables hn).2.2.2.2.2, (evict_tables hm).2.2.2.2.2,
    List.mem_filter, ne_eq, e.injective.eq_iff, decide_not, Bool.not_eq_true',
    decide_eq_false_iff_not, decide_eq_decide] at hj ⊢
  rw [hj]

theorem sameUpTo_evict : SameUpTo π (g.evict id) (h.evict (π id)) where
  injective := e.injective
  onto y hy := by
    rw [contains_evict] at hy
    exact e.onto y (by simpa using (Bool.and_eq_true_iff.1 hy).2)
  root := e.root
  bare j := by
    rw [node?_evict, node?_evict]
    simp only [e.injective.eq_iff]
    split
    · rfl
    · exact e.bare j
  properties j := by
    rw [propertiesOf_evict, propertiesOf_evict, e.properties]
    simp only [e.injective.eq_iff]
    split <;> rfl
  usages := e.usages_evict_map hn hm
  lookup p := by
    rw [lookup_evict, lookup_evict, e.path?, e.lookup]
    split <;> rfl
  persistentNodes := e.persistentNodes_evict_map hn hm
  ownedBy := e.ownedBy_evict_map hn hm
  elementsNamed := e.elementsNamed_evict_map hn hm
  instancesOf := e.instancesOf_evict_map hn hm
  isPackage := e.isPackage_evict_map hn hm
  backReferences := by rw [backReferences_evict, backReferences_evict, e.backReferences]
  packageClassifier := by
    rw [packageClassifier_evict, packageClassifier_evict, e.packageClassifier]

end Indexes

theorem evict (e : InStep X π g h) (id : NodeId) : InStep X π (g.evict id) (h.evict (π id)) := by
  rcases e.steps with ⟨hX, rfl, rfl⟩ | ⟨hX, hs⟩
  · exact .refl hX _
  cases hn : g.node? id with
  | none =>
    have hc : g.contains id = false := by simp [Graph.contains, hn]
    rw [evict_of_not_contains hc, evict_of_not_contains (e.contains id ▸ hc)]
    exact e
  | some n =>
    obtain ⟨m, hm⟩ := contains_iff.1 ((e.contains id).trans (contains_iff.2 ⟨n, hn⟩))
    refine ⟨e.sameUpTo_evict hn hm, .inr ⟨hX, fun k => ?_, ?_, fun j c hp hc => ?_⟩⟩
    · rw [slot_evict hn, slot_evict hm, hs.slot]
      split <;> rfl
    · exact ⟨packed_evict hs.packed.1 hn, packed_evict hs.packed.2 hm⟩
    · rw [path?_evict] at hp
      rw [classifier?_evict] at hc
      split at hc
      · simp at hc
      · rename_i hj
        rw [if_neg hj] at hp
        exact hs.part j c hp hc

end Evictions

end InStep

end Graph

end ModelCompiler
