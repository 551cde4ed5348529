import ModelCompiler.Lineage
import ModelCompiler.Proofs.Store.Remove

/-!
The lineage of a type as a relation to the graph, without a memory.
-/
namespace ModelCompiler.Graph

variable {f : Node → Node} {j parent v : NodeId}

def generals (g : Graph) (ty : NodeId) : List (Option NodeId) :=
  (g.values ty "generalizations").map g.referenced?

/-- The ancestors of a type: its generalizations, then theirs in turn, each at its first place. -/
inductive Lineal (g : Graph) : NodeId → List NodeId → Prop
  | intro {ty : NodeId} (gs : List NodeId) (ls : NodeId → List NodeId) :
      g.generals ty = gs.map some → (∀ x ∈ gs, Lineal g x (ls x)) →
      Lineal g ty (gs ++ gs.flatMap ls).eraseDups

namespace Lineal

variable {g g' : Graph} {ty : NodeId} {l : List NodeId}

theorem mem_of_general (h : Lineal g ty l) {x : NodeId} (hx : some x ∈ g.generals ty) : x ∈ l := by
  cases h with
  | intro gs ls hgs hls =>
    rw [hgs, List.mem_map] at hx
    obtain ⟨y, hy, he⟩ := hx
    rw [← Option.some.inj he, List.mem_eraseDups]
    exact List.mem_append_left _ hy

theorem of_mem (h : Lineal g ty l) : ∀ x ∈ l, ∃ m, Lineal g x m ∧ ∀ y ∈ m, y ∈ l := by
  induction h with
  | intro gs ls hgs hls ih =>
    intro x hx
    have hmem {z y : NodeId} (hz : z ∈ gs) (hy : y ∈ ls z) :
        y ∈ (gs ++ gs.flatMap ls).eraseDups := by
      rw [List.mem_eraseDups]
      exact List.mem_append_right _ (List.mem_flatMap.2 ⟨z, hz, hy⟩)
    rw [List.mem_eraseDups, List.mem_append, List.mem_flatMap] at hx
    rcases hx with hx | ⟨z, hz, hx⟩
    · exact ⟨ls x, hls x hx, fun y hy => hmem hx hy⟩
    · obtain ⟨m, hm, hsub⟩ := ih z hz x hx
      exact ⟨m, hm, fun y hy => hmem hz (hsub y hy)⟩

theorem not_mem_self (h : Lineal g ty l) : ty ∉ l := by
  induction h with
  | @intro ty gs ls hgs hls ih =>
    intro hty
    rw [List.mem_eraseDups, List.mem_append, List.mem_flatMap] at hty
    rcases hty with hty | ⟨z, hz, hty⟩
    · have : some ty ∈ g.generals ty := by
        rw [hgs]
        exact List.mem_map_of_mem hty
      exact ih ty hty ((hls ty hty).mem_of_general this)
    · -- the type leads to `z` again, from above
      obtain ⟨m, hm, hsub⟩ := (hls z hz).of_mem ty hty
      have : some z ∈ g.generals ty := by
        rw [hgs]
        exact List.mem_map_of_mem hz
      exact ih z hz (hsub z (hm.mem_of_general this))

theorem general_ne_self (h : Lineal g ty l) {x : NodeId} (hx : some x ∈ g.generals ty) :
    x ≠ ty := by
  rintro rfl
  exact h.not_mem_self (h.mem_of_general hx)

theorem congr (h : Lineal g ty l) (hty : g'.generals ty = g.generals ty)
    (hl : ∀ x ∈ l, g'.generals x = g.generals x) : Lineal g' ty l := by
  induction h with
  | intro gs ls hgs hls ih =>
    refine .intro gs ls (hty.trans hgs) fun x hx => ih x hx (hl x ?_) fun y hy => hl y ?_
    · rw [List.mem_eraseDups]
      exact List.mem_append_left _ hx
    · rw [List.mem_eraseDups]
      exact List.mem_append_right _ (List.mem_flatMap.2 ⟨x, hx, hy⟩)

theorem unique {m : List NodeId} (h : Lineal g ty l) (h' : Lineal g ty m) : l = m := by
  induction h generalizing m with
  | intro gs ls hgs hls ih =>
    cases h' with
    | intro gs' ls' hgs' hls' =>
      obtain rfl : gs = gs' := by
        rw [hgs] at hgs'
        exact List.map_injective_iff.2 (Option.some_injective _) hgs'
      have : gs.flatMap ls = gs.flatMap ls' :=
        List.flatMap_congr fun x hx => ih x hx (hls' x hx)
      rw [this]

end Lineal

/-- A stub among the generalizations of a type is a part of the type, and neither of the properties
that lineages are made from is a back-reference. -/
structure Tracked (g : Graph) : Prop where
  stub : ∀ j v, v ∈ g.values j "generalizations" → g.isImportStub v = true →
    g.lifetime? v = some (.ephemeral j)
  generalizations : g.isBackReference "generalizations" = false
  resolvedNode : g.isBackReference "resolvedNode" = false

theorem Tracked.congr {g g' : Graph} (ht : g.Tracked) (e : g'.frame = g.frame)
    (hv : ∀ j, ∀ v ∈ g'.values j "generalizations", v ∈ g.values j "generalizations") :
    g'.Tracked where
  stub j v h hs := by
    rw [isImportStub_congr e] at hs
    rw [lifetime?_congr e]
    exact ht.stub j v (hv j v h) hs
  generalizations := isBackReference_congr e _ ▸ ht.generalizations
  resolvedNode := isBackReference_congr e _ ▸ ht.resolvedNode

/-- A step after which nothing with an old stamp has other generalizations than before. -/
structure Ages (g g' : Graph) : Prop extends Restamps g g' where
  generals : ∀ j s, g'.stamp? j = some s → s < g.nextStamp → g'.generals j = g.generals j

namespace Ages

theorem refl (g : Graph) : Ages g g :=
  ⟨.refl g, fun _ _ _ _ => rfl⟩

theorem trans {g h k : Graph} (a : Ages g h) (b : Ages h k) : Ages g k :=
  ⟨a.toRestamps.trans b.toRestamps, fun j s hs hlt => by
    have hlt' := hlt.trans_le a.next
    rw [b.generals j s hs hlt', a.generals j s (b.still j s hs hlt') hlt]⟩

end Ages

section Writes

variable {g : Graph} (id value : NodeId) (p : String)

theorem frame_written (g : Graph) (hf : ∀ n, (f n).bare = n.bare)
    (usages : List Usage) : (g.written id p f usages).frame = g.frame := by
  rw [written, frame_touchUnlessBack]
  exact frame_modifyNode g id f hf

theorem values_written (usages : List Usage)
    (hv : ∀ n q, q ≠ p → (f n).properties.values q = n.properties.values q) {q : String}
    (h : j ≠ id ∨ q ≠ p) : (g.written id p f usages).values j q = g.values j q := by
  rw [values_eq, written, propertiesOf_touchUnlessBack, values_eq]
  show ((g.modifyNode id f).propertiesOf j).values q = _
  unfold propertiesOf
  rw [node?_modifyNode]
  split
  · rename_i hj
    cases g.node? j with
    | none => rfl
    | some n => exact hv n q (h.resolve_left fun hne => hne hj)
  · rfl

theorem Tracked.ages_written (ht : g.Tracked) (hb : ∀ n, (f n).bare = n.bare)
    (hs : ∀ n, (f n).stamp = n.stamp)
    (hv : ∀ n q, q ≠ p → (f n).properties.values q = n.properties.values q)
    (usages : List Usage) : Ages g (g.written id p f usages) := by
  refine ⟨restamps_written g id p hs usages, fun j s hst hlt => ?_⟩
  have hframe := frame_written id p g hb usages
  by_cases hp : g.isBackReference p = true
  · have hgen : "generalizations" ≠ p := by
      rintro rfl
      simp [ht.generalizations] at hp
    have hres : "resolvedNode" ≠ p := by
      rintro rfl
      simp [ht.resolvedNode] at hp
    unfold Graph.generals
    rw [values_written id p usages hv (.inr hgen)]
    refine List.map_congr_left fun v _ => ?_
    simp only [referenced?, value?, isImportStub_congr hframe,
      values_written id p usages hv (.inr hres)]
  · have hnt : ¬ g.Touches id j := fun ht' =>
      not_touches_of_stamp? { g.modifyNode id f with usages := usages } id p
        (show g.isBackReference p = false by simpa using hp) hst hlt
        (ht'.imp_right fun h => (lifetime?_congr (frame_modifyNode g id f hb) id).trans h)
    have hj : j ≠ id := fun e => hnt (.inl e)
    unfold Graph.generals
    rw [values_written id p usages hv (.inl hj)]
    refine List.map_congr_left fun v hvj => ?_
    simp only [referenced?, value?, isImportStub_congr hframe]
    split
    · rename_i hstub
      rw [values_written id p usages hv (.inl ?_)]
      rintro rfl
      exact hnt (.inr (ht.stub j v hvj hstub))
    · rfl

theorem Tracked.ages_link (ht : g.Tracked) : Ages g (g.link id p value) := by
  rw [link_eq_written]
  apply ht.ages_written
  · exact fun _ => rfl
  · exact fun _ => rfl
  · intro n q hq
    simp [Table.values_push, hq]

theorem Tracked.ages_unlink (ht : g.Tracked) : Ages g (g.unlink id p value) := by
  rw [unlink_eq_written]
  apply ht.ages_written
  · exact fun _ => rfl
  · exact fun _ => rfl
  · intro n q hq
    simp [values_withoutValue, hq]

theorem Tracked.ages_purge (ht : g.Tracked) : Ages g (g.purge id p) := by
  by_cases h : (g.propertiesOf id).contains p = true
  · rw [purge_eq_written g id p h]
    apply ht.ages_written
    · exact fun _ => rfl
    · exact fun _ => rfl
    · intro n q hq
      simp [Table.values_erase, hq]
  · rw [purge, if_neg h]
    exact .refl g

end Writes

section Kept

variable {g g' : Graph}

theorem classifierPath?_of_bare (e : (g'.node? v).map Node.bare = (g.node? v).map Node.bare)
    (hp : ∀ c, g.classifier? v = some c → g'.path? c = g.path? c) :
    g'.classifierPath? v = g.classifierPath? v := by
  unfold classifierPath?
  rw [classifier?_of_bare e]
  cases hc : g.classifier? v with
  | none => rfl
  | some c => exact hp c hc

theorem referenced?_of_bare (e : (g'.node? v).map Node.bare = (g.node? v).map Node.bare)
    (hp : ∀ c, g.classifier? v = some c → g'.path? c = g.path? c)
    (hv : g'.values v "resolvedNode" = g.values v "resolvedNode") :
    g'.referenced? v = g.referenced? v := by
  rw [referenced?, referenced?, isImportStub, isImportStub, classifierPath?_of_bare e hp, value?,
    value?, hv]

variable (spec : NodeSpec) (lifetime : Lifetime) (package : Bool)

theorem Indexed.bare_seat (hi : g.Indexed) (h : g.contains j = true) :
    ((g.seat spec lifetime package).node? j).map Node.bare = (g.node? j).map Node.bare := by
  rw [node?_seat _ _ _ hi, if_neg (hi.ne_fresh h)]

theorem Coherent.classifierPath?_seat (hc : g.Coherent) (h : g.contains j = true) :
    (g.seat spec lifetime package).classifierPath? j = g.classifierPath? j :=
  classifierPath?_of_bare (hc.toIndexed.bare_seat _ _ _ h) fun c hcl =>
    path?_of_bare (hc.toIndexed.bare_seat _ _ _ (hc.classifier_live j c hcl))

theorem Tracked.seat (ht : g.Tracked) (hc : g.Coherent) :
    (g.seat spec lifetime package).Tracked where
  stub j v hv hs := by
    rw [values_seat _ _ _ hc.toIndexed] at hv
    have hlive := hc.value_live j _ v hv
    rw [isImportStub, hc.classifierPath?_seat _ _ _ hlive] at hs
    rw [lifetime?_of_bare (hc.toIndexed.bare_seat _ _ _ hlive)]
    exact ht.stub j v hv hs
  generalizations := ht.generalizations
  resolvedNode := ht.resolvedNode

theorem Coherent.ages_seat (hc : g.Coherent) : Ages g (g.seat spec lifetime package) := by
  have hi := hc.toIndexed
  refine ⟨restamps_seat hi spec lifetime package, fun j s hs hlt => ?_⟩
  unfold Graph.generals
  rw [values_seat _ _ _ hi]
  refine List.map_congr_left fun v hv => ?_
  have hlive := hc.value_live j _ v hv
  exact referenced?_of_bare (hi.bare_seat _ _ _ hlive)
    (fun c hcl => path?_of_bare (hi.bare_seat _ _ _ (hc.classifier_live v c hcl)))
    (values_seat _ _ _ hi v _)

theorem Tracked.link (ht : g.Tracked) {id value : NodeId} {p : String}
    (hid : g.contains id = true) (hp : p ≠ "generalizations") : (g.link id p value).Tracked :=
  ht.congr (frame_link _ _ _ _) fun j v hv => by
    rwa [values_link hid, if_neg fun e => hp e.2.symm] at hv

theorem Tracked.ages_attach (ht : g.Tracked) {id : NodeId} (hid : g.contains id = true) :
    Ages g (g.attach id parent) :=
  (ht.ages_link id parent "package").trans
  ((ht.link hid (by decide)).ages_link parent id "children")

theorem Tracked.ages_found (ht : g.Tracked) (hc : g.Coherent) (parent : NodeId) :
    Ages g (g.found spec lifetime package parent) := by
  refine (hc.ages_seat spec lifetime package).trans ((ht.seat _ _ _ hc).ages_attach ?_)
  rw [contains_seat _ _ _ hc.toIndexed]
  simp

theorem Tracked.found (ht : g.Tracked) (hc : g.Coherent)
    (hp : g.contains parent = true) : (g.found spec lifetime package parent).Tracked := by
  have hnew : (g.seat spec lifetime package).contains g.fresh = true := by
    rw [contains_seat _ _ _ hc.toIndexed]
    simp
  have hlink : ((g.seat spec lifetime package).link g.fresh "package" parent).Tracked :=
    (ht.seat spec lifetime package hc).link hnew (by decide)
  refine hlink.link ?_ (by decide)
  rw [contains_congr (frame_link _ _ _ _)]
  exact contains_seat_of_contains _ _ _ hc.toIndexed hp

end Kept

section Removal

variable {g g' : Graph} {order pruned : List NodeId}

theorem Removed.bare_of_contains (hk : Removed g g' order pruned)
    (h : g'.contains j = true) : (g'.node? j).map Node.bare = (g.node? j).map Node.bare := by
  rw [hk.bare, if_neg (hk.not_mem_of_contains h)]

theorem Removed.values_of_contains (hk : Removed g g' order pruned)
    (h : g'.contains j = true) {q : String} (hq : q ≠ "children") :
    g'.values j q = g.values j q := by
  rw [hk.values, if_neg (hk.not_mem_of_contains h), if_neg hq]

theorem Restamps.ages (hs : Restamps g g') (hc : g'.Closed)
    (hb : ∀ j, g'.contains j = true → (g'.node? j).map Node.bare = (g.node? j).map Node.bare)
    (hv : ∀ j q, g'.contains j = true → q ≠ "children" → g'.values j q = g.values j q) :
    Ages g g' := by
  refine ⟨hs, fun j s hs _ => ?_⟩
  have hj : g'.contains j = true := by
    obtain ⟨n, hn, -⟩ := Option.map_eq_some_iff.1 hs
    exact contains_iff.2 ⟨n, hn⟩
  unfold Graph.generals
  rw [← hv j "generalizations" hj (by decide)]
  refine List.map_congr_left fun v hmem => ?_
  have hlive := hc.value_live j _ v hmem
  exact referenced?_of_bare (hb v hlive)
    (fun c hcl => path?_of_bare (hb c (hc.classifier_live v c
      ((classifier?_of_bare (hb v hlive)).trans hcl))))
    (hv v _ hlive (by decide))

theorem Removed.ages (hk : Removed g g' order pruned) (hc : g'.Closed) : Ages g g' :=
  hk.stamps.ages hc (fun _ h => hk.bare_of_contains h) fun _ _ h => hk.values_of_contains h

end Removal

end ModelCompiler.Graph
