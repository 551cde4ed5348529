import ModelCompiler.Proofs.Schema

/-!
All that a compiler ever does to its graph, said once.
-/
open ModelCompiler.Action

namespace ModelCompiler.Graph

variable {j m o v x : NodeId} {s : SourceId} {q : String}

def Among {α : Type} (P : α → Prop) (a : Option α) : Prop :=
  ∃ x, a = some x ∧ P x

/-- The element in whose name a reference stands: that of its target for what is kept on the side of
the target. -/
def author? (g : Graph) (j : NodeId) (q : String) (v : NodeId) : Option NodeId :=
  if g.isBackReference q then g.ownerRoot? v else g.ownerRoot? j

/-- One write of binding, processing or unbinding in the name of the elements `R`. -/
inductive Step (K R : NodeId → Prop) (g : Graph) : Graph → Prop
  | link {j v : NodeId} {q : String} : q ∈ Metamodel.derived → g.Fits j q v →
      g.contains j = true → g.contains v = true →
      (q = "enumeration" → j ∈ g.values v "values") → Among R (g.author? j q v) →
      Step K R g (g.link j q v)
  | type {spec : NodeSpec} {o k : NodeId} {s : SourceId} : R o →
      g.lifetime? o = some (.persistent s) → spec.path = none → spec.classifier = some k →
      g.path? k = some Metamodel.functionType → K k →
      Step K R g (g.seat spec (.ephemeral o) false)
  | fill {t v : NodeId} {q : String} : g.IsType t → Among R (g.ownerRoot? t) →
      q ∈ ["parameters", "returnType"] → g.Fits t q v → g.contains v = true →
      Step K R g (g.link t q v)
  | unlink {j v : NodeId} {q : String} : v ∈ g.values j q → q ∈ Metamodel.derived ∨ g.IsType j →
      Among R (g.ownerRoot? j) ∨ Among R (g.author? j q v) → Step K R g (g.unlink j q v)
  | purge {j : NodeId} {q : String} : q ∈ Metamodel.derived → g.isBackReference q = false →
      Among R (g.ownerRoot? j) → Step K R g (g.purge j q)
  | drop {types order : List NodeId} {g' : Graph} :
      (∀ t ∈ types, g.IsType t ∧ Among R (g.ownerRoot? t)) → Ordered g types order →
      Removed g g' order [] → g'.Coherent → Step K R g g'

abbrev Works (K R : NodeId → Prop) : Graph → Graph → Prop :=
  Relation.ReflTransGen (Step K R)

def Within (g : Graph) (R : NodeId → Prop) (T : SourceId → Prop) : Prop :=
  ∀ x, R x → ∃ s, T s ∧ g.lifetime? x = some (.persistent s)

inductive Move (K : NodeId → Prop) (T : SourceId → Prop) (g : Graph) : Graph → Prop
  | step {R : NodeId → Prop} {g' : Graph} : g.Within R T → Step K R g g' → Move K T g g'
  | element {spec : NodeSpec} {path : Path} {s : SourceId} {id : NodeId} {g' : Graph} : T s →
      Established g spec path (.persistent s) id g' →
      (∀ k, spec.classifier = some k → K k ∧ ∃ p, g.path? k = some p) → Move K T g g'
  | part {spec : NodeSpec} {o k : NodeId} {s : SourceId} {kind : Path} : T s →
      g.lifetime? o = some (.persistent s) → spec.path = none → spec.classifier = some k →
      g.path? k = some kind → K k → kind ≠ Metamodel.functionType →
      Move K T g (g.seat spec (.ephemeral o) false)
  | write {j v : NodeId} {q : String} : Among T (g.sourceOf? j) → g.contains v = true →
      g.Fits j q v → q ∉ Metamodel.derived → q ≠ "package" → q ≠ "children" →
      Move K T g (g.link j q v)
  | remove {ids order pruned : List NodeId} {g' : Graph} :
      (∀ id ∈ ids, ∃ s, T s ∧ g.lifetime? id = some (.persistent s)) → Ordered g ids order →
      Removed g g' order pruned → g'.Coherent → Move K T g g'

abbrev Trace (K : NodeId → Prop) (T : SourceId → Prop) : Graph → Graph → Prop :=
  Relation.ReflTransGen (Move K T)

section Names

variable {K R R' : NodeId → Prop} {T U : SourceId → Prop} {g g' : Graph}

theorem Among.mono {α : Type} {P Q : α → Prop} (hPQ : ∀ x, P x → Q x) {a : Option α}
    (h : Among P a) : Among Q a := by
  obtain ⟨x, hx, hp⟩ := h
  exact ⟨x, hx, hPQ x hp⟩

theorem contains_of_sourceOf? (h : g.sourceOf? m = some s) :
    g.contains m = true := by
  rcases sourceOf?_eq_some_iff.1 h with h | ⟨o, h, -⟩ <;> exact contains_of_lifetime? h

theorem Among.contains (h : Among T (g.sourceOf? m)) : g.contains m = true := by
  obtain ⟨s, hs, -⟩ := h
  exact contains_of_sourceOf? hs

theorem Within.sourceOf? (h : g.Within R T) (hm : Among R (g.ownerRoot? m)) :
    Among T (g.sourceOf? m) := by
  obtain ⟨x, hx, hR⟩ := hm
  obtain ⟨s, hs, hl⟩ := h x hR
  exact ⟨s, by simp [sourceOf?_eq, hx, hl], hs⟩

theorem author?_congr (e : g.frame = g'.frame) (j : NodeId) (q : String) (v : NodeId) :
    g.author? j q v = g'.author? j q v := by
  rw [author?, author?, isBackReference_congr e, ownerRoot?_congr e, ownerRoot?_congr e]

theorem author?_of_forward (hq : g.isBackReference q = false) (j v : NodeId) :
    g.author? j q v = g.ownerRoot? j := by
  simp [author?, hq]

theorem author?_of_back (hq : g.isBackReference q = true) (j v : NodeId) :
    g.author? j q v = g.ownerRoot? v := by
  simp [author?, hq]

theorem ownerRoot?_persistent
    (h : g.lifetime? m = some (.persistent s)) : g.ownerRoot? m = some m := by
  simp [ownerRoot?_eq, h]

theorem ownerRoot?_part (h : g.lifetime? m = some (.ephemeral o)) :
    g.ownerRoot? m = some o := by
  simp [ownerRoot?_eq, h]

theorem Step.mono (hR : ∀ x, R x → R' x) (h : Step K R g g') : Step K R' g g' := by
  cases h with
  | link hq hf hj hv he ha => exact .link hq hf hj hv he (ha.mono hR)
  | type hs ho hp hk hkind hK => exact .type (hR _ hs) ho hp hk hkind hK
  | fill ht ha hq hf hv => exact .fill ht (ha.mono hR) hq hf hv
  | unlink hv hq ha => exact .unlink hv hq (ha.imp (·.mono hR) (·.mono hR))
  | purge hq hb ha => exact .purge hq hb (ha.mono hR)
  | drop ht ho hk hc => exact .drop (fun t h => ⟨(ht t h).1, (ht t h).2.mono hR⟩) ho hk hc

theorem Works.mono (hR : ∀ x, R x → R' x) (h : Works K R g g') : Works K R' g g' :=
  Relation.ReflTransGen.mono (fun _ _ => Step.mono hR) _ _ h

theorem Move.mono (hTU : ∀ s, T s → U s) (h : Move K T g g') : Move K U g g' := by
  cases h with
  | step hR h =>
    refine .step (fun x hx => ?_) h
    obtain ⟨s, hs, hl⟩ := hR x hx
    exact ⟨s, hTU s hs, hl⟩
  | element hs he hk => exact .element (hTU _ hs) he hk
  | part hs ho hp hk hkind hK hne => exact .part (hTU _ hs) ho hp hk hkind hK hne
  | write ha hv hf hq hp hc => exact .write (ha.mono hTU) hv hf hq hp hc
  | remove hids ho hk hc =>
    refine .remove (fun id hid => ?_) ho hk hc
    obtain ⟨s, hs, hl⟩ := hids id hid
    exact ⟨s, hTU s hs, hl⟩

theorem Trace.mono (hTU : ∀ s, T s → U s) (h : Trace K T g g') : Trace K U g g' :=
  Relation.ReflTransGen.mono (fun _ _ => Move.mono hTU) _ _ h

end Names

section Tidy

variable {K R : NodeId → Prop} {T : SourceId → Prop} {g g' : Graph}

theorem Regular.sheds_unlink (hr : g.Regular K)
    (hv : v ∈ g.values j q) (hq : q ∈ Metamodel.derived ∨ g.IsType j) :
    Sheds g (g.unlink j q v) where
  toTrims := trims_unlink (contains_of_mem_values hv)
  plain i p hp hi := by
    rw [values_unlink (contains_of_mem_values hv), if_neg]
    rintro ⟨rfl, rfl⟩
    rcases hq with hq | hq
    · exact hp hq
    · exact hi hq
  coherent := hr.toCoherent.unlink hv
  ages := hr.tracked.ages_unlink j v q

theorem Regular.sheds_purge (hr : g.Regular K) (j : NodeId)
    (hq : q ∈ Metamodel.derived) : Sheds g (g.purge j q) where
  toTrims := trims_purge hr.toMirrored j q
  plain i p hp _ := by
    rw [values_purge, if_neg]
    rintro ⟨-, rfl⟩
    exact hp hq
  coherent := hr.toCoherent.purge j q
  ages := hr.tracked.ages_purge j q

theorem Tidy.sheds (ht : g.Tidy K) (s : Sheds g g') : g'.Tidy K :=
  ⟨ht.toRegular.sheds s, ht.filled.of_children (fun P h => lifetime?_congr s.frame P ▸ h)
    (ht.toRegular.children_sheds s)⟩

theorem Tidy.link (ht : g.Tidy K) (hfit : g.Fits j q v)
    (hj : g.contains j = true) (hv : g.contains v = true) (hp : q ≠ "package")
    (hc : q ≠ "children") (hg : q = "generalizations" → initial.contains j = false)
    (he : q = "enumeration" → j ∈ g.values v "values") : (g.link j q v).Tidy K := by
  refine ⟨ht.toRegular.link hfit hj hv hp hc hg he, ht.filled.of_children (fun P h => ?_)
    fun P => ?_⟩
  · rwa [lifetime?_congr (frame_link g j v q)] at h
  · rw [children, values_link hj, if_neg fun h => hc h.2.symm]
    rfl

theorem Tidy.part (ht : g.Tidy K) {spec : NodeSpec} {k : NodeId} {kind : Path}
    (ho : g.lifetime? o = some (.persistent s)) (hp : spec.path = none)
    (hk : spec.classifier = some k) (hkind : g.path? k = some kind) (hK : K k) :
    (g.seat spec (.ephemeral o) false).Tidy K := by
  have hi := ht.toIndexed
  refine ⟨ht.toRegular.part ho hp fun k' hk' => ?_, ht.filled.of_children (fun P h => ?_)
    fun P => values_seat _ _ _ hi P _⟩
  · obtain rfl : k = k' := Option.some.inj (hk.symm.trans hk')
    exact ⟨hK, kind, hkind⟩
  · rw [lifetime?_seat _ _ _ hi] at h
    split at h
    · simp at h
    · exact h

theorem Tidy.removed (ht : g.Tidy K) {ids order pruned : List NodeId} (ho : Ordered g ids order)
    (hk : Removed g g' order pruned) (hc : g'.Coherent) : g'.Tidy K := by
  refine ⟨ht.toRegular.removed hk hc fun m hm => ?_, hk.filled ht.filled⟩
  obtain ⟨l, hl, hne⟩ := ho.live ht.toIndexed hm
  rw [hl]
  simpa using hne

theorem Founded.ages {h : Graph} {package : NodeId} (hf : Founded .implicit g h package)
    (hr : g.Regular K) (hK : CoversMetamodel K) : Ages g h := by
  induction hf with
  | refl => exact .refl g
  | step hf _ ih =>
    have hh := hf.regular hr hK
    exact ih.trans (hh.tracked.ages_found _ _ _ hh.toCoherent _)

theorem Established.ages {spec : NodeSpec} {path : Path} {id : NodeId}
    (he : Established g spec path (.persistent s) id g') (hr : g.Regular K)
    (hK : CoversMetamodel K) : Ages g g' := by
  obtain ⟨h, parent, hf, -, -, -, rfl⟩ := he.founded
  have hh := hf.regular hr hK
  exact (hf.ages hr hK).trans (hh.tracked.ages_found _ _ _ hh.toCoherent _)

theorem Step.tidy (h : Step K R g g') (ht : g.Tidy K) : g'.Tidy K := by
  cases h with
  | @link j v q hq hf hj hv he _ =>
    refine ht.link hf hj hv ?_ ?_ ?_ he <;> rintro rfl <;> simp [Metamodel.derived] at hq
  | type hs ho hp hk hkind hK => exact ht.part ho hp hk hkind hK
  | @fill t v q hty _ hq hf hv =>
    have hlive : g.contains t = true := by
      obtain ⟨o, hp⟩ := hty
      exact contains_of_lifetime? hp.lifetime
    refine ht.link hf hlive hv ?_ ?_ ?_ ?_ <;> rintro rfl <;> simp at hq
  | unlink hv hq _ => exact ht.sheds (ht.toRegular.sheds_unlink hv hq)
  | @purge j q hq _ _ => exact ht.sheds (ht.toRegular.sheds_purge j hq)
  | drop _ ho hk hc => exact ht.removed ho hk hc

theorem Step.ages (h : Step K R g g') (hr : g.Regular K) : Ages g g' := by
  cases h with
  | link => exact hr.tracked.ages_link _ _ _
  | type => exact hr.toCoherent.ages_seat _ _ _
  | fill => exact hr.tracked.ages_link _ _ _
  | unlink => exact hr.tracked.ages_unlink _ _ _
  | purge => exact hr.tracked.ages_purge _ _
  | drop _ _ hk hc => exact hk.ages hc.toClosed

theorem Works.tidy (h : Works K R g g') (ht : g.Tidy K) : g'.Tidy K := by
  induction h with
  | refl => exact ht
  | tail _ hs ih => exact hs.tidy ih

theorem Works.ages (h : Works K R g g') (ht : g.Tidy K) : Ages g g' := by
  induction h with
  | refl => exact .refl g
  | tail hw hs ih => exact ih.trans (hs.ages (Works.tidy hw ht).toRegular)

theorem Ordered.mem_types (ht : g.Regular K) {types order : List NodeId}
    (htypes : ∀ t ∈ types, g.IsType t) (ho : Ordered g types order) :
    m ∈ order ↔ m ∈ types := by
  rw [ho.mem_iff]
  constructor
  · rintro ⟨t, hmem, hm⟩
    obtain ⟨o, hp⟩ := htypes t hmem
    rw [tree, ht.ownedBy_ephemeral hp.lifetime, List.mem_singleton] at hm
    exact hm ▸ hmem
  · exact fun hm => ⟨m, hm, List.mem_cons_self⟩

theorem Step.persistentNodes (h : Step K R g g') (ht : g.Tidy K) (s : SourceId) :
    g'.persistentNodes s = g.persistentNodes s := by
  cases h with
  | link => exact persistentNodes_congr (frame_link _ _ _ _) s
  | type => rw [persistentNodes_seat, if_neg (by simp)]
  | fill => exact persistentNodes_congr (frame_link _ _ _ _) s
  | unlink => exact persistentNodes_congr (frame_unlink _ _ _ _) s
  | purge => exact persistentNodes_congr (frame_purge _ _ _) s
  | drop htypes ho hk _ =>
    rw [hk.persistent, List.filter_eq_self]
    intro x hx
    rw [decide_eq_true_eq, List.append_nil, ho.mem_types ht.toRegular fun t h => (htypes t h).1]
    intro hmem
    obtain ⟨⟨o, hp⟩, -⟩ := htypes x hmem
    exact absurd (((ht.persistent_iff s x).1 hx).symm.trans hp.lifetime) (by simp)

theorem Works.persistentNodes (h : Works K R g g') (ht : g.Tidy K) (s : SourceId) :
    g'.persistentNodes s = g.persistentNodes s := by
  induction h with
  | refl => rfl
  | tail hw hs ih => rw [hs.persistentNodes (Works.tidy hw ht), ih]

theorem Works.persistent (h : Works K R g g') (ht : g.Tidy K)
    (hx : g.lifetime? x = some (.persistent s)) : g'.lifetime? x = some (.persistent s) := by
  rwa [← (Works.tidy h ht).persistent_iff, Works.persistentNodes h ht, ht.persistent_iff]

theorem Step.agree (h : Step K R g g') (ht : g.Tidy K) (hm : g.contains m = true)
    (hm' : g'.contains m = true) : Agree g g' m := by
  cases h with
  | link => exact agree_of_frame (frame_link _ _ _ _) m
  | type => exact ht.agree_seat _ _ _ hm
  | fill => exact agree_of_frame (frame_link _ _ _ _) m
  | unlink => exact agree_of_frame (frame_unlink _ _ _ _) m
  | purge => exact agree_of_frame (frame_purge _ _ _) m
  | drop _ _ hk hc => exact Regular.agree_removed hk hc.toClosed hm'

theorem Works.agree (h : Works K R g g') (ht : g.Tidy K)
    (hx : g.lifetime? x = some (.persistent s)) : Agree g g' x := by
  induction h with
  | refl => exact agree_of_frame rfl x
  | tail hw hs ih =>
    have hx' := Works.persistent hw ht hx
    refine ih.trans (hs.agree (Works.tidy hw ht) (contains_of_lifetime? hx') ?_)
    exact contains_of_lifetime? (Works.persistent (hw.tail hs) ht hx)

theorem Works.trace (h : Works K R g g') (ht : g.Tidy K) (hR : g.Within R T) :
    Trace K T g g' := by
  induction h with
  | refl => exact .refl
  | tail hw hs ih =>
    refine ih.tail (.step (fun x hx => ?_) hs)
    obtain ⟨s, hs, hl⟩ := hR x hx
    exact ⟨s, hs, Works.persistent hw ht hl⟩

variable (hK : CoversMetamodel K)
include hK

theorem Move.tidy (h : Move K T g g') (ht : g.Tidy K) : g'.Tidy K := by
  cases h with
  | step _ h => exact h.tidy ht
  | element _ he hk => exact he.tidy ht hK hk
  | part _ ho hp hk hkind hK' _ => exact ht.part ho hp hk hkind hK'
  | @write j v q ha hv hf hq hp hc =>
    refine ht.link hf ha.contains hv hp hc (fun _ => ?_) fun h => ?_
    · by_contra hb
      have hnone : g.sourceOf? j = none := ht.toRooted.sourceOf? (by simpa using hb)
      obtain ⟨s, hs, -⟩ := ha
      simp [hnone] at hs
    · simp [h, Metamodel.derived] at hq
  | remove _ ho hk hc => exact ht.removed ho hk hc

theorem Move.ages (h : Move K T g g') (ht : g.Tidy K) : Ages g g' := by
  cases h with
  | step _ h => exact h.ages ht.toRegular
  | element _ he _ => exact he.ages ht.toRegular hK
  | part => exact ht.toCoherent.ages_seat _ _ _
  | write => exact ht.tracked.ages_link _ _ _
  | remove _ _ hk hc => exact hk.ages hc.toClosed

theorem Trace.tidy (h : Trace K T g g') (ht : g.Tidy K) : g'.Tidy K := by
  induction h with
  | refl => exact ht
  | tail _ hs ih => exact hs.tidy hK ih

end Tidy

end ModelCompiler.Graph
