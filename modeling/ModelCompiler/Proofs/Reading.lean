import ModelCompiler.Proofs.Lasting
import ModelCompiler.Proofs.SafeRemoval
import ModelCompiler.Proofs.Handling.Processing

/-!
What is read of declarations: their types, generalizations and ends, and the lineages. It depends on
the nodes that are met on the way only.
-/
open ModelCompiler.Graph

namespace ModelCompiler

def Metamodel.read : List String :=
  ["generalizations", "properties", "genericType", "resolvedNode", "values", "parameters",
    "returnType", "stereotypes"]

theorem Lineage.generals_of_direct {g : Graph} {m : NodeId} {gs : List NodeId}
    (h : Lineage.direct g m = .ok gs) : g.contains m = true ∧ g.generals m = gs.map some := by
  by_cases hlive : g.contains m = true
  · rcases Lineage.direct_cases hlive with ⟨gs', hgs, hmap⟩ | ⟨e, he, -⟩
    · obtain rfl := Except.ok.inj (h.symm.trans hgs)
      exact ⟨hlive, hmap⟩
    · simp [h] at he
  · simp [Lineage.direct, hlive] at h

namespace Graph

/-- Both graphs say the same of the nodes `S`, and what is read there leads to nodes of `S`. -/
structure Shares (S : NodeId → Prop) (g g' : Graph) : Prop where
  bare : ∀ m, S m → (g'.node? m).map Node.bare = (g.node? m).map Node.bare
  kind : ∀ m, S m → g'.classifierPath? m = g.classifierPath? m
  values : ∀ m, S m → ∀ q ∈ Metamodel.read, g'.values m q = g.values m q
  closed : ∀ m, S m → ∀ q ∈ Metamodel.read, ∀ v ∈ g.values m q, S v

namespace Shares

variable {S : NodeId → Prop} {g g' h : Graph} {m x y : NodeId} {q : String} {gs as : List NodeId}

theorem symm (a : Shares S g g') : Shares S g' g where
  bare m hm := (a.bare m hm).symm
  kind m hm := (a.kind m hm).symm
  values m hm q hq := (a.values m hm q hq).symm
  closed m hm q hq v hv := a.closed m hm q hq v (a.values m hm q hq ▸ hv)

theorem trans (a : Shares S g h) (b : Shares S h g') : Shares S g g' where
  bare m hm := (b.bare m hm).trans (a.bare m hm)
  kind m hm := (b.kind m hm).trans (a.kind m hm)
  values m hm q hq := (b.values m hm q hq).trans (a.values m hm q hq)
  closed := a.closed

theorem congr {S' : NodeId → Prop} (a : Shares S g g') (hS : ∀ m, S' m ↔ S m) : Shares S' g g' := by
  obtain rfl : S' = S := funext fun m => propext (hS m)
  exact a

variable (a : Shares S g g')
include a

theorem contains (hm : S m) : g'.contains m = g.contains m :=
  contains_of_bare (a.bare m hm)

theorem isImportStub (hm : S m) : g'.isImportStub m = g.isImportStub m := by
  rw [Graph.isImportStub, Graph.isImportStub, a.kind m hm]

theorem value? (hm : S m) (hq : q ∈ Metamodel.read) : g'.value? m q = g.value? m q := by
  rw [Graph.value?, Graph.value?, a.values m hm q hq]

theorem of_value? (hm : S m) (hq : q ∈ Metamodel.read) (hx : g.value? m q = some x) : S x :=
  a.closed m hm q hq x (List.mem_of_head? hx)

theorem referenced? (hm : S m) : g'.referenced? m = g.referenced? m := by
  rw [Graph.referenced?, Graph.referenced?, a.isImportStub hm, a.value? hm (by decide)]

theorem of_referenced? (hm : S m) (hx : g.referenced? m = some x) : S x := by
  rw [Graph.referenced?] at hx
  split at hx
  · exact a.of_value? hm (by decide) hx
  · exact Option.some.inj hx ▸ hm

theorem declaredType? (hm : S m) : g'.declaredType? m = g.declaredType? m := by
  rw [Graph.declaredType?, Graph.declaredType?, a.value? hm (by decide)]
  cases hv : g.value? m "genericType" with
  | none => rfl
  | some stub => exact a.referenced? (a.of_value? hm (by decide) hv)

theorem of_declaredType? (hm : S m) (hx : g.declaredType? m = some x) : S x := by
  obtain ⟨stub, hstub, hx⟩ := Option.bind_eq_some_iff.1 hx
  exact a.of_referenced? (a.of_value? hm (by decide) hstub) hx

theorem generals (hm : S m) : g'.generals m = g.generals m := by
  rw [Graph.generals, Graph.generals, a.values m hm _ (by decide)]
  exact List.map_congr_left fun stub hstub => a.referenced? (a.closed m hm _ (by decide) stub hstub)

theorem of_general (hm : S m) (hx : some x ∈ g.generals m) : S x := by
  obtain ⟨stub, hstub, hx⟩ := List.mem_map.1 hx
  exact a.of_referenced? (a.closed m hm _ (by decide) stub hstub) hx

theorem direct (hm : S m) (hgs : Lineage.direct g m = .ok gs) : Lineage.direct g' m = .ok gs := by
  obtain ⟨hlive, hmap⟩ := Lineage.generals_of_direct hgs
  exact Lineage.direct_of_generals ((a.contains hm).trans hlive) ((a.generals hm).trans hmap)

theorem of_direct (hm : S m) (hgs : Lineage.direct g m = .ok gs) (hx : x ∈ gs) : S x :=
  a.of_general hm ((Lineage.generals_of_direct hgs).2 ▸ List.mem_map_of_mem hx)

theorem lineal (hm : S m) (has : g.Lineal m as) : g'.Lineal m as ∧ ∀ x ∈ as, S x := by
  induction has with
  | intro gs ls hgs _ ih =>
    have hmem {x : NodeId} (hx : x ∈ gs) : S x := a.of_general hm (hgs ▸ List.mem_map_of_mem hx)
    refine ⟨.intro gs ls ((a.generals hm).trans hgs) fun x hx => (ih x hx (hmem hx)).1,
      fun x hx => ?_⟩
    rw [List.mem_eraseDups, List.mem_append, List.mem_flatMap] at hx
    rcases hx with hx | ⟨y, hy, hx⟩
    · exact hmem hx
    · exact (ih y hy (hmem hy)).2 x hx

theorem below (hm : S m) (h : Lineage.Below g m x) : Lineage.Below g' m x :=
  h.imp_right fun ⟨as, has, hx⟩ => ⟨as, (a.lineal hm has).1, hx⟩

theorem ends (hm : S m) : Handler.Association.ends g' m = Handler.Association.ends g m := by
  rw [Handler.Association.ends, Handler.Association.ends, a.values m hm _ (by decide)]
  refine List.map_congr_left fun p hp => ?_
  rw [a.declaredType? (a.closed m hm _ (by decide) p hp)]

theorem name? (hm : S m) : g'.name? m = g.name? m :=
  name?_of_bare (a.bare m hm)

theorem inherited? (has : ∀ m ∈ as, S m) (name : String) :
    Handler.Class.inherited? g' as name = Handler.Class.inherited? g as name := by
  have hfind (m : NodeId) (hm : S m) :
      ((g'.values m "properties").find? fun p => g'.name? p = some name) =
      (g.values m "properties").find? fun p => g.name? p = some name := by
    rw [a.values m hm _ (by decide)]
    refine List.find?_congr fun p hp => ?_
    rw [a.name? (a.closed m hm _ (by decide) p hp)]
  induction as with
  | nil => rfl
  | cons m as ih =>
    have hm := hfind m (has m List.mem_cons_self)
    have hrest := ih fun v hv => has v (List.mem_cons_of_mem _ hv)
    simp only [Handler.Class.inherited?, List.findSome?_cons] at hrest ⊢
    rw [hm, hrest]

theorem of_inherited? (has : ∀ m ∈ as, S m) {name : String}
    {found : NodeId × NodeId} (h : Handler.Class.inherited? g as name = some found) :
    S found.2 := by
  obtain ⟨m, hm, h⟩ := List.exists_of_findSome?_eq_some h
  obtain ⟨p, hp, rfl⟩ := Option.map_eq_some_iff.1 h
  exact a.closed m (has m hm) _ (by decide) p (List.mem_of_find?_eq_some hp)

theorem isClass (hkind : ∀ m k, S m → g.classifier? m = some k → S k)
    (hroot : g'.lookup Metamodel.class_ = g.lookup Metamodel.class_) (hm : S m)
    (h : Handler.IsClass g m) : Handler.IsClass g' m := by
  obtain ⟨kind, c, hk, hc, hbelow⟩ := h
  exact ⟨kind, c, hroot.trans hk, (classifier?_of_bare (a.bare m hm)).trans hc,
    a.below (hkind m c hm hc) hbelow⟩

theorem joins (hkind : ∀ m k, S m → g.classifier? m = some k → S k)
    (hroot : g'.lookup Metamodel.class_ = g.lookup Metamodel.class_) (hm : S m) {e t f u : NodeId}
    (h : Handler.Joins g m e t f u) : Handler.Joins g' m e t f u := by
  obtain ⟨hends, ht, hu⟩ := h
  have htype {p ty : NodeId} (hp : (p, some ty) ∈ Handler.Association.ends g m) : S ty := by
    obtain ⟨hp, hty⟩ := Handler.mem_ends.1 hp
    exact a.of_declaredType? (a.closed m hm _ (by decide) p hp) hty
  have hfirst : (e, some t) ∈ Handler.Association.ends g m := by simp [hends]
  have hsecond : (f, some u) ∈ Handler.Association.ends g m := by simp [hends]
  exact ⟨(a.ends hm).trans hends, a.isClass hkind hroot (htype hfirst) ht,
    a.isClass hkind hroot (htype hsecond) hu⟩

end Shares

theorem Rooted.lookup_eq {g g' : Graph} (hr : g.Rooted) (hi : g.Indexed) (hr' : g'.Rooted)
    (hi' : g'.Indexed) {p : Path} (hp : p ∈ Metamodel.landmarks) : g'.lookup p = g.lookup p := by
  obtain ⟨k, hk⟩ := lookup_of_isMetamodel isMetamodel_initial hp
  rw [hr.lookup hi hk, hr'.lookup hi' hk]

section Works

variable {K R : NodeId → Prop} {g g' : Graph} {m x k : NodeId}

theorem Regular.lasting_classifier (hr : g.Regular K) (hk : g.classifier? m = some k) :
    g.Lasting k := by
  obtain ⟨-, p, hp⟩ := hr.kind m k hk
  exact ⟨contains_of_path? hp, hr.not_isType_of_path hp⟩

theorem Works.kind (hw : Works K R g g') (ht : g.Tidy K) (hm : g.Lasting m) :
    g'.classifierPath? m = g.classifierPath? m :=
  classifierPath?_of_bare (Works.bare hw ht hm) fun _ hc =>
    path?_of_bare (Works.bare hw ht (ht.lasting_classifier hc))

theorem Works.shares (hw : Works K R g g') (ht : g.Tidy K)
    (hbound : ∀ m, g'.values m "resolvedNode" = g.values m "resolvedNode") :
    Shares g.Lasting g g' where
  bare _ hm := Works.bare hw ht hm
  kind _ hm := Works.kind hw ht hm
  values m hm q hq := by
    by_cases hres : q = "resolvedNode"
    · rw [hres, hbound]
    · refine Works.plain hw ht hm fun hder => ?_
      simp only [Metamodel.read, Metamodel.derived, List.mem_cons, List.not_mem_nil,
        or_false] at hq hder
      rcases hq with rfl | rfl | rfl | rfl | rfl | rfl | rfl | rfl <;> simp at hder hres
  closed m _ q hq v hv := ht.lasting_value hv fun h => by simp [h, Metamodel.read] at hq

end Works

section Spared

variable {K : NodeId → Prop} {T : SourceId → Prop} {g g' : Graph} {m v : NodeId} {q : String}

theorem Move.agree (h : Move K T g g') (ht : g.Tidy K) (hm : g.contains m = true)
    (hm' : g'.contains m = true) : Agree g g' m := by
  cases h with
  | step _ h => exact h.agree ht hm hm'
  | element _ he _ => exact he.agree ht.toSound hm
  | part => exact ht.agree_seat _ _ _ hm
  | write => exact agree_of_frame (frame_link _ _ _ _) m
  | remove _ _ hk hc => exact Regular.agree_removed hk hc.toClosed hm'

theorem Trace.agree_of (ht : g.Tidy K) (hK : CoversMetamodel K)
    (h : Trace K T g g') (hm : ∀ h, Trace K T g h → h.contains m = true) : Agree g g' m := by
  induction h with
  | refl => exact agree_of_frame rfl m
  | tail hw hs ih =>
    exact ih.trans (hs.agree (Trace.tidy hK hw ht) (hm _ hw) (hm _ (hw.tail hs)))

def Spared (g : Graph) (T : SourceId → Prop) (m : NodeId) : Prop :=
  initial.contains m = true ∨ ∃ s, g.sourceOf? m = some s ∧ ¬ T s

def Severed (g : Graph) (T : SourceId → Prop) : Prop :=
  ∀ t, T t → ∀ r ∈ g.persistentNodes t, ∀ u ∈ Handler.users g r, ∀ s, g.sourceOf? u = some s → T s

theorem Regular.initial_of_sourceless (hr : g.Regular K) (hm : g.contains m = true)
    (hs : g.sourceOf? m = none) (himp : g.lifetime? m ≠ some .implicit) :
    initial.contains m = true := by
  obtain ⟨l, hl⟩ := exists_lifetime? hm
  cases l with
  | bootstrap => exact hr.bootstrap m hl
  | implicit => exact absurd hl himp
  | persistent s => simp [sourceOf?_persistent hl] at hs
  | ephemeral o =>
    obtain ⟨s, ho⟩ := hr.owner m o hl
    simp [sourceOf?_eq, ownerRoot?_eq, hl, ho] at hs

theorem Severed.spared (h : g.Severed T) (hr : g.Regular K) (hm : g.Spared T m)
    (hb : g.isBackReference q = false) (hq : q ≠ "package") (hv : v ∈ g.values m q) :
    g.Spared T v := by
  have hfit := hr.fits m q v hv
  have hlive := hr.value_live m q v hv
  cases hs : g.sourceOf? v with
  | none =>
    refine .inl (hr.initial_of_sourceless hlive hs fun himp => ?_)
    rcases hfit.implicit himp with rfl | rfl
    · exact hq rfl
    · simp [hr.children_back] at hb
  | some t =>
    refine .inr ⟨t, hs, fun hT => ?_⟩
    rcases hm with hm | ⟨s, hsm, hn⟩
    · rcases hfit.shared (hr.sourceOf? hm) with h | h
      · simp [hb] at h
      · simp [hs] at h
    · -- the reference makes a user of a node of the other sources
      obtain ⟨r, hmem, htree⟩ := hr.sourceOf?_iff_tree.1 hs
      obtain ⟨b, hu⟩ := hr.toCoherent.mem_values_iff.1 hv
      have hfwd : b = false := (hr.flags _ hu).trans hb
      refine hn (h t hT r hmem m
        (mem_users_iff.2 ⟨fun hin => ?_, _, hu, ?_, rfl, htree, hlive⟩) s hsm)
      · have := hr.sourceOf?_iff_tree.2 ⟨r, hmem, hin⟩
        exact hn (Option.some.inj (this.symm.trans hsm) ▸ hT)
      · simp [Usage.isForward, hfwd]

variable (ht : g.Tidy K) (hK : CoversMetamodel K)
include ht hK

theorem Trace.stays (h : Trace K T g g') (hm : g.Spared T m) :
    g'.contains m = true ∧ ∀ s, g'.sourceOf? m = some s → ¬ T s := by
  rcases hm with hm | ⟨s, hs, hn⟩
  · have hr := (Trace.tidy hK h ht).toRooted
    exact ⟨hr.contains hm, fun s hs => by simp [hr.sourceOf? hm] at hs⟩
  · have hs' := Trace.sourceOf? ht hK h hs hn
    exact ⟨contains_of_sourceOf? hs', fun t ht' => Option.some.inj (hs'.symm.trans ht') ▸ hn⟩

theorem Trace.untouched_spared (h : Trace K T g g') (hm : g.Spared T m) : Untouched g g' m :=
  Trace.untouched_of ht hK h fun _ hw => Trace.stays ht hK hw hm

theorem Trace.packagePath? (h : Trace K T g g') (hm : g.Spared T m) :
    g'.packagePath? m = g.packagePath? m := by
  have hpackage {k : Graph} (hw : Trace K T g k) : k.values m "package" = g.values m "package" :=
    (Trace.untouched_spared ht hK hw hm).values _
    (by simp [← Bool.not_eq_true, ht.isBackReference_iff])
  rw [Graph.packagePath?, Graph.packagePath?, packageOf?, packageOf?, Graph.value?, Graph.value?,
    hpackage h]
  cases hP : (g.values m "package").head? with
  | none => rfl
  | some P =>
    -- the package is there all along, since the node is in it
    refine path?_of_bare (Trace.untouched_of ht hK h fun k hw => ?_).bare
    have hk := Trace.tidy hK hw ht
    have hmem : P ∈ k.values m "package" := hpackage hw ▸ List.mem_of_head? hP
    refine ⟨hk.value_live m _ P hmem, fun s hs => ?_⟩
    have hpack := hk.parent_isPackage P m (hk.child_of_package m P hmem)
    simp [hk.toRegular.sourceOf?_package hpack] at hs

/-- Changes in the name of sources to which no others refer leave the declarations of others to be
read as before. -/
theorem Trace.shares (h : Trace K T g g') (hsev : g.Severed T) : Shares (g.Spared T) g g' := by
  have hun {m : NodeId} (hm : g.Spared T m) := Trace.untouched_spared ht hK h hm
  have hforward {q : String} (hq : q ∈ Metamodel.read) : g.isBackReference q = false := by
    rw [← Bool.not_eq_true, ht.isBackReference_iff]
    simp only [Metamodel.read, List.mem_cons, List.not_mem_nil, or_false] at hq
    rcases hq with rfl | rfl | rfl | rfl | rfl | rfl | rfl | rfl <;> simp
  exact {
    bare := fun m hm => (hun hm).bare
    kind := fun m hm =>
      (Trace.agree_of ht hK h fun _ hw => (Trace.stays ht hK hw hm).1).classifierPath
    values := fun m hm q hq => (hun hm).values q (hforward hq)
    closed := fun m hm q hq v hv => hsev.spared ht.toRegular hm (hforward hq) (by
      rintro rfl
      simp [Metamodel.read] at hq) hv }

end Spared

end Graph

end ModelCompiler
