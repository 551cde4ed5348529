import ModelCompiler.Proofs.Compiling.Reports

/-!
Unbinding undoes binding and processing.
-/

open ModelCompiler.Action ModelCompiler.Graph ModelCompiler.Workspace ModelCompiler.Handler

namespace ModelCompiler

namespace Graph

variable {K R : NodeId → Prop} {T : SourceId → Prop} {g g' : Graph} {j m o t v x : NodeId}
  {q : String} {s : SourceId}

/-- Both graphs have the same nodes, with the same names, paths, classifiers, lifetimes and spans,
the same lists of parts and of elements, and the same values in the same order. -/
structure Restored (g g' : Graph) : Prop where
  nodes : ∀ m, (g'.node? m).map Node.bare = (g.node? m).map Node.bare
  owned : ∀ o, g'.ownedBy o = g.ownedBy o
  persistent : ∀ s, g'.persistentNodes s = g.persistentNodes s
  values : ∀ m q, g'.values m q = g.values m q

section Types

theorem Step.part_type (h : Step K R g g') (ht : g.Tidy K)
    (hp : g'.Part o Metamodel.functionType t) : R o ∨ g.Part o Metamodel.functionType t := by
  have hframe (e : g'.frame = g.frame) : g.Part o Metamodel.functionType t :=
    hp.agree (agree_of_frame e t).symm
  cases h with
  | link | fill => exact .inr (hframe (frame_link _ _ _ _))
  | unlink => exact .inr (hframe (frame_unlink _ _ _ _))
  | purge => exact .inr (hframe (frame_purge _ _ _))
  | type hR =>
    rcases (part_seat ht.toCoherent).1 hp with hp | ⟨-, rfl, -⟩
    · exact .inr hp
    · exact .inl hR
  | drop _ _ hk hc =>
    exact .inr (hp.agree (Regular.agree_removed hk hc.toClosed hp.contains).symm)

theorem Works.part_type (h : Works K R g g') (ht : g.Tidy K)
    (hp : g'.Part o Metamodel.functionType t) : R o ∨ g.Part o Metamodel.functionType t := by
  induction h with
  | refl => exact .inr hp
  | tail hw hs ih => exact (hs.part_type (Works.tidy hw ht) hp).elim .inl ih

theorem Step.lasting_parts (h : Step K R g g') (ht : g.Tidy K) {P : NodeId → Bool}
    (hP : ∀ m, P m = true → g.Lasting m) :
    (g'.ownedBy o).filter P = (g.ownedBy o).filter P := by
  cases h with
  | link | fill => rw [ownedBy_congr (frame_link _ _ _ _)]
  | unlink => rw [ownedBy_congr (frame_unlink _ _ _ _)]
  | purge => rw [ownedBy_congr (frame_purge _ _ _)]
  | type =>
    have hfresh : P g.fresh = false := by
      by_contra h
      exact ht.ne_fresh (hP _ (by simpa using h)).live rfl
    rw [ownedBy_seat]
    split
    · simp [hfresh]
    · rfl
  | @drop types order _ htypes ho hk _ =>
    have hgone {e : NodeId} (he : e ∈ order ++ []) : g.IsType e := by
      rw [List.append_nil, ho.mem_types ht.toRegular fun t h => (htypes t h).1] at he
      exact (htypes e he).1
    rw [hk.owned]
    split
    · rename_i hmem
      obtain ⟨r, hp⟩ := hgone hmem
      rw [ht.ownedBy_ephemeral hp.lifetime]
    · rw [List.filter_filter]
      refine List.filter_congr fun e _ => ?_
      by_cases he : P e = true
      · have hstays : e ∉ order ++ [] := fun hmem => (hP e he).not_isType (hgone hmem)
        simp only [he, hstays, not_false_eq_true, decide_true, Bool.and_self]
      · simp [he]

theorem Works.lasting_parts (h : Works K R g g') (ht : g.Tidy K) {P : NodeId → Bool}
    (hP : ∀ m, P m = true → g.Lasting m) :
    (g'.ownedBy o).filter P = (g.ownedBy o).filter P := by
  induction h with
  | refl => rfl
  | tail hw hs ih =>
    exact (hs.lasting_parts (Works.tidy hw ht)
      fun m hm => (Works.lasting_iff hw ht).2 (hP m hm)).trans ih

end Types

section Cleansed

def Cleansed (T : SourceId → Prop) (g : Graph) : Prop :=
  ∀ s, T s → ∀ x ∈ g.persistentNodes s, Undone g x

theorem Indexed.eq_of_mem_tree (hi : g.Indexed) (hm : m ∈ g.tree x)
    (h : ∀ o, g.lifetime? m ≠ some (.ephemeral o)) : m = x := by
  rcases List.mem_cons.1 hm with rfl | hm
  · rfl
  · exact absurd ((hi.owned_iff x m).1 hm).1 (h x)

theorem Indexed.owner_of_mem_tree (hi : g.Indexed) (hm : m ∈ g.tree x)
    (hx : g.lifetime? x = some (.persistent s)) (ho : g.lifetime? m = some (.ephemeral o)) :
    o = x := by
  rcases List.mem_cons.1 hm with rfl | hm
  · simp [hx] at ho
  · simpa [ho] using ((hi.owned_iff x m).1 hm).1

theorem Regular.source_of_kept (hr : g.Regular K) (hb : g.isBackReference q = true)
    (hc : q ≠ "children") (hv : v ∈ g.values j q) : ∃ s, g.sourceOf? v = some s := by
  rcases ((hr.isBackReference_iff q).1 hb).resolve_left hc with rfl | rfl
  · obtain ⟨⟨s, hs⟩, -⟩ := (hr.fits j _ v hv).specialization rfl
    exact ⟨s, sourceOf?_persistent hs⟩
  · obtain ⟨o, hp, -⟩ := (hr.fits j _ v hv).attachment rfl
    obtain ⟨s, hs⟩ := hr.owner v o hp.lifetime
    exact ⟨s, hp.sourceOf? hs⟩

theorem Regular.kept_on_part (hr : g.Regular K) (hb : g.isBackReference q = true)
    (ho : g.lifetime? m = some (.ephemeral o)) : g.values m q = [] := by
  refine List.eq_nil_iff_forall_not_mem.2 fun v hv => ?_
  have hfit := hr.fits m q v hv
  rcases (hr.isBackReference_iff q).1 hb with rfl | rfl | rfl
  · obtain ⟨l, hl, hs⟩ := hr.package_shared m (hr.parent_isPackage m v hv)
    rw [ho] at hl
    simp [← Option.some.inj hl, Lifetime.isShared] at hs
  · exact (hfit.specialization rfl).2.2 o ho
  · obtain ⟨-, -, -, hno⟩ := hfit.attachment rfl
    exact hno o ho

theorem Stripped.not_kept (h : Stripped g x) (hr : g.Regular K)
    (hx : g.lifetime? x = some (.persistent s)) (hb : g.isBackReference q = true)
    (hc : q ≠ "children") (hv : v ∈ g.values j q) : v ∉ g.tree x := by
  intro htree
  obtain ⟨b, hmem⟩ := hr.toCoherent.mem_values_iff.1 hv
  have hback : b = true := (hr.flags _ hmem).trans hb
  have huser := h.back _ hmem hback hc htree
  have hfit := hr.fits j q v hv
  rcases ((hr.isBackReference_iff q).1 hb).resolve_left hc with rfl | rfl
  · obtain ⟨⟨t, ht⟩, hne, hj⟩ := hfit.specialization rfl
    have hvx : v = x := hr.eq_of_mem_tree htree fun o => by simp [ht]
    exact hne ((hr.eq_of_mem_tree huser hj).trans hvx.symm)
  · obtain ⟨o, hp, hne, hj⟩ := hfit.attachment rfl
    have hox := hr.owner_of_mem_tree htree hx hp.lifetime
    exact hne ((hr.eq_of_mem_tree huser hj).trans hox.symm)

variable (hr : g.Regular K) (hu : g.Cleansed T)
include hr hu

theorem Cleansed.not_author (hb : g.isBackReference q = true) (hc : q ≠ "children")
    (hv : v ∈ g.values j q) : ¬ Among T (g.sourceOf? v) := by
  rintro ⟨s, hs, hT⟩
  obtain ⟨x, hx, htree⟩ := hr.sourceOf?_iff_tree.1 hs
  exact (hu s hT x hx).not_kept hr ((hr.persistent_iff s x).1 hx) hb hc hv htree

theorem Cleansed.values_nil (hm : Among T (g.sourceOf? m)) (hq : q ∈ Metamodel.derived) :
    g.values m q = [] := by
  obtain ⟨s, hs, hT⟩ := hm
  obtain ⟨x, hx, htree⟩ := hr.sourceOf?_iff_tree.1 hs
  have hlx := (hr.persistent_iff s x).1 hx
  have hx' := hu s hT x hx
  refine List.eq_nil_iff_forall_not_mem.2 fun v hv => ?_
  have hfit := hr.fits m q v hv
  have hkept (hb : g.isBackReference q = true) (hc : q ≠ "children") : False := by
    obtain ⟨t, ht⟩ := hr.source_of_kept hb hc hv
    have hts : t ≠ s := by
      rintro rfl
      exact hu.not_author hr hb hc hv ⟨t, ht, hT⟩
    obtain ⟨b, hmem⟩ := hr.toCoherent.mem_values_iff.1 hv
    have hno : v ∉ g.tree x := fun h => by
      have := hr.sourceOf?_iff_tree.2 ⟨x, hx, h⟩
      exact hts (Option.some.inj (ht.symm.trans this))
    have := hx'.foreign _ hmem htree hno
    simp [isForeign, ht, sourceOf?_persistent hlx, hts] at this
  simp only [Metamodel.derived, List.mem_cons, List.not_mem_nil, or_false] at hq
  rcases hq with rfl | rfl | rfl | rfl | rfl | rfl
  · simp [hx'.importStub m htree (hfit.resolvedNode rfl).1] at hv
  · simp [hx'.propertyStub m htree (hfit.resolvedProperty rfl).1] at hv
  · exact hkept hr.specializations_back (by simp)
  · exact hkept hr.attachments_back (by simp)
  · simp [hx'.enumeration m htree] at hv
  · have hp := hfit.functionType rfl
    obtain ⟨t, ht⟩ := hr.owner v m hp.lifetime
    obtain rfl := hr.eq_of_mem_tree htree fun o => by simp [ht]
    exact hx'.types v hp

end Cleansed

section Reverted

def Stem (g : Graph) (T : SourceId → Prop) (x : NodeId) : Prop :=
  ∃ s, T s ∧ x ∈ g.persistentNodes s

theorem Tidy.stem_iff (ht : g.Tidy K) (hm : g.ownerRoot? m = some x) :
    g.Stem T x ↔ Among T (g.sourceOf? m) := by
  have hroot : ∀ s, g.sourceOf? m = some s ↔ g.lifetime? x = some (.persistent s) := by
    intro s
    rw [sourceOf?_eq, hm, Option.bind_some]
    cases hl : g.lifetime? x with
    | none => simp
    | some l => cases l <;> simp
  simp only [Stem, Among, hroot, ht.persistent_iff]
  exact exists_congr fun s => and_comm

theorem Tidy.exists_root (ht : g.Tidy K) (hm : g.contains m = true)
    (hs : ¬ Among T (g.sourceOf? m)) : ∃ x, g.ownerRoot? m = some x ∧ ¬ g.Stem T x := by
  obtain ⟨l, hl⟩ := exists_lifetime? hm
  have hroot := ownerRoot?_eq g m
  rw [hl, Option.map_some] at hroot
  exact ⟨_, hroot, fun h => hs ((ht.stem_iff hroot).1 h)⟩

structure Reverted (K : NodeId → Prop) (T : SourceId → Prop) (g g' : Graph) : Prop where
  tidy : g.Tidy K
  works : Works K (g.Stem T) g g'
  before : g.Cleansed T
  after : g'.Cleansed T

namespace Reverted

variable (h : Reverted K T g g')
include h

theorem tidy' : g'.Tidy K :=
  Works.tidy h.works h.tidy

theorem persistentNodes (s : SourceId) : g'.persistentNodes s = g.persistentNodes s :=
  Works.persistentNodes h.works h.tidy s

theorem lasting_iff : g'.Lasting m ↔ g.Lasting m :=
  Works.lasting_iff h.works h.tidy

theorem sourceOf?_lasting (hm : g.Lasting m) : g'.sourceOf? m = g.sourceOf? m := by
  ext s
  have hpers (o : NodeId) : g'.lifetime? o = some (.persistent s) ↔
      g.lifetime? o = some (.persistent s) := by
    rw [← h.tidy'.persistent_iff, ← h.tidy.persistent_iff, h.persistentNodes]
  rw [sourceOf?_eq_some_iff, sourceOf?_eq_some_iff,
    lifetime?_of_bare (Works.bare h.works h.tidy hm)]
  simp only [hpers]

theorem untouched_type (hp : g.Part o Metamodel.functionType t) : g'.ownerRoot? t = some o ∧
    Untouched g g' t := by
  refine Works.untouched h.works h.tidy (ownerRoot?_part hp.lifetime) ?_
  rintro ⟨s, hT, hx⟩
  exact (h.before s hT o hx).types t hp

theorem part_type (hp : g'.Part o Metamodel.functionType t) :
    g.Part o Metamodel.functionType t := by
  refine (Works.part_type h.works h.tidy hp).resolve_left ?_
  rintro ⟨s, hT, hx⟩
  exact (h.after s hT o (h.persistentNodes s ▸ hx)).types t hp

theorem nodes (m : NodeId) : (g'.node? m).map Node.bare = (g.node? m).map Node.bare := by
  by_cases hm : g.Lasting m
  · exact Works.bare h.works h.tidy hm
  by_cases htype : g.IsType m
  · obtain ⟨o, hp⟩ := htype
    exact (h.untouched_type hp).2.bare
  · have hdead : g.contains m = false := by
      by_contra hlive
      exact hm ⟨by simpa using hlive, htype⟩
    have hdead' : g'.contains m = false := by
      by_contra hlive
      refine hm (h.lasting_iff.1 ⟨by simpa using hlive, fun ⟨o, hp⟩ => htype ⟨o, h.part_type hp⟩⟩)
    rw [Graph.contains, Option.isSome_eq_false_iff, Option.isNone_iff_eq_none] at hdead hdead'
    rw [hdead, hdead']

theorem owned (o : NodeId) : g'.ownedBy o = g.ownedBy o := by
  classical
  by_cases ho : ∃ s, g.lifetime? o = some (.persistent s)
  · obtain ⟨s, hs⟩ := ho
    by_cases hT : T s
    · have hmem := (h.tidy.persistent_iff s o).2 hs
      have hkeep := Works.lasting_parts (o := o) (P := fun m => decide (g.Lasting m)) h.works h.tidy
        fun m hm => of_decide_eq_true hm
      rw [List.filter_eq_self.2, List.filter_eq_self.2] at hkeep
      · exact hkeep
      · intro e he
        obtain ⟨hl, -⟩ := (h.tidy.owned_iff o e).1 he
        refine decide_eq_true ⟨contains_of_lifetime? hl, fun ⟨r, hp⟩ => ?_⟩
        obtain rfl : r = o := by simpa [hl] using hp.lifetime.symm
        exact (h.before s hT r hmem).types e hp
      · intro e he
        obtain ⟨hl, -⟩ := (h.tidy'.owned_iff o e).1 he
        refine decide_eq_true (h.lasting_iff.1 ⟨contains_of_lifetime? hl, fun ⟨r, hp⟩ => ?_⟩)
        obtain rfl : r = o := by simpa [hl] using hp.lifetime.symm
        exact (h.after s hT r (h.persistentNodes s ▸ hmem)).types e hp
    · refine (Works.untouched h.works h.tidy (ownerRoot?_persistent hs) ?_).2.owned
      rintro ⟨t, ht, hx⟩
      have := ((h.tidy.persistent_iff t o).1 hx).symm.trans hs
      simp only [Option.some.injEq, Lifetime.persistent.injEq] at this
      exact hT (this ▸ ht)
  · have hnil {k : Graph} (hk : k.Tidy K) (hpers : ∀ s, k.lifetime? o ≠ some (.persistent s)) :
        k.ownedBy o = [] := by
      refine List.eq_nil_iff_forall_not_mem.2 fun e he => ?_
      obtain ⟨s, hs⟩ := hk.owner e o ((hk.owned_iff o e).1 he).1
      exact hpers s hs
    rw [hnil h.tidy fun s hs => ho ⟨s, hs⟩, hnil h.tidy' fun s hs => ho ⟨s, ?_⟩]
    rwa [← h.tidy'.persistent_iff, h.persistentNodes, h.tidy.persistent_iff] at hs

theorem kept (hb : g.isBackReference q = true) (hc : q ≠ "children")
    (hm : g.ownerRoot? m = some x) (hx : ¬ g.Stem T x) : g'.values m q = g.values m q := by
  classical
  have hb' : g'.isBackReference q = true := by
    rwa [isBackReference, h.tidy'.backReferences, ← h.tidy.backReferences]
  have hkeep := Works.keeps (P := fun v => decide (∃ y, g.ownerRoot? v = some y ∧ ¬ g.Stem T y))
    h.works h.tidy hb hc (fun v hv => of_decide_eq_true hv) hm hx
  rw [List.filter_eq_self.2, List.filter_eq_self.2] at hkeep
  · exact hkeep
  · exact fun v hv => decide_eq_true (h.tidy.exists_root (h.tidy.value_live m q v hv)
      (h.before.not_author h.tidy.toRegular hb hc hv))
  · intro v hv
    have hlast := h.lasting_iff.1 (h.tidy'.lasting_value hv (by
      rintro rfl
      rw [h.tidy'.isBackReference_iff] at hb'
      simp at hb'))
    refine decide_eq_true (h.tidy.exists_root hlast.live ?_)
    rw [← h.sourceOf?_lasting hlast]
    exact h.after.not_author h.tidy'.toRegular hb' hc hv

theorem values (m : NodeId) (q : String) : g'.values m q = g.values m q := by
  by_cases hm : g.Lasting m
  · by_cases hq : q ∈ Metamodel.derived
    · by_cases hA : Among T (g.sourceOf? m)
      · rw [h.before.values_nil h.tidy.toRegular hA hq,
          h.after.values_nil h.tidy'.toRegular (by rwa [h.sourceOf?_lasting hm]) hq]
      · obtain ⟨x, hroot, hx⟩ := h.tidy.exists_root hm.live hA
        by_cases hb : g.isBackReference q = true
        · exact h.kept hb (fun hc => by simp [hc, Metamodel.derived] at hq) hroot hx
        · exact (Works.untouched h.works h.tidy hroot hx).2.values q (by simpa using hb)
    · exact Works.plain h.works h.tidy hm hq
  by_cases htype : g.IsType m
  · obtain ⟨o, hp⟩ := htype
    obtain ⟨-, hun⟩ := h.untouched_type hp
    by_cases hb : g.isBackReference q = true
    · have hb' : g'.isBackReference q = true := by
        rwa [isBackReference, h.tidy'.backReferences, ← h.tidy.backReferences]
      rw [h.tidy.kept_on_part hb hp.lifetime,
        h.tidy'.kept_on_part hb' ((lifetime?_of_bare hun.bare).trans hp.lifetime)]
    · exact hun.values q (by simpa using hb)
  · have hdead : g.contains m = false := by
      by_contra hlive
      exact hm ⟨by simpa using hlive, htype⟩
    have hnil {k : Graph} (hk : k.contains m = false) : k.values m q = [] :=
      List.eq_nil_iff_forall_not_mem.2 fun v hv => by simp [contains_of_mem_values hv] at hk
    rw [hnil hdead, hnil ((contains_of_bare (h.nodes m)).trans hdead)]

theorem restored : Restored g g' :=
  ⟨h.nodes, h.owned, h.persistentNodes, h.values⟩

end Reverted

end Reverted

end Graph

namespace Compiler

variable {K : NodeId → Prop} {c c₁ c₂ c₃ : Compiler} {a : Agenda} {batch : List SourceId}

def bindAndProcess (batch : List SourceId) : Compiling (Option Phase) := do
  bindPhase batch
  processPhase ((← get).inState .bound)

theorem bindAndProcess_ensures (hs : c.Sane K) (hK : CoversMetamodel K)
    (hc : c.Settled) (hbatch : ∀ s ∈ batch, ∃ unit, c.sources.find? s = some unit) :
    Ensures (bindAndProcess batch) c (fun _ c' => Phased K batch c c')
      fun _ c' => Phased K batch c c' := by
  refine ensures_bind ((bindPhase_ensures hs batch).mono (fun _ c₁ h => ?_)
    fun _ _ ⟨_, h, _⟩ => h.phased)
  obtain ⟨errors, hbound, hfatal⟩ := h
  refine ensures_get_bind ((processPhase_ensures hbound.sane hK _).mono
    (fun _ c₂ h => ?_) fun _ c₂ h => ?_)
  · obtain ⟨errors', halt, htreated, -⟩ := h
    exact htreated.phased hbound hfatal hc hbatch
  · obtain ⟨errors', htreated⟩ := h
    exact htreated.phased hbound hfatal hc hbatch

theorem Prepared.reverted (h : Prepared K a c c₁) (hK : Predefined K) (hl : c.graph.Listed)
    (hp : Phased K a.batch c₁ c₂) (hu : Unwound K false a.batch c₂ c₃) :
    Reverted K (· ∈ a.batch) c₁.graph c₃.graph where
  tidy := h.sane.tidy
  works := (hp.toHandled.trans hu.toHandled).works
  before s hs x hx := (h.cleared s hs x hx).undone rfl hl
  after s hs x hx := by
    rw [hu.persistent] at hx
    exact (hu.cleared s hs x hx).undone rfl ((h.lasts hp).listed hK hl)

theorem exists_prepared {report : CompileReport} (h : compile c = .ok (.ok report, c₂)) :
    ∃ a c₁ aborted, prepare c = .ok (.ok a, c₁) ∧
      runPhases a.batch c₁ = .ok (.ok aborted, c₂) := by
  rcases hp : prepare c with b | ⟨e | a, c₁⟩
  · simp [compile, bind, ExceptT.bind, ExceptT.mk, StateT.bind, hp, Except.bind] at h
  · simp [compile, bind, ExceptT.bind, ExceptT.mk, ExceptT.bindCont, StateT.bind, hp, Except.bind,
      pure, StateT.pure, Except.pure] at h
  · refine ⟨a, c₁, ?_⟩
    rcases hr : runPhases a.batch c₁ with b | ⟨e | aborted, d⟩
    · simp [compile, bind, ExceptT.bind, ExceptT.mk, ExceptT.bindCont, StateT.bind, hp, hr,
        Except.bind] at h
    · simp [compile, bind, ExceptT.bind, ExceptT.mk, ExceptT.bindCont, StateT.bind, hp, hr,
        Except.bind, pure, StateT.pure, Except.pure] at h
    · refine ⟨aborted, rfl, ?_⟩
      simp only [compile, bind, ExceptT.bind, ExceptT.mk, ExceptT.bindCont, StateT.bind, hp, hr,
        Except.bind] at h
      obtain ⟨-, rfl⟩ := ok_mk_inj h
      rfl

theorem Prepared.mem_batch {aborted : Option Phase} {id : SourceId} (h : Prepared K a c c₁)
    (hp : Phases K a.batch c₁ aborted c₂) (hst : (c₂.stateOf id).isPending = true) :
    id ∈ a.batch := by
  by_contra hno
  have hphased := hp.phased h.sane h.settled fun s hs => (h.batch_known hs).imp fun _ hu => hu.1
  rw [stateOf, hphased.units id hno] at hst
  cases hu : c₁.sources.find? id with
  | none => simp [hu, SourceState.isPending] at hst
  | some unit =>
    rw [hu] at hst
    cases h.standing id unit hu with
    | parsed hmem => exact hno hmem
    | failed _ hun => simp [hun, SourceState.isPending] at hst
    | kept _ hpending => simp [hpending] at hst

end Compiler

end ModelCompiler
