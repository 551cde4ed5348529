import ModelCompiler.Proofs.Handling.Processing

/-!
What unbinders take away.
-/
open ModelCompiler.Action ModelCompiler.Graph ModelCompiler.Workspace

namespace ModelCompiler

open Handler

namespace Graph

variable {K R : NodeId → Prop} {g g' h : Graph} {x m : NodeId} {s : SourceId}

section LosesReferences

/-- References have been taken away, and nodes may have gone; those that are left are as before. -/
structure LosesReferences (g g' : Graph) : Prop where
  usages : g'.usages.Sublist g.usages
  values : ∀ j q, (g'.values j q).Sublist (g.values j q)
  agree : ∀ m, g'.contains m = true → Agree g g' m

namespace LosesReferences

theorem of_trims (t : Trims g g') : LosesReferences g g' where
  usages := t.usages
  values := t.values
  agree m _ := agree_of_frame t.frame m

theorem refl (g : Graph) : LosesReferences g g :=
  of_trims (.refl g)

theorem trans (a : LosesReferences g h) (b : LosesReferences h g') : LosesReferences g g' where
  usages := b.usages.trans a.usages
  values j q := (b.values j q).trans (a.values j q)
  agree m hm := (a.agree m (by rwa [← (b.agree m hm).contains])).trans (b.agree m hm)

theorem of_removed {order pruned : List NodeId} (hk : Removed g g' order pruned) (hc : g'.Closed) :
    LosesReferences g g' where
  usages := hk.usages
  values j q := by
    rw [hk.values]
    split
    · exact List.nil_sublist _
    · split
      · exact List.filter_sublist
      · exact .refl _
  agree m hm := Regular.agree_removed hk hc hm

theorem mem_tree (l : LosesReferences g g') (hi : g.Indexed) (hi' : g'.Indexed)
    (hx : g'.contains x = true) (hm : g'.contains m = true) : m ∈ g'.tree x ↔ m ∈ g.tree x := by
  have hx' : g.contains x = true := (l.agree x hx).contains ▸ hx
  simp only [tree, List.mem_cons, hi.owned_iff, hi'.owned_iff, (l.agree m hm).lifetime, hx, hx']

end LosesReferences

theorem Stripped.loses (hs : Stripped g x) (l : LosesReferences g g') (hc : g.Coherent)
    (hc' : g'.Coherent) (hx : g'.contains x = true) : Stripped g' x := by
  have hlive {m : NodeId} (hm : m ∈ g'.tree x) := hc'.tree_live hx hm
  have hmem {m : NodeId} (hm : g'.contains m = true) :=
    l.mem_tree hc.toIndexed hc'.toIndexed hx hm
  refine ⟨fun u hu hb hp ht => ?_, fun u hu huser ht => ?_, fun m hm hstub => ?_,
    fun m hm hstub => ?_⟩
  · refine (hmem (hc'.user_live hu)).2 ?_
    exact hs.back u (l.usages.subset hu) hb hp ((hmem (hlive ht)).1 ht)
  · have htarget := hc'.target_live u hu
    have := hs.foreign u (l.usages.subset hu) ((hmem (hlive huser)).1 huser)
      fun h => ht ((hmem htarget).2 h)
    simpa only [isForeign, (l.agree _ htarget).source, (l.agree x hx).source] using this
  · rw [(l.agree m (hlive hm)).isImportStub] at hstub
    exact List.sublist_nil.1 (hs.importStub m ((hmem (hlive hm)).1 hm) hstub ▸ l.values m _)
  · rw [(l.agree m (hlive hm)).isPropertyStub] at hstub
    exact List.sublist_nil.1 (hs.propertyStub m ((hmem (hlive hm)).1 hm) hstub ▸ l.values m _)

end LosesReferences

section Undone

structure Undone (g : Graph) (x : NodeId) : Prop extends Stripped g x where
  enumeration : ∀ m ∈ g.tree x, g.values m "enumeration" = []
  types : ∀ t, ¬ g.Part x Metamodel.functionType t

theorem Undone.loses (hs : Undone g x) (l : LosesReferences g g') (hc : g.Coherent)
    (hc' : g'.Coherent) (hx : g'.contains x = true) : Undone g' x where
  toStripped := hs.toStripped.loses l hc hc' hx
  enumeration m hm := by
    have hlive := hc'.tree_live hx hm
    have := hs.enumeration m ((l.mem_tree hc.toIndexed hc'.toIndexed hx hlive).1 hm)
    exact List.sublist_nil.1 (this ▸ l.values m _)
  types t ht := hs.types t (ht.agree (l.agree t (contains_of_lifetime? ht.lifetime)).symm)

theorem Stripped.undone (hs : Stripped g x) (hr : g.Regular K)
    (hx : g.lifetime? x = some (.persistent s))
    (hvalues : g.classifierPath? x = some Metamodel.enumeration →
      ∀ m ∈ g.values x "values", g.values m "enumeration" = [])
    (htypes : ∀ t, ¬ g.Part x Metamodel.functionType t) : Undone g x where
  toStripped := hs
  enumeration m hm := by
    refine List.eq_nil_iff_forall_not_mem.2 fun e he => ?_
    obtain ⟨hp, hkind⟩ := (hr.fits m _ e he).enumeration rfl
    obtain rfl : e = x := by
      rcases List.mem_cons.1 hm with rfl | hm
      · simpa [hx] using hp.lifetime
      · simpa [hp.lifetime] using ((hr.owned_iff x m).1 hm).1
    rw [hvalues hkind m (hr.enumerated m e he)] at he
    simp at he
  types := htypes

def Listed (g : Graph) : Prop :=
  ∀ o t, g.Part o Metamodel.functionType t →
    t ∈ g.values o "functionType" ∧ g.classifierPath? o = some Metamodel.functionDefinition

theorem Listed.congr (hl : g.Listed) (e : g'.frame = g.frame)
    (hv : ∀ o, g'.values o "functionType" = g.values o "functionType") : g'.Listed := by
  intro o t ht
  rw [hv, classifierPath?_congr e]
  exact hl o t (ht.agree (agree_of_frame e t).symm)

end Undone

section LosesFor

/-- Handlers have worked in the name of `x`, and references have only been lost. -/
structure LosesFor (K : NodeId → Prop) (x : NodeId) (g g' : Graph) : Prop where
  works : Works K (· = x) g g'
  loses : LosesReferences g g'
  listed : g.Listed → g'.Listed

theorem LosesFor.refl (g : Graph) : LosesFor K x g g :=
  ⟨.refl, .refl g, fun hl => hl⟩

theorem LosesFor.trans (a : LosesFor K x g h) (b : LosesFor K x h g') : LosesFor K x g g' :=
  ⟨a.works.trans b.works, a.loses.trans b.loses, fun hl => b.listed (a.listed hl)⟩

theorem frame_forget (g : Graph) (r : Ref) : (g.forget r).frame = g.frame := by
  unfold forget
  split
  · exact frame_unlink _ _ _ _
  · rfl

theorem ownerRoot?_tree (hi : g.Indexed) (hx : g.lifetime? x = some (.persistent s))
    (hm : m ∈ g.tree x) : g.ownerRoot? m = some x := by
  rcases List.mem_cons.1 hm with rfl | hm
  · exact ownerRoot?_persistent hx
  · exact ownerRoot?_part ((hi.owned_iff x m).1 hm).1

theorem Works.forget_all : ∀ {refs : List Ref} {g : Graph},
    (∀ r ∈ refs, (r.2.1 ∈ Metamodel.derived ∨ g.IsType r.1) ∧
      (Among R (g.ownerRoot? r.1) ∨ Among R (g.author? r.1 r.2.1 r.2.2))) →
    Works K R g (refs.foldl forget g)
  | [], g, _ => .refl
  | r :: refs, g, hrefs => by
    have e := frame_forget g r
    have ih : Works K R (g.forget r) (refs.foldl forget (g.forget r)) := by
      refine Works.forget_all fun r' hr' => ?_
      rw [ownerRoot?_congr e, author?_congr e]
      obtain ⟨hq, ha⟩ := hrefs r' (List.mem_cons_of_mem _ hr')
      exact ⟨hq.imp_right fun ht => ht.agree (agree_of_frame e _), ha⟩
    obtain ⟨hq, ha⟩ := hrefs r List.mem_cons_self
    rw [List.foldl_cons]
    by_cases hv : r.2.2 ∈ g.values r.1 r.2.1
    · rw [forget, if_pos hv] at ih ⊢
      exact .head (Step.unlink hv hq ha) ih
    · rwa [forget, if_neg hv] at ih ⊢

theorem Coherent.losesFor_forget_all (hc : g.Coherent) {refs : List Ref}
    (hrefs : ∀ r ∈ refs, (r.2.1 ∈ Metamodel.derived ∨ g.IsType r.1) ∧
      (Among (· = x) (g.ownerRoot? r.1) ∨ Among (· = x) (g.author? r.1 r.2.1 r.2.2)))
    (htype : ∀ r ∈ refs, r.2.1 ≠ "functionType") : LosesFor K x g (refs.foldl forget g) := by
  have t := (forget_all hc refs).1
  exact ⟨Works.forget_all hrefs, .of_trims t, fun hl =>
    hl.congr t.frame fun o => values_forget_all htype o⟩

theorem Regular.losesFor_purge (hr : g.Regular K) {q : String} (hq : q ∈ Metamodel.derived)
    (hb : g.isBackReference q = false) (hne : q ≠ "functionType")
    (hm : g.ownerRoot? m = some x) : LosesFor K x g (g.purge m q) where
  works := .single (.purge hq hb ⟨x, hm, rfl⟩)
  loses := .of_trims (trims_purge hr.toMirrored m q)
  listed hl := hl.congr (frame_purge g m q) fun o => by
    rw [values_purge, if_neg fun h => hne h.2.symm]

theorem Regular.losesFor_purge_empty (hr : g.Regular K) (hx : g.lifetime? x = some (.persistent s))
    (hempty : g.values x "functionType" = []) : LosesFor K x g (g.purge x "functionType") where
  works := .single (.purge (by simp [Metamodel.derived])
    (hr.forward (by simp) (by simp) (by simp)) ⟨x, ownerRoot?_persistent hx, rfl⟩)
  loses := .of_trims (trims_purge hr.toMirrored x _)
  listed hl := hl.congr (frame_purge g x _) fun o => by
    rw [values_purge]
    split
    · rename_i h
      rw [h.1, hempty]
    · rfl

theorem Tidy.losesFor_foldl {f : Graph → NodeId → Graph}
    (hf : ∀ g m, g.Tidy K → g.ownerRoot? m = some x → LosesFor K x g (f g m) ∧
      (f g m).frame = g.frame) : ∀ {ms : List NodeId} {g : Graph}, g.Tidy K →
    (∀ m ∈ ms, g.ownerRoot? m = some x) → LosesFor K x g (ms.foldl f g)
  | [], g, _, _ => .refl g
  | m :: ms, g, ht, hms => by
    obtain ⟨hw, e⟩ := hf g m ht (hms m List.mem_cons_self)
    refine hw.trans (Tidy.losesFor_foldl hf (Works.tidy hw.works ht) fun m' hm' => ?_)
    rw [ownerRoot?_congr e]
    exact hms m' (List.mem_cons_of_mem _ hm')

theorem frame_reset (g : Graph) (m : NodeId) : (g.reset m).frame = g.frame := by
  unfold reset
  split
  · exact frame_purge _ _ _
  · split
    · exact frame_purge _ _ _
    · rfl

theorem Regular.losesFor_reset (hr : g.Regular K) (hm : g.ownerRoot? m = some x) :
    LosesFor K x g (g.reset m) := by
  unfold reset
  split
  · exact hr.losesFor_purge (by simp [Metamodel.derived]) (hr.forward (by simp) (by simp) (by simp))
      (by simp) hm
  · split
    · exact hr.losesFor_purge (by simp [Metamodel.derived])
        (hr.forward (by simp) (by simp) (by simp)) (by simp) hm
    · exact .refl g

theorem Tidy.losesFor_strip (ht : g.Tidy K) (hx : g.lifetime? x = some (.persistent s)) :
    LosesFor K x g (g.strip x) := by
  have hr := ht.toRegular
  have hroot {m : NodeId} (hm : m ∈ g.tree x) := ownerRoot?_tree hr.toIndexed hx hm
  -- back-references that others hold
  have hheld : LosesFor K x g ((heldByOthers g (g.tree x)).foldl forget g) := by
    have hderived : ∀ r ∈ heldByOthers g (g.tree x),
        (r.2.1 = "specializations" ∨ r.2.1 = "propertiesFromAssociations") ∧
          g.author? r.1 r.2.1 r.2.2 = some x := by
      intro r hmem
      obtain ⟨u, hu, rfl, hback, hq, htarget, -⟩ := mem_heldByOthers hmem
      rw [hr.flags u hu] at hback
      refine ⟨?_, (author?_of_back hback _ _).trans (hroot htarget)⟩
      exact ((hr.isBackReference_iff _).1 hback).resolve_left hq
    refine hr.losesFor_forget_all (fun r hmem => ?_) fun r hmem h => ?_
    · obtain ⟨hq, ha⟩ := hderived r hmem
      exact ⟨.inl (by rcases hq with hq | hq <;> simp [Metamodel.derived, hq]),
        .inr ⟨x, ha, rfl⟩⟩
    · rcases (hderived r hmem).1 with hq | hq <;> simp [hq] at h
  refine hheld.trans ?_
  -- references to other sources
  have t := (forget_all hr.toCoherent (heldByOthers g (g.tree x))).1
  have ht₁ := Works.tidy hheld.works ht
  revert t ht₁ hheld
  simp only [strip]
  generalize (heldByOthers g (g.tree x)).foldl forget g = g₁
  intro hheld t ht₁
  have hr₁ := ht₁.toRegular
  have hroot₁ {m : NodeId} (hm : m ∈ g.tree x) : g₁.ownerRoot? m = some x := by
    rw [ownerRoot?_congr t.frame, hroot hm]
  have hsource {m : NodeId} (hm : m ∈ g.tree x) : g₁.sourceOf? m = g₁.sourceOf? x := by
    have hx₁ : g₁.lifetime? x = some (.persistent s) := by rwa [lifetime?_congr t.frame]
    rw [sourceOf?_persistent hx₁]
    exact hr₁.sourceOf?_iff_tree.2 ⟨x, (hr₁.persistent_iff s x).2 hx₁, by rwa [tree_congr t.frame]⟩
  have hforeign : LosesFor K x g₁ ((foreignReferences g₁ (g₁.sourceOf? x) (g.tree x)).foldl
      forget g₁) := by
    refine hr₁.losesFor_forget_all (fun r hmem => ?_) fun r hmem h => ?_
    · obtain ⟨huser, hv, -, hfor⟩ := mem_foreignReferences hr₁.toMirrored hmem
      refine ⟨?_, .inl ⟨x, hroot₁ huser, rfl⟩⟩
      by_contra hn
      obtain ⟨hq, hty⟩ := not_or.1 hn
      have hkid : r.2.1 ≠ "children" := fun h => by
        have := hr₁.parent_isPackage r.1 r.2.2 (by simpa [children, h] using hv)
        rw [isPackage_congr t.frame, hr.not_isPackage_of_tree hx huser] at this
        simp at this
      have hv' := (hr₁.fits _ _ _ hv).within hq hkid hty
      rw [hsource huser] at hv'
      rcases hv' with hv' | hv' <;> cases hs : g₁.sourceOf? x <;> simp [isForeign, hv', hs] at hfor
    · obtain ⟨huser, hv, htree, -⟩ := mem_foreignReferences hr₁.toMirrored hmem
      have hp := (hr₁.fits _ _ _ hv).functionType h
      obtain ⟨s', hs'⟩ := hr₁.owner _ _ hp.lifetime
      have hroot' := (ownerRoot?_persistent hs').symm.trans (hroot₁ huser)
      rw [Option.some.inj hroot'] at hp hs'
      rw [← tree_congr t.frame] at htree
      exact htree (List.mem_cons_of_mem _ ((hr₁.owned_iff x _).2
        ⟨hp.lifetime, contains_of_lifetime? hs'⟩))
  refine hforeign.trans ?_
  have e := (forget_all hr₁.toCoherent (foreignReferences g₁ (g₁.sourceOf? x) (g.tree x))).1.frame
  refine Tidy.losesFor_foldl (fun g m ht hm => ⟨ht.toRegular.losesFor_reset hm, frame_reset g m⟩)
    (Works.tidy hforeign.works ht₁) fun m hm => ?_
  rw [ownerRoot?_congr e, hroot₁ hm]

end LosesFor

section Types

variable {types order : List NodeId}

theorem Tidy.isType_of_goes (ht : g.Tidy K) {base : NodeId → Prop}
    (hbase : ∀ m, base m → g.IsType m) (hm : Goes g base m) : g.IsType m := by
  induction hm with
  | base hb => exact hbase _ hb
  | @package P hl _ ih =>
    obtain ⟨c, hc⟩ := List.exists_mem_of_ne_nil _ (ht.filled P hl)
    exact absurd ((ht.fits P "children" c hc).type (ih c hc)) (by simp)

theorem Regular.mem_of_inTrees_types (hr : g.Regular K) (htypes : ∀ t ∈ types, g.IsType t)
    (hm : g.InTrees types m) : m ∈ types := by
  obtain ⟨t, hmem, hm⟩ := hm
  obtain ⟨o, hp⟩ := htypes t hmem
  simp only [tree, hr.ownedBy_ephemeral hp.lifetime, List.mem_singleton] at hm
  exact hm ▸ hmem

theorem Regular.types_purge (hr : g.Regular K) {t : NodeId} (h : t ∈ g.values x "functionType") :
    (g.purge x "functionType").IsType t ∧
      ∀ j, t ∉ (g.purge x "functionType").values j "functionType" := by
  have hp := (hr.fits x _ t h).functionType rfl
  refine ⟨⟨x, hp.agree (agree_of_frame (frame_purge g x "functionType") t)⟩, fun j hj => ?_⟩
  rw [values_purge] at hj
  split at hj
  · simp at hj
  · rename_i hne
    have hp' := (hr.fits j _ t hj).functionType rfl
    exact hne ⟨by simpa using hp'.lifetime.symm.trans hp.lifetime, rfl⟩

theorem Tidy.removable_types (ht : g.Tidy K) (htypes : ∀ t ∈ types, g.IsType t)
    (hunused : ∀ t ∈ types, ∀ j, t ∉ g.values j "functionType") : Removable g types := by
  have hr := ht.toRegular
  have htree {m : NodeId} (hm : g.InTrees types m) : m ∈ types := hr.mem_of_inTrees_types htypes hm
  refine ⟨fun t hmem => ?_, fun u hu htarget _ => ?_, fun i c hc hgoes => ?_, fun u hu hl _ => ?_,
    fun e P he hP => ?_⟩
  · obtain ⟨o, hp⟩ := htypes t hmem
    exact ⟨_, hp.lifetime, by simp⟩
  · have hv := hr.toCoherent.target_mem_values hu
    have hmem := htree htarget
    rw [(hr.fits _ _ _ hv).type (htypes _ hmem)] at hv
    exact absurd hv (hunused _ hmem _)
  · obtain ⟨-, p, hp⟩ := hr.kind i c hc
    exact absurd (ht.isType_of_goes (fun m hm => htypes m (htree hm)) hgoes)
      (hr.not_isType_of_path hp)
  · exact (hr.fits _ _ _ (hr.toCoherent.target_mem_values hu)).implicit hl
  · obtain ⟨s, hs⟩ := hr.owner e P he
    simp [hs] at hP

theorem Tidy.removeNodes_types (ht : g.Tidy K) (htypes : ∀ t ∈ types, g.IsType t)
    (hunused : ∀ t ∈ types, ∀ j, t ∉ g.values j "functionType") :
    Ensures (removeNodes types) g
      (fun _ g' => ∃ order, Ordered g types order ∧ Removed g g' order [] ∧ g'.Coherent)
      fun _ _ => False := by
  refine (removeNodes_ensures ht.toCoherent ht.toHoused (ht.removable_types htypes hunused)).imp
    (fun _ g' h => ?_)
  obtain ⟨order, pruned, -, ho, hk, hc⟩ := h
  obtain rfl : pruned = [] := List.eq_nil_iff_forall_not_mem.2 fun P hP => by
    obtain ⟨o, hp⟩ := ht.isType_of_goes
      (fun m hm => htypes m ((ho.mem_types ht.toRegular htypes).1 hm))
      (hk.goes P (List.mem_append_right _ hP))
    exact absurd hp.lifetime (by simp [hk.implicit P hP])
  exact ⟨order, ho, hk, hc⟩

theorem Tidy.losesFor_types (ht : g.Tidy K) (hx : g.lifetime? x = some (.persistent s))
    (ho : Ordered (g.purge x "functionType") (g.values x "functionType") order)
    (hk : Removed (g.purge x "functionType") g' order []) (hc : g'.Coherent) :
    LosesFor K x g g' ∧ (g.Listed → ∀ t, ¬ g'.Part x Metamodel.functionType t) := by
  have hr := ht.toRegular
  have e := frame_purge g x "functionType"
  have htypes : ∀ t ∈ g.values x "functionType", (g.purge x "functionType").IsType t :=
    fun t h => ⟨x, ((hr.fits x _ t h).functionType rfl).agree (agree_of_frame e t)⟩
  have hstep : Step K (· = x) g (g.purge x "functionType") :=
    .purge (by simp [Metamodel.derived]) (hr.forward (by simp) (by simp) (by simp))
      ⟨x, ownerRoot?_persistent hx, rfl⟩
  have ht₁ := hstep.tidy ht
  have hmem {m : NodeId} := (ho.mem_types ht₁.toRegular htypes (m := m))
  have hl : LosesReferences g g' := (LosesReferences.of_trims (trims_purge hr.toMirrored x _)).trans
    (.of_removed hk hc.toClosed)
  have hgone (hlisted : g.Listed) (t : NodeId) :
      ¬ g'.Part x Metamodel.functionType t := fun hp => by
    have hlive := contains_of_lifetime? hp.lifetime
    refine hk.not_mem_of_contains hlive (List.mem_append_left _ (hmem.2 ?_))
    exact (hlisted x t (hp.agree (hl.agree t hlive).symm)).1
  refine ⟨⟨.tail (.single hstep) (.drop (fun t h => ⟨htypes t h, x, ?_, rfl⟩) ho hk hc), hl,
    fun hlisted o t hp => ?_⟩, hgone⟩
  · rw [ownerRoot?_congr e]
    exact ownerRoot?_part ((hr.fits x _ t h).functionType rfl).lifetime
  · have hlive := contains_of_lifetime? hp.lifetime
    obtain ⟨hentered, hkind⟩ := hlisted o t (hp.agree (hl.agree t hlive).symm)
    have hne : o ≠ x := fun h => hgone hlisted t (h ▸ hp)
    have hlive' := hc.owner_live t o hp.lifetime
    rw [(hl.agree o hlive').classifierPath, hk.values_of_contains hlive' (by simp), values_purge,
      if_neg fun h => hne h.1]
    exact ⟨hentered, hkind⟩

end Types

end Graph

namespace Handler

variable {K : NodeId → Prop} {w : Workspace} {id : NodeId} {s : SourceId} {removing : Bool}

structure Unbound (K : NodeId → Prop) (removing : Bool) (id : NodeId) (w w' : Workspace) : Prop
    extends Worked K (· = id) w w' where
  loses : LosesReferences w.graph w'.graph
  stripped : Stripped w'.graph id
  listed : w.graph.Listed → w'.graph.Listed
  undone : removing = false → w.graph.Listed → Undone w'.graph id

structure Undoes (g : Graph) (id : NodeId) (u : Unbinder) : Prop where
  core : ∀ r, u ≠ .recipe r
  enumeration : g.classifierPath? id = some Metamodel.enumeration → u = .enumeration
  function : g.classifierPath? id = some Metamodel.functionDefinition → u = .function

theorem unbound_of_losesFor (hw : w.Orderly K) (hid : w.graph.lifetime? id = some (.persistent s))
    {g' : Graph} (h : LosesFor K id w.graph g') (hstripped : Stripped g' id)
    (hvalues : w.graph.classifierPath? id = some Metamodel.enumeration →
      ∀ m ∈ g'.values id "values", g'.values m "enumeration" = [])
    (htypes : removing = false → w.graph.Listed → ∀ t, ¬ g'.Part id Metamodel.functionType t)
    {l : Lineage} (hl : l.Valid g') :
    Unbound K removing id w { w with graph := g', lineage := l } := by
  have ht' := Works.tidy h.works hw.tidy
  have hid' := Works.persistent h.works hw.tidy hid
  refine ⟨⟨h.works, ht', hl⟩, h.loses, hstripped, h.listed, fun hr hlisted => ?_⟩
  refine hstripped.undone ht'.toRegular hid' (fun hkind => hvalues ?_) (htypes hr hlisted)
  rwa [← (h.loses.agree id (contains_of_lifetime? hid')).classifierPath]

section Purges

variable {g : Graph}

theorem foldlM_clear_eq {q : String} : ∀ {ms : List NodeId} {g : Graph},
    (∀ m ∈ ms, g.contains m = true) →
    ms.foldlM (fun g m => (g.clearProperty m q).map (·.2)) g =
      .ok (ms.foldl (fun g m => g.purge m q) g)
  | [], _, _ => rfl
  | m :: ms, g, h => by
    rw [List.foldlM_cons, clearProperty_eq (h m List.mem_cons_self), List.foldl_cons]
    refine foldlM_clear_eq fun m' hm' => ?_
    rw [contains_congr (frame_purge _ _ _)]
    exact h m' (List.mem_cons_of_mem _ hm')

theorem values_foldl_purge (q : String) (j : NodeId) (p : String) :
    ∀ (ms : List NodeId) (g : Graph),
    (ms.foldl (fun g m => g.purge m q) g).values j p =
      if j ∈ ms ∧ p = q then [] else g.values j p
  | [], g => by simp
  | m :: ms, g => by
    rw [List.foldl_cons, values_foldl_purge q j p ms, values_purge]
    by_cases hj : j = m <;> by_cases hp : p = q <;> simp [hj, hp]

end Purges

section Unbinders

variable (hw : w.Orderly K) (hid : w.graph.lifetime? id = some (.persistent s))
include hw hid

theorem strip_of_losesFor {g₁ : Graph} (h : LosesFor K id w.graph g₁) :
    ∃ g₂, stripReferences g₁ id = .ok g₂ ∧ LosesFor K id w.graph g₂ ∧ Stripped g₂ id ∧
      w.lineage.Valid g₂ := by
  have ht := Works.tidy h.works hw.tidy
  have hid' := Works.persistent h.works hw.tidy hid
  have hloses := h.trans (ht.losesFor_strip hid')
  exact ⟨_, stripReferences_eq ht.toCoherent (contains_of_lifetime? hid'), hloses,
    stripped_strip ht.toCoherent ht.toFlagged id, hw.valid.ages (Works.ages hloses.works hw.tidy)⟩

theorem unbound_strip {g' : Graph} (h : LosesFor K id w.graph g') (hstripped : Stripped g' id)
    {u : Unbinder} (hu : Undoes w.graph id u) (he : u ≠ .enumeration) (hf : u ≠ .function)
    {l : Lineage} (hl : l.Valid g') :
    Unbound K removing id w { w with graph := g', lineage := l } := by
  refine unbound_of_losesFor hw hid h hstripped (fun h => absurd (hu.enumeration h) he)
    (fun _ hlisted t hp => hf (hu.function ?_)) hl
  exact (hlisted id t (hp.agree (h.loses.agree t (contains_of_lifetime? hp.lifetime)).symm)).2

theorem Class.unbind_ensures (hu : Undoes w.graph id .class_) :
    Ensures (Class.unbind id) w (fun _ w' => Unbound K removing id w w') fun _ _ => False := by
  obtain ⟨g₁, heq, hloses, hs, hl⟩ := strip_of_losesFor hw hid (.refl _)
  refine ensures_bind (Work.update_ensures heq (ensures_modify ?_))
  exact unbound_strip hw hid hloses hs hu (by simp) (by simp) (hl.erase id)

omit hid in
theorem losesFor_attachments :
    ∃ g₁, removeReferences w.graph (Association.attachments w.graph id) = .ok g₁ ∧
      LosesFor K id w.graph g₁ := by
  have hr := hw.tidy.toRegular
  have hmem : ∀ r ∈ Association.attachments w.graph id, w.graph.contains r.1 = true ∧
      r.2.1 = "propertiesFromAssociations" ∧ w.graph.ownerRoot? r.2.2 = some id := by
    intro r hr'
    obtain ⟨property, hproperty, hr'⟩ := List.mem_flatMap.1 hr'
    obtain ⟨u, hu, rfl⟩ := List.mem_map.1 hr'
    obtain ⟨hu, hq⟩ := List.mem_filter.1 hu
    have hu' : u ∈ w.graph.usages := by
      unfold usagesOf at hu
      split at hu
      · exact List.mem_of_mem_filter hu
      · simp at hu
    refine ⟨hr.user_live hu', by simpa using hq, ?_⟩
    exact ownerRoot?_part ((hr.fits id _ property hproperty).property rfl).1.lifetime
  refine ⟨_, removeReferences_eq hr.toCoherent fun r hr' => (hmem r hr').1,
    hr.losesFor_forget_all (fun r hr' => ?_) fun r hr' h => ?_⟩
  · obtain ⟨-, hq, hroot⟩ := hmem r hr'
    refine ⟨.inl (by simp [hq, Metamodel.derived]), .inr ⟨id, ?_, rfl⟩⟩
    rw [author?_of_back (hq ▸ hr.attachments_back), hroot]
  · simp [(hmem r hr').2.1] at h

theorem Association.unbind_ensures (hu : Undoes w.graph id .association) :
    Ensures (Association.unbind id) w (fun _ w' => Unbound K removing id w w')
      fun _ _ => False := by
  obtain ⟨g₁, heq, h₁⟩ := losesFor_attachments hw
  obtain ⟨g₂, heq', hloses, hs, hl⟩ := strip_of_losesFor hw hid h₁
  refine Work.update_ensures (g := g₂) ?_
    (unbound_strip hw hid hloses hs hu (by simp) (by simp) hl)
  rw [heq]
  exact heq'

omit hid in
theorem losesFor_enumeration {g₁ : Graph} (h : LosesFor K id w.graph g₁) :
    ∃ g₂, (g₁.values id "values").foldlM (fun g value =>
        (g.clearProperty value "enumeration").map (·.2)) g₁ = .ok g₂ ∧
      LosesFor K id g₁ g₂ ∧ ∀ m ∈ g₂.values id "values", g₂.values m "enumeration" = [] := by
  have ht := Works.tidy h.works hw.tidy
  have hpart {m : NodeId} (hm : m ∈ g₁.values id "values") := ((ht.fits id _ m hm).value rfl).1
  refine ⟨_, foldlM_clear_eq fun m hm => contains_of_lifetime? (hpart hm).lifetime, ?_,
    fun m hm => ?_⟩
  · refine Tidy.losesFor_foldl (fun g m ht hm => ⟨?_, frame_purge _ _ _⟩) ht fun m hm =>
      ownerRoot?_part (hpart hm).lifetime
    exact ht.toRegular.losesFor_purge (by simp [Metamodel.derived])
      (ht.toRegular.forward (by simp) (by simp) (by simp)) (by simp) hm
  · rw [values_foldl_purge, if_neg (by simp)] at hm
    rw [values_foldl_purge, if_pos ⟨hm, rfl⟩]

theorem Enumeration.unbind_ensures (hu : Undoes w.graph id .enumeration) :
    Ensures (Enumeration.unbind id) w (fun _ w' => Unbound K removing id w w')
      fun _ _ => False := by
  obtain ⟨g₁, heq, hloses, hstripped, -⟩ := strip_of_losesFor hw hid (.refl _)
  obtain ⟨g₂, heq', hloses', hcleared⟩ := losesFor_enumeration hw hloses
  have h := hloses.trans hloses'
  have ht₁ := Works.tidy hloses.works hw.tidy
  have ht₂ := Works.tidy h.works hw.tidy
  have hid₂ := Works.persistent h.works hw.tidy hid
  refine Work.update_ensures (g := g₂) ?_ (unbound_of_losesFor hw hid h ?_ (fun _ => hcleared)
    (fun _ hlisted t hp => ?_) (hw.valid.ages (Works.ages h.works hw.tidy)))
  · rw [heq]
    exact heq'
  · exact hstripped.loses hloses'.loses ht₁.toCoherent ht₂.toCoherent
      (contains_of_lifetime? hid₂)
  · -- a type of its own would make it a function
    have := hu.function (hlisted id t
      (hp.agree (h.loses.agree t (contains_of_lifetime? hp.lifetime)).symm)).2
    simp at this

omit hw hid in
theorem dropTypes_ensures (ht : w.graph.Tidy K) {E : CompileError → Workspace → Prop}
    (hid : w.graph.lifetime? id = some (.persistent s)) :
    Ensures (discard (Work.onGraph CompileError.internal
        (Graph.removeNodes (w.graph.values id "functionType"))))
      { w with graph := w.graph.purge id "functionType" }
      (fun _ w' => ∃ g', w' = { w with graph := g' } ∧ LosesFor K id w.graph g' ∧
        (w.graph.Listed → ∀ t, ¬ g'.Part id Metamodel.functionType t)) E := by
  have hr := ht.toRegular
  have ht₁ : (w.graph.purge id "functionType").Tidy K :=
    ht.sheds (hr.sheds_purge id (by simp [Metamodel.derived]))
  refine ensures_discard (Work.onGraph_ensures ((ht₁.removeNodes_types
    (fun _ h => (hr.types_purge h).1) fun _ h => (hr.types_purge h).2).mono (fun _ g' h => ?_)
    fun _ _ h => h.elim))
  obtain ⟨order, ho, hk, hc⟩ := h
  exact ⟨g', rfl, ht.losesFor_types hid ho hk hc⟩

theorem Function.unbind_ensures (hu : Undoes w.graph id .function) :
    Ensures (Function.unbind removing id) w (fun _ w' => Unbound K removing id w w')
      fun _ _ => False := by
  obtain ⟨g₁, heq, hloses, hstripped, hl⟩ := strip_of_losesFor hw hid (.refl _)
  have hvalues : w.graph.classifierPath? id = some Metamodel.enumeration → False := fun h => by
    simpa using hu.enumeration h
  refine ensures_bind (Work.update_ensures heq ?_)
  cases removing with
  | true =>
    exact ensures_pure (unbound_of_losesFor hw hid hloses hstripped (fun h => (hvalues h).elim)
      (by simp) hl)
  | false =>
    have ht := Works.tidy hloses.works hw.tidy
    have hid₁ := Works.persistent hloses.works hw.tidy hid
    have hlive := contains_of_lifetime? hid₁
    refine ensures_bind (ensures_write (a := g₁.values id "functionType")
      (t := { w with graph := g₁.purge id "functionType" }) ?_ ?_)
    · simp [clearProperty_eq hlive, Except.map]
    · have hunbound {g' : Graph} (h : LosesFor K id g₁ g')
          (htypes : g₁.Listed → ∀ t, ¬ g'.Part id Metamodel.functionType t) :
          Unbound K false id w { w with graph := g' } := by
        have h' := hloses.trans h
        have ht' := Works.tidy h'.works hw.tidy
        refine unbound_of_losesFor hw hid h' ?_ (fun h => (hvalues h).elim)
          (fun _ hlisted => htypes (hloses.listed hlisted))
          (hw.valid.ages (Works.ages h'.works hw.tidy))
        exact hstripped.loses h.loses ht.toCoherent ht'.toCoherent
          (contains_of_lifetime? (Works.persistent h.works ht hid₁))
      by_cases hempty : g₁.values id "functionType" = []
      · rw [hempty]
        refine ensures_pure (hunbound (ht.toRegular.losesFor_purge_empty hid₁ hempty)
          fun hlisted t hp => ?_)
        have := hlisted id t (hp.agree (agree_of_frame (frame_purge g₁ id _) t).symm)
        simp [hempty] at this
      · rw [if_pos (by simpa using hempty)]
        refine (dropTypes_ensures (w := { w with graph := g₁ }) ht hid₁).imp (fun _ w' h => ?_)
        obtain ⟨g', rfl, h, htypes⟩ := h
        exact hunbound h htypes

theorem Unbinder.run_ensures {u : Unbinder} (hu : Undoes w.graph id u) :
    Ensures (u.run removing id) w (fun _ w' => Unbound K removing id w w') fun _ _ => False := by
  cases u with
  | strip =>
    obtain ⟨g₁, heq, hloses, hs, hl⟩ := strip_of_losesFor hw hid (.refl _)
    show Ensures (Work.update fun g => stripReferences g id) w _ _
    exact Work.update_ensures heq (unbound_strip hw hid hloses hs hu (by simp) (by simp) hl)
  | class_ => exact Class.unbind_ensures hw hid hu
  | association => exact Association.unbind_ensures hw hid hu
  | enumeration => exact Enumeration.unbind_ensures hw hid hu
  | function => exact Function.unbind_ensures hw hid hu
  | recipe r => exact absurd rfl (hu.core r)

end Unbinders

end Handler

end ModelCompiler
