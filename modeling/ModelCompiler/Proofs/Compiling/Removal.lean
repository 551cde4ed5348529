import ModelCompiler.Proofs.Compiling.Dependents

/-!
Unbinding and removing sources. Elements that have been unbound stay so while more is taken away.
-/
open ModelCompiler.Action ModelCompiler.Graph ModelCompiler.Workspace ModelCompiler.Handler

namespace ModelCompiler

namespace Graph

variable {K : NodeId → Prop} {g g' : Graph}

theorem LosesReferences.users (l : LosesReferences g g') (hc : g.Coherent) (hc' : g'.Coherent)
    {r u : NodeId}
    (hr : g'.contains r = true) (h : u ∈ Handler.users g' r) : u ∈ Handler.users g r := by
  obtain ⟨hn, e, he, hf, rfl, ht, hlive⟩ := mem_users_iff.1 h
  have hmem {m : NodeId} (hm : g'.contains m = true) :=
    l.mem_tree hc.toIndexed hc'.toIndexed hr hm
  exact mem_users_iff.2 ⟨fun h => hn ((hmem (hc'.user_live he)).2 h), e,
    l.usages.subset he, hf, rfl, (hmem hlive).1 ht, (l.agree _ hlive).contains ▸ hlive⟩

theorem Listed.removed {order pruned : List NodeId} (hl : g.Listed) (hk : Removed g g' order pruned)
    (hc : g'.Coherent) : g'.Listed := by
  intro o t ht
  have hlive := hc.owner_live t o ht.lifetime
  have hagree (m : NodeId) (hm : g'.contains m = true) := Regular.agree_removed hk hc.toClosed hm
  rw [(hagree o hlive).classifierPath, hk.values_of_contains hlive (by simp)]
  exact hl o t (ht.agree (hagree t (contains_of_lifetime? ht.lifetime)).symm)

theorem Regular.sourceless (hr : g.Regular K) {u : Usage} (hu : u ∈ g.usages)
    (hf : u.isForward = true) (hn : g.sourceOf? u.user = none) : g.sourceOf? u.target = none := by
  have hfit := hr.fits _ _ _ (hr.toCoherent.target_mem_values hu)
  refine (hfit.shared hn).resolve_left ?_
  rw [← hr.flags u hu]
  simpa [Usage.isForward] using hf

theorem Regular.disciplined (hr : g.Regular K) (hK : Predefined K) : g.Disciplined where
  classifier id c hc := hr.toRooted.lifetime? (hK c (hr.kind id c hc).1)
  sourceless _ hu hf hn := hr.sourceless hu hf hn
  implicit u hu hs hl := by
    have hv := hr.toCoherent.target_mem_values hu
    refine ((hr.fits _ _ _ hv).implicit hl).resolve_right fun h => ?_
    rw [h] at hv
    rw [hr.sourceOf?_package (hr.parent_isPackage _ _ hv)] at hs
    exact absurd hs (by simp)
  owner id P h := by
    obtain ⟨s, hs⟩ := hr.owner id P h
    simp [hs]

end Graph

namespace Compiler

variable {K : NodeId → Prop} {T U : SourceId → Prop} {removing : Bool} {b c d : Compiler}
  {E : CompileError → Compiler → Prop} {Q : Unit → Compiler → Prop}

section Unbinding

structure Weakened (K : NodeId → Prop) (T : SourceId → Prop) (c c' : Compiler) : Prop
    extends Handled K T c c' where
  loses : LosesReferences c.graph c'.graph
  listed : c.graph.Listed → c'.graph.Listed

theorem Advanced.weakened (h : Advanced K T c d) (hg : d.graph = c.graph) : Weakened K T c d where
  toHandled := h.handled hg
  loses := hg ▸ .refl _
  listed hl := hg ▸ hl

theorem Looked.weakened (h : Looked K c d) : Weakened K T c d :=
  h.advanced.weakened h.graph

theorem Weakened.trans (h : Weakened K T b c) (h' : Weakened K T c d) : Weakened K T b d where
  toHandled := h.toHandled.trans h'.toHandled
  loses := h.loses.trans h'.loses
  listed hl := h'.listed (h.listed hl)

theorem Weakened.mono (hTU : ∀ s, T s → U s) (h : Weakened K T c d) : Weakened K U c d :=
  { h with toHandled := h.toHandled.mono hTU }

/-- The element has been unbound; if it is to stay and all types of functions are entered, nothing
derived is left of it. -/
structure Cleared (removing : Bool) (c₀ c : Compiler) (x : NodeId) : Prop where
  stripped : Stripped c.graph x
  undone : removing = false → c₀.graph.Listed → Undone c.graph x

theorem Cleared.weakened {c₀ : Compiler} {x : NodeId} {s : SourceId} (hx : Cleared removing c₀ c x)
    (hs : c.Sane K) (hmem : x ∈ c.graph.persistentNodes s) (h : Weakened K T c d) :
    Cleared removing c₀ d x := by
  have hlive : d.graph.contains x = true :=
    h.sane.tidy.persistent_live (by rwa [h.persistent])
  exact ⟨hx.stripped.loses h.loses hs.tidy.toCoherent h.sane.tidy.toCoherent hlive,
    fun hr hl => (hx.undone hr hl).loses h.loses hs.tidy.toCoherent h.sane.tidy.toCoherent hlive⟩

theorem unbindNode_ensures (hs : c.Sane K) {s : SourceId} {id : NodeId}
    (hid : id ∈ c.graph.persistentNodes s) : Ensures (unbindNode removing id) c
      (fun _ c' => Weakened K (· = s) c c' ∧ Cleared removing c c' id ∧ c'.sources = c.sources)
      fun e c' => (e.blame = .user ∧ ¬ Predefined K) ∧ Weakened K (· = s) c c' := by
  refine ensures_bind (ask_ensures hs
    (Dispatch.unbinder_gives hs.tidy.toRegular hs.orderly.valid id)
    (fun r c₁ hu h₁ => ?_) fun e c' he h => ⟨he, h.weakened⟩)
  have hid₁ : c₁.graph.lifetime? id = some (.persistent s) := by
    rw [h₁.graph]
    exact (hs.tidy.persistent_iff s id).1 hid
  rw [← h₁.graph] at hu
  refine ensures_bind (onWorkspace_ensures ((Unbinder.run_ensures h₁.sane.orderly hid₁ hu).mono
    (fun _ w hw => ?_) fun _ _ h => h.elim))
  have hwork : Weakened K (· = s) c₁ { c₁ with workspace := w } :=
    { h₁.sane.worked (T := (· = s)) hw.toWorked fun x hx =>
        ⟨s, rfl, hx ▸ (h₁.sane.tidy.persistent_iff s id).2 hid₁⟩ with
      loses := hw.loses
      listed := hw.listed }
  refine advance_ensures hwork.sane fun c₂ h₂ => ?_
  refine ⟨h₁.weakened.trans (hwork.trans h₂.weakened), ⟨?_, fun hr hl => ?_⟩,
    h₂.sources.trans h₁.sources⟩
  · rw [h₂.graph]
    exact hw.stripped
  · rw [← h₁.graph] at hl
    rw [h₂.graph]
    exact hw.undone hr hl

def unwound (removing : Bool) (unit : SourceUnit) : SourceUnit :=
  { unit with state := if removing then .removed else .parsed, diagnostics := [] }

structure Unwound (K : NodeId → Prop) (removing : Bool) (sources : List SourceId)
    (c c' : Compiler) : Prop extends Weakened K (· ∈ sources) c c' where
  cleared : ∀ s ∈ sources, ∀ x ∈ c.graph.persistentNodes s, Cleared removing c c' x
  find : Catalog.Revised (fun _ => unwound removing) sources c.sources c'.sources

theorem Sane.setUnit (h : c.Sane K) (id : SourceId) {f : SourceUnit → SourceUnit}
    (hcontent : ∀ unit, (f unit).content = unit.content)
    (hstate : ∀ unit, (f unit).state = .unregistered → unit.state = .unregistered) :
    Advanced K (· = id) c { c with sources := c.sources.modify id f } := by
  refine h.modifyUnit (fun unit hu => ?_) fun unit hu hst => ?_
  · rw [hcontent]
    exact h.contents id unit hu
  · exact h.blank id unit hu (hstate unit hst)

theorem unbindSource_ensures (hs : c.Sane K) (id : SourceId) :
    Ensures (unbindSource removing id) c (fun _ c' => Unwound K removing [id] c c')
      fun e c' => (e.blame = .user ∧ ¬ Predefined K) ∧ Advanced K (· = id) c c' := by
  have h₁ := hs.setUnit id (f := fun unit => { unit with state := .unbinding })
    (fun _ => rfl) fun _ h => by simp at h
  refine ensures_modify_bind (ensures_get_bind (ensures_bind ?_))
  generalize hc₁ : { c with sources := c.sources.modify id fun unit =>
    { unit with state := .unbinding } } = c₁ at h₁ ⊢
  have hgraph : c₁.graph = c.graph := hc₁ ▸ rfl
  have hsources : c₁.sources = c.sources.modify id fun unit =>
    { unit with state := .unbinding } := hc₁ ▸ rfl
  have hloop : Ensures ((c₁.graph.persistentNodes id).reverse.forM (unbindNode removing)) c₁ _ _ :=
    ensures_forM (I := fun done c' => Weakened K (· = id) c₁ c' ∧ c'.sources = c₁.sources ∧
      ∀ x ∈ done, x ∈ c₁.graph.persistentNodes id ∧ Cleared removing c₁ c' x)
    (E := fun e c' => (e.blame = .user ∧ ¬ Predefined K) ∧ Advanced K (· = id) c c')
    ⟨h₁.sane.looked.weakened, rfl, by simp⟩ fun x hx done c' h => by
      obtain ⟨hw, hsrc, hdone⟩ := h
      have hx₁ := List.mem_reverse.1 hx
      refine (unbindNode_ensures hw.sane (s := id) (by rwa [hw.persistent])).mono
        (fun _ c'' h => ?_) fun e c'' h => ⟨h.1, h₁.trans (hw.toAdvanced.trans h.2.toAdvanced)⟩
      obtain ⟨hw', hclear, hsrc'⟩ := h
      refine ⟨hw.trans hw', hsrc'.trans hsrc, fun y hy => ?_⟩
      rcases List.mem_append.1 hy with hy | hy
      · obtain ⟨hmem, hy⟩ := hdone y hy
        exact ⟨hmem, hy.weakened hw.sane (by rwa [hw.persistent]) hw'⟩
      · obtain rfl := List.mem_singleton.1 hy
        exact ⟨hx₁, hclear.stripped, fun hr hl => hclear.undone hr (hw.listed hl)⟩
  refine hloop.imp (fun _ c₂ h => ?_)
  obtain ⟨h₂, hsrc, hdone⟩ := h
  have h₃ := h₂.sane.setUnit id
    (f := fun unit => { unit with state := if removing then .removed else .parsed })
    (fun _ => rfl) fun _ h => by cases removing <;> simp at h
  have h₄ := h₃.sane.setUnit id (f := fun unit => { unit with diagnostics := [] })
    (fun _ => rfl) fun _ h => h
  refine ensures_modify_bind (ensures_modify ?_)
  have h : Weakened K (· = id) c { c₂ with sources := (c₂.sources.modify id fun unit =>
      { unit with state := if removing then .removed else .parsed }).modify id fun unit =>
      { unit with diagnostics := [] } } :=
    (h₁.weakened hgraph).trans (h₂.trans ((h₃.trans h₄).weakened rfl))
  refine ⟨h.mono (by simp), fun s hs' x hx => ?_, fun s => ?_⟩
  · obtain rfl := List.mem_singleton.1 hs'
    rw [← hgraph] at hx
    obtain ⟨-, hclear⟩ := hdone x (List.mem_reverse.2 hx)
    exact ⟨hclear.stripped, fun hr hl => hclear.undone hr (hgraph ▸ hl)⟩
  · simp only [List.mem_singleton, Catalog.find?_modify, hsrc, hsources]
    split
    · cases c.sources.find? s <;> rfl
    · rfl

theorem unbindSources_ensures (hs : c.Sane K) (sources : List SourceId) :
    Ensures (unbindSources sources removing) c (fun _ c' => Unwound K removing sources c c')
      fun e c' => (e.blame = .user ∧ ¬ Predefined K) ∧ Advanced K (· ∈ sources) c c' := by
  refine ensures_get_bind (ensures_bind (startProgress_ensures hs fun c₁ h₁ => ?_))
  refine (ensures_forM (I := fun done c' => (∀ s ∈ done, s ∈ sources) ∧
    Unwound K removing done c c') ⟨by simp, { h₁.weakened with
      cleared := by simp
      find := h₁.sources ▸ Catalog.revised_nil _ _ }⟩
    fun id hid done c' h => ?_).imp (fun _ c' h => h.2)
  obtain ⟨hdone, h⟩ := h
  refine (unbindSource_ensures h.sane id).mono (fun _ c'' h' => ?_) fun e c'' h' =>
    ⟨h'.1, (h.toAdvanced.mono hdone).trans (h'.2.mono fun s (hs : s = id) => hs ▸ hid)⟩
  refine ⟨fun s hs => ?_, { (h.toWeakened.mono fun s hs => ?_).trans
    (h'.toWeakened.mono fun s hs => ?_) with
    cleared := fun s hs' x hx => ?_, find := h.find.concat h'.find fun _ _ => rfl }⟩
  · rcases List.mem_append.1 hs with hs | hs
    · exact hdone s hs
    · exact List.mem_singleton.1 hs ▸ hid
  · exact List.mem_append_left _ hs
  · exact List.mem_append_right _ hs
  · by_cases hsid : s = id
    · have hx' := h'.cleared s (by simp [hsid]) x (by rwa [h.persistent])
      exact ⟨hx'.stripped, fun hr hl => hx'.undone hr (h.listed hl)⟩
    · have hx' := h.cleared s ((List.mem_append.1 hs').resolve_right (by simpa using hsid)) x hx
      exact hx'.weakened h.sane (s := s) (by rwa [h.persistent]) h'.toWeakened

end Unbinding

section Removing

theorem Sane.removed (hs : c.Sane K) (hK : CoversMetamodel K)
    {ids order pruned : List NodeId} {g : Graph}
    (hids : ∀ id ∈ ids, ∃ s, T s ∧ c.graph.lifetime? id = some (.persistent s))
    (ho : Ordered c.graph ids order) (hk : Removed c.graph g order pruned) (hc : g.Coherent) :
    Advanced K T c { c with workspace := { c.workspace with graph := g } } := by
  have hmove : Move K T c.graph g := .remove hids ho hk hc
  refine ⟨⟨hs.dispatch, hs.factories, hs.visibility,
    ⟨hmove.tidy hK hs.tidy, hs.orderly.valid.ages (hmove.ages hK hs.tidy)⟩, hk.whole hc hs.whole,
    hs.sorted, hs.contents, fun s h => hs.registered s fun hnil => h ?_, fun s unit hu hst => ?_⟩,
      .single hmove,
    fun _ _ => rfl, rfl⟩
  · exact (hk.persistent s).trans (by rw [hnil]; rfl)
  · exact (hk.persistent s).trans (by rw [hs.blank s unit hu hst]; rfl)

theorem checkConsistency_ensures (hs : c.Sane K) (h : Q () c) : Ensures checkConsistency c Q E := by
  refine ensures_get_bind ?_
  rw [hs.tidy.toCoherent.audit_eq_ok]
  exact ensures_pure h

structure Emptied (K : NodeId → Prop) (sources : List SourceId) (c c' : Compiler) : Prop
    extends Advanced K (· ∈ sources) c c' where
  loses : LosesReferences c.graph c'.graph
  listed : c.graph.Listed → c'.graph.Listed
  empty : ∀ s ∈ sources, c'.graph.persistentNodes s = []

theorem removeItems_runs (hs : c.Sane K) (hK : CoversMetamodel K) (sources : List SourceId)
    (hrem : Predefined K → Removable c.graph ((c.items sources).map (·.2))) :
    Runs (¬ Predefined K) (onGraph removalError (Graph.removeNodes ((c.items sources).map (·.2)))) c
      (fun _ c' => Emptied K sources c c' ∧ c'.sources = c.sources)
      fun _ c' => ¬ Predefined K ∧ c' = c := by
  have hids (id : NodeId) (hid : id ∈ (c.items sources).map (·.2)) :
      ∃ s, s ∈ sources ∧ c.graph.lifetime? id = some (.persistent s) := by
    obtain ⟨s, hs', hmem⟩ := mem_items.1 hid
    exact ⟨s, hs', (hs.tidy.persistent_iff s id).1 hmem⟩
  unfold onGraph onWorkspace Work.onGraph
  refine runs_within (runs_within ?_)
  have hdone {order pruned : List NodeId} {g : Graph}
      (ho : Ordered c.graph ((c.items sources).map (·.2)) order)
      (hk : Removed c.graph g order pruned) (hc : g.Coherent) :
      Emptied K sources c { c with workspace := { c.workspace with graph := g } } :=
    { hs.removed hK hids ho hk hc with
      loses := .of_removed hk hc.toClosed
      listed := fun hl => hl.removed hk hc
      empty := fun s => (hk.persistentNodes ho hs.tidy.toIndexed (fun _ => mem_items) s).1 }
  by_cases hp : Predefined K
  · refine ((removeNodes_ensures hs.tidy.toCoherent hs.tidy.toHoused (hrem hp)).mono
      (fun gone g h => ?_) fun _ _ h => h.elim).runs
    obtain ⟨order, pruned, -, ho, hk, hc⟩ := h
    exact ⟨hdone ho hk hc, rfl⟩
  · rcases removeNodes_runs hs.tidy.toCoherent hs.tidy.toHoused ((c.items sources).map (·.2)) with
      h | ⟨-, h⟩
    · refine (h.mono (fun gone g h => ?_) fun e g h => ?_).runs
      · obtain ⟨order, pruned, ho, hk, hc⟩ := h
        exact ⟨hdone ho hk hc, rfl⟩
      · exact ⟨hp, by rw [h]; rfl⟩
    · exact .inr ⟨hp, h⟩

def ungrouped (unit : SourceUnit) : SourceUnit :=
  { unit with importGroups := [] }

structure Ungrouped (K : NodeId → Prop) (sources : List SourceId) (c c' : Compiler) : Prop
    extends Advanced K (· ∈ sources) c c' where
  graph : c'.graph = c.graph
  find : Catalog.Revised (fun _ => ungrouped) sources c.sources c'.sources

theorem forgetGroups_ensures (hs : c.Sane K) (sources : List SourceId) :
    Ensures (sources.forM fun id => modifyUnit id fun unit => { unit with importGroups := [] }) c
      (fun _ c' => Ungrouped K sources c c') E := by
  refine (ensures_forM (I := fun done c' => (∀ s ∈ done, s ∈ sources) ∧ Ungrouped K done c c')
    ⟨by simp, { hs.advanced with graph := rfl, find := Catalog.revised_nil _ _ }⟩
    fun id hid done c' h => ?_).imp (fun _ _ h => h.2)
  obtain ⟨hdone, h⟩ := h
  have h' := h.sane.setUnit id (f := ungrouped) (fun _ => rfl) fun _ h => h
  refine ensures_modify ⟨fun s hs' => ?_, { (h.toAdvanced.mono fun s hs' => ?_).trans
    (h'.mono fun s (hs' : s = id) => ?_) with
      graph := h.graph
      find := h.find.concat (Catalog.revised_modify (fun _ => ungrouped) _ id) fun _ _ => rfl }⟩
  · rcases List.mem_append.1 hs' with hs' | hs'
    · exact hdone s hs'
    · exact List.mem_singleton.1 hs' ▸ hid
  · exact List.mem_append_left _ hs'
  · exact List.mem_append_right _ (List.mem_singleton.2 hs')

/-- The end of a removal. -/
abbrev settle : Compiling Unit := do
  modify fun c =>
    let w := c.workspace
    { c with workspace := { w with lineage := w.lineage.retainFresh w.graph } }
  if (← get).config.checkConsistency then checkConsistency

theorem settle_ensures (hs : c.Sane K) (h : ∀ c', Looked K c c' → Q () c') :
    Ensures settle c Q E := by
  have hc := hs.remember hs.orderly.valid.retainFresh
  refine ensures_modify_bind (ensures_get_bind ?_)
  split
  · exact checkConsistency_ensures hc.sane (h _ hc)
  · exact ensures_pure (h _ hc)

theorem removeSources_runs (hs : c.Sane K) (hK : CoversMetamodel K) (sources : List SourceId)
    (hrem : Predefined K → Removable c.graph ((c.items sources).map (·.2))) :
    Runs (¬ Predefined K) (removeSources sources) c
      (fun _ c' => Emptied K sources c c' ∧
        Catalog.Revised (fun _ => ungrouped) sources c.sources c'.sources)
      fun _ c' => ¬ Predefined K ∧ c' = c := by
  have hrest {c₁ : Compiler} (h₁ : Emptied K sources c c₁) (hsources : c₁.sources = c.sources) :=
    (forgetGroups_ensures (E := fun _ c' => ¬ Predefined K ∧ c' = c) h₁.sane sources).imp
      (fun _ c₂ h₂ => settle_ensures (Q := fun _ c' => Emptied K sources c c' ∧
        Catalog.Revised (fun _ => ungrouped) sources c.sources c'.sources)
        (E := fun _ c' => ¬ Predefined K ∧ c' = c) h₂.sane fun c₃ h₃ => by
          have hgraph : c₃.graph = c₁.graph := h₃.graph.trans h₂.graph
          refine ⟨{ h₁.toAdvanced.trans (h₂.toAdvanced.trans h₃.advanced) with
            loses := ?_, listed := ?_, empty := ?_ }, ?_⟩
          · rw [hgraph]
            exact h₁.loses
          · rw [hgraph]
            exact h₁.listed
          · rw [hgraph]
            exact h₁.empty
          · rw [h₃.sources, ← hsources]
            exact h₂.find)
  refine runs_bind (ensures_get ?_).runs
  dsimp only
  split
  · refine runs_bind (runs_discard ((removeItems_runs hs hK sources hrem).imp fun _ c₁ h => ?_))
    exact (ensures_bind (hrest h.1 h.2)).runs
  · rename_i hempty
    have hnil : (c.items sources).map (·.2) = [] := by simpa using hempty
    refine (ensures_bind (hrest { hs.advanced with
      loses := .refl _, listed := fun hl => hl, empty := fun s hs' => ?_ } rfl)).runs
    refine List.eq_nil_iff_forall_not_mem.2 fun x hx => ?_
    have := mem_items.2 ⟨s, hs', hx⟩
    rw [hnil] at this
    exact List.not_mem_nil this

end Removing

end Compiler

end ModelCompiler
