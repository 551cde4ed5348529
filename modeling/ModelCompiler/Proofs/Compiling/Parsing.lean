import ModelCompiler.Proofs.Compiling.Removal

/-!
Parsing sources. What a draft adds is undone from the start, and what was undone before stays so.
After a failed draft nothing of the source is left.
-/
open ModelCompiler.Action ModelCompiler.Graph ModelCompiler.Workspace ModelCompiler.Handler

namespace ModelCompiler

namespace Graph

variable {K : NodeId → Prop} {g g' : Graph} {x : NodeId} {s t : SourceId}

section Undone

theorem Regular.property_ne_children (hr : g.Regular K) {u : Usage} (hu : u ∈ g.usages)
    (hs : g.sourceOf? u.user = some s) : u.property ≠ "children" := by
  intro h
  have hv := hr.toCoherent.target_mem_values hu
  rw [h] at hv
  simp [hr.sourceOf?_package (hr.parent_isPackage _ _ hv)] at hs

theorem Regular.derived_of_back (hr : g.Regular K) {u : Usage} (hu : u ∈ g.usages)
    (hb : u.back = true) (hp : u.property ≠ "children") : u.property ∈ Metamodel.derived := by
  rw [hr.flags u hu] at hb
  rcases (hr.isBackReference_iff _).1 hb with h | h | h
  · exact absurd h hp
  · simp [h, Metamodel.derived]
  · simp [h, Metamodel.derived]

theorem Grows.not_contains_tree (a : Grows g g') (hc : g.Coherent) (hi : g'.Indexed)
    (hx : g.contains x = false) {m : NodeId} (hm : m ∈ g'.tree x) : g.contains m = false := by
  rcases List.mem_cons.1 hm with rfl | hm
  · exact hx
  · by_contra hlive
    have hl := ((hi.owned_iff x m).1 hm).1
    rw [lifetime?_of_bare (a.bare m (by simpa using hlive))] at hl
    simp [hc.owner_live m x hl] at hx

theorem Grows.undone (a : Grows g g') (hc : g.Coherent) (hr : g'.Regular K)
    (hx : g'.lifetime? x = some (.persistent s)) (hnew : g.contains x = false) : Undone g' x := by
  have htree {m : NodeId} (hm : m ∈ g'.tree x) := a.not_contains_tree hc hr.toIndexed hnew hm
  have hsource {m : NodeId} (hm : m ∈ g'.tree x) : g'.sourceOf? m = some s :=
    hr.sourceOf?_iff_tree.2 ⟨x, (hr.persistent_iff s x).2 hx, hm⟩
  refine ⟨⟨fun u hu hb hp ht => ?_, fun u hu huser ht => ?_, fun m hm _ => ?_, fun m hm _ => ?_⟩,
    fun m hm => ?_, fun t ht => ?_⟩
  · have hmem := hr.toCoherent.target_mem_values hu
    by_cases hold : g.contains u.user = true
    · rw [a.values _ _ hold hp] at hmem
      have := htree ht
      simp [hc.value_live _ _ _ hmem] at this
    · simp [a.derived u.user _ (by simpa using hold) (hr.derived_of_back hu hb hp)] at hmem
  · have hmem := hr.toCoherent.target_mem_values hu
    have hd : u.property ∉ Metamodel.derived := fun h => by
      simp [a.derived u.user _ (htree huser) h] at hmem
    rcases (hr.fits _ _ _ hmem).within hd (hr.property_ne_children hu (hsource huser))
      (a.types _ (htree huser)) with h | h
    · simp [isForeign, h]
    · simp [isForeign, h, hsource huser, hsource (m := x) List.mem_cons_self]
  · exact a.derived m _ (htree hm) (by simp [Metamodel.derived])
  · exact a.derived m _ (htree hm) (by simp [Metamodel.derived])
  · exact a.derived m _ (htree hm) (by simp [Metamodel.derived])
  · have hm := List.mem_cons_of_mem x
      ((hr.owned_iff x t).2 ⟨ht.lifetime, hr.owner_live t x ht.lifetime⟩)
    exact a.types t (htree hm) ⟨x, ht⟩

theorem Stripped.grows (hu : Stripped g x) (a : Grows g g') (hr : g.Regular K) (hr' : g'.Regular K)
    (hx : g.lifetime? x = some (.persistent s)) : Stripped g' x := by
  have hlive {m : NodeId} (hm : m ∈ g.tree x) : g.contains m = true :=
    hr.toCoherent.tree_live (contains_of_lifetime? hx) hm
  have htree : g'.tree x = g.tree x := by rw [tree, tree, a.owned x (contains_of_lifetime? hx)]
  have hagree {m : NodeId} (hm : g.contains m = true) := a.agree hr.toClosed hm
  have hsource {m : NodeId} (hm : m ∈ g.tree x) : g.sourceOf? m = some s :=
    hr.sourceOf?_iff_tree.2 ⟨x, (hr.persistent_iff s x).2 hx, hm⟩
  -- references of nodes that were there were there as well
  have hold {u : Usage} (hmem : u ∈ g'.usages) (huser : g.contains u.user = true)
      (hp : u.property ≠ "children") : u ∈ g.usages := by
    have hv := hr'.toCoherent.target_mem_values hmem
    rw [a.values _ _ huser hp] at hv
    obtain ⟨b, hb⟩ := hr.toCoherent.mem_values_iff.1 hv
    have hflag : b = u.back := by
      rw [hr'.flags u hmem, isBackReference, hr'.backReferences, ← hr.backReferences]
      exact hr.flags _ hb
    subst hflag
    exact hb
  refine ⟨fun u hmem hb hp ht => ?_, fun u hmem huser ht => ?_, fun m hm hstub => ?_,
    fun m hm hstub => ?_⟩
  · rw [htree] at ht ⊢
    by_cases huser : g.contains u.user = true
    · exact hu.back u (hold hmem huser hp) hb hp ht
    · have hv := hr'.toCoherent.target_mem_values hmem
      simp [a.derived u.user _ (by simpa using huser) (hr'.derived_of_back hmem hb hp)] at hv
  · rw [htree] at huser ht
    have hne := hr'.property_ne_children hmem (s := s)
      (by rw [(hagree (hlive huser)).source, hsource huser])
    have hmem' := hold hmem (hlive huser) hne
    have := hu.foreign u hmem' huser ht
    simpa only [isForeign, (hagree (hr.target_live u hmem')).source,
      (hagree (contains_of_lifetime? hx)).source] using this
  · rw [htree] at hm
    rw [(hagree (hlive hm)).isImportStub] at hstub
    rw [a.values m _ (hlive hm) (by simp)]
    exact hu.importStub m hm hstub
  · rw [htree] at hm
    rw [(hagree (hlive hm)).isPropertyStub] at hstub
    rw [a.values m _ (hlive hm) (by simp)]
    exact hu.propertyStub m hm hstub

theorem Undone.grows (hu : Undone g x) (a : Grows g g') (hr : g.Regular K) (hr' : g'.Regular K)
    (hx : g.lifetime? x = some (.persistent s)) : Undone g' x := by
  have hagree {m : NodeId} (hm : g.contains m = true) := a.agree hr.toClosed hm
  refine ⟨hu.toStripped.grows a hr hr' hx, fun m hm => ?_, fun t ht => ?_⟩
  · rw [tree, a.owned x (contains_of_lifetime? hx), ← tree] at hm
    rw [a.values m _ (hr.toCoherent.tree_live (contains_of_lifetime? hx) hm) (by simp)]
    exact hu.enumeration m hm
  · by_cases hold : g.contains t = true
    · exact hu.types t (ht.agree (hagree hold).symm)
    · exact a.types t (by simpa using hold) ⟨x, ht⟩

theorem Listed.grows (hl : g.Listed) (a : Grows g g') (hc : g.Coherent) : g'.Listed := by
  intro o t ht
  by_cases hold : g.contains t = true
  · have hp : g.Part o Metamodel.functionType t := ht.agree (a.agree hc.toClosed hold).symm
    have ho := hc.owner_live t o hp.lifetime
    rw [a.values o _ ho (by simp), (a.agree hc.toClosed ho).classifierPath]
    exact hl o t hp
  · exact absurd ⟨o, ht⟩ (a.types t (by simpa using hold))

theorem Drafted.whole (hd : Drafted K s g g') (hnone : g'.persistentNodes s = []) (hw : g.Whole) :
    g'.Whole := by
  have hr := hd.regular
  refine hw.of_values fun x hx => ?_
  obtain ⟨p, hp⟩ := List.exists_mem_of_ne_nil _ hx
  obtain ⟨t, ht⟩ := hr.owner p x ((hr.fits x _ p hp).property rfl).1.lifetime
  have hlive : g.contains x = true := by
    have hmem := (hr.persistent_iff t x).2 ht
    have hts : t ≠ s := by
      rintro rfl
      simp [hnone] at hmem
    rw [hd.others t hts] at hmem
    exact hd.base.persistent_live hmem
  have hsame := hd.grows.values x "properties" hlive (by decide)
  refine ⟨hsame, fun p hp => hd.grows.values p _ ?_ (by decide)⟩
  exact hd.base.value_live x _ p (hsame ▸ hp)

end Undone

end Graph

namespace Compiler

variable {K : NodeId → Prop} {c c' d : Compiler} {id : SourceId}

/-- The sources have been drafted, those that failed without leaving anything behind. -/
structure Parsed (K : NodeId → Prop) (ids : List SourceId) (c c' : Compiler) : Prop
    extends Advanced K (· ∈ ids) c c' where
  grows : Grows c.graph c'.graph
  answered : ∀ s ∈ ids, ∀ unit, c.sources.find? s = some unit →
    ∃ unit', c'.sources.find? s = some unit' ∧ unit'.content = unit.content ∧
      (unit'.state = .parsed ∧ unit'.diagnostics = [] ∨
        unit'.state = .unregistered ∧ ∃ e, unit'.diagnostics = [e])

section Source

theorem plain_core (id : SourceId) : Draft.PlainSetting id ⟨id, coreFactories⟩ where
  source := rfl
  factory p f h := by
    have := Table.mem_entries_of_find? h
    simp only [coreFactories, List.mem_cons, Prod.mk.injEq, List.not_mem_nil] at this
    tauto

theorem runDraft_eq (id : SourceId) (content : Content) (c : Compiler) : runDraft id content c =
    (content.draft ⟨id, c.factories⟩ ⟨c.graph, []⟩).map fun r => (.ok (r.1, r.2.importGroups),
      { c with workspace := { c.workspace with graph := r.2.graph } }) := by
  simp only [runDraft]
  rcases content.draft ⟨id, c.factories⟩ ⟨c.graph, []⟩ with b | ⟨answer, draft⟩ <;> rfl

theorem runDraft_ensures (hs : c.Sane K) (hK : CoversMetamodel K)
    {content : Content} (hadm : content.Admissible K) (hnone : c.graph.persistentNodes id = [])
    {E : CompileError → Compiler → Prop} : Ensures (runDraft id content) c
      (fun r c' => ∃ g, c' = { c with workspace := { c.workspace with graph := g } } ∧
        Drafted K id c.graph g ∧ (∀ a, r.1 = .ok a → g.Whole) ∧
        ∀ e, r.1 = .error e → e.blame ≠ .internal) E := by
  cases content with
  | script commands => exact hadm.elim
  | text text =>
    have hunused (m : NodeId) : c.graph.sourceOf? m ≠ some id := fun h => by
      obtain ⟨r, hr, -⟩ := hs.tidy.sourceOf?_iff_tree.1 h
      simp [hnone] at hr
    have hdraft := Grammar.draft_ensures (d := ⟨c.graph, []⟩) hK (plain_core id)
      (Drafted.refl hs.tidy hunused) hadm
    rw [← hs.factories] at hdraft
    rcases hdraft with ⟨a, d, hrun, hd⟩ | ⟨e, d, hrun, hblame, hd⟩
    · refine .inl ⟨(.ok a, d.importGroups), _, ?_, d.graph, rfl, hd.drafted,
        fun _ _ x => hd.complete _ x (hs.whole x), by simp⟩
      rw [runDraft_eq, Content.draft, hrun]
      rfl
    · refine .inl ⟨(.error e, d.importGroups), _, ?_, d.graph, rfl, hd, by simp,
        by simpa using hblame⟩
      rw [runDraft_eq, Content.draft, hrun]
      rfl

theorem Sane.drafted (hs : c.Sane K) {g : Graph}
    (hd : Drafted K id c.graph g) (hwhole : g.Whole) {unit : SourceUnit}
    (hu : c.sources.find? id = some unit)
    {f : SourceUnit → SourceUnit} (hcontent : ∀ u, (f u).content = u.content)
    (hstate : (f unit).state = .unregistered → g.persistentNodes id = []) :
    Advanced K (· = id) c { c with
      workspace := { c.workspace with graph := g }
      sources := c.sources.modify id f } := by
  have hfind (s : SourceId) := c.sources.find?_modify id f s
  refine ⟨⟨hs.dispatch, hs.factories, hs.visibility,
    ⟨hd.tidy, hs.orderly.valid.ages hd.grows.ages⟩, hwhole, hs.sorted.modify id f,
    fun s unit' hu' => ?_,
    fun s hne => ?_, fun s unit' hu' hst => ?_⟩, hd.trace, fun s hne => ?_, rfl⟩
  · rw [hfind] at hu'
    split at hu'
    · obtain ⟨unit₀, hu₀, rfl⟩ := Option.map_eq_some_iff.1 hu'
      rw [hcontent]
      exact hs.contents s unit₀ hu₀
    · exact hs.contents s unit' hu'
  · rw [hfind]
    split
    · rename_i h
      exact ⟨f unit, by rw [h, hu]; rfl⟩
    · rename_i h
      exact hs.registered s (hd.others s h ▸ hne)
  · rw [hfind] at hu'
    split at hu'
    · rename_i h
      subst h
      rw [hu] at hu'
      exact hstate (Option.some.inj hu' ▸ hst)
    · rename_i h
      exact (hd.others s h).trans (hs.blank s unit' hu' hst)
  · rw [hfind, if_neg hne]

theorem parseSource_ensures (hs : c.Sane K) (hK : CoversMetamodel K)
    {unit : SourceUnit} (hu : c.sources.find? id = some unit) (hst : unit.state = .unregistered) :
    Ensures (parseSource id) c (fun _ c' => Parsed K [id] c c')
      fun e c' => e.blame ≠ .internal ∧ Advanced K (· = id) c c' ∧ Grows c.graph c'.graph := by
  refine ensures_get_bind ?_
  rw [hu]
  refine ensures_bind ((runDraft_ensures hs hK (hs.contents id unit hu)
    (hs.blank id unit hu hst)).imp fun r c₁ h => ?_)
  obtain ⟨g, rfl, hd, hwhole, hblame⟩ := h
  obtain ⟨answer, groups⟩ := r
  cases answer with
  | ok _ =>
    have h := hs.drafted hd (hwhole _ rfl) hu (f := fun unit =>
      { unit with state := .parsed, importGroups := groups, diagnostics := [] }) (fun _ => rfl)
      (by simp)
    refine ensures_modify { h.mono (by simp) with grows := hd.grows, answered :=
      fun s hs' u hu' => ?_ }
    obtain rfl := List.mem_singleton.1 hs'
    refine ⟨{ u with state := .parsed, importGroups := groups, diagnostics := [] }, ?_, rfl,
      .inl ⟨rfl, rfl⟩⟩
    simp [Catalog.find?_modify, hu']
  | error e =>
    have hrest {g' : Graph} (hd' : Drafted K id c.graph g') (hnone : g'.persistentNodes id = []) :
        Ensures (do
          setState id .unregistered
          setDiagnostics id [e]
          if e.blame ≠ .user then throw e)
          { c with workspace := { c.workspace with graph := g' } } (fun _ c' => Parsed K [id] c c')
          fun (e : CompileError) c' => e.blame ≠ .internal ∧ Advanced K (· = id) c c' ∧
            Grows c.graph c'.graph := by
      have h₁ := hs.drafted hd' (hd'.whole hnone hs.whole) hu
        (f := fun unit => { unit with state := .unregistered }) (fun _ => rfl) fun _ => hnone
      have h₂ := h₁.trans (h₁.sane.setUnit id
        (f := fun unit => { unit with diagnostics := [e] }) (fun _ => rfl) fun _ h => h)
      refine ensures_modify_bind (ensures_modify_bind ?_)
      split
      · exact ensures_throw ⟨hblame e rfl, h₂, hd'.grows⟩
      · refine ensures_pure { h₂.mono (by simp) with
          grows := hd'.grows, answered := fun s hs' u hu' => ?_ }
        obtain rfl := List.mem_singleton.1 hs'
        refine ⟨{ u with state := .unregistered, diagnostics := [e] }, ?_, rfl,
          .inr ⟨rfl, e, rfl⟩⟩
        simp [Catalog.find?_modify, hu']
    refine ensures_get_bind ?_
    dsimp only
    split
    · unfold onGraph onWorkspace Work.onGraph
      refine ensures_bind (ensures_discard (ensures_within (ensures_within
        ((removeNodes_ensures hd.regular.toCoherent hd.regular.toHoused hd.removable).mono
          (fun _ g' h => ?_) fun _ _ h => h.elim))))
      obtain ⟨order, pruned, -, ho, hk, hc⟩ := h
      obtain ⟨hd', hnone⟩ := hd.discard ho hk hc
      exact hrest hd' hnone
    · rename_i hempty
      exact hrest hd (by simpa [Compiler.graph] using hempty)

end Source

theorem parseSources_ensures (hs : c.Sane K) (hK : CoversMetamodel K)
    {ids : List SourceId} (hnodup : ids.Nodup)
    (hids : ∀ s ∈ ids, ∃ unit, c.sources.find? s = some unit ∧ unit.state = .unregistered) :
    Ensures (ids.forM parseSource) c (fun _ c' => Parsed K ids c c')
      fun e c' => e.blame ≠ .internal ∧ Advanced K (· ∈ ids) c c' ∧ Grows c.graph c'.graph := by
  refine ensures_forM_inOrder (I := fun done c' => Parsed K done c c')
    { hs.advanced with grows := .refl _, answered := by simp } fun done id rest hsplit c' h => ?_
  have hnew : id ∉ done := fun hmem => by
    rw [hsplit] at hnodup
    exact (List.nodup_append.1 hnodup).2.2 id hmem id List.mem_cons_self rfl
  obtain ⟨unit, hu, hst⟩ := hids id (by simp [hsplit])
  rw [← h.units id hnew] at hu
  refine (parseSource_ensures h.sane hK hu hst).mono (fun _ c'' h' => ?_) fun e c'' h' => ?_
  · refine { (h.toAdvanced.mono fun s hs' => ?_).trans (h'.toAdvanced.mono fun s hs' => ?_) with
      grows := h.grows.trans h'.grows h.sane.tidy.toClosed, answered := fun s hs' unit hu => ?_ }
    · exact List.mem_append_left _ hs'
    · exact List.mem_append_right _ hs'
    · by_cases hsid : s = id
      · subst hsid
        exact h'.answered s List.mem_cons_self unit (by rwa [h.units s hnew])
      · obtain ⟨unit', hu', h⟩ := h.answered s
          ((List.mem_append.1 hs').resolve_right (by simpa using hsid)) unit hu
        exact ⟨unit', by rwa [h'.units s (by simpa using hsid)], h⟩
  · refine ⟨h'.1, (h.toAdvanced.mono fun s hs' => ?_).trans
      (h'.2.1.mono fun s (hs' : s = id) => ?_), h.grows.trans h'.2.2 h.sane.tidy.toClosed⟩
    · simp [hsplit, hs']
    · simp [hsplit, hs']

end Compiler

end ModelCompiler
