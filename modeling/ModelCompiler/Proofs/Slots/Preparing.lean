import ModelCompiler.Proofs.Slots.Drafting
import ModelCompiler.Proofs.Slots.Walking

/-!
What precedes the phases of a compile, on compilers in step: the same changes are taken up, the same
sources are withdrawn, and their texts are drafted alike.
-/
open ModelCompiler.Action ModelCompiler.Graph ModelCompiler.Lineage ModelCompiler.Handler

namespace ModelCompiler

theorem Graph.Regular.anchored {K : NodeId → Prop} {g : Graph} (hr : g.Regular K) : g.Anchored where
  toUpheld := hr.upheld
  landmark kind hkind := by
    obtain ⟨k, hk, hinitial, -⟩ := hr.landmark hr.toIndexed hkind
    exact ⟨k, hinitial, (hr.lookup_iff kind k).1 hk⟩

/-- Elements of sources that nothing but their instances may hold go from both graphs, or stay in
both. -/
theorem Graph.InStep.removeElements {X : Prop} {K : NodeId → Prop}
    {π : NodeId → NodeId} {g h : Graph}
    (e : Graph.InStep X π g h) (hr : g.Regular K) (hr' : h.Regular K) {ids : List NodeId}
    (hids : ∀ id ∈ ids, ∃ s, g.lifetime? id = some (.persistent s))
    (huser : ∀ u ∈ g.usages, g.InTrees ids u.target → ¬ g.InTrees ids u.user →
      u.property = "children" ∧ g.isPackage u.user = true) :
    Matched X Eq (fun a b => b = a.map π) (Graph.InStep X π)
      (Graph.removeNodes ids g) (Graph.removeNodes (ids.map π) h) := by
  rcases e.steps with ⟨hX, rfl, rfl⟩ | ⟨-, hs⟩
  · rw [List.map_id]
    exact matched_self (fun _ => (List.map_id _).symm) (Graph.InStep.refl hX) _ _
  refine e.removeNodes hr.toCoherent hr'.toCoherent (fun id hid => ?_) huser fun i t ht hi => ?_
  · obtain ⟨s, hs⟩ := hids id hid
    exact ⟨_, hs, by simp⟩
  · refine ⟨?_, (hr.kind i t hi).2⟩
    by_contra hpath
    -- parts have classifiers of the metamodel, and these do not go
    have hnone : g.path? i = none := by simpa [Option.eq_none_iff_forall_ne_some] using hpath
    have hboot := hr.toRooted.lifetime? (hs.part i t hnone hi)
    obtain ⟨id, hid, hmem⟩ := ht
    obtain ⟨s, hs⟩ := hids id hid
    rcases List.mem_cons.1 hmem with rfl | hmem
    · simp [hboot] at hs
    · have hpart := ((hr.owned_iff id t).1 hmem).1
      simp [hboot] at hpart

namespace Compiler

variable {X : Prop} {K : NodeId → Prop} {π : NodeId → NodeId} {c d : Compiler} {id : SourceId}
  {removing : Bool}

section Withdrawing

theorem unbindNode_matched (e : SaneInStep X K π c d) {s : SourceId} {id : NodeId}
    (hid : id ∈ c.graph.persistentNodes s) :
    MatchedStates X (SaneInStep X K π) (unbindNode removing id c)
      (unbindNode removing (π id) d) := by
  have hid' : π id ∈ d.graph.persistentNodes s := by
    rw [e.graph.persistentNodes, e.graph.mem_map]
    exact hid
  have hr := e.left.tidy.toRegular
  have hr' := e.right.tidy.toRegular
  refine matched_sane ?_
    ((unbindNode_ensures e.left hid).mono (fun _ _ h => h.1.sane) fun _ _ h => h.2.sane).runs
    ((unbindNode_ensures e.right hid').mono (fun _ _ h => h.1.sane) fun _ _ h => h.2.sane).runs
  refine (matched_ask e (f := fun d g => d.unbinder g id) (k := fun d g => d.unbinder g (π id))
    (Dispatch.unbinder_steady hr.upheld _ id) (Dispatch.unbinder_steady hr'.upheld _ (π id))
    (e.graph.answer_unbinder hr hr' id coreDispatch)).bind
    (fun _ _ _ _ _ _ _ h => (e.beheld h).toStateInStep) fun found _ u v _ _ hfound h => ?_
  obtain ⟨ha, rfl⟩ := hfound
  obtain ⟨l, hundo, -⟩ := (Dispatch.unbinder_gives hr (valid_empty _) id).of_answer ha
  have e₁ := e.beheld h
  have hlife : u.workspace.graph.lifetime? id = some (.persistent s) := by
    have : u.workspace.graph = c.graph := h.1.graph
    rw [this]
    exact (hr.persistent_iff s id).1 hid
  rw [← h.1.graph] at hundo
  refine (matched_onWorkspace e₁.toStateInStep ((Unbinder.run_matched e₁.workspace hlife hundo).mono
    (fun _ _ _ _ _ _ hF h => ⟨hF, h.graphs⟩) fun _ _ _ _ _ _ hQ h => ⟨hQ, h.graphs⟩)).seq
    fun _ _ _ _ _ e₂ => matched_modify trivial (e₂.progress _ _ _ _)

theorem unbindSource_matched (e : SaneInStep X K π c d) (id : SourceId) :
    MatchedStates X (SaneInStep X K π) (unbindSource removing id c)
      (unbindSource removing id d) := by
  refine (e.setState id (by simp)).seq fun _ _ c₁ d₁ _ e₁ => matched_get ?_
  rw [e₁.graph.persistentNodes, ← List.map_reverse]
  -- the nodes of the source are the same all the time
  refine (Matched.bind (R := fun u v => SaneInStep X K π u v ∧
    u.graph.persistentNodes id = c₁.graph.persistentNodes id)
    (matched_forM ⟨e₁, rfl⟩ fun n hn u v h => ?_)
    (fun _ _ _ _ _ _ _ h => h.1) fun _ _ u v _ _ _ h => ?_)
  · have hn' : n ∈ u.graph.persistentNodes id := h.2 ▸ List.mem_reverse.1 hn
    have hstill : Ensures (unbindNode removing n) u _ _ := unbindNode_ensures h.1.left hn'
    exact (unbindNode_matched h.1 hn').mono
      (fun _ _ _ _ hu _ hF e => ⟨hF, e, ((hstill.error hu).2.persistent id).trans h.2⟩)
      fun _ _ _ _ hu _ hQ e => ⟨hQ, e, ((hstill.result hu).1.persistent id).trans h.2⟩
  · refine (h.1.setState id ?_).seq fun _ _ _ _ _ e => e.setDiagnostics id _
    cases removing <;> simp

theorem unbindSources_matched (e : SaneInStep X K π c d) (sources : List SourceId) :
    MatchedStates X (SaneInStep X K π) (unbindSources sources removing c)
      (unbindSources sources removing d) := by
  refine matched_get ((matched_startProgress e.left e.right _ _ _).bind
    (fun _ _ _ _ _ _ _ h => e.beheld h) fun _ _ u v _ _ _ h => ?_)
  exact matched_forM_same (e.beheld h) fun id _ _ _ e => unbindSource_matched e id

theorem settle_matched (e : SaneInStep X K π c d) :
    MatchedStates X (SaneInStep X K π) (settle c) (settle d) :=
  matched_of_ensures (settle_ensures (Q := fun _ => Looked K c) e.left fun _ h => h)
    (settle_ensures (Q := fun _ => Looked K d) e.right fun _ h => h)
    fun _ _ _ _ hu hv => ⟨trivial, e.beheld ⟨hu, hv⟩⟩

section Removal

variable (e : SaneInStep X K π c d) (hK : CoversMetamodel K) (sources : List SourceId)
  (huser : ∀ u ∈ c.graph.usages, c.graph.InTrees ((c.items sources).map (·.2)) u.target →
    ¬ c.graph.InTrees ((c.items sources).map (·.2)) u.user →
    u.property = "children" ∧ c.graph.isPackage u.user = true)
  (hrem : Predefined K → Removable c.graph ((c.items sources).map (·.2)))
  (hrem' : Predefined K → Removable d.graph ((d.items sources).map (·.2)))
include e hK huser hrem hrem'

theorem removeItems_matched : MatchedStates X (SaneInStep X K π)
    (onGraph removalError (Graph.removeNodes ((c.items sources).map (·.2))) c)
    (onGraph removalError (Graph.removeNodes ((d.items sources).map (·.2))) d) := by
  refine matched_sane ?_
    ((removeItems_runs e.left hK sources hrem).mono (fun _ _ h => h.1.sane)
      fun _ _ h => h.2 ▸ e.left)
    ((removeItems_runs e.right hK sources hrem').mono (fun _ _ h => h.1.sane)
      fun _ _ h => h.2 ▸ e.right)
  have hids (id : NodeId) (hid : id ∈ (c.items sources).map (·.2)) :
      ∃ s, c.graph.lifetime? id = some (.persistent s) := by
    obtain ⟨s, -, hmem⟩ := mem_items.1 hid
    exact ⟨s, (e.left.tidy.persistent_iff s id).1 hmem⟩
  rw [e.nodes]
  refine (matched_onWorkspace e.toStateInStep
    (Work.matched_onGraph (F := Eq) (e.graph.removeElements
    e.left.tidy.toRegular e.right.tidy.toRegular hids huser) fun _ _ h =>
      congrArg removalError h)).mono
    (fun _ _ _ _ _ _ hF e => ⟨hF, e⟩) fun _ _ _ _ _ _ _ e => ⟨trivial, e⟩

theorem removeSources_matched : MatchedStates X (SaneInStep X K π)
    (removeSources sources c) (removeSources sources d) := by
  refine matched_get (matched_when ?_
    (fun _ => (removeItems_matched e hK sources huser hrem hrem').discard)
    (fun _ => e) (fun _ _ h => h) fun u v e => ?_)
  · rw [e.nodes, List.isEmpty_map]
  · exact (matched_forM_same e fun id _ _ _ e => e.modifyUnit id (f := ungrouped) (fun _ => rfl)
      (fun _ => rfl) fun _ h => h).seq fun _ _ _ _ _ e => settle_matched e

end Removal

theorem withdraw_matched (e : SaneInStep X K π c d) (hK : CoversMetamodel K)
    {rebuild changed : List SourceId}
    (husers : ∀ t ∈ changed, ∀ r ∈ c.graph.persistentNodes t, ∀ u ∈ users c.graph r, ∀ s,
      c.graph.sourceOf? u = some s → s ∈ changed ++ rebuild)
    (husers' : ∀ t ∈ changed, ∀ r ∈ d.graph.persistentNodes t, ∀ u ∈ users d.graph r, ∀ s,
      d.graph.sourceOf? u = some s → s ∈ changed ++ rebuild) :
    MatchedStates X (SaneInStep X K π) (withdraw rebuild changed c)
      (withdraw rebuild changed d) := by
  refine (unbindSources_matched e rebuild).bind (fun _ _ _ _ _ _ _ h => h)
    fun _ _ c₁ d₁ hc₁ hd₁ _ e₁ => ?_
  refine (unbindSources_matched e₁ changed).bind (fun _ _ _ _ _ _ _ h => h)
    fun _ _ c₂ d₂ hc₂ hd₂ _ e₂ => ?_
  have h₁ := (unbindSources_ensures e.left rebuild).result hc₁
  have h₂ := (unbindSources_ensures e₁.left changed).result hc₂
  have h₁' := (unbindSources_ensures e.right rebuild).result hd₁
  have h₂' := (unbindSources_ensures e₁.right changed).result hd₂
  have hr := e₂.left.tidy.toRegular
  exact removeSources_matched e₂ hK changed
    (fun u hu ht hn => hr.toSound.holder_of_stripped (fun _ => mem_items)
      (fun _ hu hf hnone => hr.sourceless hu hf hnone)
      (fun s hs x hx => h₁.stripped h₂ (List.mem_append_left _ hs) hx)
      (h₁.stripped_users h₂ e.left husers) hu ht hn)
    (fun hpre => h₁.removable h₂ e.left hpre husers)
    fun hpre => h₁'.removable h₂' e.right hpre husers'

end Withdrawing

section Drafting

theorem runDraft_matched (e : SaneInStep X K π c d) (hK : CoversMetamodel K)
    {content : Content} (hadm : content.Admissible K) (hnone : c.graph.persistentNodes id = []) :
    Matched X Eq (fun a b => b.1 = a.1 ∧ b.2 = a.2.map π) (StateInStep X π) (runDraft id content c)
      (runDraft id content d) := by
  cases content with
  | script commands => exact hadm.elim
  | text text =>
    have hdraft := Grammar.together_draft (plain_core id) text ⟨c.graph, []⟩ ⟨d.graph, []⟩
      ⟨e.graph, e.left.tidy.toRegular.anchored, rfl⟩
    have hrun (x : Compiler) (hx : x.Sane K) : runDraft id (.text text) x =
        (Grammar.draft text ⟨id, coreFactories⟩ ⟨x.graph, []⟩).map fun r =>
          (.ok (r.1, r.2.importGroups),
          { x with workspace := { x.workspace with graph := r.2.graph } }) := by
      rw [runDraft_eq, hx.factories, Content.draft]
    have hblame := runDraft_ensures (E := fun _ _ => False) e.left hK hadm hnone
    unfold Ensures at hblame
    rw [hrun c e.left] at hblame ⊢
    rw [hrun d e.right]
    generalize Grammar.draft text ⟨id, coreFactories⟩ ⟨c.graph, []⟩ = left at *
    generalize Grammar.draft text ⟨id, coreFactories⟩ ⟨d.graph, []⟩ = right at *
    cases hdraft with
    | breach hb => exact .breach hb
    | ok _ h => exact .ok ⟨rfl, h.importGroups⟩ ⟨h.graph, e.sources, e.staged⟩
    | error hx h =>
      refine .ok ⟨?_, h.importGroups⟩ ⟨h.graph, e.sources, e.staged⟩
      obtain ⟨_, _, heq, g, -, -, -, hblame⟩ | ⟨_, _, _, hf⟩ := hblame
      · obtain ⟨heq, -⟩ := ok_mk_inj heq
        rw [hx.resolve_left (hblame _ (by rw [← Except.ok.inj heq]))]
      · exact hf.elim

theorem parseSource_matched (e : SaneInStep X K π c d) (hK : CoversMetamodel K)
    {unit : SourceUnit} (hu : c.sources.find? id = some unit) (hst : unit.state = .unregistered) :
    MatchedStates X (SaneInStep X K π) (parseSource id c) (parseSource id d) := by
  have hu' : d.sources.find? id = some (unit.relabel π) := by
    rw [e.find?, hu]
    rfl
  refine matched_sane ?_
    ((parseSource_ensures e.left hK hu hst).mono (fun _ _ h => h.sane) fun _ _ h => h.2.1.sane).runs
    ((parseSource_ensures e.right hK hu' hst).mono (fun _ _ h => h.sane) fun _ _ h =>
      h.2.1.sane).runs
  have hadm := e.left.contents id unit hu
  have hnone := e.left.blank id unit hu hst
  refine matched_get ?_
  rw [hu, hu']
  refine (runDraft_matched e hK hadm hnone).bind (fun _ _ _ _ _ _ _ h => h)
    fun a b u v hrun hrun' hab e₁ => ?_
  obtain ⟨g, rfl, hd, -⟩ :=
    (runDraft_ensures (E := fun _ _ => False) e.left hK hadm hnone).result hrun
  obtain ⟨h, rfl, hd', -⟩ := (runDraft_ensures (E := fun _ _ => False) e.right hK
    (e.right.contents id _ hu') (e.right.blank id _ hu' hst)).result hrun'
  obtain ⟨_, groups⟩ := a
  obtain ⟨answer, _⟩ := b
  obtain ⟨hanswer, hgroups⟩ := hab
  dsimp only at hanswer hgroups
  subst hanswer hgroups
  cases answer with
  | ok _ => exact e₁.modifyUnit id fun _ => rfl
  | error x =>
    refine matched_get (matched_when ?_ (fun _ => Matched.discard (Q := fun a b => b = a.map π) ?_)
      (fun _ => e₁) (fun _ _ h => h) fun u v e => ?_)
    · rw [e₁.graph.persistentNodes, List.isEmpty_map]
    · rw [e₁.graph.persistentNodes]
      refine matched_onWorkspace e₁
        (Work.matched_onGraph (F := Eq) (e₁.graph.removeElements hd.regular
        hd'.regular (fun n hn => ?_) hd.removable.user) fun _ _ h => congrArg _ h)
      exact ⟨id, (hd.regular.persistent_iff id n).1 hn⟩
    · refine (e.setState id _).seq fun _ _ _ _ _ e => (e.setDiagnostics id _).seq
        fun _ _ _ _ _ e => ?_
      split
      · exact matched_throw rfl e
      · exact matched_pure trivial e

theorem parseSources_matched (hK : CoversMetamodel K) {ids : List SourceId}
    (hnodup : ids.Nodup) : ∀ {c d : Compiler}, SaneInStep X K π c d →
    (∀ s ∈ ids, ∃ unit, c.sources.find? s = some unit ∧ unit.state = .unregistered) →
    MatchedStates X (SaneInStep X K π) (ids.forM parseSource c)
      (ids.forM parseSource d) := by
  induction ids with
  | nil => exact fun e _ => matched_pure trivial e
  | cons id ids ih =>
    intro c d e hids
    obtain ⟨hid, hnodup⟩ := List.nodup_cons.1 hnodup
    obtain ⟨unit, hu, hst⟩ := hids id List.mem_cons_self
    refine (parseSource_matched e hK hu hst).bind (fun _ _ _ _ _ _ _ h => h)
      fun _ _ u v hrun _ _ e₁ => ih hnodup e₁ fun s hs => ?_
    have hparsed := (parseSource_ensures e.left hK hu hst).result hrun
    rw [hparsed.units s fun h => hid (List.mem_singleton.1 h ▸ hs)]
    exact hids s (List.mem_cons_of_mem _ hs)

end Drafting

section Sources

theorem takeStaged_matched (e : SaneInStep X K π c d) (hc : c.Ready K) (hd : d.Ready K) :
    Matched X Eq Eq (SaneInStep X K π) (takeStaged c) (takeStaged d) := by
  refine matched_sane ?_ ((takeStaged_ensures (E := fun _ u => u.Sane K) hc).imp
    fun _ _ h => h.2.sane).runs
    ((takeStaged_ensures (E := fun _ u => u.Sane K) hd).imp fun _ _ h => h.2.sane).runs
  refine matched_get ?_
  rw [e.staged]
  refine Matched.seq (Q := fun _ _ => True) (matched_modify (R := StateInStep X π) trivial ?_)
    fun _ _ _ _ _ e => (matched_forM_same e fun entry _ u v e => ?_).seq fun _ _ _ _ _ e =>
      matched_pure rfl e
  · exact ⟨e.graph, e.sources, rfl⟩
  obtain ⟨id, change⟩ := entry
  cases change with
  | create content =>
    refine matched_modify trivial ⟨e.graph, ?_, e.staged⟩
    show v.sources.insert id { content } = (u.sources.insert id { content }).map _
    rw [e.sources, ← Catalog.insert_map]
    rfl
  | modify content | delete => exact matched_pure trivial e

theorem replaceSources_matched (e : StateInStep X π c d) (staged : Catalog Change) :
    MatchedStates X (StateInStep X π) (replaceSources staged c) (replaceSources staged d) := by
  refine Matched.seq (Q := fun _ _ => True) (matched_modify (R := StateInStep X π) trivial ?_)
    fun _ _ _ _ _ e => matched_forM_same e fun entry _ u v e => ?_
  · refine ⟨e.graph, ?_, e.staged⟩
    show (deletedSources staged).foldl Catalog.erase d.sources = _
    rw [e.sources, Catalog.foldl_erase_map]
  · obtain ⟨id, change⟩ := entry
    cases change with
    | create content => exact matched_pure trivial e
    | modify content => exact e.modifyUnit id fun _ => rfl
    | delete => exact matched_pure trivial e

theorem StateInStep.retried (e : StateInStep X π c d) (changed : List SourceId) :
    retried d changed = retried c changed := by
  simp only [Compiler.retried, e.sources, Catalog.map, List.filter_map, List.map_map]
  rfl

theorem prepare_matched (e : SaneInStep X K π c d) (hc : c.Ready K) (hd : d.Ready K)
    (hK : CoversMetamodel K) :
    Matched X Eq Eq (SaneInStep X K π) (prepare c) (prepare d) := by
  refine (takeStaged_matched e hc hd).bind (fun _ _ _ _ _ _ _ h => h)
    fun staged _ c₁ d₁ hrun₁ _ hstaged e₁ => ?_
  subst hstaged
  obtain ⟨rfl, -⟩ := (takeStaged_ensures (E := fun _ _ => False) hc).result hrun₁
  refine matched_get ?_
  rw [e₁.retried]
  generalize hchanged : changedSources c.staged = changed
  generalize hretry : retried c₁ changed = retry
  refine (dependents_matched e₁ (changed ++ retry)).bind (fun _ _ _ _ _ _ _ h => e₁.beheld h)
    fun rebound _ c₂ d₂ hrun₂ hrun₂' hrebound h₂ => ?_
  subst hrebound
  have e₂ := e₁.beheld h₂
  have hrebuild (s : SourceId) :
      s ∈ (Text.sort (retry ++ rebound)).eraseDups ↔ s ∈ retry ∨ s ∈ rebound := by
    simp only [List.mem_eraseDups, mem_sort, List.mem_append]
  generalize (Text.sort (retry ++ rebound)).eraseDups = rebuild at hrebuild ⊢
  -- what refers to a changed source is changed or rebuilt
  have husers {x y : Compiler} (hsane : x.Sane K) (hlook : Looked K x y)
      (hrun : dependents (changed ++ retry) x = .ok (.ok rebound, y)) : ∀ t ∈ changed,
      ∀ r ∈ y.graph.persistentNodes t, ∀ u ∈ users y.graph r, ∀ s,
        y.graph.sourceOf? u = some s → s ∈ changed ++ rebuild := by
    obtain ⟨-, hdep⟩ := (dependents_ensures hsane _).result hrun
    rw [hlook.graph]
    intro t ht r hr u hu s hs
    have := hdep.users t (by simp [ht]) r hr u hu s hs
    simp only [List.mem_append] at this ⊢
    rw [hrebuild]
    tauto
  have hdisjoint (s : SourceId) (hs : s ∈ rebuild) : s ∉ changed := by
    rcases (hrebuild s).1 hs with hs | hs
    · rw [← hretry] at hs
      exact (e₁.left.mem_retried.1 hs).1
    · obtain ⟨-, hdep⟩ := (dependents_ensures e₁.left _).result hrun₂
      exact fun hch => hdep.new s hs (List.mem_append_left _ hch)
  refine (withdraw_matched e₂ hK (husers e₁.left h₂.1 hrun₂) (husers e₁.right h₂.2 hrun₂')).bind
    (fun _ _ _ _ _ _ _ h => h) fun _ _ c₃ d₃ hrun₃ hrun₃' _ e₃ => ?_
  have h₃ := (withdraw_runs e₂.left hK hdisjoint (husers e₁.left h₂.1 hrun₂)).result hrun₃
  have h₃' := (withdraw_runs e₂.right hK hdisjoint (husers e₁.right h₂.2 hrun₂')).result hrun₃'
  have hreplace {x : Compiler} (hsane : x.Sane K)
      (hempty : ∀ s ∈ changed, x.graph.persistentNodes s = []) :=
    replaceSources_ensures (E := fun _ u => u.Sane K) hsane hc.ordered (hchanged ▸ hempty)
      fun id content hch => hc.offered id _ content hch rfl
  refine (matched_sane (replaceSources_matched e₃.toStateInStep c.staged)
    ((hreplace e₃.left h₃.empty).imp fun _ _ h => h.sane).runs
    ((hreplace e₃.right h₃'.empty).imp fun _ _ h => h.sane).runs).seq
    fun _ _ c₄ d₄ _ e₄ => matched_get ?_
  rw [e₄.inState]
  refine (parseSources_matched hK (e₄.left.nodup_inState _) e₄ fun s hs =>
    e₄.left.mem_inState.1 hs).seq fun _ _ c₅ d₅ _ e₅ => matched_get ?_
  rw [e₅.inState]
  exact matched_pure rfl e₅

end Sources

end Compiler

end ModelCompiler
