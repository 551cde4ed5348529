import ModelCompiler.Proofs.Slots.Preparing

/-!
The phases of a compile on compilers in step, and whole sessions.
-/
open ModelCompiler.Action ModelCompiler.Graph ModelCompiler.Lineage ModelCompiler.Handler

namespace ModelCompiler

inductive Jointly {α β : Type} (Q : α → β → Prop) : Except Breach α → Except Breach β → Prop
  | breach (b b' : Breach) : Jointly Q (.error b) (.error b')
  | ok {a : α} {b : β} : Q a b → Jointly Q (.ok a) (.ok b)

def Binder.found (g : Graph) (id : NodeId) : Binder → Except (List CompileError) (List Binding)
  | .element => bindElement g id
  | .idle | .recipe _ => .ok []

theorem Binder.run_found {w : Workspace} {id : NodeId} {b : Binder} (hb : ∀ r, b ≠ .recipe r) :
    b.run id w = .ok (b.found w.graph id, w) := by
  cases b with
  | idle => rfl
  | element =>
    have hgraph : (Work.graph : Work (List CompileError) Graph) w = .ok (.ok w.graph, w) := rfl
    rw [Binder.found, Binder.run, run_bind, hgraph]
    dsimp only
    cases bindElement w.graph id <;> rfl
  | recipe r => exact absurd rfl (hb r)

namespace Graph.SameUpTo

variable {K : NodeId → Prop} {π : NodeId → NodeId} {g h : Graph} (e : SameUpTo π g h)
include e

theorem binderFound (b : Binder) (id : NodeId) :
    b.found h (π id) = (b.found g id).map (List.map (Binding.relabel π)) := by
  cases b with
  | element => exact e.bindElement id
  | idle | recipe => rfl

theorem verdicts (hr : g.Regular K) (hr' : h.Regular K) {id : NodeId} {p : Path}
    (hp : g.path? id = some p) : ModelCompiler.verdict h (π id) = ModelCompiler.verdict g id := by
  unfold ModelCompiler.verdict
  rw [e.answer_validator hr hr', e.accessErrors hp fun stub target ht =>
    ((hr.fits stub _ target (List.mem_of_head? ht)).resolvedNode rfl).2.path]
  cases Query.answer (coreDispatch.validator g id) with
  | error x => rfl
  | ok found =>
    obtain ⟨v, origin⟩ := found
    simp only [e.verdict hr hr' hp]

end Graph.SameUpTo

namespace Compiler

variable {X : Prop} {K : NodeId → Prop} {π : NodeId → NodeId} {c d : Compiler}
  {batch : List SourceId}

section Binding

theorem matched_conclude {ε δ : Type} {F : ε → δ → Prop} (e : StateInStep X π c d) (id : SourceId)
    (next : SourceState) (errors : List CompileError) (halted : Bool) :
    Matched X F (fun _ _ => True) (StateInStep X π)
      ((conclude id next errors halted : Action Compiler ε Unit) c)
      ((conclude id next errors halted : Action Compiler δ Unit) d) := by
  refine (e.setDiagnostics id errors).seq fun _ _ _ _ _ e => ?_
  split
  · exact e.setState id next
  · exact matched_pure trivial e

theorem matched_concludeAll {ε δ : Type} {F : ε → δ → Prop} (e : StateInStep X π c d)
    (next : SourceState) (errors : List (SourceId × CompileError)) (halted : Bool) :
    Matched X F (fun _ _ => True) (StateInStep X π)
      ((batch.forM fun id => conclude id next (errorsOf id errors) halted :
        Action Compiler ε PUnit) c)
      ((batch.forM fun id => conclude id next (errorsOf id errors) halted :
        Action Compiler δ PUnit) d) :=
  matched_forM_same e fun id _ _ _ e => matched_conclude e id next _ halted

def bindingsAt (g : Graph) (id : NodeId) : Except (List CompileError) (List Binding) :=
  match Query.answer (coreDispatch.binder g id) with
  | .ok (binder, _) => binder.found g id
  | .error x => .error [x]

theorem bindingsAt_map {g h : Graph} (e : SameUpTo π g h) (hr : g.Regular K) (hr' : h.Regular K)
    (id : NodeId) : bindingsAt h (π id) = (bindingsAt g id).map (List.map (Binding.relabel π)) := by
  unfold bindingsAt
  rw [e.answer_binder hr hr']
  cases Query.answer (coreDispatch.binder g id) with
  | error x => rfl
  | ok found => exact e.binderFound found.1 id

theorem bindNode_bindingsAt (hs : c.Sane K) (item : SourceId × NodeId)
    {E : CompileError → Compiler → Prop} : Ensures (bindNode item) c
      (fun r c' => r = (item.1, bindingsAt c.graph item.2) ∧ Looked K c c') E := by
  obtain ⟨hsteady, hplain⟩ := Dispatch.binder_plain hs.tidy.toRegular.upheld item.2
  have hdone {c₁ : Compiler} {answer : Except (List CompileError) (List Binding)}
      (h₁ : Looked K c c₁) (ha : answer = bindingsAt c.graph item.2) :
      Ensures (do advance; return (item.1, answer) : Compiling _) c₁
        (fun r c' => r = (item.1, bindingsAt c.graph item.2) ∧ Looked K c c') E :=
    ensures_bind (advance_ensures h₁.sane fun c₂ h₂ => ensures_pure ⟨by rw [ha], h₁.trans h₂⟩)
  refine ensures_bind (ensures_attempt (ask_ensures hs (gives_answer hsteady hs.orderly.valid)
    (fun found c₁ ha h₁ => ?_) fun x c₁ ha h₁ => ?_))
  · have hrun : ((onWorkspace (found.1.run item.2)).attempt :
        Compiling (Except (List CompileError) (List Binding))) c₁ =
        .ok (.ok (found.1.found c₁.graph item.2), c₁) := by
      have hfound : found.1.run item.2 c₁.workspace = _ := Binder.run_found (hplain _ ha)
      unfold onWorkspace Action.attempt Action.within
      rw [hfound]
      show Except.ok (Except.ok ((found.1.found c₁.graph item.2).mapError fun x => x), _) = _
      cases found.1.found c₁.graph item.2 <;> rfl
    refine ensures_bind (ensures_of_eq hrun (hdone h₁ ?_))
    rw [bindingsAt, ha, h₁.graph]
  · refine ensures_bind (ensures_pure (hdone h₁ ?_))
    rw [bindingsAt, ha]

def relabelAnswer (π : NodeId → NodeId)
    (answer : SourceId × Except (List CompileError) (List Binding)) :
    SourceId × Except (List CompileError) (List Binding) :=
  (answer.1, answer.2.map (List.map (Binding.relabel π)))

variable (answers : List (SourceId × Except (List CompileError) (List Binding)))

theorem bindingErrors_relabel :
    bindingErrors (answers.map (relabelAnswer π)) = bindingErrors answers := by
  simp only [bindingErrors, List.flatMap_map]
  refine List.flatMap_congr fun answer _ => ?_
  obtain ⟨s, _ | _⟩ := answer <;> rfl

theorem bindingsOf_relabel (id : SourceId) : bindingsOf id (answers.map (relabelAnswer π)) =
    (bindingsOf id answers).map (Binding.relabel π) := by
  simp only [bindingsOf, List.filter_map, List.flatMap_map, List.map_flatMap]
  refine List.flatMap_congr fun answer _ => ?_
  obtain ⟨s, _ | _⟩ := answer <;> rfl

theorem applyBindings_matched (e : StateInStep X π c d) (bindings : List Binding) :
    MatchedStates X (StateInStep X π) (applyBindings bindings c)
      (applyBindings (bindings.map (Binding.relabel π)) d) :=
  matched_onWorkspace e (matched_forM (R := Workspace.GraphsInStep X π) e.graph fun b _ _ _ e =>
    Work.matched_update (InStep.setValues e b.node b.property [b.value]))

theorem bindPhase_matched (e : SaneInStep X K π c d) (batch : List SourceId) :
    MatchedStates X (SaneInStep X K π) (bindPhase batch c) (bindPhase batch d) := by
  refine matched_sane ?_
    ((bindPhase_ensures e.left batch).mono (fun _ _ ⟨_, h, _⟩ => h.sane)
      fun _ _ ⟨_, h, _⟩ => h.sane).runs
    ((bindPhase_ensures e.right batch).mono (fun _ _ ⟨_, h, _⟩ => h.sane)
      fun _ _ ⟨_, h, _⟩ => h.sane).runs
  have hr := e.left.tidy.toRegular
  have hr' := e.right.tidy.toRegular
  refine matched_get ((matched_startProgress e.left e.right _ _ _).bind
    (fun _ _ _ _ _ _ _ h => (e.beheld h).toStateInStep) fun _ _ u v _ _ _ h => ?_)
  -- the answers are those of the graphs, whoever works on them
  have hpoll {x y : Compiler} (pool : Pool) (threshold : Nat) (hxy : Looked K x y) :
      Ensures (pool.mapM threshold bindNode (x.items batch)) y (fun answers z =>
        answers = (x.items batch).map
        (fun item => (item.1, bindingsAt x.graph item.2)) ∧ Looked K x z)
        fun _ _ => False :=
    Pool.ensures_mapM_eq hxy fun item _ z hz => (bindNode_bindingsAt hz.sane item).imp
      (fun _ _ h => ⟨hz.graph ▸ h.1, hz.trans h.2⟩)
  refine (matched_of_ensures (Q := fun a b => b = a.map (relabelAnswer π)) (R := Beheld K c d)
    (hpoll _ _ h.1) (hpoll _ _ h.2) fun a b u' v' ha hb => ⟨?_, ha.2, hb.2⟩).bind
    (fun _ _ _ _ _ _ _ h => (e.beheld h).toStateInStep) fun answers _ u v _ _ hanswers h => ?_
  · rw [ha.1, hb.1, e.items, List.map_map, List.map_map]
    refine List.map_congr_left fun item _ => ?_
    simp only [Function.comp, relabelAnswer, bindingsAt_map e.graph.toSameUpTo hr hr']
  subst hanswers
  rw [bindingErrors_relabel]
  refine (matched_forM_same (e.beheld h).toStateInStep fun id _ u v e => ?_).seq
    fun _ _ _ _ _ e => ?_
  · rw [bindingsOf_relabel]
    exact matched_when Iff.rfl (fun _ => applyBindings_matched e _) (fun _ => e) (fun _ _ h => h)
      fun u v e => matched_conclude e id _ _ _
  · cases fatal? (bindingErrors answers) with
    | some x => exact matched_throw rfl e
    | none => exact matched_pure trivial e

end Binding

section Processing

def relabelItem (π : NodeId → NodeId) (item : SourceId × NodeId × Processor) :
    SourceId × NodeId × Processor :=
  (item.1, π item.2.1, item.2.2)

theorem inOrder_relabel (items : List (SourceId × NodeId × Processor)) :
    inOrder (items.map (relabelItem π)) = (inOrder items).map (relabelItem π) := by
  simp only [inOrder, List.filter_map, List.map_append]
  rfl

theorem schedule_matched {F : CompileError → CompileError → Prop} :
    ∀ (items : List (SourceId × NodeId)) {c d : Compiler}, SaneInStep X K π c d →
    Matched X F (fun r r' => r'.1 = r.1.map (relabelItem π) ∧ r'.2 = r.2) (Beheld K c d)
      (schedule items c) (schedule (items.map fun item => (item.1, π item.2)) d) := by
  intro items
  induction items with
  | nil => exact fun e => matched_pure ⟨rfl, rfl⟩ ⟨e.left.looked, e.right.looked⟩
  | cons item items ih =>
    intro c d e
    obtain ⟨source, id⟩ := item
    have hr := e.left.tidy.toRegular
    have hr' := e.right.tidy.toRegular
    refine (matched_ask e (f := fun d g => d.processor g id) (k := fun d g => d.processor g (π id))
      (Dispatch.processor_steady hr.upheld _ id) (Dispatch.processor_steady hr'.upheld _ (π id))
      (e.graph.answer_processor hr hr' id coreDispatch)).attempt.bind (fun _ _ _ _ _ _ _ h => h)
      fun r r' u v _ _ hrr' h => ?_
    cases hrr' with
    | error hx =>
      subst hx
      exact matched_pure ⟨rfl, rfl⟩ h
    | ok hx =>
      obtain ⟨-, rfl⟩ := hx
      refine (ih (e.beheld h)).bind (fun _ _ _ _ _ _ _ h' => h.trans h')
        fun q q' _ _ _ _ hq h' => ?_
      refine matched_pure ⟨?_, hq.2⟩ (h.trans h')
      rw [hq.1]
      rfl

theorem Planned.ran (hs : c.Sane K) (hK : CoversMetamodel K) {s : SourceId}
    {x : NodeId} {p : Processor} (hplan : Planned K c.graph (s, x, p)) :
    Ensures (onWorkspace (p.run x)) c (fun _ u => u.Sane K ∧ Works K (· = x) c.graph u.graph)
      fun _ u => u.Sane K ∧ Works K (· = x) c.graph u.graph := by
  have hx : x ∈ c.graph.persistentNodes s := (hs.tidy.persistent_iff s x).2 hplan.element
  have hdone {w : Workspace} (hw : RanProcessor K p x c.workspace w) :
      Sane K { c with workspace := w } ∧ Works K (· = x) c.graph w.graph :=
    ⟨(hs.worked (T := (· = s)) ⟨hw.processed.works, hw.orderly⟩ fun y hy => ⟨s, rfl, hy ▸ hx⟩).sane,
      hw.processed.works⟩
  exact onWorkspace_ensures ((Processor.run_ensures hs.orderly hK hplan.element hplan.suits).mono
    (fun _ _ h => hdone h.1) fun _ _ h => hdone h.1)

theorem Planned.relabel {g h : Graph} (e : SameUpTo π g h) {item : SourceId × NodeId × Processor}
    (hp : Planned K g item) : Planned K h (relabelItem π item) where
  element := by
    rw [relabelItem, e.lifetime?, hp.element]
    rfl
  suits := ⟨hp.suits.core, fun h => hp.suits.class_ (e.classifierPath? _ ▸ h),
    fun h => hp.suits.association (e.classifierPath? _ ▸ h)⟩
  function hK hf := (e.classifierPath? _).trans (hp.function hK hf)

theorem processAll_matched (hK : CoversMetamodel K) :
    ∀ (items : List (SourceId × NodeId × Processor)) {c d : Compiler}, SaneInStep X K π c d →
    (∀ item ∈ items, Planned K c.graph item) →
    Matched X Eq Eq (SaneInStep X K π) (processAll items c)
      (processAll (items.map (relabelItem π)) d) := by
  intro items
  induction items with
  | nil => exact fun e _ => matched_pure rfl e
  | cons item rest ih =>
    intro c d e hitems
    obtain ⟨s, x, p⟩ := item
    have hplan := hitems _ List.mem_cons_self
    have hran := hplan.ran e.left hK
    have hran' := Planned.ran e.right hK (hplan.relabel e.graph.toSameUpTo)
    have hrest {u : Compiler} (hw : Works K (· = x) c.graph u.graph) :
        ∀ item ∈ rest, Planned K u.graph item := fun item hitem =>
      (hitems item (List.mem_cons_of_mem _ hitem)).works hw e.left.tidy
    have hrun : MatchedStates X (fun u v => SaneInStep X K π u v ∧
        ∀ item ∈ rest, Planned K u.graph item) (onWorkspace (p.run x) c)
          (onWorkspace (p.run (π x)) d) := by
      refine (matched_onWorkspace e.toStateInStep
        ((Processor.run_matched e.workspace hplan.element hK
        hplan.suits).mono (fun _ _ _ _ _ _ hF h => ⟨hF, h.graphs⟩) fun _ _ _ _ _ _ hQ h =>
          ⟨hQ, h.graphs⟩)).mono (fun _ _ _ _ hu hv hF h => ⟨hF, ?_, ?_⟩)
        fun _ _ _ _ hu hv hQ h => ⟨hQ, ?_, ?_⟩
      · exact ⟨h, (hran.error hu).1, (hran'.error hv).1⟩
      · exact hrest (hran.error hu).2
      · exact ⟨h, (hran.result hu).1, (hran'.result hv).1⟩
      · exact hrest (hran.result hu).2
    refine Matched.bind hrun.attempt (fun _ _ _ _ _ _ _ h => h.1) fun r r' u v _ _ hr h => ?_
    rcases hr with rfl | _
    all_goals
      refine (matched_pure (Q := Eq) (R := fun u v => SaneInStep X K π u v ∧ ∀ item ∈ rest,
        Planned K u.graph item) rfl h).bind (fun _ _ _ _ _ _ _ h => h.1)
          fun found _ u v _ _ hf h => ?_
      subst hf
      dsimp only
      cases fatal? found with
      | some x => exact matched_pure rfl h.1
      | none =>
        refine (matched_advance h.1.left h.1.right).bind (fun _ _ _ _ _ _ _ h' => h.1.beheld h')
          fun _ _ u' v' _ _ _ h' => ?_
        exact (ih (h.1.beheld h') (h'.1.graph ▸ h.2)).seq fun q q' _ _ hq e =>
          matched_pure (by rw [hq]) e

theorem processPhase_matched (e : SaneInStep X K π c d) (hK : CoversMetamodel K)
    (batch : List SourceId) :
    Matched X Eq Eq (SaneInStep X K π) (processPhase batch c) (processPhase batch d) := by
  refine matched_sane ?_
    ((processPhase_ensures e.left hK batch).mono (fun _ _ ⟨_, _, h, _⟩ => h.sane)
      fun _ _ ⟨_, h⟩ => h.sane).runs
    ((processPhase_ensures e.right hK batch).mono (fun _ _ ⟨_, _, h, _⟩ => h.sane)
      fun _ _ ⟨_, h⟩ => h.sane).runs
  refine matched_get ((matched_of_ensures (Q := fun _ _ => True) (R := Beheld K c d)
    (warmUp_ensures e.left fun item h => e.left.contains_item h)
    (warmUp_ensures e.right fun item h => e.right.contains_item h)
    fun _ _ _ _ hu hv => ⟨trivial, hu, hv⟩).bind (fun _ _ _ _ _ _ _ h => (e.beheld h).toStateInStep)
    fun _ _ c₁ d₁ _ _ _ h₁ => ?_)
  refine (matched_startProgress h₁.1.sane h₁.2.sane _ _ _).bind
    (fun _ _ _ _ _ _ _ h => (e.beheld (h₁.trans h)).toStateInStep) fun _ _ c₂ d₂ _ _ _ h => ?_
  have h₂ := h₁.trans h
  rw [e.items]
  refine (schedule_matched (c.items batch) (e.beheld h₂)).bind
    (fun _ _ _ _ _ _ _ h => (e.beheld (h₂.trans h)).toStateInStep) fun r r' c₃ d₃ hrun _ hr h => ?_
  have h₃ := h₂.trans h
  obtain ⟨-, hplan, -⟩ := (schedule_ensures (E := fun _ _ => False) h₂.1.sane fun item h => by
    rw [h₂.1.graph]
    exact (e.left.of_mem_items h).2).result hrun
  obtain ⟨scheduled, _⟩ := r
  obtain ⟨_, missing⟩ := r'
  obtain ⟨hscheduled, hmissing⟩ := hr
  dsimp only at hscheduled hmissing
  subst hscheduled hmissing
  have hplanned (item) (hmem : item ∈ inOrder scheduled) : Planned K c₃.graph item := by
    rw [h.1.graph]
    exact hplan item ((perm_inOrder scheduled).mem_iff.1 hmem)
  rcases missing with _ | x
  case' none =>
    refine Matched.bind (inOrder_relabel (π := π) scheduled ▸
      processAll_matched hK (inOrder scheduled) (e.beheld h₃) hplanned)
      (fun _ _ _ _ _ _ _ h => h.toStateInStep) fun q q' _ _ _ _ hq e => ?_
  case' some =>
    refine (matched_pure (Q := Eq) (R := SaneInStep X K π) rfl (e.beheld h₃)).bind
      (fun _ _ _ _ _ _ _ h => h.toStateInStep) fun q q' _ _ _ _ hq e => ?_
  all_goals
    subst hq
    dsimp only
    refine (matched_concludeAll e.toStateInStep _ _ _).seq fun _ _ _ _ _ e => ?_
    rcases q with ⟨errors, _ | x⟩
    · exact matched_pure rfl e
    · dsimp only
      split
      · exact matched_pure rfl e
      · exact matched_throw rfl e

end Processing

section Validation

theorem validateItems_matched (e : SaneInStep X K π c d) (sources : List SourceId) :
    Matched X Eq Eq (Beheld K c d) (validateItems (c.items sources) c)
      (validateItems (d.items sources) d) := by
  refine matched_of_ensures (validateItems_ensures e.left fun _ h => e.left.contains_item h)
    (validateItems_ensures e.right fun _ h => e.right.contains_item h)
    fun errors errors' _ _ hu hv => ⟨?_, hu.2, hv.2⟩
  rw [hu.1, hv.1, e.items, verdicts, verdicts, List.flatMap_map]
  refine (List.flatMap_congr fun item hmem => ?_).symm
  obtain ⟨s, -, hmem⟩ := List.mem_flatMap.1 hmem
  obtain ⟨x, hx, rfl⟩ := List.mem_map.1 hmem
  obtain ⟨p, hp⟩ := e.left.tidy.located x s ((e.left.tidy.persistent_iff s x).1 hx)
  simp only [e.graph.verdicts e.left.tidy.toRegular e.right.tidy.toRegular hp]

theorem validatePhase_matched (e : SaneInStep X K π c d) (batch : List SourceId) :
    MatchedStates X (SaneInStep X K π) (validatePhase batch c) (validatePhase batch d) := by
  refine matched_sane ?_
    ((validatePhase_ensures e.left batch).mono (fun _ _ h => h.1.sane) fun _ _ h => h.1.sane).runs
    ((validatePhase_ensures e.right batch).mono (fun _ _ h => h.1.sane) fun _ _ h => h.1.sane).runs
  refine matched_get ((validateItems_matched e batch).bind
    (fun _ _ _ _ _ _ _ h => (e.beheld h).toStateInStep) fun errors _ _ _ _ _ herrors h => ?_)
  subst herrors
  refine (matched_concludeAll (e.beheld h).toStateInStep _ _ _).seq fun _ _ _ _ _ e => ?_
  cases fatal? errors with
  | some x => exact matched_throw rfl e
  | none => exact matched_pure trivial e

theorem runPhases_matched (e : SaneInStep X K π c d) (hK : CoversMetamodel K)
    (batch : List SourceId) :
    Matched X Eq Eq (SaneInStep X K π) (runPhases batch c) (runPhases batch d) := by
  unfold runPhases
  split
  · exact matched_pure rfl e
  · refine (bindPhase_matched e batch).seq fun _ _ c₁ d₁ _ e₁ => matched_get ?_
    rw [e₁.inState]
    refine (processPhase_matched e₁ hK _).seq fun aborted _ c₂ d₂ haborted e₂ => ?_
    subst haborted
    split
    · refine matched_get ?_
      rw [e₂.inState]
      exact (validatePhase_matched e₂ _).seq fun _ _ _ _ _ e => matched_pure rfl e
    · exact matched_pure rfl e₂

end Validation

section Calls

theorem StateInStep.outcomes (e : StateInStep X π c d) (deleted touched : List SourceId) :
    outcomes d deleted touched = outcomes c deleted touched := by
  unfold Compiler.outcomes
  simp only
  congr 1
  funext o id
  rw [e.find?]
  cases c.sources.find? id <;> rfl

theorem compile_matched (e : SaneInStep X K π c d) (hc : c.Ready K) (hd : d.Ready K)
    (hK : CoversMetamodel K) :
    Matched X Eq Eq (SaneInStep X K π) (compile c) (compile d) := by
  refine (prepare_matched e hc hd hK).seq fun agenda _ c₁ d₁ hagenda e₁ => ?_
  subst hagenda
  refine (runPhases_matched e₁ hK _).seq fun aborted _ c₂ d₂ haborted e₂ => matched_get ?_
  rw [haborted, e₂.outcomes]
  exact matched_pure rfl e₂

section Staging

variable (e : StateInStep X π c d) (id : SourceId) (content : Content)
include e

theorem StateInStep.contains : d.sources.contains id = c.sources.contains id := by
  rw [e.sources, Catalog.contains_map]

theorem StateInStep.exists_ : d.exists_ id = c.exists_ id := by
  simp only [Compiler.exists_, e.staged, e.contains]

theorem StateInStep.stage (change : Change) :
    MatchedStates X (StateInStep X π) (stage id change c) (stage id change d) := by
  refine matched_modify trivial ⟨e.graph, e.sources, ?_⟩
  show d.staged.insert id change = c.staged.insert id change
  rw [e.staged]

theorem createSource_matched :
    MatchedStates X (StateInStep X π) (createSource id content c)
      (createSource id content d) := by
  refine matched_get ?_
  rw [e.exists_, e.contains]
  split
  · exact matched_throw rfl e
  · exact e.stage id _

theorem modifySource_matched :
    MatchedStates X (StateInStep X π) (modifySource id content c)
      (modifySource id content d) := by
  refine matched_get ?_
  rw [e.exists_, e.staged]
  split
  · rcases c.staged.find? id with _ | ⟨_ | _ | _⟩
    all_goals exact e.stage id _
  · exact matched_throw rfl e

theorem deleteSource_matched :
    MatchedStates X (StateInStep X π) (deleteSource id c) (deleteSource id d) := by
  refine matched_get ?_
  rw [e.exists_, e.contains]
  split
  · split
    · exact e.stage id _
    · refine matched_modify trivial ⟨e.graph, e.sources, ?_⟩
      show d.staged.erase id = c.staged.erase id
      rw [e.staged]
  · exact matched_throw rfl e

theorem putSource_matched :
    MatchedStates X (StateInStep X π) (putSource id content c) (putSource id content d) := by
  refine matched_get ?_
  rw [e.exists_]
  split
  · exact modifySource_matched e id content
  · exact createSource_matched e id content

end Staging

theorem validateSource_matched (e : SaneInStep X K π c d) (id : SourceId) :
    Matched X Eq Eq (StateInStep X π) (validateSource id c) (validateSource id d) := by
  refine matched_get ?_
  rw [e.find?]
  cases c.sources.find? id with
  | none => exact matched_throw rfl e.toStateInStep
  | some unit =>
    dsimp only [Option.map_some, SourceUnit.relabel]
    split
    · exact (validateItems_matched e [id]).bind (fun _ _ _ _ _ _ _ h => (e.beheld h).toStateInStep)
        fun errors _ _ _ _ _ herrors h => matched_pure (by rw [herrors]) (e.beheld h).toStateInStep
    · exact matched_throw rfl e.toStateInStep

structure Alongside (X : Prop) (π : NodeId → NodeId) (c d : Compiler) :
    Prop extends StateInStep X π c d where
  left : c.Ready fun _ => True
  right : d.Ready fun _ => True

theorem Alongside.saneInStep (h : Alongside X π c d) : SaneInStep X (fun _ => True) π c d :=
  ⟨h.toStateInStep, h.left.toSane, h.right.toSane⟩

theorem Call.run_matched (x : Call) (h : Alongside X π c d) :
    Matched X Eq Eq (Alongside X π) (x.run c) (x.run d) := by
  have hready {c c' : Compiler} {answer : Answer} (hc : c.Ready fun _ => True)
      (hrun : x.run c = .ok (answer, c')) : c'.Ready fun _ => True :=
    (Call.run_ready hc (fun _ _ => trivial) (fun text _ => Content.admissible_any text) hrun).1
  suffices hrun : Matched X Eq Eq (StateInStep X π) (x.run c) (x.run d) from
    hrun.mono (fun _ _ _ _ hu hv hF e => ⟨hF, e, hready h.left hu, hready h.right hv⟩)
      fun _ _ _ _ hu hv hQ e => ⟨hQ, e, hready h.left hu, hready h.right hv⟩
  have hstaged {act : Compiling Unit}
      (hact : MatchedStates X (StateInStep X π) (act c) (act d)) :
      Matched X Eq Eq (StateInStep X π)
        ((do act; return (none : Option CompileReport) : Compiling _) c)
        ((do act; return none : Compiling _) d) :=
    hact.seq fun _ _ _ _ _ e => matched_pure rfl e
  cases x with
  | create id text => exact hstaged (createSource_matched h.toStateInStep id _)
  | modify id text => exact hstaged (modifySource_matched h.toStateInStep id _)
  | put id text => exact hstaged (putSource_matched h.toStateInStep id _)
  | delete id => exact hstaged (deleteSource_matched h.toStateInStep id)
  | compile =>
    exact (compile_matched h.saneInStep h.left h.right fun _ _ => trivial).bind
      (fun _ _ _ _ _ _ _ e => e.toStateInStep) fun _ _ _ _ _ _ hq e =>
      matched_pure (by rw [hq]) e.toStateInStep

theorem Turn.run_matched (turn : Turn) (h : Alongside X π c d) :
    Matched X Eq Eq (Alongside X π) (turn.run c) (turn.run d) := by
  suffices hrun : Matched X Eq Eq (StateInStep X π) (turn.run c) (turn.run d) from
    hrun.mono
      (fun _ _ _ _ hu hv hF e => ⟨hF, e, Turn.run_ready h.left hu, Turn.run_ready h.right hv⟩)
      fun _ _ _ _ hu hv hQ e => ⟨hQ, e, Turn.run_ready h.left hu, Turn.run_ready h.right hv⟩
  cases turn with
  | validate id =>
    exact (validateSource_matched h.saneInStep id).seq fun _ _ _ _ hq e =>
      matched_pure (by rw [hq]) e
  | call x =>
    exact (x.run_matched h).bind (fun _ _ _ _ _ _ _ e => e.toStateInStep) fun _ _ _ _ _ _ hq e =>
      matched_pure (by rw [hq]) e.toStateInStep

/-- The same reply and the same sources and staged changes, over graphs that are the same up to the
names of their nodes. -/
structure Observation.SameUpTo (π : NodeId → NodeId) (o o' : Observation) : Prop where
  reply : o'.reply = o.reply
  graph : Graph.SameUpTo π o.graph o'.graph
  sources : o'.sources = o.sources.map (SourceUnit.relabel π)
  staged : o'.staged = o.staged

theorem Alongside.observe (h : Alongside X π c d) (turns : List Turn) :
    List.Forall₂ (Jointly (Observation.SameUpTo π)) (observe turns c) (observe turns d) := by
  induction turns generalizing c d with
  | nil => exact .nil
  | cons turn turns ih =>
    have hturn := turn.run_matched h
    rw [Compiler.observe, Compiler.observe]
    generalize turn.run c = left at *
    generalize turn.run d = right at *
    cases hturn with
    | breach => exact .cons (.breach _ _) .nil
    | error hx h | ok hx h =>
      exact .cons (.ok ⟨by rw [hx], h.graph.toSameUpTo, h.sources, h.staged⟩) (ih h)

end Calls

end Compiler

end ModelCompiler
