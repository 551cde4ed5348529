import ModelCompiler.Proofs.Compiling.Sessions

/-!
What a report says. A source that it does not mention is as it was before.
-/

open ModelCompiler.Action ModelCompiler.Graph ModelCompiler.Workspace ModelCompiler.Handler

namespace ModelCompiler.Compiler

variable {K : NodeId → Prop} {c c' c₁ d : Compiler} {id : SourceId} {a : Agenda}
  {report : CompileReport} {batch : List SourceId} {aborted : Option Phase}

section Outcomes

theorem find?_outcomes (c : Compiler) (deleted touched : List SourceId) (id : SourceId) :
    (outcomes c deleted touched).find? id =
      (if id ∈ touched then (c.sources.find? id).map outcomeOf else none).or
        (if id ∈ deleted then some ⟨.removed, []⟩ else none) := by
  have hgone : ∀ (ids : List SourceId) (o : Catalog SourceOutcome),
      (ids.foldl (fun o id => o.insert id ⟨.removed, []⟩) o).find? id =
        if id ∈ ids then some ⟨.removed, []⟩ else o.find? id := by
    intro ids
    induction ids with
    | nil => simp
    | cons n ids ih =>
      intro o
      rw [List.foldl_cons, ih, Catalog.find?_insert]
      by_cases hn : id = n <;> simp [hn]
  have hleft {f : Catalog SourceOutcome → SourceId → Catalog SourceOutcome}
      (hnone : ∀ o n, c.sources.find? n = none → f o n = o)
      (hsome : ∀ o n unit, c.sources.find? n = some unit → f o n = o.insert n (outcomeOf unit)) :
      ∀ (ids : List SourceId) (o : Catalog SourceOutcome), (ids.foldl f o).find? id =
        (if id ∈ ids then (c.sources.find? id).map outcomeOf else none).or (o.find? id) := by
    intro ids
    induction ids with
    | nil => simp
    | cons n ids ih =>
      intro o
      rw [List.foldl_cons, ih]
      cases hu : c.sources.find? n with
      | none =>
        rw [hnone o n hu]
        by_cases hn : id = n <;> simp [hn, hu]
      | some unit =>
        rw [hsome o n unit hu, Catalog.find?_insert]
        by_cases hn : id = n
        · subst hn
          by_cases hmem : id ∈ ids <;> simp [hu, hmem]
        · simp [hn]
  refine (hleft (fun o n h => by simp [h]) (fun o n unit h => by simp [h]) touched _).trans ?_
  rw [hgone, Catalog.find?_empty]

theorem Compiled.reported_iff (h : Compiled K a report c c₁ d) {unit : SourceUnit}
    (hu : d.sources.find? id = some unit) :
    report.outcomes.find? id = none ↔ id ∉ a.deleted ++ a.touched := by
  rw [h.outcomes, find?_outcomes, hu]
  by_cases ht : id ∈ a.touched <;> by_cases hd : id ∈ a.deleted <;> simp [ht, hd]

end Outcomes

section Frame

theorem Compiled.phased (h : Compiled K a report c c₁ d) : Phased K a.batch c₁ d :=
  h.phases.phased h.prepared.sane h.prepared.settled fun _ hs =>
    (h.prepared.batch_known hs).imp fun _ hu => hu.1

theorem Agenda.mem_of_batch (h : id ∈ a.batch) : id ∈ a.deleted ++ a.touched := by
  simp [Agenda.touched, h]

theorem Compiled.trace (h : Compiled K a report c c₁ d) :
    Trace K (· ∈ a.deleted ++ a.touched) c.graph d.graph :=
  h.prepared.trace.trans (h.phased.trace.mono fun _ => Agenda.mem_of_batch)

theorem Compiled.units (h : Compiled K a report c c₁ d) (hid : id ∉ a.deleted ++ a.touched) :
    d.sources.find? id = c.sources.find? id :=
  (h.phased.units id fun hb => hid (Agenda.mem_of_batch hb)).trans (h.prepared.units id hid)

/-- A source that is registered before and after a compile and that the report does not mention is
left alone: its content, its state and its diagnostics, and all its nodes with everything that is
not kept on them for the sake of others. -/
theorem compile_leaves_unreported (hc : Reached (fun _ _ => True) c)
    (hcompile : compile c = .ok (.ok report, c')) {unit unit' : SourceUnit}
    (hbefore : c.sources.find? id = some unit) (hafter : c'.sources.find? id = some unit')
    (hout : report.outcomes.find? id = none) :
    unit' = unit ∧ c'.graph.persistentNodes id = c.graph.persistentNodes id ∧
      ∀ m, c.graph.sourceOf? m = some id → Untouched c.graph c'.graph m := by
  have hready := hc.ready_of_any
  have hK : CoversMetamodel fun _ => True := fun _ _ => trivial
  obtain ⟨a, c₁, h⟩ := (compile_runs hready hK).result hcompile
  have hid := (h.reported_iff hafter).1 hout
  refine ⟨?_, h.trace.persistentNodes hready.tidy hK hid, fun m hm =>
    h.trace.untouched hready.tidy hK hm hid⟩
  rw [h.units hid, hbefore] at hafter
  exact (Option.some.inj hafter).symm

end Frame

section Ends

/-- Where a source of the batch ends: it is active, or it has failed and has the errors, or the
phase of all was halted. -/
inductive Ended : Option Phase → SourceUnit → Prop
  | active {unit : SourceUnit} : unit.state = .active → unit.diagnostics = [] → Ended none unit
  | failed {unit : SourceUnit} : unit.state.isPending = true → unit.diagnostics ≠ [] →
      Ended none unit
  | halted {phase : Phase} {unit : SourceUnit} : unit.state = .parsed ∨ unit.state = .bound →
      Ended (some phase) unit

variable {next : SourceState} {errors : List (SourceId × CompileError)} {halted : Bool}
  {unit : SourceUnit}

theorem Sane.mem_inState_iff (hs : c.Sane K) (hu : c.sources.find? id = some unit)
    {state : SourceState} : id ∈ c.inState state ↔ unit.state = state := by
  rw [hs.mem_inState]
  exact ⟨fun ⟨_, hu', hst⟩ => Option.some.inj (hu'.symm.trans hu) ▸ hst, fun hst => ⟨unit, hu, hst⟩⟩

theorem Concluded.find_of_not_mem (h : Concluded K next errors halted batch c d)
    (hid : id ∉ batch) :
    d.sources.find? id = c.sources.find? id := by
  rw [h.find id, if_neg hid]

theorem Concluded.find_of_mem (h : Concluded K next errors false batch c d) (hid : id ∈ batch)
    (hu : c.sources.find? id = some unit) : ∃ unit', d.sources.find? id = some unit' ∧
      (unit'.state = next ∧ unit'.diagnostics = [] ∨
        unit'.state = unit.state ∧ unit'.diagnostics ≠ []) := by
  refine ⟨concluded next (errorsOf id errors) false unit, ?_, ?_⟩
  · rw [h.find id, if_pos hid, hu, Option.map_some]
  · by_cases hok : errorsOf id errors = []
    · exact .inl (by simp [concluded, hok])
    · exact .inr (by simp [concluded, hok])

theorem Concluded.find_of_halted (h : Concluded K next errors true batch c d)
    (hu : c.sources.find? id = some unit) :
    ∃ unit', d.sources.find? id = some unit' ∧ unit'.state = unit.state := by
  rw [h.find id, hu]
  split
  · exact ⟨_, rfl, by simp [concluded]⟩
  · exact ⟨unit, rfl, rfl⟩

theorem Phases.ended (h : Phases K batch c aborted d)
    (hbatch : ∀ s ∈ batch, ∃ unit, c.sources.find? s = some unit ∧ unit.state = .parsed)
    (hid : id ∈ batch) : ∃ unit, d.sources.find? id = some unit ∧ Ended aborted unit := by
  obtain ⟨unit, hu, hst⟩ := hbatch id hid
  cases h with
  | idle hempty => simp [hempty] at hid
  | @halted _ _ e c₁ _ hbound hfatal htreated =>
    have hbind := hbound.toConcluded
    rw [hfatal] at hbind
    obtain ⟨unit₁, hu₁, hend⟩ := hbind.find_of_mem hid hu
    obtain ⟨unit₂, hu₂, hst₂⟩ := htreated.toConcluded.find_of_halted hu₁
    refine ⟨unit₂, hu₂, .halted ?_⟩
    rw [hst₂]
    rcases hend with ⟨hst₁, -⟩ | ⟨hst₁, -⟩
    · exact .inr hst₁
    · exact .inl (hst₁.trans hst)
  | @run _ _ c₁ c₂ _ hbound hfatal htreated hvalid hfatal' =>
    have hbind := hbound.toConcluded
    have hvalidate := hvalid.toConcluded
    rw [hfatal] at hbind
    rw [hfatal'] at hvalidate
    obtain ⟨unit₁, hu₁, ⟨hst₁, -⟩ | ⟨hst₁, hdiag⟩⟩ := hbind.find_of_mem hid hu
    · have hmem₁ := (hbound.sane.mem_inState_iff hu₁).2 hst₁
      obtain ⟨unit₂, hu₂, ⟨hst₂, -⟩ | ⟨hst₂, hdiag⟩⟩ := htreated.toConcluded.find_of_mem hmem₁ hu₁
      · have hmem₂ := (htreated.sane.mem_inState_iff hu₂).2 hst₂
        obtain ⟨unit₃, hu₃, ⟨hst₃, hdiag⟩ | ⟨hst₃, hdiag⟩⟩ := hvalidate.find_of_mem hmem₂ hu₂
        · exact ⟨unit₃, hu₃, .active hst₃ hdiag⟩
        · exact ⟨unit₃, hu₃, .failed (by simp [hst₃, hst₂, SourceState.isPending]) hdiag⟩
      · have hmem₂ : id ∉ c₂.inState .processed := by
          simp [htreated.sane.mem_inState_iff hu₂, hst₂, hst₁]
        exact ⟨unit₂, (hvalidate.find_of_not_mem hmem₂).trans hu₂,
          .failed (by simp [hst₂, hst₁, SourceState.isPending]) hdiag⟩
    · have hmem₁ : id ∉ c₁.inState .bound := by
        simp [hbound.sane.mem_inState_iff hu₁, hst₁, hst]
      have hu₂ := (htreated.toConcluded.find_of_not_mem hmem₁).trans hu₁
      have hmem₂ : id ∉ c₂.inState .processed := by
        simp [htreated.sane.mem_inState_iff hu₂, hst₁, hst]
      exact ⟨unit₁, (hvalidate.find_of_not_mem hmem₂).trans hu₂,
        .failed (by simp [hst₁, hst, SourceState.isPending]) hdiag⟩

theorem Concluded.state_of (h : Concluded K next errors halted batch c d)
    (hu : d.sources.find? id = some unit) :
    ∃ unit', c.sources.find? id = some unit' ∧ (unit.state = unit'.state ∨ unit.state = next) := by
  rw [h.find id] at hu
  split at hu
  · obtain ⟨unit', hu', rfl⟩ := Option.map_eq_some_iff.1 hu
    refine ⟨unit', hu', ?_⟩
    simp only [concluded]
    split
    · exact .inr rfl
    · exact .inl rfl
  · exact ⟨unit, hu, .inl rfl⟩

/-- Binding and processing of a batch, and what validation, if it comes to that, has found on the
sources that have got so far. -/
structure Passage (K : NodeId → Prop) (batch : List SourceId)
    (errors errors' : List (SourceId × CompileError)) (halt : Option CompileError)
    (c c₁ c₂ d : Compiler) : Prop where
  bound : Bound K errors batch c c₁
  mild : fatal? errors = none
  treated : Treated K errors' halt (c₁.inState .bound) c₁ c₂
  graph : d.graph = c₂.graph
  processed : ∀ id ∈ batch, ∀ unit, d.sources.find? id = some unit →
    unit.state = .processed ∨ unit.state = .active → id ∈ c₂.inState .processed ∧
      unit.diagnostics = (d.graph.persistentNodes id).flatMap (verdict d.graph)

theorem Phases.passage (h : Phases K batch c aborted d)
    (hbatch : ∀ s ∈ batch, ∃ unit, c.sources.find? s = some unit ∧ unit.state = .parsed)
    (hid : id ∈ batch) :
    ∃ errors errors' halt c₁ c₂, Passage K batch errors errors' halt c c₁ c₂ d := by
  -- no source of the batch has got further when processing ends
  have hstate {errors errors' : List (SourceId × CompileError)} {halt : Option CompileError}
      {c₁ c₂ : Compiler} (hbound : Bound K errors batch c c₁)
      (htreated : Treated K errors' halt (c₁.inState .bound) c₁ c₂) {s : SourceId} (hs : s ∈ batch)
      {unit : SourceUnit} (hu : c₂.sources.find? s = some unit) : unit.state = .parsed ∨
        unit.state = .bound ∨ halt = none ∧ unit.state = .processed := by
    obtain ⟨unit₀, hu₀, hst₀⟩ := hbatch s hs
    obtain ⟨unit₁, hu₁, hst⟩ := htreated.toConcluded.state_of hu
    obtain ⟨unit', hu', hst₁⟩ := hbound.toConcluded.state_of hu₁
    obtain rfl := Option.some.inj (hu'.symm.trans hu₀)
    have hearly : unit₁.state = .parsed ∨ unit₁.state = .bound := by rwa [hst₀] at hst₁
    cases halt with
    | none =>
      rcases hst with hst | hst
      · rw [hst]
        exact hearly.imp_right .inl
      · exact .inr (.inr ⟨rfl, hst⟩)
    | some e =>
      obtain ⟨unit₂, hu₂, hst₂⟩ := htreated.toConcluded.find_of_halted hu₁
      obtain rfl := Option.some.inj (hu₂.symm.trans hu)
      rw [hst₂]
      exact hearly.imp_right .inl
  cases h with
  | idle hempty => simp [hempty] at hid
  | halted hbound hfatal htreated =>
    refine ⟨_, _, _, _, _, hbound, hfatal, htreated, rfl, fun s hs unit hu hst => ?_⟩
    rcases hstate hbound htreated hs hu with h | h | ⟨h, -⟩
    · simp [h] at hst
    · simp [h] at hst
    · simp at h
  | @run _ _ _ c₂ _ hbound hfatal htreated hvalid _ =>
    refine ⟨_, _, _, _, _, hbound, hfatal, htreated, hvalid.graph, fun s hs unit hu hst => ?_⟩
    by_cases hmem : s ∈ c₂.inState .processed
    · rw [hvalid.find s, if_pos hmem] at hu
      obtain ⟨unit', -, rfl⟩ := Option.map_eq_some_iff.1 hu
      refine ⟨hmem, ?_⟩
      rw [hvalid.graph]
      exact (errorsOf_verdicts (htreated.sane.nodup_inState _)).trans (if_pos hmem)
    · rw [hvalid.toConcluded.find_of_not_mem hmem] at hu
      refine absurd ((htreated.sane.mem_inState_iff hu).2 ?_) hmem
      rcases hstate hbound htreated hs hu with h | h | ⟨-, h⟩
      · simp [h] at hst
      · simp [h] at hst
      · exact h

/-- How sources stand between two compiles if no compile has failed. -/
inductive Rests (unit : SourceUnit) : Prop
  | unparsed {e : CompileError} : unit.state = .unregistered → unit.diagnostics = [e] → Rests unit
  | pending : unit.state.isPending = true → Rests unit
  | active : unit.state = .active → unit.diagnostics = [] → Rests unit

abbrev AtRest (c : Compiler) : Prop :=
  ∀ id unit, c.sources.find? id = some unit → Rests unit

theorem Ended.rests (h : Ended aborted unit) : Rests unit := by
  cases h with
  | active hst hdiag => exact .active hst hdiag
  | failed hst _ => exact .pending hst
  | halted hst =>
    exact .pending (by rcases hst with hst | hst <;> simp [hst, SourceState.isPending])

/-- A source after a compile that has returned a report: it could not be parsed, or it was in the
batch, or it is active for long. -/
theorem Compiled.cases (h : Compiled K a report c c₁ d) (hrests : AtRest c)
    (hu : d.sources.find? id = some unit) :
    (unit.state = .unregistered ∧ ∃ e, unit.diagnostics = [e]) ∨
      Ended report.aborted unit ∨
      id ∉ a.deleted ++ a.touched ∧ unit.state = .active ∧ unit.diagnostics = [] := by
  by_cases hbatch : id ∈ a.batch
  · obtain ⟨unit', hu', hend⟩ := h.phases.ended (fun s => h.prepared.batch_known) hbatch
    exact .inr (.inl (Option.some.inj (hu'.symm.trans hu) ▸ hend))
  have hu₁ := hu
  rw [h.phased.units id hbatch] at hu₁
  cases h.prepared.standing id unit hu₁ with
  | parsed hmem _ _ => exact absurd hmem hbatch
  | failed _ hst hdiag => exact .inl ⟨hst, _, hdiag⟩
  | kept hid hpending hne =>
    rw [h.units hid] at hu
    cases hrests id unit hu with
    | unparsed hst _ => exact absurd hst hne
    | pending hst => simp [hpending] at hst
    | active hst hdiag => exact .inr (.inr ⟨hid, hst, hdiag⟩)

theorem Compiled.rests (h : Compiled K a report c c₁ d) (hrests : AtRest c)
    (hu : d.sources.find? id = some unit) : Rests unit := by
  rcases h.cases hrests hu with ⟨hst, e, hdiag⟩ | hend | ⟨-, hst, hdiag⟩
  · exact .unparsed hst hdiag
  · exact hend.rests
  · exact .active hst hdiag

theorem Reached.rests (hc : Reached Call.Succeeds c) :
    AtRest c := by
  refine hc.preserved (K := fun _ => True) (fun _ _ => trivial) (fun _ _ _ text _ => ?_)
    (fun _ _ h => h) (fun c _ hsources id unit hu => ?_) (fun c c' ih _ hsources id unit hu => ?_)
    fun c c₁ c' a report _ _ ih h id unit hu => h.rests ih hu
  · exact Content.admissible_any text
  · simp [hsources, Catalog.find?_empty] at hu
  · exact ih id unit (hsources ▸ hu)

structure Stands (c : Compiler) (aborted : Option Phase) (id : SourceId) (unit : SourceUnit) :
    Prop where
  state : unit.state = .unregistered ∨ unit.state.isPending = true ∨ unit.state = .active
  unparsed : unit.state = .unregistered →
    (∀ m, c.graph.sourceOf? m ≠ some id) ∧ ∃ e, unit.diagnostics = [e]
  active : unit.state = .active → unit.diagnostics = []
  failed : aborted = none → unit.state ≠ .active → unit.diagnostics ≠ []

theorem Sane.not_sourceOf? (hs : c.Sane K) (hu : c.sources.find? id = some unit)
    (hst : unit.state = .unregistered) (m : NodeId) : c.graph.sourceOf? m ≠ some id := by
  intro hm
  obtain ⟨r, hr, -⟩ := hs.tidy.sourceOf?_iff_tree.1 hm
  simp [hs.blank id unit hu hst] at hr

theorem Compiled.stands (h : Compiled K a report c c₁ d) (hrests : AtRest c)
    (hu : d.sources.find? id = some unit) : Stands d report.aborted id unit := by
  have hblank := h.lasts.sane.not_sourceOf? hu
  rcases h.cases hrests hu with ⟨hst, e, hdiag⟩ | hend | ⟨-, hst, hdiag⟩
  · exact ⟨.inl hst, fun _ => ⟨hblank hst, e, hdiag⟩, fun hact => by simp [hst] at hact,
      fun _ _ => by simp [hdiag]⟩
  · generalize report.aborted = aborted at hend
    cases hend with
    | active hst hdiag =>
      exact ⟨.inr (.inr hst), fun hun => by simp [hst] at hun, fun _ => hdiag,
        fun _ hne => absurd hst hne⟩
    | failed hst hdiag =>
      exact ⟨.inr (.inl hst), fun hun => by simp [hun, SourceState.isPending] at hst,
        fun hact => by simp [hact, SourceState.isPending] at hst, fun _ _ => hdiag⟩
    | halted hst =>
      refine ⟨.inr (.inl ?_), fun hun => ?_, fun hact => ?_, fun hno => by simp at hno⟩
      · rcases hst with hst | hst <;> simp [hst, SourceState.isPending]
      · rcases hst with hst | hst <;> simp [hst] at hun
      · rcases hst with hst | hst <;> simp [hst] at hact
  · exact ⟨.inr (.inr hst), fun hun => by simp [hst] at hun, fun _ => hdiag,
      fun _ hne => absurd hst hne⟩

/-- If a fatal error has halted the compile nothing that it touched has come far. -/
theorem Compiled.early_of_halted (h : Compiled K a report c c₁ d)
    (hrests : AtRest c) {phase : Phase}
    (hphase : report.aborted = some phase) {outcome : SourceOutcome}
    (hout : report.outcomes.find? id = some outcome) :
    outcome.state ≠ .processed ∧ outcome.state ≠ .active := by
  rw [h.outcomes, find?_outcomes] at hout
  rcases Option.or_eq_some_iff.1 hout with hleft | ⟨-, hgone⟩
  · split at hleft
    · rename_i htouched
      obtain ⟨unit, hu, rfl⟩ := Option.map_eq_some_iff.1 hleft
      rcases h.cases hrests hu with ⟨hst, -⟩ | hend | ⟨hno, -⟩
      · simp [outcomeOf, hst]
      · rw [hphase] at hend
        cases hend with
        | halted hst => rcases hst with hst | hst <;> simp [outcomeOf, hst]
      · exact absurd (List.mem_append_right _ htouched) hno
    · simp at hleft
  · split at hgone
    · obtain rfl := Option.some.inj hgone
      simp
    · simp at hgone

/-- The states and the diagnostics of the sources after a compile, in a session in which no compile
has failed. -/
theorem compile_leaves_standing (hc : Reached Call.Succeeds c)
    (hcompile : compile c = .ok (.ok report, c')) :
    (∀ id unit, c'.sources.find? id = some unit → Stands c' report.aborted id unit) ∧
      ∀ phase, report.aborted = some phase → ∀ id outcome, report.outcomes.find? id = some outcome →
        outcome.state ≠ .processed ∧ outcome.state ≠ .active := by
  have hready := hc.ready_of_any
  obtain ⟨a, c₁, h⟩ := (compile_runs hready fun _ _ => trivial).result hcompile
  exact ⟨fun id unit => h.stands hc.rests, fun phase hphase id outcome =>
    h.early_of_halted hc.rests hphase⟩

end Ends

/-- In sessions whose texts name predefined classifiers only, no compile comes to a breach or to an
internal error, whatever the compiles before it have answered. -/
theorem compile_not_at_fault (hc : Reached (fun call _ => call.Classified) c) :
    ∃ answer d, compile c = .ok (answer, d) ∧ ∀ e, answer = .error e → e.blame ≠ .internal := by
  obtain ⟨hready, -⟩ := hc.ready_of_classified fun _ _ h => h
  have hpredefined : Predefined (initial.contains · = true) := fun _ h => h
  rcases compile_runs hready fun _ h => h with
    (⟨report, d, hrun, -⟩ | ⟨e, d, hrun, hblame, -⟩) | ⟨hno, -⟩
  · exact ⟨_, d, hrun, fun _ h => nomatch h⟩
  · exact ⟨_, d, hrun, fun _ h => Except.error.inj h ▸ hblame hpredefined⟩
  · exact absurd hpredefined hno

section Sample

theorem sample_compiles : ∃ c report c', session sampleCalls = some c ∧
    compile c = .ok (.ok report, c') ∧ (report.outcomes.find? "apart").isNone = true ∧
    (c.sources.find? "apart").isSome = true ∧ (c'.sources.find? "apart").isSome = true ∧
    c'.stateOf "ties" = .active ∧ c'.stateOf "lost" = .parsed ∧
    c.graph.sourceOf? 41 = some "apart" ∧ c.graph.values 41 "specializations" = [] ∧
    c'.graph.values 41 "specializations" = [46] ∧ 52 ∈ c'.graph.persistentNodes "ties" ∧
    c'.graph.classifierPath? 52 = some Metamodel.association :=
  exists_compiled (by rw [session, new, spelledOut.2]; decide +kernel)

theorem sample_leaves_apart : ∃ c report c' unit, Reached (fun _ _ => True) c ∧
    compile c = .ok (.ok report, c') ∧ c.sources.find? "apart" = some unit ∧
    c'.sources.find? "apart" = some unit ∧ report.outcomes.find? "apart" = none ∧
    c.graph.sourceOf? 41 = some "apart" ∧ Untouched c.graph c'.graph 41 ∧
    c.graph.values 41 "specializations" = [] ∧ c'.graph.values 41 "specializations" = [46] := by
  obtain ⟨c, report, c', hsession, hcompile, hout, hbefore, hafter, -, -, hsource, hold, hnew,
    -⟩ :=
    sample_compiles
  have hc : Reached (fun _ _ => True) c :=
    (Reached.of_session hsession).mono fun _ _ _ => trivial
  obtain ⟨unit, hu⟩ := Option.isSome_iff_exists.1 hbefore
  obtain ⟨unit', hu'⟩ := Option.isSome_iff_exists.1 hafter
  have hnone := Option.isNone_iff_eq_none.1 hout
  obtain ⟨rfl, -, huntouched⟩ := compile_leaves_unreported hc hcompile hu hu' hnone
  exact ⟨c, report, c', unit', hc, hcompile, hu, hu', hnone, hsource,
    huntouched 41 hsource, hold, hnew⟩

theorem sample_leaves_standing : ∃ c report c' unit, Reached Call.Succeeds c ∧
    compile c = .ok (.ok report, c') ∧ c'.sources.find? "lost" = some unit ∧
    unit.state = .parsed ∧ Stands c' report.aborted "lost" unit := by
  obtain ⟨c, report, c', hsession, hcompile, -, -, -, -, hlost, -⟩ := sample_compiles
  have hc := Reached.of_session hsession
  obtain ⟨hstands, -⟩ := compile_leaves_standing hc hcompile
  cases hu : c'.sources.find? "lost" with
  | none => simp [stateOf, hu] at hlost
  | some unit =>
    refine ⟨c, report, c', unit, hc, hcompile, hu, ?_, hstands "lost" unit hu⟩
    simpa [stateOf, hu] using hlost

theorem sample_not_at_fault : ∃ c answer d, Reached (fun call _ => call.Classified) c ∧
    compile c = .ok (answer, d) ∧ ∀ e, answer = .error e → e.blame ≠ .internal := by
  obtain ⟨c, -, -, hsession, -⟩ := sample_compiles
  have hc := (reached_of_session (Q := Call.Classified) (by decide +kernel) hsession).mono
    fun _ _ h => h.2
  obtain ⟨answer, d, h⟩ := compile_not_at_fault hc
  exact ⟨c, answer, d, hc, h⟩

/-- The classifier of an element is a class of a source that is deleted. -/
def orphaning : List Call :=
  [.create "a" "Class m::K extends meta::pure::metamodel::type::Class { }", .compile,
    .create "b" "Element m::K n::x", .compile, .delete "a"]

theorem orphaning_at_fault : ∃ c e d, Reached Call.Succeeds c ∧
    compile c = .ok (.error e, d) ∧ e.blame = .internal := by
  obtain ⟨c, hsession, h⟩ :
      ∃ c, session orphaning = some c ∧ ((compile c).toOption.any fun r => match r.1 with
        | .ok _ => false
        | .error e => e.blame = .internal) = true :=
    exists_session (by rw [session, new, spelledOut.2]; decide +kernel)
  obtain ⟨⟨answer, d⟩, hrun, h⟩ := (Option.any_eq_true _ _).1 h
  cases answer with
  | ok report => simp at h
  | error e => exact ⟨c, e, d, .of_session hsession, eq_ok_of_toOption hrun, of_decide_eq_true h⟩

def misplacing : List Call :=
  [.create "a" "Class A extends Missing { }",
    .create "f" "function m::f(x: A): String { x.p }", .compile]

theorem misplacing_blames_other : ∃ c unit e span, Reached Call.Succeeds c ∧
    c.sources.find? "f" = some unit ∧ e ∈ unit.diagnostics ∧ e.span? = some span ∧
    span.source = "a" := by
  obtain ⟨c, hsession, h⟩ :
      ∃ c, session misplacing = some c ∧ ((c.sources.find? "f").any fun unit =>
      unit.diagnostics.any fun e => e.span?.any (·.source == "a")) = true :=
    exists_session (by rw [session, new, spelledOut.2]; decide +kernel)
  obtain ⟨unit, hu, h⟩ := (Option.any_eq_true _ _).1 h
  obtain ⟨e, he, h⟩ := List.any_eq_true.1 h
  obtain ⟨span, hspan, hsource⟩ := (Option.any_eq_true _ _).1 h
  exact ⟨c, unit, e, span, .of_session hsession, hu, he, hspan, by simpa using hsource⟩

end Sample

end ModelCompiler.Compiler
