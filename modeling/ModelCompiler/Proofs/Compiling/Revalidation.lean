import ModelCompiler.Proofs.Compiling.BackReferences

/-!
Validating again. What is recorded on a source that has come so far is what its elements are found
guilty of, at the time of the last compile and ever after: a compile either validates a source
itself or leaves alone all that the verdicts on its elements are about.
-/
open ModelCompiler.Action ModelCompiler.Graph ModelCompiler.Handler

namespace ModelCompiler

variable {K : NodeId → Prop} {g g' : Graph} {x : NodeId}

section Verdicts

theorem find?_validators : ∀ p ∈ Metamodel.summits, coreDispatch.validators.find? p = none := by
  decide +kernel

theorem exists_validator (hr : g.Regular K) (hK : Predefined K) (x : NodeId) :
    ∃ origin, Lineage.Query.answer (coreDispatch.validator g x) =
      .ok (((g.classifierPath? x).bind coreDispatch.validators.find?).getD .idle, origin) := by
  have hc := hr.toClosed
  obtain ⟨r, hfound⟩ : ∃ r, Dispatch.found coreDispatch.validators g x = .ok r :=
    Dispatch.found_ok hc hr.issued fun k hk =>
      (hr.lineal (hK k (hr.kind x k hk).1)).imp fun _ h => h.1
  obtain ⟨_, hfinds, -⟩ := exists_of_answer
    (Dispatch.find_gives hc hr.issued x (Lineage.valid_empty g)) hfound
  have hvalidator : Lineage.Query.answer (coreDispatch.validator g x) =
      .ok (Dispatch.orDefault .idle r) := by
    have hbind := (Lineage.query_bind_answers
      (f := fun r => pure (Dispatch.orDefault Validator.idle r))
      (Dispatch.find_steady hc hr.issued coreDispatch.validators x)
      fun _ _ => Lineage.steady_pure _).2
    rw [show Lineage.Query.answer (Dispatch.find coreDispatch.validators g x) = .ok r from
      hfound] at hbind
    exact hbind
  have hr₁ : r.1 = (g.classifierPath? x).bind coreDispatch.validators.find? := by
    generalize r.1 = handler at hfinds ⊢
    cases hk : g.classifier? x with
    | none => cases hfinds <;> simp_all [classifierPath?]
    | some k =>
      rw [hr.finds_eq hfinds hk (hK k (hr.kind x k hk).1) find?_validators, classifierPath?, hk]
      rfl
  obtain ⟨_ | v, origin⟩ := r
  · exact ⟨_, by rw [hvalidator, ← hr₁]; rfl⟩
  · exact ⟨origin, by rw [hvalidator, ← hr₁]; rfl⟩

theorem verdict_eq_nil (hr : g.Regular K) (hK : Predefined K) : verdict g x = [] ↔
    (((g.classifierPath? x).bind coreDispatch.validators.find?).getD .idle).verdict g x = [] ∧
      accessErrors g x = [] := by
  obtain ⟨origin, h⟩ := exists_validator hr hK x
  rw [verdict, h, List.append_eq_nil_iff]

theorem Handler.Views.verdict_eq_nil {S : NodeId → Prop} (a : Views S g g') (hr : g.Regular K)
    (hr' : g'.Regular K) (hK : Predefined K) (hx : S x) (hlive : g.contains x = true)
    (h : verdict g x = []) : verdict g' x = [] := by
  obtain ⟨hown, haccess⟩ := (ModelCompiler.verdict_eq_nil hr hK).1 h
  refine (ModelCompiler.verdict_eq_nil hr' hK).2 ⟨?_, a.accessErrors hx haccess⟩
  rw [a.kind x hx]
  exact a.approves hr hr' hx hlive hown

theorem Graph.Trace.views {T : SourceId → Prop} (h : Trace K T g g') (ht : g.Tidy K)
    (hK : CoversMetamodel K) (hpre : Predefined K) (hsev : g.Severed T) :
    Views (g.Spared T) g g' where
  toShares := Trace.shares ht hK h hsev
  owned _ hm := (Trace.untouched_spared ht hK h hm).owned
  part m hm v hv := by
    obtain ⟨hlife, hsource⟩ := ht.toIndexed.sourceOf?_owned hv
    obtain ⟨s, hs⟩ := ht.owner v m hlife
    have hms := sourceOf?_persistent hs
    refine .inr ⟨s, hsource.trans hms, ?_⟩
    rcases hm with hm | ⟨s', hs', hn⟩
    · simp [ht.toRooted.sourceOf? hm] at hms
    · exact Option.some.inj (hms.symm.trans hs') ▸ hn
  home _ hm := Trace.packagePath? ht hK h hm
  classifier m k _ hk := .inl (hpre k (ht.kind m k hk).1)
  landmark p hp := by
    have ht' := Trace.tidy hK h ht
    exact ht.toRooted.lookup_eq ht.toIndexed ht'.toRooted ht'.toIndexed hp

end Verdicts

namespace Compiler

variable {c c₁ d : Compiler} {a : Agenda} {report : CompileReport} {id : SourceId}

structure Current (c : Compiler) : Prop where
  rests : AtRest c
  diagnosed : ∀ id unit, c.sources.find? id = some unit →
    unit.state = .processed ∨ unit.state = .active →
      unit.diagnostics = (c.graph.persistentNodes id).flatMap (verdict c.graph)

theorem Current.congr (h : Current c) (hg : d.graph = c.graph) (hsources : d.sources = c.sources) :
    Current d where
  rests id unit hu := h.rests id unit (hsources ▸ hu)
  diagnosed := by rw [hsources, hg]; exact h.diagnosed

theorem Compiled.current (h : Compiled K a report c c₁ d) (hs : c.Ready K)
    (hK : CoversMetamodel K) (hpre : Predefined K) (hcur : Current c) :
    Current d where
  rests _ _ hu := h.rests hcur.rests hu
  diagnosed id unit hu hst := by
    by_cases hb : id ∈ a.batch
    · obtain ⟨_, _, _, _, _, hpass⟩ := h.phases.passage (fun s => h.prepared.batch_known) hb
      exact (hpass.processed id hb unit hu hst).2
    · have hu₁ := hu
      rw [h.phased.units id hb] at hu₁
      cases h.prepared.standing id unit hu₁ with
      | parsed hmem => exact absurd hmem hb
      | failed _ hst' => simp [hst'] at hst
      | kept hid hpending hne =>
        -- the source is active since an earlier compile
        rw [h.units hid] at hu
        have hdiag := hcur.diagnosed id unit hu hst
        have hnil : unit.diagnostics = [] := by
          cases hcur.rests id unit hu with
          | unparsed hst' => exact absurd hst' hne
          | pending hst' => simp [hpending] at hst'
          | active _ hnil => exact hnil
        rw [Trace.persistentNodes hs.tidy hK h.trace hid, hnil, eq_comm, List.flatMap_eq_nil_iff]
        intro x hx
        have hlife := (hs.tidy.persistent_iff id x).1 hx
        have hviews := Trace.views h.trace hs.tidy hK hpre h.severed
        exact hviews.verdict_eq_nil hs.tidy.toRegular h.lasts.sane.tidy.toRegular hpre
          (.inr ⟨id, sourceOf?_persistent hlife, hid⟩) (contains_of_lifetime? hlife)
          (List.flatMap_eq_nil_iff.1 (hdiag.symm.trans hnil) x hx)

theorem Reached.current
    (h : Reached (fun call answer => call.Succeeds answer ∧ call.Classified) c) : Current c := by
  refine h.preserved (K := (initial.contains · = true)) (fun _ h => h) (fun _ _ hp text htext =>
    Content.admissible_of_classified (hp.2 text htext)) (fun _ _ hp => hp.1)
    (fun c _ hsources => ?_) (fun _ _ hcur hg hsources => hcur.congr hg hsources)
    fun c c₁ c' a report hs _ hcur h => h.current hs (fun _ h => h) (fun _ h => h) hcur
  constructor <;>
  · intro id unit hu
    simp [hsources, Catalog.find?_empty] at hu

/-- Validating a processed or active source again gives what is recorded on it and changes neither
graph nor sources, however long ago the source was compiled; for an active one it gives nothing. -/
theorem validateSource_agrees
    (h : Reached (fun call answer => call.Succeeds answer ∧ call.Classified) c) {unit : SourceUnit}
    (hu : c.sources.find? id = some unit) (hst : unit.state = .processed ∨ unit.state = .active) :
    (∃ c', validateSource id c = .ok (.ok unit.diagnostics, c') ∧ c'.graph = c.graph ∧
      c'.sources = c.sources) ∧ (unit.state = .active → unit.diagnostics = []) := by
  have hs := (h.ready_of_classified fun _ _ hp => hp.2).1
  have hcur := h.current
  constructor
  · rcases validateSource_ensures hs.toSane id with ⟨found, c', hrun, hfound, hlooked⟩
      | ⟨_, _, -, -, hno⟩
    · rw [hcur.diagnosed id unit hu hst, ← hfound]
      exact ⟨c', hrun, hlooked.graph, hlooked.sources⟩
    · exact absurd hst (hno unit hu)
  · intro hactive
    cases hcur.rests id unit hu with
    | unparsed hst' => simp [hactive] at hst'
    | pending hst' => simp [hactive, SourceState.isPending] at hst'
    | active _ hnil => exact hnil

def sampleConflict : List Call :=
  [.create "base" "Class A { n: String; }", .create "sub" "Class B extends A { n: Integer; }",
    .create "apart" "Class Z { }", .compile, .put "more" "Class M extends A { }", .compile]

theorem sampleConflict_agrees : ∃ c unit unit', session sampleConflict = some c ∧
    c.sources.find? "sub" = some unit ∧ unit.state = .processed ∧ unit.diagnostics ≠ [] ∧
    c.sources.find? "apart" = some unit' ∧ unit'.state = .active ∧
    (∃ c', validateSource "sub" c = .ok (.ok unit.diagnostics, c')) ∧
    ∃ c', validateSource "apart" c = .ok (.ok [], c') := by
  have hsample : ((session sampleConflict).any fun c =>
      (c.sources.find? "sub").any (fun unit => unit.state = .processed ∧ unit.diagnostics ≠ []) &&
        (c.sources.find? "apart").any fun unit => unit.state = .active) = true := by
    rw [session, new, spelledOut.2]
    decide +kernel
  obtain ⟨c, hsession, hc⟩ := (Option.any_eq_true _ _).1 hsample
  simp only [Bool.and_eq_true, Option.any_eq_true, decide_eq_true_eq] at hc
  obtain ⟨⟨unit, hu, hst, hne⟩, unit', hu', hst'⟩ := hc
  have hreached := reached_of_session (Q := Call.Classified) (by decide +kernel) hsession
  obtain ⟨⟨c', hrun, -⟩, -⟩ := validateSource_agrees hreached hu (.inl hst)
  obtain ⟨⟨c'', hrun', -⟩, hnil⟩ := validateSource_agrees hreached hu' (.inr hst')
  exact ⟨c, unit, unit', hsession, hu, hst, hne, hu', hst', ⟨c', hrun⟩, c'', hnil hst' ▸ hrun'⟩

end Compiler

end ModelCompiler
