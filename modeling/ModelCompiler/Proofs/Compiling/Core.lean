import ModelCompiler.Compiler.Compile
import ModelCompiler.Proofs.Handling.Binding
import ModelCompiler.Proofs.Handling.Unbinding
import ModelCompiler.Proofs.Handling.Verdicts

/-!
The handlers of the core and where they are found. The tables of the core are written out once;
everything else is read off them.
-/
open ModelCompiler.Action ModelCompiler.Graph ModelCompiler.Lineage

namespace ModelCompiler

open Metamodel

section Tables

def coreDispatch : Dispatch where
  binders := ⟨[(packageableElement, .element)]⟩
  processors := ⟨[(class_, .class_), (association, .association), (enumeration, .enumeration),
    (functionDefinition, .function), (importGroup, .idle)]⟩
  validators := ⟨[(class_, .class_), (association, .association), (enumeration, .enumeration),
    (functionDefinition, .function)]⟩
  unbinders := ⟨[(class_, .class_), (association, .association), (enumeration, .enumeration),
    (functionDefinition, .function)]⟩
  walkers := ⟨[(class_, .class_)]⟩

def coreFactories : Table Path Factory :=
  ⟨[(class_, .element), (association, .element), (enumeration, .element),
    (functionDefinition, .element), (importGroup, .element)]⟩

theorem withCore_tables :
    (Registry.withCore.dispatch.binders = coreDispatch.binders ∧
      Registry.withCore.dispatch.processors = coreDispatch.processors ∧
      Registry.withCore.dispatch.validators = coreDispatch.validators ∧
      Registry.withCore.dispatch.unbinders = coreDispatch.unbinders ∧
      Registry.withCore.dispatch.walkers = coreDispatch.walkers) ∧
    Registry.withCore.factories = coreFactories ∧ Registry.withCore.visibility = [.access] ∧
    Registry.withCore.backReferences = [] ∧ Registry.withCore.classifiers.length = 0 := by
  decide +kernel

theorem withCore_dispatch : Registry.withCore.dispatch = coreDispatch := by
  obtain ⟨⟨hb, hp, hv, hu, hw⟩, -⟩ := withCore_tables
  cases h : Registry.withCore.dispatch
  simp only [h] at hb hp hv hu hw
  simp only [coreDispatch, hb, hp, hv, hu, hw]

theorem keys_coreFactories : ∀ p ∈ coreFactories.keys, p ∈ landmarks := by
  simp [coreFactories, Table.keys, landmarks, classifiers]

theorem registered_coreDispatch (phase : Phase) : ∀ p ∈ coreDispatch.registered phase,
    p ∈ landmarks := by
  cases phase <;>
    simp [coreDispatch, Dispatch.registered, Table.keys, landmarks, classifiers]

theorem forM_checkKnown (what : String) {g : Graph} {paths : List Path}
    (h : ∀ p ∈ paths, (g.lookup p).isSome = true) :
    Ensures (paths.forM (Registry.checkKnown what)) g (fun _ g' => g' = g) fun _ _ => False := by
  refine ensures_forM_invariant rfl fun p hp g' hg => ?_
  refine ensures_get_bind ?_
  rw [hg, if_neg (by simp [Option.isSome_iff_ne_none.1 (h p hp)])]
  exact ensures_pure rfl

theorem extend_withCore {g : Graph} (h : ∀ p ∈ landmarks, (g.lookup p).isSome = true) :
    Ensures Registry.withCore.extend g (fun _ g' => g' = g) fun _ _ => False := by
  obtain ⟨-, hf, -, hb, hc⟩ := withCore_tables
  have hd := withCore_dispatch
  unfold Registry.extend
  generalize Registry.withCore = r at *
  rw [hb, List.length_eq_zero_iff.1 hc, hf, hd]
  refine ensures_modify_bind (ensures_bind (ensures_pure (ensures_bind ?_)))
  refine (forM_checkKnown "factory" fun p hp => h p (keys_coreFactories p hp)).imp
    (fun _ g' hg => ?_)
  subst hg
  refine ensures_forM_invariant rfl fun phase _ g' hg => ?_
  subst hg
  exact forM_checkKnown _ fun p hp => h p (registered_coreDispatch phase p hp)

end Tables

namespace Dispatch

variable {η : Type} {table : Table Path η} {g : Graph} {id : NodeId} {K : NodeId → Prop}

theorem Finds.eq_of_exact {r : Option η} (hf : Finds table g id r) {p : Path} {h : η}
    (hp : g.classifierPath? id = some p) (ht : table.find? p = some h) : r = some h := by
  obtain ⟨c, hc, hpath⟩ := Option.bind_eq_some_iff.1 hp
  have hat : handlerAt? table g c = some (h, p) := handlerAt?_eq_some_iff.2 ⟨hpath, ht⟩
  cases hf with
  | unclassified hc' => simp [hc] at hc'
  | @exact c' path h' hc' hpath' ht' =>
    obtain rfl : c = c' := by simpa [hc] using hc'
    obtain rfl : p = path := by simpa [hpath] using hpath'
    rw [← ht, ht']
  | @ancestor c' a as path h' hc' hnone | @none c' hc' hnone =>
    obtain rfl : c = c' := by simpa [hc] using hc'
    simp [hat] at hnone

theorem Finds.mem {h : η} (hf : Finds table g id (some h)) : ∃ p, table.find? p = some h := by
  cases hf with
  | exact _ _ ht | ancestor _ _ _ _ _ ht => exact ⟨_, ht⟩

theorem Finds.getD {r : Option η} (hf : Finds table g id r) {Q : η → Prop}
    (h : ∀ e ∈ table.entries, Q e.2) {default : η} (hd : Q default) : Q (r.getD default) := by
  cases r with
  | none => exact hd
  | some a =>
    obtain ⟨p, hp⟩ := hf.mem
    exact h _ (Table.mem_entries_of_find? hp)

theorem exists_answer_bind {α β : Type} {q : Query β} {f : β → Query α} {b : β}
    (hq : Steady g q.run) (hb : Query.answer q = .ok b) (hf : ∀ b, Steady g (f b).run)
    (h : ∃ r, Query.answer (f b) = .ok r) : ∃ r, Query.answer (q >>= f) = .ok r := by
  rw [(query_bind_answers hq fun b _ => hf b).2, hb]
  exact h

theorem found_ok (hc : g.Closed) (hi : g.Issued)
    (h : ∀ c, g.classifier? id = some c → ∃ as, g.Lineal c as) :
    ∃ r, found table g id = .ok r := by
  unfold found find
  cases hcl : g.classifier? id with
  | none => exact ⟨_, rfl⟩
  | some c =>
    obtain ⟨as, has⟩ := h c hcl
    have hlive := hc.classifier_live id c hcl
    simp only
    split
    · exact ⟨_, rfl⟩
    · cases handlerAt? table g c with
      | some r => exact ⟨_, rfl⟩
      | none =>
        refine exists_answer_bind (ancestors_answers hc hi hlive).1
          (answer_ancestors_of_lineal hc hi hlive has) (fun as => ?_) ?_
        · cases as.findSome? (handlerAt? table g) <;> exact steady_pure _
        · cases as.findSome? (handlerAt? table g) <;> exact ⟨_, rfl⟩

theorem find_gives_lineal (hc : g.Closed) (hi : g.Issued) {l : Lineage} (hl : l.Valid g) :
    Gives (find table g id) l (fun r l' => Finds table g id r.1 ∧ l'.Valid g)
      fun e l' => e.blame = .user ∧ l'.Valid g ∧
        ∃ c, g.classifier? id = some c ∧ ∀ as, ¬ g.Lineal c as := by
  have hs := find_steady hc hi table id l hl
  have hg := @find_gives _ table _ hc hi id _ hl
  unfold Gives Recalls at hg hs ⊢
  generalize (find table g id).run.run l = out at hg hs
  obtain ⟨r | r, l'⟩ := out
  · refine ⟨hg.1, hg.2, ?_⟩
    by_contra hn
    simp only [not_exists, not_and, not_forall, not_not] at hn
    obtain ⟨r', hr'⟩ : ∃ r, found table g id = .ok r := found_ok hc hi hn
    exact absurd (hs.1.trans hr') (by simp)
  · exact hg

end Dispatch

def Predefined (K : NodeId → Prop) : Prop :=
  ∀ k, K k → initial.contains k = true

namespace Dispatch

variable {η : Type} {table : Table Path η} {g : Graph} {id : NodeId} {K : NodeId → Prop}
  {l : Lineage}

section Entries

theorem find?_unbinders : coreDispatch.unbinders.find? enumeration = some .enumeration ∧
    coreDispatch.unbinders.find? functionDefinition = some .function := by
  decide +kernel

theorem find?_processors : coreDispatch.processors.find? class_ = some .class_ ∧
    coreDispatch.processors.find? association = some .association ∧
    ∀ p ∈ summits, coreDispatch.processors.find? p = none := by
  decide +kernel

end Entries

variable (hr : g.Regular K) (hl : l.Valid g)
include hr hl

theorem find_gives_regular (table : Table Path η) (id : NodeId) : Gives (find table g id) l
    (fun r l' => Finds table g id r.1 ∧ l'.Valid g)
    fun e l' => (e.blame = .user ∧ ¬ Predefined K) ∧ l'.Valid g := by
  refine (find_gives_lineal hr.toClosed hr.issued hl).mono (fun _ _ h => h) fun e l' h => ?_
  obtain ⟨hblame, hl', c, hc, hnone⟩ := h
  refine ⟨⟨hblame, fun hK => ?_⟩, hl'⟩
  obtain ⟨as, has, -⟩ := hr.lineal (hK c (hr.kind id c hc).1)
  exact hnone as has

theorem orDefault_gives {default : η} {Q : η → Prop}
    (h : ∀ r, Finds table g id r → Q (r.getD default)) :
    Gives (do return orDefault default (← find table g id)) l
      (fun r l' => Q r.1 ∧ l'.Valid g) fun e l' => (e.blame = .user ∧ ¬ Predefined K) ∧
        l'.Valid g := by
  refine gives_bind ((find_gives_regular hr hl _ id).imp fun r l' hf => gives_pure ⟨?_, hf.2⟩)
  obtain ⟨_ | h', origin⟩ := r
  · exact h none hf.1
  · exact h (some h') hf.1

theorem unbinder_gives (id : NodeId) : Gives (coreDispatch.unbinder g id) l
    (fun r l' => Handler.Undoes g id r.1 ∧ l'.Valid g)
    fun e l' => (e.blame = .user ∧ ¬ Predefined K) ∧ l'.Valid g := by
  refine orDefault_gives hr hl fun r hf => ⟨fun rcp => ?_, fun hp => ?_, fun hp => ?_⟩
  · exact hf.getD (Q := fun u => u ≠ .recipe rcp) (by simp [coreDispatch]) (by simp)
  · rw [hf.eq_of_exact hp find?_unbinders.1, Option.getD_some]
  · rw [hf.eq_of_exact hp find?_unbinders.2, Option.getD_some]

theorem walker_gives (id : NodeId) : Gives (coreDispatch.walker g id) l
    (fun r l' => (∀ rcp, r.1 ≠ .recipe rcp) ∧ l'.Valid g)
    fun e l' => (e.blame = .user ∧ ¬ Predefined K) ∧ l'.Valid g :=
  orDefault_gives hr hl (Q := fun h : Walker => ∀ rcp, h ≠ .recipe rcp) fun r hf rcp =>
    hf.getD (Q := fun h => h ≠ .recipe rcp) (by simp [coreDispatch]) (by simp)

theorem validator_gives (id : NodeId) : Gives (coreDispatch.validator g id) l
    (fun r l' => (∀ rcp, r.1 ≠ .recipe rcp) ∧ l'.Valid g)
    fun e l' => (e.blame = .user ∧ ¬ Predefined K) ∧ l'.Valid g :=
  orDefault_gives hr hl (Q := fun h : Validator => ∀ rcp, h ≠ .recipe rcp) fun r hf rcp =>
    hf.getD (Q := fun h => h ≠ .recipe rcp) (by simp [coreDispatch]) (by simp)

omit hr in
theorem orDemand_gives {phase : Phase} {default : η} {r : Option η × Origin}
    {Q : η → Prop} (hr : ∀ h, r.1 = some h → Q h) (hd : r.1 = none → Q default) :
    Gives (orDemand phase default g id r) l (fun r l' => Q r.1 ∧ l'.Valid g)
      fun e l' => e.blame ≠ .internal ∧ l'.Valid g := by
  obtain ⟨_ | h, origin⟩ := r
  · unfold orDemand
    simp only
    split
    · split
      · exact gives_throw ⟨by simp [unrecognized, CompileError.blame], hl⟩
      · exact gives_pure ⟨hd rfl, hl⟩
    · exact gives_pure ⟨hd rfl, hl⟩
  · exact gives_pure ⟨hr h rfl, hl⟩

omit hl in
theorem finds_binder {id : NodeId} (hp : g.Propertied id) {r : Option Binder}
    (hf : Finds coreDispatch.binders g id r) : r = some .element := by
  cases r with
  | some b =>
    obtain ⟨p, hp⟩ := hf.mem
    have hmem : p = packageableElement ∧ b = .element := by
      simpa [coreDispatch] using Table.mem_entries_of_find? hp
    rw [hmem.2]
  | none =>
    have hgeneral {p : Path} (q : Path) (hentry : (p, [q]) ∈ classifiers) {k : NodeId}
        (hk : g.path? k = some p) :=
      hr.toRooted.exists_general hr.toIndexed hentry (List.mem_singleton.2 rfl) hk
    have hlineal {p : Path} (hp : p ∈ landmarks) {k : NodeId} (hk : g.path? k = some p) :=
      hr.lineal (hr.initial_of_landmark hr.toIndexed hk hp).2
    obtain ⟨c, hc, as, has, a, ha, hpa⟩ : ∃ c, g.classifier? id = some c ∧ ∃ as, g.Lineal c as ∧
        ∃ a ∈ as, g.path? a = some packageableElement := by
      rcases hp with hp | hp
      · obtain ⟨c, hc, hpath⟩ := Option.bind_eq_some_iff.1 hp
        obtain ⟨as, has, -⟩ := hlineal (by decide +kernel) hpath
        obtain ⟨t, ht, hpt⟩ := hgeneral type (by simp [classifiers]) hpath
        obtain ⟨a, ha, hpa⟩ := hgeneral packageableElement (by simp [classifiers]) hpt
        obtain ⟨bs, hbs, hsub⟩ := has.of_mem t (has.mem_of_general ht)
        exact ⟨c, hc, as, has, a, hsub a (hbs.mem_of_general ha), hpa⟩
      · obtain ⟨c, hc, hpath⟩ := Option.bind_eq_some_iff.1 hp
        obtain ⟨as, has, -⟩ := hlineal (by decide +kernel) hpath
        obtain ⟨a, ha, hpa⟩ := hgeneral packageableElement (by simp [classifiers]) hpath
        exact ⟨c, hc, as, has, a, has.mem_of_general ha, hpa⟩
    cases hf with
    | unclassified h => simp [hc] at h
    | none h _ hnone =>
      obtain rfl := Option.some.inj (hc.symm.trans h)
      have hat : handlerAt? coreDispatch.binders g a = some (.element, packageableElement) :=
        handlerAt?_eq_some_iff.2 ⟨hpa, by decide +kernel⟩
      simp [hnone as has a ha] at hat

theorem binder_gives (id : NodeId) : Gives (coreDispatch.binder g id) l
    (fun r l' => ((∀ rcp, r.1 ≠ .recipe rcp) ∧
      (g.Propertied id → r.1 = .element)) ∧ l'.Valid g)
    fun e l' => e.blame ≠ .internal ∧ l'.Valid g := by
  refine gives_bind ((find_gives_regular hr hl _ id).mono (fun r l' h => ?_)
    fun _ _ h => ⟨by simp [h.1.1], h.2⟩)
  refine orDemand_gives (Q := fun b : Binder => (∀ rcp, b ≠ .recipe rcp) ∧
    (g.Propertied id → b = .element)) h.2
    (fun b hb => ⟨fun rcp hrcp => ?_, fun hp => ?_⟩) fun hn => ⟨by simp, fun hp => ?_⟩
  · obtain ⟨p, hp⟩ := (hb ▸ h.1 : Finds coreDispatch.binders g id (some b)).mem
    subst hrcp
    simpa [coreDispatch] using Table.mem_entries_of_find? hp
  · simpa [hb] using finds_binder hr hp h.1
  · simpa [hn] using finds_binder hr hp h.1

theorem processor_gives (id : NodeId) : Gives (coreDispatch.processor g id) l
    (fun r l' => (Handler.Suits g id r.1 ∧ (Predefined K → r.1 = .function →
      g.classifierPath? id = some functionDefinition)) ∧ l'.Valid g)
    fun e l' => e.blame ≠ .internal ∧ l'.Valid g := by
  refine gives_bind ((find_gives_regular hr hl _ id).mono (fun r l' h => ?_)
    fun _ _ h => ⟨by simp [h.1.1], h.2⟩)
  refine orDemand_gives (Q := fun p => Handler.Suits g id p ∧ (Predefined K → p = .function →
    g.classifierPath? id = some functionDefinition)) h.2 (fun p hp => ?_) fun hn =>
    ⟨⟨by simp, fun hp => ?_, fun hp => ?_⟩, by simp⟩
  rotate_left
  · simpa [hn] using h.1.eq_of_exact hp find?_processors.1
  · simpa [hn] using h.1.eq_of_exact hp find?_processors.2.1
  have hf : Finds coreDispatch.processors g id (some p) := hp ▸ h.1
  obtain ⟨path, hpath⟩ := hf.mem
  refine ⟨⟨fun rcp hrcp => ?_, fun hp => ?_, fun hp => ?_⟩, ?_⟩
  · exact absurd (Table.mem_entries_of_find? hpath) (by simp [coreDispatch, hrcp])
  · exact Option.some.inj (hf.eq_of_exact hp find?_processors.1)
  · exact Option.some.inj (hf.eq_of_exact hp find?_processors.2.1)
  · rintro hK rfl
    cases hcl : g.classifier? id with
    | none => cases hf <;> simp_all
    | some c =>
      have := hr.finds_eq hf hcl (hK c (hr.kind id c hcl).1) find?_processors.2.2
      obtain ⟨q, hq, hfind⟩ := Option.bind_eq_some_iff.1 this.symm
      obtain rfl : q = functionDefinition := by
        simpa [coreDispatch] using Table.mem_entries_of_find? hfind
      simp [classifierPath?, hcl, hq]

omit hl in
theorem validator_steady (id : NodeId) : Steady g (coreDispatch.validator g id).run :=
  (query_bind_answers (f := fun r => pure (orDefault Validator.idle r))
    (find_steady hr.toClosed hr.issued coreDispatch.validators id) fun _ _ => steady_pure _).1

theorem validator_answers (id : NodeId) : Gives (coreDispatch.validator g id) l
    (fun r l' => (Query.answer (coreDispatch.validator g id) = .ok r ∧ ∀ rcp, r.1 ≠ .recipe rcp) ∧
      l'.Valid g)
    fun e l' => Query.answer (coreDispatch.validator g id) = .error e ∧ l'.Valid g := by
  have hg := validator_gives hr hl id
  have hs := validator_steady hr id l hl
  unfold Gives Recalls at hg hs ⊢
  generalize (coreDispatch.validator g id).run.run l = out at hg hs
  obtain ⟨r | r, l'⟩ := out
  · exact ⟨hs.1.symm, hs.2⟩
  · exact ⟨⟨hs.1.symm, hg.1⟩, hs.2⟩

end Dispatch

def verdict (g : Graph) (id : NodeId) : List CompileError :=
  (match Query.answer (coreDispatch.validator g id) with
    | .ok (v, _) => v.verdict g id
    | .error e => [e]) ++ Handler.accessErrors g id

end ModelCompiler
