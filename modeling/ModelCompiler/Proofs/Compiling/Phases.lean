import ModelCompiler.Proofs.Compiling.Parsing

/-!
The phases of a batch.
-/
open ModelCompiler.Action ModelCompiler.Graph ModelCompiler.Workspace ModelCompiler.Handler

namespace ModelCompiler.Compiler

variable {K : NodeId → Prop} {c d : Compiler} {batch : List SourceId} {next : SourceState}
  {errors : List (SourceId × CompileError)} {halted : Bool} {e : CompileError}
  {E : CompileError → Compiler → Prop} {g g' h : Graph} {items : List (SourceId × NodeId)}
  {id s : SourceId} {item : SourceId × NodeId × Processor}

section Conclusions

def concluded (next : SourceState) (errors : List CompileError) (halted : Bool)
    (unit : SourceUnit) : SourceUnit :=
  { unit with
    diagnostics := errors
    state := if errors.isEmpty && !halted then next else unit.state }

theorem mem_errorsOf :
    e ∈ errorsOf id errors ↔ (id, e) ∈ errors := by
  simp [errorsOf]

theorem fatal?_eq_none_iff : fatal? errors = none ↔ ∀ e ∈ errors, e.2.isFatal = false := by
  simp [fatal?]

theorem exists_of_fatal? (h : fatal? errors = some e) : ∃ s, (s, e) ∈ errors := by
  obtain ⟨⟨s, _⟩, hmem, rfl⟩ := List.mem_map.1 (List.mem_of_find?_eq_some h)
  exact ⟨s, hmem⟩

/-- Work in the name of a batch, after which each of its sources has moved on or is left with its
errors. -/
structure Concluded (K : NodeId → Prop) (next : SourceState)
    (errors : List (SourceId × CompileError)) (halted : Bool) (batch : List SourceId)
    (c c' : Compiler) : Prop extends Handled K (· ∈ batch) c c' where
  find : Catalog.Revised (fun id => concluded next (errorsOf id errors) halted) batch c.sources
    c'.sources

theorem conclude_revises {own : List CompileError} {ε : Type}
    {E : ε → Compiler → Prop} : Ensures (conclude id next own halted) c (fun _ c' =>
      c'.graph = c.graph ∧
        Catalog.Revised (fun _ => concluded next own halted) [id] c.sources c'.sources) E := by
  refine ensures_modify_bind ?_
  split
  · rename_i hok
    refine ensures_modify ⟨rfl, fun s => ?_⟩
    simp only [List.mem_singleton, Catalog.find?_modify]
    split
    · cases c.sources.find? s <;> simp [concluded, hok]
    · rfl
  · rename_i hok
    refine ensures_pure ⟨rfl, fun s => ?_⟩
    simp only [List.mem_singleton, Catalog.find?_modify]
    split
    · cases c.sources.find? s <;> simp [concluded, hok]
    · rfl

theorem conclude_ensures (hs : c.Sane K) (hnext : next ≠ .unregistered)
    {own : List CompileError} {ε : Type} {E : ε → Compiler → Prop} :
    Ensures (conclude id next own halted) c
      (fun _ c' => Handled K (· = id) c c' ∧ c'.graph = c.graph ∧
        Catalog.Revised (fun _ => concluded next own halted) [id] c.sources c'.sources) E := by
  refine (Ensures.and (E := E) (F := E) ?_ conclude_revises).mono (fun _ _ h => h) fun _ _ h => h.1
  have h₁ := hs.setUnit id (f := fun unit => { unit with diagnostics := own }) (fun _ => rfl)
    fun _ h => h
  refine ensures_modify_bind ?_
  split
  · have h₂ := h₁.trans (h₁.sane.setUnit id (f := fun unit => { unit with state := next })
      (fun _ => rfl) fun _ h => absurd h hnext)
    exact ensures_modify (h₂.handled rfl)
  · exact ensures_pure (h₁.handled rfl)

theorem concluded_concluded (own : List CompileError) (unit : SourceUnit) :
    concluded next own halted (concluded next own halted unit) =
      concluded next own halted unit := by
  simp only [concluded]
  split <;> rfl

theorem Sane.concluded (hs : c.Sane K) : Concluded K next errors halted [] c c :=
  ⟨hs.looked.handled, Catalog.revised_nil _ _⟩

theorem Concluded.after (h : Handled K (· ∈ batch) c d) (hd : d.sources = c.sources)
    {c' : Compiler} (h' : Concluded K next errors halted batch d c') :
    Concluded K next errors halted batch c c' :=
  ⟨h.trans h'.toHandled, hd ▸ h'.find⟩

theorem Concluded.concat {done : List SourceId} {c₁ c₂ c₃ : Compiler}
    (h : Concluded K next errors halted done c c₁) (h₁ : Handled K (· = id) c₁ c₂)
    (hsources : c₂.sources = c₁.sources) (h₂ : Handled K (· = id) c₂ c₃)
    (hfind : Catalog.Revised (fun _ => concluded next (errorsOf id errors) halted) [id] c₂.sources
      c₃.sources) : Concluded K next errors halted (done ++ [id]) c c₃ where
  toHandled := by
    refine (h.toHandled.mono fun s hs => ?_).trans ((h₁.trans h₂).mono fun s hs => ?_)
    · exact List.mem_append_left _ hs
    · exact List.mem_append_right _ (List.mem_singleton.2 hs)
  find := by
    refine h.find.concat (hsources ▸ fun s => ?_) fun _ _ => concluded_concluded _ _
    rw [hfind s]
    by_cases hs : s = id <;> simp [hs]

theorem concludeAll_ensures (hs : c.Sane K) (hnext : next ≠ .unregistered) (batch : List SourceId) :
    Ensures (batch.forM fun id => conclude id next (errorsOf id errors) halted) c
      (fun _ c' => Concluded K next errors halted batch c c' ∧ c'.graph = c.graph) E := by
  refine ensures_forM (I := fun done c' => Concluded K next errors halted done c c' ∧
    c'.graph = c.graph) ⟨hs.concluded, rfl⟩ fun id _ done c' h => ?_
  obtain ⟨h, hg⟩ := h
  refine (conclude_ensures h.sane hnext).imp (fun _ c'' h' => ?_)
  obtain ⟨h', hg', hfind⟩ := h'
  exact ⟨h.concat h.sane.looked.handled rfl h' hfind, hg'.trans hg⟩

end Conclusions

section Binding

def Replies (g : Graph) (item : SourceId × NodeId)
    (reply : SourceId × Except (List CompileError) (List Binding)) : Prop :=
  reply.1 = item.1 ∧ Answers g item.2 reply.2 ∧
    ∀ es, reply.2 = .error es → ∀ e ∈ es, e.blame ≠ .internal

theorem bindNode_ensures (hs : c.Sane K) (item : SourceId × NodeId) :
    Ensures (bindNode item) c (fun r c' => Replies c.graph item r ∧ Looked K c c') E := by
  have hdone {c₁ : Compiler} {answer : Except (List CompileError) (List Binding)}
      (h₁ : Looked K c c₁) (ha : Answers c.graph item.2 answer)
      (hblame : ∀ es, answer = .error es → ∀ e ∈ es, e.blame ≠ .internal) :
      Ensures (do advance; return (item.1, answer) : Compiling _) c₁
        (fun r c' => Replies c.graph item r ∧ Looked K c c') E :=
    ensures_bind (advance_ensures h₁.sane fun c₂ h₂ =>
      ensures_pure ⟨⟨rfl, ha, hblame⟩, h₁.trans h₂⟩)
  refine ensures_bind (ensures_attempt (ask_ensures hs
    (Dispatch.binder_gives hs.tidy.toRegular hs.orderly.valid item.2) (fun r c₁ hb h₁ => ?_)
    fun e c₁ he h₁ => ?_))
  · rw [← h₁.graph] at hb
    refine ensures_bind (ensures_attempt (onWorkspace_ensures
      ((Binder.run_ensures h₁.sane.tidy.toIndexed hb.1 hb.2).mono (fun bindings w h => ?_)
        fun errors w h => ?_)))
    · obtain ⟨rfl, ha⟩ := h
      exact hdone h₁ (h₁.graph ▸ ha) nofun
    · obtain ⟨⟨rfl, hblame⟩, ha⟩ := h
      exact hdone h₁ (h₁.graph ▸ ha) fun es hes e he => by
        simp [hblame e (Except.error.inj hes ▸ he)]
  · exact ensures_bind (ensures_pure (hdone h₁ (by simp [Handler.Answers]) fun es hes e' he' =>
      List.mem_singleton.1 (Except.error.inj hes ▸ he') ▸ he))

variable {answers : List (SourceId × Except (List CompileError) (List Binding))}
  {g : Graph} {items : List (SourceId × NodeId)}

theorem mem_bindingErrors :
    (s, e) ∈ bindingErrors answers ↔ ∃ es, (s, .error es) ∈ answers ∧ e ∈ es := by
  simp only [bindingErrors, List.mem_flatMap, Prod.exists]
  constructor
  · rintro ⟨s', answer, hmem, he⟩
    cases answer with
    | ok bs => simp at he
    | error es =>
      obtain ⟨e', he', heq⟩ := List.mem_map.1 he
      obtain ⟨rfl, rfl⟩ := Prod.mk.inj heq
      exact ⟨es, hmem, he'⟩
  · rintro ⟨es, hmem, he⟩
    exact ⟨s, .error es, hmem, List.mem_map_of_mem he⟩

theorem mem_bindingsOf {b : Binding} :
    b ∈ bindingsOf s answers ↔ ∃ bs, (s, .ok bs) ∈ answers ∧ b ∈ bs := by
  simp only [bindingsOf, List.mem_flatMap, List.mem_filter, Prod.exists]
  constructor
  · rintro ⟨s', answer, ⟨hmem, hs⟩, hb⟩
    obtain rfl : s' = s := by simpa using hs
    cases answer with
    | ok bs => exact ⟨bs, hmem, hb⟩
    | error es => simp at hb
  · rintro ⟨bs, hmem, hb⟩
    exact ⟨s, .ok bs, ⟨hmem, by simp⟩, hb⟩

theorem exists_bindings (h : List.Forall₂ (Replies g) items answers) {x : NodeId}
    (hx : (s, x) ∈ items) (hs : errorsOf s (bindingErrors answers) = []) :
    ∃ bs, Answers g x (.ok bs) ∧ ∀ b ∈ bs, b ∈ bindingsOf s answers := by
  obtain ⟨⟨s', answer⟩, hmem, hfst, ha, -⟩ := (Lineage.exists_mem_of_forall₂ h).1 _ hx
  obtain rfl : s' = s := hfst
  cases answer with
  | ok bs => exact ⟨bs, ha, fun b hb => mem_bindingsOf.2 ⟨bs, hmem, hb⟩⟩
  | error es =>
    obtain ⟨e, he⟩ := List.exists_mem_of_ne_nil es ha
    have := mem_errorsOf.2 (mem_bindingErrors.2 ⟨es, hmem, he⟩)
    simp [hs] at this

theorem binds_of_mem_bindingsOf (h : List.Forall₂ (Replies g) items answers)
    {b : Binding} (hb : b ∈ bindingsOf s answers) : ∃ x, (s, x) ∈ items ∧ Binds g x b := by
  obtain ⟨bs, hmem, hb⟩ := mem_bindingsOf.1 hb
  obtain ⟨⟨s', x⟩, hx, hfst, ha, -⟩ := (Lineage.exists_mem_of_forall₂ h).2 _ hmem
  obtain rfl : s = s' := hfst
  exact ⟨x, hx, ha.1 b hb⟩

/-- The batch has been bound. If nothing was fatal, every name in a class or an association of a
source without errors has a meaning. -/
structure Bound (K : NodeId → Prop) (errors : List (SourceId × CompileError))
    (batch : List SourceId) (c c' : Compiler) : Prop extends
    Concluded K .bound errors (fatal? errors).isSome batch c c' where
  blame : ∀ e ∈ errors, e.2.blame ≠ .internal
  frame : c'.graph.frame = c.graph.frame
  values : ∀ j q, q ≠ "resolvedNode" → c'.graph.values j q = c.graph.values j q
  complete : fatal? errors = none → ∀ s ∈ batch, errorsOf s errors = [] →
    ∀ x ∈ c.graph.persistentNodes s, c.graph.Propertied x → ∀ stub ∈ c.graph.ownedBy x,
    c.graph.isImportStub stub = true → c'.graph.values stub "resolvedNode" ≠ []

def written (errors : List (SourceId × CompileError))
    (answers : List (SourceId × Except (List CompileError) (List Binding))) (done : List SourceId) :
    List Binding :=
  done.flatMap fun id =>
    if (errorsOf id errors).isEmpty && (fatal? errors).isNone then bindingsOf id answers else []

theorem written_concat (done : List SourceId) (id : SourceId) :
    written errors answers (done ++ [id]) = written errors answers done ++
      if (errorsOf id errors).isEmpty && (fatal? errors).isNone then bindingsOf id answers
      else [] := by
  simp only [written, List.flatMap_append, List.flatMap_singleton]

theorem bindPhase_ensures (hs : c.Sane K) (batch : List SourceId) :
    Ensures (bindPhase batch) c
      (fun _ c' => ∃ errors, Bound K errors batch c c' ∧ fatal? errors = none)
      fun e c' => ∃ errors, Bound K errors batch c c' ∧ fatal? errors = some e := by
  refine ensures_get_bind (ensures_bind (startProgress_ensures hs fun c₁ h₁ =>
    ensures_bind ?_))
  refine (Pool.ensures_mapM (I := Looked K c) (R := Replies c.graph) h₁ fun item _ c' h =>
    h.graph ▸ (bindNode_ensures h.sane item).imp fun r c'' h' => ⟨h'.1, h.trans h'.2⟩).imp
      (fun answers c₂ h => ?_)
  obtain ⟨hanswers, h₂⟩ := h
  have hitems {s : SourceId} {x : NodeId} : (s, x) ∈ c.items batch ↔
      s ∈ batch ∧ x ∈ c.graph.persistentNodes s := by
    simp [items]
  refine ensures_bind (Ensures.mono (ensures_forM (I := fun done c' =>
    Concluded K .bound (bindingErrors answers) (fatal? (bindingErrors answers)).isSome done c₂ c' ∧
      Bindings (written (bindingErrors answers) answers done) c.graph c'.graph)
    ⟨h₂.sane.concluded, ?_⟩ fun id hid done c' h => ?_) (fun _ c' h => ?_) fun _ _ h => h)
  · rw [h₂.graph]
    exact .refl _
  · obtain ⟨h, hb⟩ := h
    have hconclude {c₃ : Compiler} (h₃ : Handled K (· = id) c' c₃)
        (hsources : c₃.sources = c'.sources)
        (hb₃ : Bindings (written (bindingErrors answers) answers (done ++ [id]))
          c.graph c₃.graph) :=
      (conclude_ensures (E := fun e c' => ∃ errors, Bound K errors batch c c' ∧
        fatal? errors = some e) h₃.sane (by simp : SourceState.bound ≠ .unregistered)).imp
        (fun _ c'' h' => And.intro (h.concat h₃ hsources h'.1 h'.2.2) (h'.2.1 ▸ hb₃))
    dsimp only
    split
    · rename_i hok
      refine ensures_bind (onWorkspace_ensures ((applyAll_ensures (R := c'.Elements (· = id))
        h.sane.orderly fun b hmem => ?_).imp fun _ w hw => ?_))
      · obtain ⟨x, hx, hbinds⟩ := binds_of_mem_bindingsOf hanswers hmem
        have hx' : x ∈ c'.graph.persistentNodes id := by
          rw [h.persistent, h₂.graph]
          exact (hitems.1 hx).2
        exact ⟨x, id, ⟨id, rfl, hx'⟩, (h.sane.tidy.persistent_iff id x).1 hx',
          hbinds.congr hb.frame⟩
      · refine hconclude (h.sane.worked hw.1 fun _ hx => hx) rfl ?_
        rw [written_concat, if_pos hok]
        exact hb.trans hw.2
    · rename_i hok
      refine hconclude h.sane.looked.handled rfl ?_
      rw [written_concat, if_neg hok, List.append_nil]
      exact hb
  · obtain ⟨h, hb⟩ := h
    have hbound : Bound K (bindingErrors answers) batch c c' :=
      { h.after h₂.handled h₂.sources with
        blame := fun e he => by
          obtain ⟨es, hmem, he⟩ := mem_bindingErrors.1 he
          obtain ⟨item, -, -, -, hblame⟩ := (Lineage.exists_mem_of_forall₂ hanswers).2 _ hmem
          exact hblame es rfl _ he
        frame := hb.frame
        values := hb.values
        complete := fun hhalt s hmem hnone x hx hkind stub hstub himport => by
          obtain ⟨bs, ha, hall⟩ := exists_bindings hanswers (hitems.2 ⟨hmem, hx⟩) hnone
          refine hb.bound stub ?_
          by_cases hopen : c.graph.values stub "resolvedNode" = []
          · obtain ⟨b, hb, hnode⟩ := ha.2 hkind stub
              (List.mem_filter.2 ⟨hstub, by simp [himport, value?, hopen]⟩)
            refine .inr ⟨b, List.mem_flatMap.2 ⟨s, hmem, ?_⟩, hnode⟩
            simpa [hnone, hhalt] using hall b hb
          · exact .inl hopen }
    split
    · rename_i e he
      exact ensures_throw ⟨_, hbound, he⟩
    · rename_i he
      exact ensures_pure ⟨_, hbound, he⟩

end Binding

section Processing

structure Planned (K : NodeId → Prop) (g : Graph) (item : SourceId × NodeId × Processor) :
    Prop where
  element : g.lifetime? item.2.1 = some (.persistent item.1)
  suits : Suits g item.2.1 item.2.2
  function : Predefined K → item.2.2 = .function →
    g.classifierPath? item.2.1 = some Metamodel.functionDefinition

/-- What processors have done, one after the other, and the errors that they have found. -/
inductive Course (K : NodeId → Prop) : List (SourceId × NodeId × Processor) →
    List (SourceId × CompileError) → Graph → Graph → Prop
  | nil {g : Graph} : Course K [] [] g g
  | entered {s : SourceId} {x : NodeId} {p : Processor} {rest errors} {g h g' : Graph} :
      Planned K g (s, x, p) → Processed K p x g h → Entered g x h p → Course K rest errors h g' →
      Course K ((s, x, p) :: rest) errors g g'
  | failed {s : SourceId} {x : NodeId} {p : Processor} {own rest errors} {g h g' : Graph} :
      Planned K g (s, x, p) → Processed K p x g h → Alike g h → own ≠ [] →
      fatal? (own.map (s, ·)) = none → Course K rest errors h g' →
      Course K ((s, x, p) :: rest) (own.map (s, ·) ++ errors) g g'
  | halted {s : SourceId} {x : NodeId} {p : Processor} {own rest} {e : CompileError}
      {g h : Graph} : Planned K g (s, x, p) → Processed K p x g h → Alike g h → own ≠ [] →
      fatal? (own.map (s, ·)) = some e → Course K ((s, x, p) :: rest) (own.map (s, ·)) g h

theorem Planned.works {R : NodeId → Prop}
    (hp : Planned K g item) (hw : Works K R g h) (ht : g.Tidy K) : Planned K h item := by
  have ha := Works.agree hw ht hp.element
  refine ⟨Works.persistent hw ht hp.element, ⟨hp.suits.core, fun h => ?_, fun h => ?_⟩,
    fun hK hf => ?_⟩
  · exact hp.suits.class_ (ha.classifierPath ▸ h)
  · exact hp.suits.association (ha.classifierPath ▸ h)
  · rw [ha.classifierPath]
    exact hp.function hK hf

theorem Planned.listed
    (hplan : Planned K g item) (hp : Processed K item.2.2 item.2.1 g h) (ht : g.Tidy K)
    (hK : Predefined K) (hl : g.Listed) (hfree : ∀ t, ¬ g.Part item.2.1 Metamodel.functionType t) :
    h.Listed ∧ ∀ o t, h.Part o Metamodel.functionType t → o = item.2.1 ∨
      g.Part o Metamodel.functionType t := by
  obtain ⟨s, x, p⟩ := item
  -- other functions keep their types
  have hold {o t : NodeId} (hpart : g.Part o Metamodel.functionType t) :
      t ∈ h.values o "functionType" ∧ h.classifierPath? o = some Metamodel.functionDefinition := by
    have hne : o ≠ x := fun e => hfree t (e ▸ hpart)
    obtain ⟨hmem, hkind⟩ := hl o t hpart
    obtain ⟨s', ho⟩ := ht.owner t o hpart.lifetime
    rw [(Works.untouched hp.works ht (ownerRoot?_persistent ho) hne).2.values _
      (ht.forward (by simp) (by simp) (by simp)), (Works.agree hp.works ht ho).classifierPath]
    exact ⟨hmem, hkind⟩
  by_cases hfun : p = .function
  · obtain ⟨t, hvalues, hparts⟩ := hp.typed hfun
    refine ⟨fun o m hm => ?_, fun o m hm => ?_⟩
    · rcases (hparts o m).1 hm with hm | ⟨rfl, rfl⟩
      · exact hold hm
      · rw [hvalues, (Works.agree hp.works ht hplan.element).classifierPath]
        exact ⟨List.mem_singleton_self _, hplan.function hK hfun⟩
    · exact ((hparts o m).1 hm).symm.imp_left fun h => h.2
  · have e := hp.frame hfun
    have hpart {o m : NodeId} (hm : h.Part o Metamodel.functionType m) :
        g.Part o Metamodel.functionType m := hm.agree (agree_of_frame e m).symm
    exact ⟨fun o m hm => hold (hpart hm), fun o m hm => .inr (hpart hm)⟩

/-- Types of functions stay entered if every function is processed once, from the start. -/
theorem Course.listed {items : List (SourceId × NodeId × Processor)}
    (h : Course K items errors g g') (ht : g.Tidy K) (hK : Predefined K) (hl : g.Listed)
    (hnodup : (items.map (·.2.1)).Nodup)
    (hfree : ∀ item ∈ items, ∀ t, ¬ g.Part item.2.1 Metamodel.functionType t) : g'.Listed := by
  -- the items that are left have no types yet
  have hrest {s : SourceId} {x : NodeId} {p : Processor}
      {rest : List (SourceId × NodeId × Processor)} {g h : Graph}
      (hnodup : (((s, x, p) :: rest).map (·.2.1)).Nodup)
      (hfree : ∀ item ∈ (s, x, p) :: rest, ∀ t, ¬ g.Part item.2.1 Metamodel.functionType t)
      (hparts : ∀ o t, h.Part o Metamodel.functionType t → o = x ∨
        g.Part o Metamodel.functionType t) :
      (rest.map (·.2.1)).Nodup ∧ ∀ item ∈ rest, ∀ t,
      ¬ h.Part item.2.1 Metamodel.functionType t := by
    rw [List.map_cons, List.nodup_cons] at hnodup
    refine ⟨hnodup.2, fun item hitem t hpart => ?_⟩
    rcases hparts _ t hpart with heq | hpart
    · exact hnodup.1 (heq ▸ List.mem_map_of_mem (f := (·.2.1)) hitem)
    · exact hfree item (List.mem_cons_of_mem _ hitem) t hpart
  induction h with
  | nil => exact hl
  | entered hplan hp _ _ ih | failed hplan hp _ _ _ _ ih =>
    obtain ⟨hl', hparts⟩ := hplan.listed hp ht hK hl (hfree _ List.mem_cons_self)
    obtain ⟨hnodup', hfree'⟩ := hrest hnodup hfree hparts
    exact ih (Works.tidy hp.works ht) hl' hnodup' hfree'
  | halted hplan hp => exact (hplan.listed hp ht hK hl (hfree _ List.mem_cons_self)).1

theorem warmUp_ensures (hs : c.Sane K) (hitems : ∀ item ∈ items, c.graph.contains item.2 = true) :
    Ensures (warmUp items) c (fun _ c' => Looked K c c') E := by
  refine ensures_get_bind ?_
  split
  · exact ensures_pure hs.looked
  · rename_i kind _
    refine ensures_discard (Ensures.mono (Pool.ensures_mapM (I := Looked K c)
      (R := fun _ _ => True) hs.looked fun item hitem c' h => ?_) (fun _ _ h => h.2) fun _ _ h => h)
    have hr := h.sane.tidy.toRegular
    have hlive : c'.graph.contains item.2 = true := h.graph ▸ hitems item hitem
    refine onWorkspace_ensures (Work.inspect_ensures ?_)
    have hdone {l : Lineage} (hl : l.Valid c'.graph) :
        True ∧ Looked K c { c' with workspace := { c'.workspace with lineage := l } } :=
      ⟨trivial, h.trans (h.sane.remember hl)⟩
    refine Lineage.recalls_bind
      (Lineage.Recalls.mono (Lineage.isInstance_gives hr.toClosed hr.issued
      item.2 kind h.sane.orderly.valid) fun r l hr' => ?_)
    have hl : l.Valid c'.graph := by
      cases r with
      | ok b | error e => exact hr'.2
    split
    · refine Lineage.recalls_discard (Lineage.Recalls.mono (Lineage.ancestors_gives hr.toClosed
        hr.issued hlive hl) fun r l' hr'' => ?_)
      cases r with
      | ok as | error e => exact hdone hr''.2
    · exact Lineage.recalls_pure (hdone hl)

theorem schedule_ensures : ∀ {items : List (SourceId × NodeId)} {c : Compiler}, c.Sane K →
    (∀ item ∈ items, c.graph.lifetime? item.2 = some (.persistent item.1)) →
    ∀ {E : CompileError → Compiler → Prop}, Ensures (schedule items) c
      (fun r c' => Looked K c c' ∧ (∀ item ∈ r.1, Planned K c.graph item) ∧
        (r.2 = none → r.1.map (fun item => (item.1, item.2.1)) = items) ∧
        ∀ e, r.2 = some e → e.2.blame ≠ .internal) E
  | [], c, hs, _, E => ensures_pure ⟨hs.looked, by simp, by simp, by simp⟩
  | (s, x) :: items, c, hs, hitems, E => by
    refine ensures_bind (ensures_attempt (ask_ensures hs
      (Dispatch.processor_gives hs.tidy.toRegular hs.orderly.valid x) (fun r c₁ hp h₁ => ?_)
      fun e c₁ hblame h₁ => ?_))
    · refine ensures_bind ((schedule_ensures h₁.sane fun item hitem => ?_).imp fun q c₂ h => ?_)
      · rw [h₁.graph]
        exact hitems item (List.mem_cons_of_mem _ hitem)
      · obtain ⟨h₂, hplan, hall, hblame⟩ := h
        rw [h₁.graph] at hplan
        refine ensures_pure ⟨h₁.trans h₂, fun item hitem => ?_, fun hn => ?_, hblame⟩
        · rcases List.mem_cons.1 hitem with rfl | hitem
          · exact ⟨hitems (s, x) List.mem_cons_self, hp.1, hp.2⟩
          · exact hplan item hitem
        · exact congrArg ((s, x) :: ·) (hall hn)
    · exact ensures_pure ⟨h₁, by simp, by simp, fun e' he => Option.some.inj he ▸ hblame⟩

theorem processAll_ensures (hK : CoversMetamodel K) :
    ∀ {items : List (SourceId × NodeId × Processor)} {c : Compiler}, c.Sane K →
    (∀ item ∈ items, item.1 ∈ batch ∧ Planned K c.graph item) →
    ∀ {E : CompileError → Compiler → Prop}, Ensures (processAll items) c
      (fun r c' => Handled K (· ∈ batch) c c' ∧ c'.sources = c.sources ∧ r.2 = fatal? r.1 ∧
        (∀ e, r.2 = some e → e.blame ≠ .internal) ∧ Course K items r.1 c.graph c'.graph) E
  | [], c, hs, _, E => ensures_pure ⟨hs.looked.handled, rfl, rfl, nofun, .nil⟩
  | (s, x, p) :: rest, c, hs, hitems, E => by
    obtain ⟨hmem, hplan⟩ := hitems _ List.mem_cons_self
    have hx : x ∈ c.graph.persistentNodes s := (hs.tidy.persistent_iff s x).2 hplan.element
    -- whatever the processor came to, the others go on from there
    have hnext {w : Workspace} (hw : RanProcessor K p x c.workspace w) :
        Handled K (· ∈ batch) c { c with workspace := w } ∧
          ∀ item ∈ rest, item.1 ∈ batch ∧ Planned K w.graph item := by
      refine ⟨hs.worked ⟨hw.processed.works, hw.orderly⟩ fun y hy => ⟨s, hmem, hy ▸ hx⟩,
        fun item hitem => ?_⟩
      obtain ⟨h, hp⟩ := hitems item (List.mem_cons_of_mem _ hitem)
      exact ⟨h, hp.works hw.processed.works hs.tidy⟩
    have hrest {w : Workspace} (hw : RanProcessor K p x c.workspace w)
        {found : List (SourceId × CompileError)} (hfound : fatal? found = none)
        (hcourse : ∀ errors g', Course K rest errors w.graph g' →
          Course K ((s, x, p) :: rest) (found ++ errors) c.graph g')
        {last : _ → Compiling (List (SourceId × CompileError) × Option CompileError)}
        (hlast : ∀ r, last r = pure (found ++ r.1, r.2)) :
        Ensures (advance >>= fun _ => processAll rest >>= last) { c with workspace := w }
          (fun r c' => Handled K (· ∈ batch) c c' ∧ c'.sources = c.sources ∧ r.2 = fatal? r.1 ∧
            (∀ e, r.2 = some e → e.blame ≠ .internal) ∧
            Course K ((s, x, p) :: rest) r.1 c.graph c'.graph) E := by
      obtain ⟨h₁, hitems₁⟩ := hnext hw
      refine ensures_bind (advance_ensures h₁.sane fun c₂ h₂ => ensures_bind
        ((processAll_ensures hK h₂.sane fun item hitem => ?_).imp fun r c₃ h => ?_))
      · rw [h₂.graph]
        exact hitems₁ item hitem
      · obtain ⟨h₃, hsources, hhalt, hblame, hcourse₃⟩ := h
        rw [hlast]
        refine ensures_pure ⟨h₁.trans (h₂.handled.trans h₃), hsources.trans h₂.sources,
          ?_, hblame, ?_⟩
        · rw [hhalt, fatal?, fatal?, List.map_append, List.find?_append]
          rw [fatal?] at hfound
          rw [hfound, Option.none_or]
        · refine hcourse _ _ ?_
          rw [h₂.graph] at hcourse₃
          exact hcourse₃
    refine ensures_bind (ensures_attempt (onWorkspace_ensures
      ((Processor.run_ensures hs.orderly hK hplan.element hplan.suits).mono (fun _ w h => ?_)
        fun own w h => ?_)))
    · obtain ⟨hran, hentered⟩ := h
      refine ensures_bind (ensures_pure ?_)
      exact hrest hran (rfl : fatal? [] = none)
        (fun errors g' h => .entered hplan hran.processed hentered h) fun _ => rfl
    · obtain ⟨hran, hne, hblame, halike⟩ := h
      refine ensures_bind (ensures_pure ?_)
      dsimp only
      split
      · rename_i e he
        refine ensures_pure ⟨(hnext hran).1, rfl, he.symm, fun e' he' => ?_,
          .halted hplan hran.processed halike hne he⟩
        obtain ⟨_, hfound⟩ := exists_of_fatal? he
        obtain ⟨x, hx, heq⟩ := List.mem_map.1 hfound
        rw [← Option.some.inj he', ← (Prod.mk.inj heq).2, hblame x hx]
        simp
      · rename_i he
        exact hrest hran he (fun errors g' h => .failed hplan hran.processed halike hne he h)
          fun _ => rfl

/-- The batch has been processed, all of it unless the phase was halted. -/
structure Treated (K : NodeId → Prop) (errors : List (SourceId × CompileError))
    (halt : Option CompileError) (batch : List SourceId) (c c' : Compiler) : Prop extends
    Concluded K .processed errors halt.isSome batch c c' where
  blame : ∀ e, halt = some e → e.blame ≠ .internal
  course : c'.graph = c.graph ∧ halt.isSome = true ∨
    ∃ scheduled, scheduled.map (fun item => (item.1, item.2.1)) = c.items batch ∧
      Course K (inOrder scheduled) errors c.graph c'.graph ∧ halt = fatal? errors

theorem perm_inOrder (scheduled : List (SourceId × NodeId × Processor)) :
    (inOrder scheduled).Perm scheduled :=
  List.filter_append_perm _ _

theorem Sane.nodup_items (hs : c.Sane K) (hnodup : batch.Nodup) :
    ((c.items batch).map (·.2)).Nodup := by
  have hmap : (c.items batch).map (·.2) = batch.flatMap c.graph.persistentNodes := by
    simp [items, List.map_flatMap, Function.comp_def]
  rw [hmap, List.nodup_flatMap]
  refine ⟨fun s _ => hs.tidy.persistent_nodup s, hnodup.imp fun hne => ?_⟩
  intro x hx hx'
  have h := ((hs.tidy.persistent_iff _ x).1 hx).symm.trans ((hs.tidy.persistent_iff _ x).1 hx')
  exact hne (by simpa using h)

theorem Treated.listed {halt : Option CompileError} (h : Treated K errors halt batch c d)
    (hs : c.Sane K) (hK : Predefined K) (hnodup : batch.Nodup) (hl : c.graph.Listed)
    (hfree : ∀ s ∈ batch, ∀ x ∈ c.graph.persistentNodes s, ∀ t,
      ¬ c.graph.Part x Metamodel.functionType t) : d.graph.Listed := by
  rcases h.course with ⟨hg, -⟩ | ⟨scheduled, hitems, hcourse, -⟩
  · exact hg ▸ hl
  · refine hcourse.listed hs.tidy hK hl ?_ fun item hitem => ?_
    · refine (((perm_inOrder scheduled).map _).nodup_iff).2 ?_
      have := hs.nodup_items hnodup
      rwa [← hitems, List.map_map] at this
    · have hmem := List.mem_map_of_mem (f := fun item => (item.1, item.2.1))
        ((perm_inOrder scheduled).mem_iff.1 hitem)
      rw [hitems] at hmem
      obtain ⟨s, hs', hmem⟩ := List.mem_flatMap.1 hmem
      obtain ⟨x, hx, heq⟩ := List.mem_map.1 hmem
      obtain ⟨-, rfl⟩ := Prod.mk.inj heq
      exact hfree s hs' _ hx

theorem Sane.of_mem_items (hs : c.Sane K) {sources : List SourceId} {item : SourceId × NodeId}
    (h : item ∈ c.items sources) :
    item.1 ∈ sources ∧ c.graph.lifetime? item.2 = some (.persistent item.1) := by
  obtain ⟨s, hs', hmem⟩ := List.mem_flatMap.1 h
  obtain ⟨x, hx, rfl⟩ := List.mem_map.1 hmem
  exact ⟨hs', (hs.tidy.persistent_iff s x).1 hx⟩

theorem Sane.contains_item (hs : c.Sane K) {sources : List SourceId} {item : SourceId × NodeId}
    (h : item ∈ c.items sources) : c.graph.contains item.2 = true :=
  contains_of_lifetime? (hs.of_mem_items h).2

theorem processPhase_ensures (hs : c.Sane K) (hK : CoversMetamodel K)
    (batch : List SourceId) : Ensures (processPhase batch) c
      (fun r c' => ∃ errors halt, Treated K errors halt batch c c' ∧
        (r = none ∧ halt = none ∨ r = some .process ∧ ∃ e, halt = some e ∧ e.blame = .user))
      fun e c' => ∃ errors, Treated K errors (some e) batch c c' := by
  refine ensures_get_bind (ensures_bind ((warmUp_ensures hs fun item h =>
    hs.contains_item h).imp fun _ c₁ h₁ => ?_))
  refine ensures_bind (startProgress_ensures h₁.sane fun c₂ h₂ => ensures_bind ?_)
  have h₀₂ := h₁.trans h₂
  refine (schedule_ensures h₂.sane fun item h => ?_).imp (fun r c₃ h => ?_)
  · rw [h₀₂.graph]
    exact (hs.of_mem_items h).2
  obtain ⟨h₃, hplan, hall, hmissing⟩ := h
  have h₀₃ := h₀₂.trans h₃
  -- the sources are concluded in the same way whether the processors have run or not
  have hend {errors : List (SourceId × CompileError)} {halt : Option CompileError} {c₄ : Compiler}
      (h₄ : Handled K (· ∈ batch) c c₄) (hsources : c₄.sources = c.sources)
      (hblame : ∀ e, halt = some e → e.blame ≠ .internal)
      (hcourse : c₄.graph = c.graph ∧ halt.isSome = true ∨
        ∃ scheduled, scheduled.map (fun item => (item.1, item.2.1)) = c.items batch ∧
          Course K (inOrder scheduled) errors c.graph c₄.graph ∧ halt = fatal? errors)
      {last : Compiling (Option Phase)} (hnone : halt = none → last = pure none)
      (hsome : ∀ e, halt = some e →
        last = if e.blame = .user then pure (some .process) else throw e) :
      Ensures ((batch.forM fun id => conclude id .processed (errorsOf id errors) halt.isSome) >>=
        fun _ => last) c₄
        (fun r c' => ∃ errors halt, Treated K errors halt batch c c' ∧
          (r = none ∧ halt = none ∨ r = some .process ∧ ∃ e, halt = some e ∧ e.blame = .user))
        fun e c' => ∃ errors, Treated K errors (some e) batch c c' := by
    refine ensures_bind ((concludeAll_ensures h₄.sane (by simp) batch).imp fun _ c₅ h₅ => ?_)
    have hdone : Treated K errors halt batch c c₅ :=
      { h₅.1.after h₄ hsources with
        blame := hblame
        course := h₅.2 ▸ hcourse }
    cases halt with
    | none =>
      rw [hnone rfl]
      exact ensures_pure ⟨errors, none, hdone, .inl ⟨rfl, rfl⟩⟩
    | some e =>
      rw [hsome e rfl]
      split
      · rename_i he
        exact ensures_pure ⟨errors, some e, hdone, .inr ⟨rfl, e, rfl, he⟩⟩
      · exact ensures_throw ⟨errors, hdone⟩
  obtain ⟨scheduled, missing⟩ := r
  cases missing with
  | some e =>
    obtain ⟨s, e⟩ := e
    exact ensures_bind (ensures_pure (hend h₀₃.handled h₀₃.sources
      (fun e' he => Option.some.inj he ▸ hmissing _ rfl) (.inl ⟨h₀₃.graph, rfl⟩)
      (by simp) fun _ h => by rw [← Option.some.inj h]))
  | none =>
    have hplan' : ∀ item ∈ inOrder scheduled, item.1 ∈ batch ∧ Planned K c₃.graph item := by
      intro item hmem
      have hmem := (perm_inOrder scheduled).mem_iff.1 hmem
      have hmem' := List.mem_map_of_mem (f := fun item => (item.1, item.2.1)) hmem
      rw [hall rfl] at hmem'
      refine ⟨(hs.of_mem_items hmem').1, ?_⟩
      rw [h₃.graph]
      exact hplan item hmem
    refine ensures_bind ((processAll_ensures hK h₃.sane hplan').imp fun r c₄ h => ?_)
    obtain ⟨h₄, hsources, hhalt, hblame, hcourse⟩ := h
    rw [h₀₃.graph] at hcourse
    exact hend (h₀₃.handled.trans h₄) (hsources.trans h₀₃.sources) hblame
      (.inr ⟨scheduled, hall rfl, hcourse, hhalt⟩) (fun h => by rw [h]) fun _ h => by rw [h]

end Processing

section Validation

def verdicts (g : Graph) (items : List (SourceId × NodeId)) : List (SourceId × CompileError) :=
  items.flatMap fun item => (verdict g item.2).map (item.1, ·)

theorem validateNode_ensures (hs : c.Sane K) {item : SourceId × NodeId}
    (hid : c.graph.contains item.2 = true) :
    Ensures (validateNode item) c
      (fun errors c' => errors = (verdict c.graph item.2).map (item.1, ·) ∧ Looked K c c') E := by
  obtain ⟨source, id⟩ := item
  -- the rule of visibility reads the graph only
  have hrest {c₁ : Compiler} (h₁ : Looked K c c₁) {own : List CompileError}
      (hown : verdict c.graph id = own ++ accessErrors c.graph id) :
      Ensures (do
        let rules := (← get).visibility
        let seen ← rules.mapM fun rule => onWorkspace (rule.run id)
        advance
        return (own ++ seen.flatten).map (source, ·)) c₁
        (fun errors c' => errors = (verdict c.graph id).map (source, ·) ∧ Looked K c c') E := by
    refine ensures_get_bind ?_
    rw [h₁.sane.visibility]
    refine ensures_bind (Ensures.mono (ensures_mapM_forall₂ (I := Looked K c)
      (R := fun _ found => found = accessErrors c.graph id) h₁ fun rule hrule c' h => ?_)
      (fun seen c₂ h => ?_) fun _ _ h => h)
    · obtain rfl := List.mem_singleton.1 hrule
      refine onWorkspace_ensures (ensures_bind (Work.graph_ensures (ensures_pure ⟨?_, h⟩)))
      exact congrArg (accessErrors · id) h.graph
    · obtain ⟨hseen, h₂⟩ := h
      obtain ⟨found, _, rfl, hnil, rfl⟩ := List.forall₂_cons_left_iff.1 hseen
      obtain rfl := List.forall₂_nil_left_iff.1 hnil
      refine ensures_bind (advance_ensures h₂.sane fun c₃ h₃ => ensures_pure ⟨?_, h₂.trans h₃⟩)
      rw [hown, List.flatten_singleton]
  refine ensures_bind (ensures_attempt (ask_ensures hs
    (Dispatch.validator_answers hs.tidy.toRegular hs.orderly.valid id) (fun r c₁ hv h₁ => ?_)
    fun e c₁ he h₁ => ?_))
  · have hid₁ : c₁.graph.contains id = true := h₁.graph ▸ hid
    refine ensures_bind (onWorkspace_ensures ((Validator.run_ensures h₁.sane.orderly hid₁ hv.2).imp
      fun own w h => ?_))
    obtain ⟨rfl, l, rfl, hl⟩ := h
    refine hrest (h₁.trans (h₁.sane.remember hl)) ?_
    have hgraph : c₁.workspace.graph = c.graph := h₁.graph
    obtain ⟨v, origin⟩ := r
    rw [verdict, hv.1, hgraph]
  · refine ensures_bind (ensures_pure (hrest h₁ ?_))
    rw [verdict, he]

theorem validateItems_ensures (hs : c.Sane K)
    (hitems : ∀ item ∈ items, c.graph.contains item.2 = true) :
    Ensures (validateItems items) c
      (fun errors c' => errors = verdicts c.graph items ∧ Looked K c c') E := by
  refine ensures_get_bind (ensures_bind (startProgress_ensures hs fun c₁ h₁ =>
    ensures_bind ?_))
  refine (Pool.ensures_mapM (I := Looked K c)
    (R := fun item errors => errors = (verdict c.graph item.2).map (item.1, ·)) h₁
    fun item hitem c' h => ?_).imp (fun found c₂ h => ?_)
  · refine (validateNode_ensures h.sane (by rw [h.graph]; exact hitems item hitem)).imp
      (fun errors c'' h' => ⟨?_, h.trans h'.2⟩)
    rw [h'.1, h.graph]
  · obtain ⟨hfound, h₂⟩ := h
    refine ensures_pure ⟨?_, h₂⟩
    have : found = items.map fun item => (verdict c.graph item.2).map (item.1, ·) := by
      clear hitems
      induction hfound with
      | nil => rfl
      | cons he _ ih => rw [he, ih, List.map_cons]
    rw [this, verdicts, List.flatMap]

theorem Sane.blame_verdicts (hs : c.Sane K)
    (hitems : ∀ item ∈ items, c.graph.contains item.2 = true)
    {s : SourceId} (h : (s, e) ∈ verdicts c.graph items) : e.blame = .user := by
  have hr := hs.tidy.toRegular
  obtain ⟨item, hitem, hmem⟩ := List.mem_flatMap.1 h
  obtain ⟨x, h, heq⟩ := List.mem_map.1 hmem
  rw [← (Prod.mk.inj heq).2]
  rcases List.mem_append.1 h with h | h
  · split at h
    · exact Validator.blame_verdict hr.toClosed hr.issued (hitems item hitem) h
    · rename_i hx
      obtain ⟨_, ⟨hblame, -⟩, -⟩ := exists_of_answer_error
        (Dispatch.validator_gives hr (Lineage.valid_empty _) item.2) hx
      exact List.mem_singleton.1 h ▸ hblame
  · exact blame_accessErrors h

structure Validated (K : NodeId → Prop) (batch : List SourceId) (c c' : Compiler) : Prop extends
    Concluded K .active (verdicts c.graph (c.items batch))
      (fatal? (verdicts c.graph (c.items batch))).isSome batch c c' where
  graph : c'.graph = c.graph

theorem validatePhase_ensures (hs : c.Sane K) (batch : List SourceId) :
    Ensures (validatePhase batch) c
      (fun _ c' => Validated K batch c c' ∧ fatal? (verdicts c.graph (c.items batch)) = none)
      fun e c' => Validated K batch c c' ∧ fatal? (verdicts c.graph (c.items batch)) = some e := by
  refine ensures_get_bind (ensures_bind ((validateItems_ensures hs fun item h =>
    hs.contains_item h).imp fun errors c₁ h => ?_))
  obtain ⟨rfl, h₁⟩ := h
  refine ensures_bind ((concludeAll_ensures h₁.sane (by simp) batch).imp fun _ c₂ h => ?_)
  have hdone : Validated K batch c c₂ :=
    { h.1.after h₁.handled h₁.sources with graph := h.2.trans h₁.graph }
  split
  · rename_i e he
    exact ensures_throw ⟨hdone, he⟩
  · rename_i he
    exact ensures_pure ⟨hdone, he⟩

theorem errorsOf_append (s : SourceId) (errors errors' : List (SourceId × CompileError)) :
    errorsOf s (errors ++ errors') = errorsOf s errors ++ errorsOf s errors' := by
  simp [errorsOf]

theorem errorsOf_map (s t : SourceId) (own : List CompileError) :
    errorsOf s (own.map (t, ·)) = if t = s then own else [] := by
  by_cases h : t = s <;> simp [errorsOf, List.filter_map, Function.comp_def, h]

theorem errorsOf_verdicts_map (g : Graph) (s t : SourceId) (nodes : List NodeId) :
    errorsOf s (verdicts g (nodes.map (t, ·))) =
      if t = s then nodes.flatMap (verdict g) else [] := by
  induction nodes with
  | nil => simp [verdicts, errorsOf]
  | cons x nodes ih =>
    rw [verdicts] at ih ⊢
    rw [List.map_cons, List.flatMap_cons, errorsOf_append, errorsOf_map, ih]
    split <;> simp

theorem errorsOf_verdicts (hnodup : batch.Nodup) :
    errorsOf s (verdicts c.graph (c.items batch)) =
      if s ∈ batch then (c.graph.persistentNodes s).flatMap (verdict c.graph) else [] := by
  induction batch with
  | nil => simp [items, verdicts, errorsOf]
  | cons t batch ih =>
    obtain ⟨ht, hnodup⟩ := List.nodup_cons.1 hnodup
    have hitems :
        c.items (t :: batch) = (c.graph.persistentNodes t).map (t, ·) ++ c.items batch := rfl
    rw [hitems, verdicts, List.flatMap_append, errorsOf_append, ← verdicts, ← verdicts,
      errorsOf_verdicts_map, ih hnodup]
    by_cases h : t = s
    · subst h
      simp [ht]
    · simp [h, Ne.symm h]

end Validation

section Run

variable {id : SourceId} {state : SourceState}

theorem Sane.mem_inState (hs : c.Sane K) :
    id ∈ c.inState state ↔ ∃ unit, c.sources.find? id = some unit ∧ unit.state = state := by
  simp only [inState, List.mem_map, List.mem_filter, Prod.exists]
  constructor
  · rintro ⟨s, unit, ⟨hmem, hst⟩, rfl⟩
    exact ⟨unit, hs.sorted.mem_entries_iff.1 hmem, by simpa using hst⟩
  · rintro ⟨unit, hu, hst⟩
    exact ⟨id, unit, ⟨hs.sorted.mem_entries_iff.2 hu, by simpa using hst⟩, rfl⟩

theorem Sane.nodup_inState (hs : c.Sane K) (state : SourceState) : (c.inState state).Nodup :=
  (List.Pairwise.sublist (List.filter_sublist.map _) hs.sorted).imp ne_of_lt

def Settled (c : Compiler) : Prop :=
  ∀ id unit, c.sources.find? id = some unit → unit.state ≠ .bound ∧ unit.state ≠ .processed

theorem Concluded.mem_inState (h : Concluded K next errors halted batch c d)
    (hnext : ∀ id unit, c.sources.find? id = some unit → unit.state ≠ next)
    (hbatch : ∀ s ∈ batch, ∃ unit, c.sources.find? s = some unit) :
    id ∈ d.inState next ↔ id ∈ batch ∧ errorsOf id errors = [] ∧ halted = false := by
  rw [h.sane.mem_inState, h.find id]
  by_cases hid : id ∈ batch
  · obtain ⟨unit, hu⟩ := hbatch id hid
    simp only [hid, if_true, hu, Option.map_some, Option.some.injEq, exists_eq_left', true_and,
      concluded]
    have hne := hnext id unit hu
    by_cases hok : (errorsOf id errors).isEmpty && !halted
    · rw [if_pos hok]
      simpa using hok
    · rw [if_neg hok]
      simp only [hne, false_iff]
      simpa using hok
  · simp only [hid, if_false, false_and, iff_false, not_exists, not_and]
    exact fun unit hu => hnext id unit hu

inductive Phases (K : NodeId → Prop) (batch : List SourceId) (c : Compiler) :
    Option Phase → Compiler → Prop
  | idle : batch = [] → Phases K batch c none c
  | halted {errors errors' : List (SourceId × CompileError)} {e : CompileError}
      {c₁ c₂ : Compiler} : Bound K errors batch c c₁ → fatal? errors = none →
      Treated K errors' (some e) (c₁.inState .bound) c₁ c₂ → Phases K batch c (some .process) c₂
  | run {errors errors' : List (SourceId × CompileError)} {c₁ c₂ c₃ : Compiler} :
      Bound K errors batch c c₁ → fatal? errors = none →
      Treated K errors' none (c₁.inState .bound) c₁ c₂ →
      Validated K (c₂.inState .processed) c₂ c₃ →
      fatal? (verdicts c₂.graph (c₂.items (c₂.inState .processed))) = none →
      Phases K batch c none c₃

structure Phased (K : NodeId → Prop) (batch : List SourceId) (c c' : Compiler) : Prop extends
    Handled K (· ∈ batch) c c' where
  listed : Predefined K → c.graph.Listed → (∀ s ∈ batch, ∀ x ∈ c.graph.persistentNodes s, ∀ t,
    ¬ c.graph.Part x Metamodel.functionType t) → c'.graph.Listed

theorem Bound.phased (h : Bound K errors batch c d) : Phased K batch c d where
  toHandled := h.toHandled
  listed _ hl _ := hl.congr h.frame fun o => h.values o _ (by simp)

variable {c₁ c₂ c₃ : Compiler} {errors' : List (SourceId × CompileError)}
  {halt : Option CompileError}

theorem Bound.mem_inState (h : Bound K errors batch c c₁) (hfatal : fatal? errors = none)
    (hc : c.Settled) (hbatch : ∀ s ∈ batch, ∃ unit, c.sources.find? s = some unit) :
    id ∈ c₁.inState .bound ↔ id ∈ batch ∧ errorsOf id errors = [] := by
  rw [h.toConcluded.mem_inState (fun id unit hu => (hc id unit hu).1) hbatch, hfatal]
  simp

theorem Bound.not_processed (h : Bound K errors batch c c₁) (hc : c.Settled) {unit : SourceUnit}
    (hu : c₁.sources.find? id = some unit) : unit.state ≠ .processed := by
  rw [h.find id] at hu
  split at hu
  · obtain ⟨unit', hu', rfl⟩ := Option.map_eq_some_iff.1 hu
    simp only [concluded]
    split
    · simp
    · exact (hc id unit' hu').2
  · exact (hc id unit hu).2

theorem Treated.mem_inState (h : Bound K errors batch c c₁) (hc : c.Settled)
    (h' : Treated K errors' halt (c₁.inState .bound) c₁ c₂) :
    id ∈ c₂.inState .processed ↔ id ∈ c₁.inState .bound ∧ errorsOf id errors' = [] ∧
      halt = none := by
  rw [h'.toConcluded.mem_inState (fun id unit => h.not_processed hc)
    fun s hs => (h.sane.mem_inState.1 hs).imp fun _ h => h.1]
  simp

theorem Treated.phased (h : Bound K errors batch c c₁) (hfatal : fatal? errors = none)
    (hc : c.Settled) (hbatch : ∀ s ∈ batch, ∃ unit, c.sources.find? s = some unit)
    (h' : Treated K errors' halt (c₁.inState .bound) c₁ c₂) : Phased K batch c c₂ where
  toHandled := h.toHandled.trans (h'.toHandled.mono fun s hs =>
    ((h.mem_inState hfatal hc hbatch).1 hs).1)
  listed hK hl hfree := by
    refine h'.listed h.sane hK (h.sane.nodup_inState _) (h.phased.listed hK hl hfree)
      fun s hs x hx t hpart => ?_
    rw [h.persistent] at hx
    exact hfree s ((h.mem_inState hfatal hc hbatch).1 hs).1 x hx t
      (hpart.agree (agree_of_frame h.frame t).symm)

theorem Validated.phased (h : Phased K batch c c₁) (h' : Validated K batch' c₁ c₂)
    (hsub : ∀ s ∈ batch', s ∈ batch) : Phased K batch c c₂ where
  toHandled := h.toHandled.trans (h'.toHandled.mono hsub)
  listed hK hl hfree := h'.graph ▸ h.listed hK hl hfree

/-- Between two compiles no source stands between two phases; so each phase takes over what the one
before has passed on. -/
theorem runPhases_ensures (hs : c.Sane K) (hK : CoversMetamodel K)
    (hc : c.Settled) (hbatch : ∀ s ∈ batch, ∃ unit, c.sources.find? s = some unit) :
    Ensures (runPhases batch) c (fun aborted c' => Phases K batch c aborted c')
      fun e c' => Phased K batch c c' ∧ e.blame ≠ .internal := by
  unfold runPhases
  split
  · rename_i hempty
    exact ensures_pure (.idle (List.isEmpty_iff.1 hempty))
  refine ensures_bind ((bindPhase_ensures hs batch).mono (fun _ c₁ h => ?_)
    fun _ _ ⟨_, h, hfatal⟩ => ⟨h.phased, (exists_of_fatal? hfatal).elim fun _ he => h.blame _ he⟩)
  obtain ⟨errors, hbound, hfatal⟩ := h
  refine ensures_get_bind (ensures_bind
    ((processPhase_ensures hbound.sane hK _).mono (fun aborted c₂ h => ?_) fun e _ h => ?_))
  swap
  · obtain ⟨errors', htreated⟩ := h
    exact ⟨htreated.phased hbound hfatal hc hbatch, htreated.blame e rfl⟩
  obtain ⟨errors', halt, htreated, hend⟩ := h
  have hphased : Phased K batch c c₂ := htreated.phased hbound hfatal hc hbatch
  rcases hend with ⟨rfl, rfl⟩ | ⟨rfl, e, rfl, -⟩
  · refine ensures_get_bind (ensures_bind ((validatePhase_ensures htreated.sane _).mono
      (fun _ c₃ h => ensures_pure (.run hbound hfatal htreated h.1 h.2))
      fun e _ h => ⟨h.1.phased hphased fun s hs => ?_, ?_⟩))
    · have hs := ((htreated.mem_inState hbound hc).1 hs).1
      exact ((hbound.mem_inState hfatal hc hbatch).1 hs).1
    · obtain ⟨_, he⟩ := exists_of_fatal? h.2
      simp [htreated.sane.blame_verdicts (fun _ => htreated.sane.contains_item) he]
  · exact ensures_pure (.halted hbound hfatal htreated)

end Run

end ModelCompiler.Compiler
