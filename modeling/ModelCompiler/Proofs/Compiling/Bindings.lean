import ModelCompiler.Proofs.Compiling.Schedules
import ModelCompiler.Proofs.Resolving

/-!
Binding a batch. All nodes are asked before anything is written, so every answer is about the graph
as it was. A source is bound with all its bindings or left as it was with all its errors, and an
error that is fatal leaves every source as it was. With the handlers of the core the order of the
batch makes no difference.
-/
open ModelCompiler.Action ModelCompiler.Graph ModelCompiler.Handler

namespace ModelCompiler

namespace Graph

variable {g g' : Graph} {bindings : List Binding}

def applyAll (g : Graph) (bindings : List Binding) : Except Breach Graph :=
  bindings.foldlM (fun g b => b.apply g) g

def Ready (g : Graph) (bindings : List Binding) : Prop :=
  ∀ b ∈ bindings, g.contains b.node = true ∧ g.contains b.value = true

theorem Ready.congr (e : g'.frame = g.frame) (h : g.Ready bindings) : g'.Ready bindings :=
  fun b hb => by rw [contains_congr e, contains_congr e]; exact h b hb

theorem Ready.tail {b : Binding} (h : g.Ready (b :: bindings)) : g.Ready bindings :=
  fun b' hb' => h b' (List.mem_cons_of_mem b hb')

theorem Ready.exists_apply {b : Binding} (h : g.Ready (b :: bindings)) :
    ∃ g', b.apply g = .ok g' ∧ g'.frame = g.frame ∧ ∀ j q, g'.values j q =
      if j = b.node ∧ q = b.property then [b.value] else g.values j q := by
  obtain ⟨hnode, hvalue⟩ := h b List.mem_cons_self
  exact exists_setValues hnode b.property (by simpa using hvalue)

theorem exists_applyAll (h : g.Ready bindings) :
    ∃ g', g.applyAll bindings = .ok g' ∧ g'.frame = g.frame := by
  induction bindings generalizing g with
  | nil => exact ⟨g, rfl, rfl⟩
  | cons b bindings ih =>
    obtain ⟨g₁, h₁, e, -⟩ := h.exists_apply
    obtain ⟨g', h', e'⟩ := ih (h.tail.congr e)
    refine ⟨g', ?_, e'.trans e⟩
    rw [applyAll, List.foldlM_cons, h₁]
    exact h'

theorem values_applyAll {V : NodeId → String → NodeId} (h : g.Ready bindings)
    (hV : ∀ b ∈ bindings, b.value = V b.node b.property) (hrun : g.applyAll bindings = .ok g')
    (j : NodeId) (q : String) : g'.values j q =
      if ∃ b ∈ bindings, b.node = j ∧ b.property = q then [V j q] else g.values j q := by
  induction bindings generalizing g with
  | nil => simp [← Except.ok.inj hrun]
  | cons b bindings ih =>
    obtain ⟨g₁, h₁, e, hvalues⟩ := h.exists_apply
    rw [applyAll, List.foldlM_cons, h₁] at hrun
    rw [ih (h.tail.congr e) (fun b' hb' => hV b' (List.mem_cons_of_mem _ hb')) hrun, hvalues]
    by_cases hrest : ∃ b' ∈ bindings, b'.node = j ∧ b'.property = q
    · obtain ⟨b', hb', hkey⟩ := hrest
      rw [if_pos ⟨b', hb', hkey⟩, if_pos ⟨b', List.mem_cons_of_mem _ hb', hkey⟩]
    · rw [if_neg hrest]
      by_cases hkey : j = b.node ∧ q = b.property
      · obtain ⟨rfl, rfl⟩ := hkey
        rw [if_pos ⟨rfl, rfl⟩, if_pos ⟨b, List.mem_cons_self, rfl, rfl⟩, hV b List.mem_cons_self]
      · rw [if_neg hkey, if_neg]
        rintro ⟨b', hb', rfl, rfl⟩
        rcases List.mem_cons.1 hb' with rfl | hb'
        · exact hkey ⟨rfl, rfl⟩
        · exact hrest ⟨b', hb', rfl, rfl⟩

end Graph

section Binders

variable {w : Workspace} {id : NodeId}

theorem Binder.run_any (hi : w.graph.Indexed) (hid : w.graph.contains id = true) (b : Binder) :
    Ensures (b.run id) w (fun bindings w' => w'.graph = w.graph ∧ w.graph.Ready bindings)
      fun errors w' => w'.graph = w.graph ∧ errors ≠ [] := by
  cases b with
  | idle => exact ensures_pure ⟨rfl, by simp [Graph.Ready]⟩
  | element =>
    refine ensures_bind (Work.graph_ensures ?_)
    cases h : bindElement w.graph id with
    | ok bindings =>
      refine ensures_pure ⟨rfl, fun b hb => ⟨?_, ?_⟩⟩
      · exact contains_of_lifetime? (binds_of_ok hi h b hb).lifetime
      · exact (binds_of_ok hi h b hb).named.contains
    | error errors =>
      refine ensures_throw ⟨rfl, ?_⟩
      rintro rfl
      simp only [bindElement] at h
      split at h
      · simp at h
      · rename_i hne
        exact hne (List.isEmpty_iff.2 (Except.error.inj h))
  | recipe r =>
    refine ensures_relabel (ensures_bind (Work.graph_ensures ?_))
    cases r.act with
    | idle => exact ensures_pure ⟨rfl, by simp [Graph.Ready]⟩
    | note =>
      exact ensures_bind (ensures_bind (Work.graph_ensures (ensures_modify
        (ensures_pure ⟨rfl, by simp [Graph.Ready]⟩))))
    | reject start error =>
      dsimp only
      split
      · exact ensures_throw ⟨rfl, by simp⟩
      · exact ensures_pure ⟨rfl, by simp [Graph.Ready]⟩
    | link property target reverse =>
      refine ensures_pure ⟨rfl, fun b hb => ?_⟩
      rw [Option.mem_toList, Recipe.binding?, Option.map_eq_some_iff] at hb
      obtain ⟨other, hother, rfl⟩ := hb
      obtain ⟨p, -, hlookup⟩ := Option.bind_eq_some_iff.1 hother
      have hlive := contains_of_path? ((hi.lookup_iff p other).1 hlookup)
      split
      · exact ⟨hlive, hid⟩
      · exact ⟨hid, hlive⟩

end Binders

namespace Compiler

variable {c c' d : Compiler} {batch : List SourceId} {E : CompileError → Compiler → Prop}
  {g : Graph} {bindings : List Binding} {item : SourceId × NodeId}

structure Kept (c d : Compiler) : Prop where
  graph : d.graph = c.graph
  sources : d.sources = c.sources
  dispatch : d.dispatch = c.dispatch

abbrev BindAnswer := Except (List CompileError) (List Binding)

def Found (c : Compiler) (n : NodeId) (answer : BindAnswer) : Prop :=
  ∃ s d d', d.graph = c.graph ∧ d.dispatch = c.dispatch ∧
    bindNode (s, n) d = .ok (.ok (s, answer), d')

def Proper (g : Graph) : BindAnswer → Prop
  | .ok bindings => g.Ready bindings
  | .error errors => errors ≠ []

theorem ask_kept {α : Type} (h : Kept c d) (f : Dispatch → Graph → Lineage.Query α) :
    Ensures (ask f) d (fun _ d' => Kept c d') fun _ d' => Kept c d' := by
  refine ensures_get_bind (ensures_within (Work.ask_ensures ?_))
  unfold Lineage.Gives Lineage.Recalls
  generalize (StateT.run (f d.dispatch d.workspace.graph).run d.workspace.lineage).1 = answer
  cases answer
  · exact ⟨h.graph, h.sources, h.dispatch⟩
  · exact ⟨h.graph, h.sources, h.dispatch⟩

theorem bindNode_kept (hi : c.graph.Indexed)
    (hlive : c.graph.contains item.2 = true) (h : Kept c d) :
    Ensures (bindNode item) d (fun r d' => Proper c.graph r.2 ∧ r.1 = item.1 ∧ Kept c d') E := by
  have hdone {d₁ : Compiler} {answer : BindAnswer} (h₁ : Kept c d₁) (ha : Proper c.graph answer) :
      Ensures (do advance; return (item.1, answer) : Compiling _) d₁
        (fun r d' => Proper c.graph r.2 ∧ r.1 = item.1 ∧ Kept c d') E :=
    ensures_modify_bind (ensures_pure ⟨ha, rfl, h₁.graph, h₁.sources, h₁.dispatch⟩)
  refine ensures_bind (ensures_attempt ((ask_kept h _).mono (fun r d₁ h₁ => ?_) fun e d₁ h₁ => ?_))
  · have hi₁ : d₁.graph.Indexed := h₁.graph ▸ hi
    refine ensures_bind (ensures_attempt (ensures_within ((Binder.run_any hi₁
      (by rw [← hlive, ← h₁.graph]; rfl) r.1).mono (fun bindings w hw => ?_)
        fun errors w hw => ?_)))
    · exact hdone ⟨hw.1.trans h₁.graph, h₁.sources, h₁.dispatch⟩ (h₁.graph ▸ hw.2)
    · exact hdone ⟨hw.1.trans h₁.graph, h₁.sources, h₁.dispatch⟩ hw.2
  · exact ensures_bind (ensures_pure (hdone h₁ (by simp [Proper])))

section Writing

theorem forM_apply {w : Workspace}
    (h : w.graph.applyAll bindings = .ok g) : (bindings.forM fun b => Work.update b.apply :
      Work CompileError Unit) w = .ok (.ok (), { w with graph := g }) := by
  induction bindings generalizing w with
  | nil =>
    obtain rfl := Except.ok.inj h
    rfl
  | cons b bindings ih =>
    rw [applyAll, List.foldlM_cons] at h
    obtain ⟨g₁, h₁, h⟩ := exists_of_bind_ok h
    show ((Work.update b.apply : Work CompileError Unit) >>= fun _ => bindings.forM _) w = _
    rw [run_bind, show (Work.update b.apply : Work CompileError Unit) w =
      .ok (.ok (), { w with graph := g₁ }) by simp [Work.update, write, h₁, Except.map]]
    exact ih (w := { w with graph := g₁ }) h

theorem applyBindings_eq (h : c.graph.applyAll bindings = .ok g) : applyBindings bindings c =
      .ok (.ok (), { c with workspace := { c.workspace with graph := g } }) := by
  show Except.map _ ((bindings.forM fun b => Work.update b.apply : Work CompileError Unit)
    c.workspace) = _
  rw [forM_apply h]
  rfl

end Writing

section Answers

variable {answer : NodeId → BindAnswer}

def failures (c : Compiler) (answer : NodeId → BindAnswer) (id : SourceId) : List CompileError :=
  (c.graph.persistentNodes id).flatMap fun n =>
    match answer n with
    | .ok _ => []
    | .error errors => errors

def findings (c : Compiler) (answer : NodeId → BindAnswer) (id : SourceId) : List Binding :=
  (c.graph.persistentNodes id).flatMap fun n =>
    match answer n with
    | .ok bindings => bindings
    | .error _ => []

def Fails (c : Compiler) (answer : NodeId → BindAnswer) (id : SourceId) : Prop :=
  ∃ n ∈ c.graph.persistentNodes id, ∃ errors, answer n = .error errors

def Halts (c : Compiler) (answer : NodeId → BindAnswer) (batch : List SourceId) : Prop :=
  ∃ s ∈ batch, ∃ e ∈ failures c answer s, e.isFatal = true

theorem failures_eq_nil_iff {id : SourceId}
    (h : ∀ n ∈ c.graph.persistentNodes id, Proper c.graph (answer n)) :
    failures c answer id = [] ↔ ¬ Fails c answer id := by
  rw [failures, List.flatMap_eq_nil_iff]
  constructor
  · rintro hall ⟨n, hn, errors, he⟩
    have hproper := h n hn
    have hnil := hall n hn
    rw [he] at hproper hnil
    exact hproper hnil
  · intro hno n hn
    cases he : answer n with
    | ok bindings => rfl
    | error errors => exact absurd ⟨n, hn, errors, he⟩ hno

theorem items_filter (hn : batch.Nodup) {id : SourceId} (hid : id ∈ batch) :
    (c.items batch).filter (·.1 = id) = (c.graph.persistentNodes id).map (id, ·) := by
  have hnone {rest : List SourceId} (h : id ∉ rest) : (c.items rest).filter (·.1 = id) = [] := by
    rw [List.filter_eq_nil_iff]
    rintro ⟨s, n⟩ hmem
    simp only [items, List.mem_flatMap, List.mem_map, Prod.mk.injEq] at hmem
    obtain ⟨s', hs', -, -, rfl, -⟩ := hmem
    rw [decide_eq_true_eq]
    rintro rfl
    exact h hs'
  induction batch with
  | nil => simp at hid
  | cons s batch ih =>
    obtain ⟨hs, hn⟩ := List.nodup_cons.1 hn
    have hcons :
        c.items (s :: batch) = (c.graph.persistentNodes s).map (s, ·) ++ c.items batch := by
      simp [items]
    rw [hcons, List.filter_append]
    by_cases he : s = id
    · subst he
      rw [hnone hs, List.append_nil, List.filter_eq_self.2]
      simp
    · rw [ih hn ((List.mem_cons.1 hid).resolve_left fun h => he h.symm), List.filter_eq_nil_iff.2]
      · rfl
      · simpa using fun _ _ => he

theorem exists_answer {items : List (SourceId × NodeId)} (hn : (items.map (·.2)).Nodup)
    {R : SourceId × NodeId → SourceId × BindAnswer → Prop} {answers : List (SourceId × BindAnswer)}
    (hR : ∀ item a, R item a → a.1 = item.1) (h : List.Forall₂ R items answers) :
    ∃ answer : NodeId → BindAnswer, answers = items.map (fun item => (item.1, answer item.2)) ∧
      ∀ item ∈ items, R item (item.1, answer item.2) := by
  induction h with
  | nil => exact ⟨fun _ => .ok [], rfl, by simp⟩
  | @cons item a items answers ha _ ih =>
    rw [List.map_cons, List.nodup_cons] at hn
    obtain ⟨answer, rfl, hall⟩ := ih hn.2
    have hother {i : SourceId × NodeId} (hi : i ∈ items) :
        Function.update answer item.2 a.2 i.2 = answer i.2 :=
      Function.update_of_ne (fun e => hn.1 (List.mem_map.2 ⟨i, hi, e⟩)) _ _
    have hself : (item.1, Function.update answer item.2 a.2 item.2) = a := by
      rw [Function.update_self, ← hR item a ha]
    refine ⟨Function.update answer item.2 a.2, ?_, fun i hi => ?_⟩
    · rw [List.map_cons, hself]
      exact congrArg _ (List.map_congr_left fun i hi => by rw [hother hi])
    · rcases List.mem_cons.1 hi with rfl | hi
      · rwa [hself]
      · rw [hother hi]
        exact hall i hi

theorem errorsOf_answers (hn : batch.Nodup) {id : SourceId} (hid : id ∈ batch) :
    errorsOf id (bindingErrors ((c.items batch).map fun item => (item.1, answer item.2))) =
      failures c answer id := by
  have hpush (items : List (SourceId × NodeId)) :
      errorsOf id (bindingErrors (items.map fun item => (item.1, answer item.2))) =
        (items.filter (·.1 = id)).flatMap fun item =>
          match answer item.2 with
          | .ok _ => []
          | .error errors => errors := by
    induction items with
    | nil => rfl
    | cons item items ih =>
      simp only [errorsOf, bindingErrors, List.map_cons, List.flatMap_cons, List.filter_append,
        List.map_append] at ih ⊢
      rw [ih, List.filter_cons]
      by_cases he : item.1 = id
      · cases ha : answer item.2 <;> simp [he, ha, List.filter_map, Function.comp_def]
      · cases ha : answer item.2 <;> simp [he, List.filter_map, Function.comp_def]
  rw [hpush, items_filter hn hid, List.flatMap_map, failures]

theorem bindingsOf_answers (hn : batch.Nodup) {id : SourceId} (hid : id ∈ batch) :
    bindingsOf id ((c.items batch).map fun item => (item.1, answer item.2)) =
      findings c answer id := by
  rw [bindingsOf, List.filter_map, List.flatMap_map]
  simp only [Function.comp_def]
  rw [items_filter hn hid, List.flatMap_map]
  rfl

theorem mem_bindingErrors_answers {s : SourceId} {e : CompileError} (hn : batch.Nodup) :
    (s, e) ∈ bindingErrors ((c.items batch).map fun item => (item.1, answer item.2)) ↔
      s ∈ batch ∧ e ∈ failures c answer s := by
  constructor
  · intro h
    have hs : s ∈ batch := by
      obtain ⟨errors, hmem, -⟩ := mem_bindingErrors.1 h
      obtain ⟨item, hitem, heq⟩ := List.mem_map.1 hmem
      simp only [items, List.mem_flatMap, List.mem_map] at hitem
      obtain ⟨s', hs', n, -, rfl⟩ := hitem
      exact (Prod.mk.inj heq).1 ▸ hs'
    exact ⟨hs, by rwa [← errorsOf_answers hn hs, mem_errorsOf]⟩
  · rintro ⟨hs, he⟩
    rwa [← errorsOf_answers hn hs, mem_errorsOf] at he

end Answers

section Phase

variable {answer : NodeId → BindAnswer} {halted : Bool} {done : List SourceId} {id : SourceId}

/-- What is known of the answer for a node: it is one about the graph as it was, and with the
handlers of the core it is the only one. -/
structure Replied (c : Compiler) (item : SourceId × NodeId) (answer : BindAnswer) : Prop where
  found : Found c item.2 answer
  proper : Proper c.graph answer
  core : Twin c c → answer = bindingsAt c.graph item.2

theorem bindNode_replied (hi : c.graph.Indexed)
    (hlive : c.graph.contains item.2 = true) (h : Kept c d)
    (hsane : Twin c c → d.Sane fun _ => True) :
    Ensures (bindNode item) d (fun r d' => (r.1 = item.1 ∧ Replied c item r.2) ∧
      Kept c d' ∧ (Twin c c → d'.Sane fun _ => True)) E := by
  obtain ⟨⟨s, answer⟩, d', hrun, hproper, rfl, hkept⟩ | ⟨_, _, _, hfalse⟩ :=
    bindNode_kept hi hlive h (E := fun _ _ => False)
  · have hcore (hc : Twin c c) : answer = bindingsAt c.graph item.2 ∧ d'.Sane fun _ => True := by
      obtain ⟨hanswer, hlooked⟩ :=
        (bindNode_bindingsAt (hsane hc) item (E := fun _ _ => False)).result hrun
      rw [h.graph] at hanswer
      exact ⟨(Prod.mk.inj hanswer).2, hlooked.sane⟩
    exact ensures_of_eq hrun ⟨⟨rfl, ⟨_, d, d', h.graph, h.dispatch, hrun⟩, hproper,
      fun hc => (hcore hc).1⟩, hkept, fun hc => (hcore hc).2⟩
  · exact hfalse.elim

theorem nodup_items (hi : c.graph.Indexed) (hn : batch.Nodup) :
    ((c.items batch).map (·.2)).Nodup := by
  rw [items, List.map_flatMap]
  simp only [List.map_map, Function.comp_def, List.map_id']
  refine List.nodup_flatMap.2 ⟨fun s _ => hi.persistent_nodup s, hn.imp fun {s t} hst n hs ht => ?_⟩
  rw [hi.persistent_iff] at hs ht
  exact hst (by simpa using hs.symm.trans ht)

def Polled (c : Compiler) (batch : List SourceId) (answer : NodeId → BindAnswer) : Prop :=
  ∀ s ∈ batch, ∀ n ∈ c.graph.persistentNodes s, Replied c (s, n) (answer n)

theorem poll_ensures (hi : c.graph.Indexed) (hn : batch.Nodup) (h : Kept c d)
    (hsane : Twin c c → d.Sane fun _ => True) (pool : Pool) (threshold : Nat) :
    Ensures (pool.mapM threshold bindNode (c.items batch)) d (fun answers d' => Kept c d' ∧
      ∃ answer, Polled c batch answer ∧
        answers = (c.items batch).map fun item => (item.1, answer item.2)) E := by
  refine (Pool.ensures_mapM (I := fun d => Kept c d ∧ (Twin c c → d.Sane fun _ => True))
    (R := fun item a => a.1 = item.1 ∧ Replied c item a.2) ⟨h, hsane⟩
    fun item hitem d h => ?_).imp (fun answers d' h => ?_)
  · obtain ⟨s, -, hmem⟩ := List.mem_flatMap.1 hitem
    obtain ⟨n, hnode, rfl⟩ := List.mem_map.1 hmem
    exact bindNode_replied hi (hi.persistent_live hnode) h.1 h.2
  · obtain ⟨hanswers, hkept, -⟩ := h
    obtain ⟨answer, rfl, hall⟩ := exists_answer (nodup_items hi hn) (fun _ _ h => h.1) hanswers
    exact ⟨hkept, answer, fun s hs n hn =>
      (hall (s, n) (List.mem_flatMap.2 ⟨s, hs, List.mem_map_of_mem hn⟩)).2, rfl⟩

theorem Polled.ready (h : Polled c batch answer) (hid : id ∈ batch) :
    c.graph.Ready (findings c answer id) := by
  intro b hb
  obtain ⟨n, hn, hb⟩ := List.mem_flatMap.1 hb
  have hproper := (h id hid n hn).proper
  cases ha : answer n with
  | ok bindings =>
    rw [ha] at hproper hb
    exact hproper b hb
  | error errors => simp [ha] at hb

theorem applyAll_append {g₁ g₂ : Graph} {bs bs' : List Binding} (h : g.applyAll bs = .ok g₁)
    (h' : g₁.applyAll bs' = .ok g₂) : g.applyAll (bs ++ bs') = .ok g₂ := by
  rw [applyAll, List.foldlM_append]
  show (g.applyAll bs >>= fun g => g.applyAll bs') = _
  rw [h]
  exact h'

def moves (c : Compiler) (answer : NodeId → BindAnswer) (halted : Bool) (id : SourceId) : Bool :=
  (failures c answer id).isEmpty && !halted

structure Partly (c : Compiler) (answer : NodeId → BindAnswer) (halted : Bool)
    (done : List SourceId) (d : Compiler) : Prop where
  revised : Catalog.Revised (fun id => concluded .bound (failures c answer id) halted) done
    c.sources d.sources
  written : c.graph.applyAll ((done.filter (moves c answer halted)).flatMap (findings c answer)) =
    .ok d.graph
  frame : d.graph.frame = c.graph.frame

theorem Partly.next (h : Partly c answer halted done d) {d₁ : Compiler}
    (hsources : d₁.sources = d.sources) (hframe : d₁.graph.frame = c.graph.frame)
    (hwritten : d.graph.applyAll (if moves c answer halted id then findings c answer id else []) =
      .ok d₁.graph) :
    Ensures (conclude id .bound (failures c answer id) halted) d₁
      (fun _ d' => Partly c answer halted (done ++ [id]) d') E := by
  refine conclude_revises.imp (fun _ d' h' => ?_)
  obtain ⟨hgraph, hrevised⟩ := h'
  refine ⟨h.revised.concat (hsources ▸ fun s => ?_) fun _ _ => concluded_concluded _ _, ?_,
    hgraph ▸ hframe⟩
  · rw [hrevised s]
    by_cases hs : s = id <;> simp [hs]
  · rw [hgraph, List.filter_append, List.flatMap_append]
    refine applyAll_append h.written ?_
    rw [← hwritten, List.filter_cons]
    split
    · simp
    · rfl

theorem Partly.bindSource (h : Partly c answer halted done d)
    (hready : c.graph.Ready (findings c answer id)) :
    Ensures (do
      if (failures c answer id).isEmpty && !halted then applyBindings (findings c answer id)
      conclude id .bound (failures c answer id) halted : Compiling Unit) d
      (fun _ d' => Partly c answer halted (done ++ [id]) d') E := by
  by_cases hmoves : ((failures c answer id).isEmpty && !halted) = true
  · obtain ⟨g, hrun, hframe⟩ := exists_applyAll (hready.congr h.frame)
    rw [if_pos hmoves]
    refine ensures_bind (ensures_of_eq (applyBindings_eq hrun) (h.next ?_ ?_ ?_))
    · rfl
    · exact hframe.trans h.frame
    · rwa [moves, if_pos hmoves]
  · rw [if_neg hmoves]
    refine h.next rfl h.frame ?_
    rw [moves, if_neg hmoves]
    rfl

/-- What a phase of binding leaves: a source with a failing node, or any source if an error is
fatal, is as it was, with its own errors; the others are bound, and exactly their bindings are
written. -/
structure AllOrNothing (c c' : Compiler) (batch : List SourceId)
    (answer : NodeId → BindAnswer) : Prop where
  others : ∀ id, id ∉ batch → c'.sources.find? id = c.sources.find? id
  failed : ∀ id ∈ batch, Fails c answer id ∨ Halts c answer batch →
    c'.sources.find? id = (c.sources.find? id).map fun unit =>
      { unit with diagnostics := failures c answer id }
  bound : ∀ id ∈ batch, ¬ Fails c answer id → ¬ Halts c answer batch →
    c'.sources.find? id = (c.sources.find? id).map fun unit =>
      { unit with state := .bound, diagnostics := [] }
  written : ∃ good : List SourceId, good.Sublist batch ∧
    (∀ id ∈ batch, id ∈ good ↔ ¬ Fails c answer id ∧ ¬ Halts c answer batch) ∧
      c.graph.applyAll (good.flatMap (findings c answer)) = .ok c'.graph

theorem Partly.allOrNothing (hp : Polled c batch answer) (h : Partly c answer halted batch c')
    (hhalted : halted = true ↔ Halts c answer batch) : AllOrNothing c c' batch answer := by
  have hfails (id : SourceId) (hid : id ∈ batch) :=
    failures_eq_nil_iff fun n hn => (hp id hid n hn).proper
  have hmoves (id : SourceId) (hid : id ∈ batch) :
      moves c answer halted id = true ↔ ¬ Fails c answer id ∧ ¬ Halts c answer batch := by
    rw [moves, Bool.and_eq_true, List.isEmpty_iff, hfails id hid, Bool.not_eq_true', ← hhalted,
      Bool.not_eq_true]
  refine ⟨fun id hid => by rw [h.revised id, if_neg hid], fun id hid hno => ?_,
    fun id hid hok hgo => ?_, _, List.filter_sublist, fun id hid => ?_, h.written⟩
  · have hstay : ¬ ((failures c answer id).isEmpty && !halted) = true := by
      rw [← moves, hmoves id hid]
      tauto
    rw [h.revised id, if_pos hid]
    congr 1
    funext unit
    simp [concluded, hstay]
  · have hnot : halted = false := Bool.eq_false_iff.2 (mt hhalted.1 hgo)
    rw [h.revised id, if_pos hid]
    congr 1
    funext unit
    simp [concluded, hnot, (hfails id hid).2 hok]
  · rw [List.mem_filter, hmoves id hid]
    exact and_iff_right hid

theorem bindPhase_replied (hi : c.graph.Indexed) (hn : batch.Nodup) :
    ∃ answer r c', Polled c batch answer ∧ bindPhase batch c = .ok (r, c') ∧
      AllOrNothing c c' batch answer ∧ (r = .ok () ∧ ¬ Halts c answer batch ∨
        ∃ s ∈ batch, ∃ e ∈ failures c answer s, e.isFatal = true ∧ r = .error e) := by
  suffices h : Ensures (bindPhase batch) c
      (fun _ c' => ∃ answer, Polled c batch answer ∧ AllOrNothing c c' batch answer ∧
        ¬ Halts c answer batch)
      fun e c' => ∃ answer, Polled c batch answer ∧ AllOrNothing c c' batch answer ∧
        ∃ s ∈ batch, e ∈ failures c answer s ∧ e.isFatal = true by
    obtain ⟨_, c', hrun, answer, hall, hend, hno⟩ | ⟨e, c', hrun, answer, hall, hend, s,
        hs, he, hf⟩ := h
    · exact ⟨answer, _, c', hall, hrun, hend, .inl ⟨rfl, hno⟩⟩
    · exact ⟨answer, _, c', hall, hrun, hend, .inr ⟨s, hs, e, he, hf, rfl⟩⟩
  refine ensures_get_bind (ensures_modify_bind (ensures_bind
    (Ensures.mono (poll_ensures hi hn ?_ ?_ _ _) (fun answers c₁ h => ?_) fun _ _ h => h)))
  · exact ⟨rfl, rfl, rfl⟩
  · exact fun h => (h.left.progress _ _).sane
  obtain ⟨hkept, answer, hpolled, rfl⟩ := h
  dsimp only
  generalize herrors : bindingErrors
    ((c.items batch).map fun item => (item.1, answer item.2)) = errors
  have hmem (s : SourceId) (e : CompileError) :
      (s, e) ∈ errors ↔ s ∈ batch ∧ e ∈ failures c answer s :=
    herrors ▸ mem_bindingErrors_answers hn
  have hhalts : (fatal? errors).isSome = true ↔ Halts c answer batch := by
    rw [← Option.ne_none_iff_isSome, Ne, fatal?_eq_none_iff]
    constructor
    · intro h
      push Not at h
      obtain ⟨⟨s, e⟩, he, hf⟩ := h
      exact ⟨s, ((hmem s e).1 he).1, e, ((hmem s e).1 he).2, by simpa using hf⟩
    · rintro ⟨s, hs, e, he, hf⟩ h
      simp [h (s, e) ((hmem s e).2 ⟨hs, he⟩)] at hf
  refine ensures_bind (Ensures.mono (ensures_forM (I := Partly c answer (fatal? errors).isSome)
    ⟨hkept.sources ▸ Catalog.revised_nil _ _, by rw [hkept.graph]; rfl, by rw [hkept.graph]⟩
    fun id hid done d h => ?_) (fun _ c' h => ?_) fun _ _ h => h)
  · have hown : errorsOf id errors = failures c answer id := herrors ▸ errorsOf_answers hn hid
    rw [hown, bindingsOf_answers hn hid]
    simpa only [Option.not_isSome] using h.bindSource (hpolled.ready hid)
  · have hend := h.allOrNothing hpolled hhalts
    split
    · rename_i e he
      obtain ⟨s, hs⟩ := exists_of_fatal? he
      obtain ⟨hs, hfailure⟩ := (hmem s e).1 hs
      exact ensures_throw ⟨answer, hpolled, hend, s, hs, hfailure, List.find?_some he⟩
    · rename_i he
      exact ensures_pure ⟨answer, hpolled, hend,
        fun hhalt => by simp [he] at hhalts; exact hhalts hhalt⟩

end Phase

section Orders

theorem resolve_of_bindingsAt {id : NodeId}
    (h : bindingsAt g id = .ok bindings) {b : Binding} (hb : b ∈ bindings) :
    Resolution.resolve g b.node = .ok b.value := by
  unfold bindingsAt at h
  split at h
  · rename_i binder _ _
    cases binder with
    | element => exact resolve_of_ok h b hb
    | idle | recipe => simp [← Except.ok.inj h] at hb
  · simp at h

variable {answer answer' : NodeId → BindAnswer} {batch' : List SourceId} {id : SourceId}

theorem Polled.agree (hc : Twin c c) (h : Polled c batch answer) (h' : Polled c batch' answer')
    (hperm : batch'.Perm batch) :
    ∀ s ∈ batch, ∀ n ∈ c.graph.persistentNodes s, answer' n = answer n := by
  intro s hs n hn
  rw [(h' s (hperm.mem_iff.2 hs) n hn).core hc, (h s hs n hn).core hc]

theorem failures_congr (h : ∀ n ∈ c.graph.persistentNodes id, answer' n = answer n) :
    failures c answer' id = failures c answer id :=
  List.flatMap_congr fun n hn => by rw [h n hn]

theorem findings_congr (h : ∀ n ∈ c.graph.persistentNodes id, answer' n = answer n) :
    findings c answer' id = findings c answer id :=
  List.flatMap_congr fun n hn => by rw [h n hn]

theorem fails_congr (h : ∀ n ∈ c.graph.persistentNodes id, answer' n = answer n) :
    Fails c answer' id ↔ Fails c answer id :=
  exists_congr fun n => and_congr_right fun hn => by rw [h n hn]

theorem halts_congr (h : ∀ s ∈ batch, ∀ n ∈ c.graph.persistentNodes s, answer' n = answer n)
    (hperm : batch'.Perm batch) : Halts c answer' batch' ↔ Halts c answer batch := by
  refine exists_congr fun s => ?_
  rw [hperm.mem_iff]
  exact and_congr_right fun hs => by rw [failures_congr (h s hs)]

def meaning (g : Graph) (stub : NodeId) : NodeId :=
  match Resolution.resolve g stub with
  | .ok id => id
  | .error _ => stub

theorem Polled.value_eq (hc : Twin c c) (h : Polled c batch answer) (hid : id ∈ batch) {b : Binding}
    (hb : b ∈ findings c answer id) : b.value = meaning c.graph b.node := by
  obtain ⟨n, hn, hb⟩ := List.mem_flatMap.1 hb
  have hcore := (h id hid n hn).core hc
  cases ha : answer n with
  | ok bindings =>
    rw [ha] at hcore hb
    rw [meaning, resolve_of_bindingsAt hcore.symm hb]
  | error errors => simp [ha] at hb

/-- With the core, a property is written if a source that is bound has a binding of it, and then its
value is what the name means. -/
theorem AllOrNothing.values (hc : Twin c c) (hp : Polled c batch answer)
    (h : AllOrNothing c c' batch answer) (j : NodeId) (q : String) : c'.graph.values j q =
      open Classical in
      if ∃ id ∈ batch, (¬ Fails c answer id ∧ ¬ Halts c answer batch) ∧
        ∃ b ∈ findings c answer id, b.node = j ∧ b.property = q
      then [meaning c.graph j] else c.graph.values j q := by
  obtain ⟨good, hsub, hgood, hrun⟩ := h.written
  have hready : c.graph.Ready (good.flatMap (findings c answer)) := fun b hb => by
    obtain ⟨id, hid, hb⟩ := List.mem_flatMap.1 hb
    exact hp.ready (hsub.subset hid) b hb
  rw [values_applyAll (V := fun j _ => meaning c.graph j) hready (fun b hb => ?_) hrun j q]
  · congr 1
    refine propext ⟨?_, ?_⟩
    · rintro ⟨b, hb, hkey⟩
      obtain ⟨id, hid, hb⟩ := List.mem_flatMap.1 hb
      exact ⟨id, hsub.subset hid, (hgood id (hsub.subset hid)).1 hid, b, hb, hkey⟩
    · rintro ⟨id, hid, hok, b, hb, hkey⟩
      exact ⟨b, List.mem_flatMap.2 ⟨id, (hgood id hid).2 hok, hb⟩, hkey⟩
  · obtain ⟨id, hid, hb⟩ := List.mem_flatMap.1 hb
    exact hp.value_eq hc (hsub.subset hid) hb

theorem AllOrNothing.find_eq {c'' : Compiler} (h : AllOrNothing c c' batch answer)
    (h' : AllOrNothing c c'' batch' answer') (hperm : batch'.Perm batch)
    (hagree : ∀ s ∈ batch, ∀ n ∈ c.graph.persistentNodes s, answer' n = answer n) (id : SourceId) :
    c''.sources.find? id = c'.sources.find? id := by
  by_cases hid : id ∈ batch
  · have hid' := hperm.mem_iff.2 hid
    by_cases hno : Fails c answer id ∨ Halts c answer batch
    · rw [h.failed id hid hno, h'.failed id hid' (by
        rwa [fails_congr (hagree id hid), halts_congr hagree hperm]),
        failures_congr (hagree id hid)]
    · rw [not_or] at hno
      rw [h.bound id hid hno.1 hno.2,
        h'.bound id hid' (by rw [fails_congr (hagree id hid)]; exact hno.1)
        (by rw [halts_congr hagree hperm]; exact hno.2)]
  · rw [h.others id hid, h'.others id (mt hperm.mem_iff.1 hid)]

/-- Binding a batch comes to an end on every graph whose indexes are right, whatever handlers are
registered: a source is bound with all its bindings, or it is left as it was with all its errors, as
every source is if an error is fatal. When the handlers are those of the core, the order of the
batch changes nothing but the error that is returned if there are several, and what a binding has
written is what the name means. -/
theorem bindPhase_all_or_nothing (hi : c.graph.Indexed) (hn : batch.Nodup) :
    ∃ answer r c', bindPhase batch c = .ok (r, c') ∧
      (∀ s ∈ batch, ∀ n ∈ c.graph.persistentNodes s, Found c n (answer n)) ∧
      AllOrNothing c c' batch answer ∧
      (r = .ok () ∧ ¬ Halts c answer batch ∨
        ∃ s ∈ batch, ∃ e ∈ failures c answer s, e.isFatal = true ∧ r = .error e) ∧
      ∀ {P : Call → Answer → Prop} {c₀ : Compiler} {a : Agenda}, Reached P c₀ →
        prepare c₀ = .ok (.ok a, c) →
        (∀ j q, c'.graph.values j q = open Classical in
          if ∃ id ∈ batch, (¬ Fails c answer id ∧ ¬ Halts c answer batch) ∧
            ∃ b ∈ findings c answer id, b.node = j ∧ b.property = q
          then [meaning c.graph j] else c.graph.values j q) ∧
        ∀ batch', batch'.Perm batch →
          ∃ r' c'', bindPhase batch' c = .ok (r', c'') ∧
            (∀ id, c''.sources.find? id = c'.sources.find? id) ∧
            (∀ j q, c''.graph.values j q = c'.graph.values j q) ∧ r'.isOk = r.isOk := by
  obtain ⟨answer, r, c', hpolled, hrun, hend, hresult⟩ := bindPhase_replied hi hn
  refine ⟨answer, r, c', hrun, fun s hs n hn => (hpolled s hs n hn).found, hend, hresult,
    fun {P c₀ a} hreached hprepare => ?_⟩
  have hready := hreached.ready_of_any
  have hs := ((prepare_runs hready fun _ _ => trivial).result hprepare).sane
  have hc : Twin c c := .of_sane hs hs ⟨rfl, rfl, rfl, rfl, rfl⟩
  refine ⟨hend.values hc hpolled, fun batch' hperm => ?_⟩
  obtain ⟨answer', r', c'', hpolled', hrun', hend', hresult'⟩ :=
    bindPhase_replied hi (hperm.nodup_iff.2 hn)
  have hagree := hpolled.agree hc hpolled' hperm
  refine ⟨r', c'', hrun', hend.find_eq hend' hperm hagree, fun j q => ?_, ?_⟩
  · rw [hend'.values hc hpolled', hend.values hc hpolled]
    congr 1
    refine propext (exists_congr fun id => ?_)
    rw [hperm.mem_iff]
    refine and_congr_right fun hid => ?_
    rw [fails_congr (hagree id hid), halts_congr hagree hperm, findings_congr (hagree id hid)]
  · have hok {r : Except CompileError Unit} {batch : List SourceId} {answer : NodeId → BindAnswer}
        (h : r = .ok () ∧ ¬ Halts c answer batch ∨
          ∃ s ∈ batch, ∃ e ∈ failures c answer s, e.isFatal = true ∧ r = .error e) :
        r.isOk = true ↔ ¬ Halts c answer batch := by
      rcases h with ⟨rfl, hno⟩ | ⟨s, hs, e, he, hf, rfl⟩
      · exact iff_of_true rfl hno
      · exact iff_of_false (by simp [Except.isOk, Except.toBool]) fun hno => hno ⟨s, hs, e, he, hf⟩
    rw [Bool.eq_iff_iff, hok hresult', hok hresult, halts_congr hagree hperm]

def halfBound : List Call :=
  [.create "bad" "Class B extends Missing { n: String; }", .create "good" "Class A { n: String; }"]

theorem halfBound_binds : ∃ c₀ a c r c', session halfBound = some c₀ ∧
    prepare c₀ = .ok (.ok a, c) ∧ a.batch = ["bad", "good"] ∧
    bindPhase ["bad", "good"] c = .ok (r, c') ∧ c'.stateOf "bad" = .parsed ∧
    c'.stateOf "good" = .bound := by
  have heval : ((session halfBound).any fun c₀ => (prepare c₀).toOption.any fun p =>
      p.1.toOption.any (fun a => a.batch = ["bad", "good"]) &&
        (bindPhase ["bad", "good"] p.2).toOption.any fun b =>
          b.2.stateOf "bad" = .parsed && b.2.stateOf "good" = .bound) = true := by
    rw [session, new, spelledOut.2]
    decide +kernel
  obtain ⟨c₀, hsession, heval⟩ := (Option.any_eq_true _ _).1 heval
  obtain ⟨⟨answer, c⟩, hprepare, heval⟩ := (Option.any_eq_true _ _).1 heval
  rw [Bool.and_eq_true] at heval
  obtain ⟨a, hanswer, hbatch⟩ := (Option.any_eq_true _ _).1 heval.1
  obtain ⟨⟨r, c'⟩, hbind, hstates⟩ := (Option.any_eq_true _ _).1 heval.2
  obtain rfl := eq_ok_of_toOption hanswer
  simp only [Bool.and_eq_true, decide_eq_true_eq] at hbatch hstates
  exact ⟨c₀, a, c, r, c', hsession, eq_ok_of_toOption hprepare, hbatch, eq_ok_of_toOption hbind,
    hstates.1, hstates.2⟩

theorem halfBound_all_or_nothing : ∃ c₀ a c answer r c' r' c'', Reached (fun _ _ => True) c₀ ∧
    prepare c₀ = .ok (.ok a, c) ∧ a.batch = ["bad", "good"] ∧
    bindPhase a.batch c = .ok (r, c') ∧ AllOrNothing c c' a.batch answer ∧
    c'.stateOf "bad" = .parsed ∧ c'.stateOf "good" = .bound ∧
    bindPhase ["good", "bad"] c = .ok (r', c'') ∧ c''.stateOf "bad" = .parsed ∧
    c''.stateOf "good" = .bound := by
  obtain ⟨c₀, a, c, r, c', hsession, hprepare, hbatch, hrun, hbad, hgood⟩ := halfBound_binds
  have hreached : Reached (fun _ _ => True) c₀ :=
    (Reached.of_session hsession).mono fun _ _ _ => trivial
  have hs := ((prepare_runs hreached.ready_of_any fun _ _ => trivial).result hprepare).sane
  obtain ⟨answer, r₁, c₁, hrun₁, -, hall, -, horder⟩ :=
    bindPhase_all_or_nothing hs.tidy.toIndexed (show ["bad", "good"].Nodup by decide)
  obtain ⟨rfl, rfl⟩ := ok_mk_inj (hrun.symm.trans hrun₁)
  obtain ⟨r', c'', hrun', hfind, -, -⟩ := (horder hreached hprepare).2 ["good", "bad"] (by decide)
  refine ⟨c₀, a, c, answer, r, c', r', c'', hreached, hprepare, hbatch, hbatch ▸ hrun,
    hbatch ▸ hall, hbad, hgood, hrun', ?_, ?_⟩
  · rw [← hbad, stateOf, stateOf, hfind]
  · rw [← hgood, stateOf, stateOf, hfind]

end Orders

end Compiler

end ModelCompiler
