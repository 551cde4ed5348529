import ModelCompiler.Proofs.Slots.Reading
import ModelCompiler.Proofs.Slots.Storing

/-!
Handlers on workspaces whose graphs are in step.
-/
open ModelCompiler.Action ModelCompiler.Graph ModelCompiler.Lineage ModelCompiler.Handler
  ModelCompiler.Workspace

namespace ModelCompiler

namespace Workspace

/-- The graphs of two workspaces are in step. -/
def GraphsInStep (X : Prop) (π : NodeId → NodeId) (w w' : Workspace) : Prop :=
  Graph.InStep X π w.graph w'.graph

/-- The graphs are in step, and both workspaces are in order. -/
structure OrderlyInStep (X : Prop) (K : NodeId → Prop) (π : NodeId → NodeId)
    (w w' : Workspace) : Prop where
  graphs : GraphsInStep X π w w'
  left : w.Orderly K
  right : w'.Orderly K

variable {X : Prop} {K : NodeId → Prop} {π : NodeId → NodeId} {w w' : Workspace} {α β ε δ : Type}
  {F : ε → δ → Prop} {Q : α → β → Prop}

theorem OrderlyInStep.remember (e : OrderlyInStep X K π w w') {l l' : Lineage}
    (hl : l.Valid w.graph) (hl' : l'.Valid w'.graph) :
    OrderlyInStep X K π { w with lineage := l } { w' with lineage := l' } :=
  ⟨e.graphs, ⟨e.left.tidy, hl⟩, e.right.tidy, hl'⟩

def Recalled (w w' u v : Workspace) : Prop :=
  ∃ l l' : Lineage, l.Valid w.graph ∧ l'.Valid w'.graph ∧ u = { w with lineage := l } ∧
    v = { w' with lineage := l' }

theorem Recalled.orderlyInStep {u v : Workspace} (h : Recalled w w' u v)
    (e : OrderlyInStep X K π w w') :
    OrderlyInStep X K π u v ∧ u.graph = w.graph ∧ v.graph = w'.graph := by
  obtain ⟨l, l', hl, hl', rfl, rfl⟩ := h
  exact ⟨e.remember hl hl', rfl, rfl⟩

theorem matched_orderly {x : Work ε α} {y : Work δ β}
    (h : Matched X F Q (GraphsInStep X π) (x w) (y w'))
    (hx : Ensures x w (fun _ u => u.Orderly K) fun _ u => u.Orderly K)
    (hy : Ensures y w' (fun _ v => v.Orderly K) fun _ v => v.Orderly K) :
    Matched X F Q (OrderlyInStep X K π) (x w) (y w') :=
  h.mono (fun _ _ _ _ hu hv hF hR => ⟨hF, hR, hx.error hu, hy.error hv⟩)
    fun _ _ _ _ hu hv hQ hR => ⟨hQ, hR, hx.result hu, hy.result hv⟩

end Workspace

namespace Work

variable {X : Prop} {K : NodeId → Prop} {π : NodeId → NodeId} {w w' : Workspace} {α β ε δ : Type}

theorem inspect_eq {f : Graph → StateM Lineage α} (hs : Steady w.graph (f w.graph))
    (hl : w.lineage.Valid w.graph) : ∃ l : Lineage, l.Valid w.graph ∧
      (inspect f : Work ε α) w = .ok (.ok (answer (f w.graph)), { w with lineage := l }) := by
  obtain ⟨ha, hv⟩ := hs w.lineage hl
  exact ⟨_, hv, by rw [← ha]; rfl⟩

theorem ask_eq {f : Graph → Query α} (hs : Steady w.graph (f w.graph).run)
    (hl : w.lineage.Valid w.graph) : ∃ l : Lineage, l.Valid w.graph ∧
      ask f w = .ok (Query.answer (f w.graph), { w with lineage := l }) := by
  obtain ⟨l, hv, heq⟩ := inspect_eq (ε := CompileError) (f := fun g => (f g).run) hs hl
  refine ⟨l, hv, ?_⟩
  unfold ask
  rw [run_bind, heq]
  unfold Query.answer
  cases answer (f w.graph).run <;> rfl

section Rules

variable {F : ε → δ → Prop} {Q : α → β → Prop}

theorem matched_graph {R : Workspace → Workspace → Prop} {f : Graph → Work ε α}
    {f' : Graph → Work δ β} (h : Matched X F Q R (f w.graph w) (f' w'.graph w')) :
    Matched X F Q R ((graph >>= f : Work ε α) w) ((graph >>= f' : Work δ β) w') :=
  h

theorem matched_ask (e : w.OrderlyInStep X K π w') {f : Graph → Query α} {f' : Graph → Query β}
    (hs : Steady w.graph (f w.graph).run) (hs' : Steady w'.graph (f' w'.graph).run) {k : α → β}
    (ha : Query.answer (f' w'.graph) = (Query.answer (f w.graph)).map k) :
    Matched X Eq (fun a b => Query.answer (f w.graph) = .ok a ∧ b = k a) (Recalled w w')
      (ask f w) (ask f' w') := by
  obtain ⟨l, hl, heq⟩ := ask_eq hs e.left.valid
  obtain ⟨l', hl', heq'⟩ := ask_eq hs' e.right.valid
  rw [heq, heq', ha]
  cases Query.answer (f w.graph) with
  | error x => exact .error rfl ⟨l, l', hl, hl', rfl, rfl⟩
  | ok a => exact .ok ⟨rfl, rfl⟩ ⟨l, l', hl, hl', rfl, rfl⟩

theorem matched_inspect (e : w.OrderlyInStep X K π w') {f : Graph → StateM Lineage α}
    {f' : Graph → StateM Lineage β} (hs : Steady w.graph (f w.graph))
    (hs' : Steady w'.graph (f' w'.graph)) (hQ : Q (answer (f w.graph)) (answer (f' w'.graph))) :
    Matched X F Q (Recalled w w') ((inspect f : Work ε α) w) ((inspect f' : Work δ β) w') := by
  obtain ⟨l, hl, heq⟩ := inspect_eq hs e.left.valid
  obtain ⟨l', hl', heq'⟩ := inspect_eq hs' e.right.valid
  exact matched_of_eq heq heq' hQ ⟨l, l', hl, hl', rfl, rfl⟩

theorem matched_update {f f' : Graph → Except Breach Graph}
    (h : Joint X (Graph.InStep X π) (f w.graph) (f' w'.graph)) :
    Matched X F (fun _ _ => True) (GraphsInStep X π) ((update f : Work ε Unit) w)
      ((update f' : Work δ Unit) w') :=
  matched_write (h.map fun _ _ e => ⟨trivial, e⟩)

theorem matched_addValue (e : GraphsInStep X π w w') (id : NodeId) (p : String) (v : NodeId) :
    Matched X F (fun _ _ => True) (GraphsInStep X π) ((addValue id p v : Work ε Unit) w)
      ((addValue (π id) p (π v) : Work δ Unit) w') :=
  matched_update (InStep.addValue e id p v)

theorem matched_setValues (e : GraphsInStep X π w w') (id : NodeId) (p : String)
    (vs : List NodeId) :
    Matched X F (fun _ _ => True) (GraphsInStep X π) ((setValues id p vs : Work ε Unit) w)
      ((setValues (π id) p (vs.map π) : Work δ Unit) w') :=
  matched_update (InStep.setValues e id p vs)

theorem matched_onGraph {F' : GraphError → GraphError → Prop} {cause : GraphError → ε}
    {cause' : GraphError → δ} {act : Action Graph GraphError α} {act' : Action Graph GraphError β}
    (h : Matched X F' Q (Graph.InStep X π) (act w.graph) (act' w'.graph))
    (hF : ∀ x y, F' x y → F (cause x) (cause' y)) :
    Matched X F Q (GraphsInStep X π) (onGraph cause act w) (onGraph cause' act' w') :=
  h.within hF fun _ _ e => e

end Rules

end Work

namespace Handler

variable {X : Prop} {K : NodeId → Prop} {π : NodeId → NodeId} {w w' : Workspace} {id : NodeId}
  {s : SourceId}

section Processors

variable (e : w.OrderlyInStep X K π w') (hid : w.graph.lifetime? id = some (.persistent s))

theorem lifetime?_persistent (e : w.GraphsInStep X π w')
    (hid : w.graph.lifetime? id = some (.persistent s)) :
    w'.graph.lifetime? (π id) = some (.persistent s) := by
  rw [SameUpTo.lifetime? e.toSameUpTo, hid]
  rfl

include e hid

theorem Class.process_matched : MatchedStates X (OrderlyInStep X K π) (Class.process id w)
    (Class.process (π id) w') := by
  have hid' := lifetime?_persistent e.graphs hid
  refine matched_orderly ?_
    ((Class.process_ensures e.left hid).mono (fun _ _ h => h.1.orderly) fun _ _ h => h.orderly)
    ((Class.process_ensures e.right hid').mono (fun _ _ h => h.1.orderly) fun _ _ h => h.orderly)
  obtain ⟨p, hp⟩ := e.left.tidy.located id s hid
  have hlive : w.graph.contains id = true := contains_of_path? hp
  have hr := e.left.tidy.toRegular
  have hr' := e.right.tidy.toRegular
  have hup := e.graphs.toSameUpTo
  refine ((Work.matched_ask e (ancestors_answers hr.toClosed hr.issued hlive).1
    (ancestors_answers hr'.toClosed hr'.issued (hup.contains id ▸ hlive)).1
    (hup.answer_ancestors hr hr' hp)).discard).bind
    (fun _ _ _ _ _ _ _ h => (h.orderlyInStep e).1.graphs) fun _ _ u v _ _ _ h => ?_
  obtain ⟨l, l', hl, hl', rfl, rfl⟩ := h
  refine Matched.bind (Work.matched_ask (e.remember hl hl') (steady_pure _) (steady_pure _)
    (k := List.map π) (hup.direct hlive))
    (fun _ _ _ _ _ _ _ h => (h.orderlyInStep (e.remember hl hl')).1.graphs)
    fun gs gs' u v _ _ hgs h => ?_
  obtain ⟨-, rfl⟩ := hgs
  exact matched_forM (h.orderlyInStep (e.remember hl hl')).1.graphs fun general _ u v e =>
    Work.matched_addValue e general "specializations" id

omit hid in
theorem Association.process_matched
    (hkind : w.graph.classifierPath? id ≠ some Metamodel.class_) :
    MatchedStates X (OrderlyInStep X K π) (Association.process id w)
      (Association.process (π id) w') := by
  have hr := e.left.tidy.toRegular
  have hr' := e.right.tidy.toRegular
  have hup := e.graphs.toSameUpTo
  refine matched_orderly ?_
    ((Association.process_ensures e.left hkind).mono (fun _ _ h => h.1.orderly)
      fun _ _ h => h.orderly)
    ((Association.process_ensures e.right (by rwa [hup.classifierPath?])).mono
      (fun _ _ h => h.1.orderly) fun _ _ h => h.orderly)
  have hboth {g : Graph} (hr : g.Regular K) (s t : NodeId) := query_bind_answers
    (f := fun b => if b then Association.isClass g t else pure false)
    (Association.isClass_steady hr.toClosed hr.issued s) fun b _ => by
      cases b
      · exact steady_pure _
      · exact Association.isClass_steady hr.toClosed hr.issued t
  refine Work.matched_graph ?_
  rw [hup.ends]
  rcases Association.ends w.graph id with _ | ⟨⟨a, _ | s⟩, _ | ⟨⟨b, _ | t⟩, _ | ⟨c, rest⟩⟩⟩
  case cons.some.cons.some.nil =>
    refine Matched.bind (Work.matched_ask e (hboth hr s t).1 (hboth hr' (π s) (π t)).1
      (k := fun b => b) ?_) (fun _ _ _ _ _ _ _ h => (h.orderlyInStep e).1.graphs)
        fun both both' u v _ _ hb h => ?_
    · rw [(hboth hr s t).2, (hboth hr' (π s) (π t)).2, hup.answer_isClass hr hr' s]
      cases Query.answer (Association.isClass w.graph s) with
      | error x => rfl
      | ok b =>
        cases b
        · rfl
        · change Query.answer (Association.isClass w'.graph (π t)) =
            (Query.answer (Association.isClass w.graph t)).map fun b => b
          rw [hup.answer_isClass hr hr' t]
          cases Query.answer (Association.isClass w.graph t) <;> rfl
    · rw [hb.2]
      have e := (h.orderlyInStep e).1.graphs
      cases both
      · exact matched_pure trivial e
      · exact (Work.matched_addValue e t _ a).seq fun _ _ _ _ _ e => Work.matched_addValue e s _ b
  all_goals exact matched_pure trivial e.graphs

theorem Enumeration.process_matched : MatchedStates X (OrderlyInStep X K π)
    (Enumeration.process id w) (Enumeration.process (π id) w') := by
  refine matched_orderly ?_
    ((Enumeration.process_ensures e.left hid).mono (fun _ _ h => h.1.orderly)
      fun _ _ h => h.orderly)
    ((Enumeration.process_ensures e.right (lifetime?_persistent e.graphs hid)).mono
      (fun _ _ h => h.1.orderly) fun _ _ h => h.orderly)
  refine Work.matched_graph ?_
  rw [e.graphs.values]
  exact matched_forM e.graphs fun value _ u v e => Work.matched_setValues e value "enumeration" [id]

theorem Function.processExpression_matched {expression : NodeId}
    (hexpression : expression ∈ w.graph.values id "expressionSequence") :
    Matched X Eq Eq (OrderlyInStep X K π) (Function.processExpression expression w)
      (Function.processExpression (π expression) w') := by
  have hr := e.left.tidy.toRegular
  have hr' := e.right.tidy.toRegular
  have hup := e.graphs.toSameUpTo
  have hexpression' : π expression ∈ w'.graph.values (π id) "expressionSequence" := by
    rw [hup.values, hup.mem_map]
    exact hexpression
  refine matched_orderly ?_
    ((Function.processExpression_ensures e.left hid hexpression).mono (fun _ _ h => h.2.orderly)
      fun _ _ h => h.elim)
    ((Function.processExpression_ensures e.right
      (lifetime?_persistent e.graphs hid) hexpression').mono
      (fun _ _ h => h.2.orderly) fun _ _ h => h.elim)
  unfold Function.processExpression
  refine Work.matched_graph ?_
  have hreceiver : (w'.graph.value? (π expression) "owner" >>= w'.graph.declaredType?) =
      (w.graph.value? expression "owner" >>= w.graph.declaredType?).map π := by
    rw [hup.value?]
    cases w.graph.value? expression "owner" with
    | none => rfl
    | some v => exact hup.declaredType? v
  rw [hup.isPropertyStub, hup.name?, hup.spanOf, hreceiver]
  split
  · exact matched_pure rfl e.graphs
  · cases ht : w.graph.value? expression "owner" >>= w.graph.declaredType? with
    | none => exact matched_pure rfl e.graphs
    | some receiver =>
      obtain ⟨v, -, hv⟩ := Option.bind_eq_some_iff.1 ht
      obtain ⟨q, hq⟩ := (hr.named_type hv).path
      have hlive : w.graph.contains receiver = true := contains_of_path? hq
      have hname := hup.answer_findProperty hr hr' hq ((w.graph.name? expression).getD "")
      simp only [Option.map_some, hup.describe receiver hq]
      refine Matched.bind (Work.matched_inspect e
        (findProperty_answers hr.toClosed hr.issued hlive _).1
        (findProperty_answers hr'.toClosed hr'.issued (hup.contains receiver ▸ hlive) _).1
        (Q := fun a b => b = Except.map (Option.map π) a) hname)
        (fun _ _ _ _ _ _ _ h => (h.orderlyInStep e).1.graphs) fun r _ u v _ _ hrr h => ?_
      subst hrr
      have e := (h.orderlyInStep e).1.graphs
      rcases r with x | _ | property
      · exact matched_pure rfl e
      · exact matched_pure rfl e
      · exact (Work.matched_setValues e expression _ [property]).seq fun _ _ _ _ _ e =>
          matched_pure rfl e

theorem Function.deriveType_matched (hK : CoversMetamodel K) :
    MatchedStates X (OrderlyInStep X K π) (Function.deriveType id w)
      (Function.deriveType (π id) w') := by
  have hr := e.left.tidy.toRegular
  obtain ⟨kind, hkind, hinitial, -⟩ := hr.landmark hr.toIndexed
    (show Metamodel.functionType ∈ Metamodel.landmarks by decide +kernel)
  have hderive := Function.deriveType_ensures e.left hK hid
  refine matched_orderly ?_ (hderive.mono (fun _ _ h => h.1.orderly) fun _ _ h => h.elim)
    ((Function.deriveType_ensures e.right hK (lifetime?_persistent e.graphs hid)).mono
      (fun _ _ h => h.1.orderly) fun _ _ h => h.elim)
  -- errors of the store are ruled out in the end, so they need not be the same
  refine Matched.mono (F := fun _ _ => True) (Q := fun _ _ => True) (R := GraphsInStep X π) ?_
    (fun _ _ _ _ hu _ _ _ => (hderive.error hu).elim) fun _ _ _ _ _ _ _ h => ⟨trivial, h⟩
  unfold Function.deriveType
  have hrequire : Matched X (fun _ _ => True) (fun a b => a = kind ∧ b = π kind) (GraphsInStep X π)
      (Work.onGraph CompileError.internal (Graph.require Metamodel.functionType) w)
      (Work.onGraph CompileError.internal (Graph.require Metamodel.functionType) w') :=
    Work.matched_onGraph (e.graphs.require hkind (F := fun _ _ => True)) fun _ _ _ => trivial
  refine Matched.seq hrequire fun a b u v hab e => ?_
  obtain ⟨rfl, rfl⟩ := hab
  have hcreate : Matched X (fun _ _ => True) (fun a b => b = π a) (GraphsInStep X π)
      (Work.onGraph CompileError.internal (Graph.createEphemeral id { classifier := some a }) u)
      (Work.onGraph CompileError.internal
        (Graph.createEphemeral (π id) { classifier := some (π a) }) v) :=
    Work.matched_onGraph (e.createEphemeral id { classifier := some a } fun c hc =>
      Option.some.inj hc ▸ hinitial) fun _ _ _ => trivial
  refine Matched.seq hcreate fun type type' u v htype e => ?_
  subst htype
  refine Work.matched_graph ?_
  have hreturn : (v.graph.value? (π id) "returnType" >>= v.graph.referenced?) =
      (u.graph.value? id "returnType" >>= u.graph.referenced?).map π := by
    rw [e.value?]
    cases u.graph.value? id "returnType" with
    | none => rfl
    | some stub => exact e.referenced? stub
  have hparameters : (v.graph.values (π id) "parameters").filterMap v.graph.declaredType? =
      ((u.graph.values id "parameters").filterMap u.graph.declaredType?).map π := by
    simp only [e.values, List.filterMap_map, Function.comp_def, e.declaredType?, List.map_filterMap]
  rw [hparameters, hreturn]
  refine (matched_forM e fun ty _ u v e => Work.matched_addValue e type "parameters" ty).seq
    fun _ _ u' v' _ e => ?_
  cases u.graph.value? id "returnType" >>= u.graph.referenced? with
  | none => exact Work.matched_setValues e id "functionType" [type]
  | some ty => exact (Work.matched_addValue e type "returnType" ty).seq fun _ _ _ _ _ e =>
      Work.matched_setValues e id "functionType" [type]

theorem Function.process_matched (hK : CoversMetamodel K) :
    Matched X Eq Eq (OrderlyInStep X K π) (Function.process id w) (Function.process (π id) w') := by
  refine Work.matched_graph ?_
  rw [e.graphs.values]
  -- the expressions of the body stay the same while they are bound
  let Kept (u v : Workspace) : Prop := u.OrderlyInStep X K π v ∧ u.graph.frame = w.graph.frame ∧
    u.graph.values id "expressionSequence" = w.graph.values id "expressionSequence"
  have hkept : Matched X Eq (List.Forall₂ Eq) Kept
      (((w.graph.values id "expressionSequence").mapM processExpression) w)
      (((w.graph.values id "expressionSequence").map π).mapM processExpression w') := by
    refine matched_mapM ⟨e, rfl, rfl⟩ fun x hx u v h => ?_
    obtain ⟨e', hframe, hvalues⟩ := h
    have hid : u.graph.lifetime? id = some (.persistent s) := (lifetime?_congr hframe id).trans hid
    have hx : x ∈ u.graph.values id "expressionSequence" := hvalues ▸ hx
    have hbound := processExpression_ensures e'.left hid hx
    refine (processExpression_matched e' hid hx).mono
      (fun _ _ _ _ hu _ _ _ => (hbound.error hu).elim) fun _ _ u' v' hu _ hr e'' => ⟨hr, e'', ?_⟩
    have hbody := (hbound.result hu).2
    exact ⟨hbody.frame.trans hframe, (hbody.values id _ (by simp)).trans hvalues⟩
  refine Matched.bind hkept (fun _ _ _ _ _ _ _ h => h.1) fun errors errors' u v _ _ herrors h => ?_
  have hid := (lifetime?_congr h.2.1 id).trans hid
  refine (deriveType_matched h.1 hid hK).seq fun _ _ _ _ _ e => matched_pure ?_ e
  rw [List.forall₂_eq_eq_eq] at herrors
  rw [herrors]

theorem Processor.act_matched (hK : CoversMetamodel K) {p : Processor} (hp : Suits w.graph id p) :
    Matched X Eq Eq (OrderlyInStep X K π) (p.act id w) (p.act (π id) w') := by
  cases p with
  | idle => exact matched_pure rfl e
  | class_ => exact (Class.process_matched e hid).seq fun _ _ _ _ _ e => matched_pure rfl e
  | association =>
    refine (Association.process_matched e fun hkind => ?_).seq fun _ _ _ _ _ e => matched_pure rfl e
    simpa using hp.class_ hkind
  | enumeration =>
    exact (Enumeration.process_matched e hid).seq fun _ _ _ _ _ e => matched_pure rfl e
  | function => exact Function.process_matched e hid hK
  | recipe r => exact absurd rfl (hp.core r)

theorem Processor.run_matched (hK : CoversMetamodel K) {p : Processor} (hp : Suits w.graph id p) :
    MatchedStates X (OrderlyInStep X K π) (p.run id w) (p.run (π id) w') := by
  refine (act_matched e hid hK hp).attempt.seq fun r r' u v hr e => ?_
  cases hr with
  | error hx => exact matched_throw (by rw [hx]) e
  | ok hx =>
    subst hx
    rename_i errors
    cases errors with
    | nil => exact matched_pure trivial e
    | cons x errors => exact matched_throw rfl e

end Processors

section Stripping

variable {g h : Graph} (e : Graph.InStep X π g h)

def relabelReference (π : NodeId → NodeId) (r : NodeId × String × NodeId) :
    NodeId × String × NodeId :=
  (π r.1, r.2.1, π r.2.2)

include e

theorem heldByOthers_map (tree : List NodeId) : heldByOthers h (tree.map π) =
    (heldByOthers g tree).map (relabelReference π) := by
  have hheld : (tree.map π).flatMap h.usagesOf = (tree.flatMap g.usagesOf).map
      (Usage.relabel π) := by
    simp only [List.flatMap_map, e.usagesOf, List.map_flatMap]
  simp only [heldByOthers, hheld, List.filter_map, Function.comp_def, Usage.relabel, e.mem_map,
    List.map_map, relabelReference]
  rfl

theorem isForeign_map (own : Option SourceId) (id : NodeId) :
    isForeign h own (π id) = isForeign g own id := by
  simp only [Handler.isForeign, e.sourceOf?]

theorem foreignReferences_map (own : Option SourceId) (tree : List NodeId) :
    foreignReferences h own (tree.map π) = (foreignReferences g own tree).map
      (relabelReference π) := by
  have hproperties (k : Graph) (own : Option SourceId) (tree : List NodeId) :
      foreignReferences k own tree = tree.flatMap fun id =>
        (k.propertiesOf id).entries.flatMap fun entry =>
          (entry.2.filter fun v => v ∉ tree && isForeign k own v).map (id, entry.1, ·) := by
    refine List.flatMap_congr fun id _ => ?_
    unfold propertiesOf
    cases k.node? id <;> rfl
  simp only [hproperties, List.flatMap_map, e.properties, Table.relabel, List.map_flatMap,
    List.filter_map, Function.comp_def, e.mem_map, isForeign_map e, List.map_map, relabelReference]

omit e in
theorem removeReferences_jointly (refs : List (NodeId × String × NodeId)) {g h : Graph}
    (e : Graph.InStep X π g h) : Joint X (Graph.InStep X π) (removeReferences g refs)
      (removeReferences h (refs.map (relabelReference π))) :=
  Joint.foldlM e fun r _ _ _ e => (e.removeValue r.1 r.2.1 r.2.2).map fun _ _ h => h.2

theorem resetStub_jointly (id : NodeId) :
    Joint X (Graph.InStep X π) (resetStub g id) (resetStub h (π id)) := by
  unfold resetStub
  rw [e.isImportStub, e.isPropertyStub]
  split
  · exact (e.clearProperty id _).map fun _ _ h => h.2
  · split
    · exact (e.clearProperty id _).map fun _ _ h => h.2
    · exact .ok e

theorem stripReferences_jointly (id : NodeId) :
    Joint X (Graph.InStep X π) (stripReferences g id) (stripReferences h (π id)) := by
  unfold stripReferences
  simp only [e.tree, heldByOthers_map e]
  refine (removeReferences_jointly _ e).bind fun g₁ h₁ _ _ e₁ => ?_
  rw [e₁.sourceOf?, foreignReferences_map e₁]
  refine (removeReferences_jointly _ e₁).bind fun g₂ h₂ _ _ e₂ => ?_
  exact Joint.foldlM e₂ fun m _ _ _ e => resetStub_jointly e m

end Stripping

section Unbinders

variable {removing : Bool}

theorem attachments_map {g h : Graph} (e : Graph.InStep X π g h) (id : NodeId) :
    Association.attachments h (π id) = (Association.attachments g id).map (relabelReference π) := by
  simp only [Association.attachments, e.values, List.flatMap_map, e.usagesOf, List.filter_map,
    Function.comp_def, Usage.relabel, List.map_map, List.map_flatMap, relabelReference]
  rfl

theorem Class.unbind_matched (e : w.GraphsInStep X π w') (id : NodeId) :
    MatchedStates X (GraphsInStep X π) (Class.unbind id w) (Class.unbind (π id) w') :=
  (Work.matched_update (stripReferences_jointly e id)).seq fun _ _ _ _ _ e' =>
    matched_modify trivial e'

theorem Association.unbind_matched (e : w.GraphsInStep X π w') (id : NodeId) :
    MatchedStates X (GraphsInStep X π) (Association.unbind id w)
      (Association.unbind (π id) w') := by
  refine Work.matched_update ?_
  rw [attachments_map e]
  exact (removeReferences_jointly _ e).bind fun _ _ _ _ e₁ => stripReferences_jointly e₁ id

theorem Enumeration.unbind_matched (e : w.GraphsInStep X π w') (id : NodeId) :
    MatchedStates X (GraphsInStep X π) (Enumeration.unbind id w)
      (Enumeration.unbind (π id) w') := by
  refine Work.matched_update ((stripReferences_jointly e id).bind fun g₁ h₁ _ _ e₁ => ?_)
  rw [e₁.values]
  exact Joint.foldlM e₁ fun v _ _ _ e₂ => (e₂.clearProperty v _).map fun _ _ h => h.2

theorem dropTypes_matched (e : w.GraphsInStep X π w') (ht : w.graph.Tidy K)
    (hc' : w'.graph.Coherent) {types : List NodeId} (htypes : ∀ t ∈ types, w.graph.IsType t)
    (hunused : ∀ t ∈ types, ∀ j, t ∉ w.graph.values j "functionType") :
    MatchedStates X (GraphsInStep X π)
      (discard (Work.onGraph CompileError.internal (Graph.removeNodes types)) w)
      (discard (Work.onGraph CompileError.internal (Graph.removeNodes (types.map π))) w') := by
  have hr := ht.toRegular
  have hremovable := ht.removable_types htypes hunused
  refine (Work.matched_onGraph (InStep.removeNodes e hr.toCoherent hc' hremovable.present
    hremovable.user fun i t hin hi => ?_) fun _ _ h => congrArg _ h).discard
  obtain ⟨-, p, hp⟩ := hr.kind i t hi
  exact absurd (htypes t (hr.mem_of_inTrees_types htypes hin)) (hr.not_isType_of_path hp)

theorem Function.unbind_matched (e : w.OrderlyInStep X K π w')
    (hid : w.graph.lifetime? id = some (.persistent s))
    (hid' : w'.graph.lifetime? (π id) = some (.persistent s)) :
    MatchedStates X (GraphsInStep X π) (Function.unbind removing id w)
      (Function.unbind removing (π id) w') := by
  obtain ⟨g₁, heq, hloses, -, -⟩ := strip_of_losesFor e.left hid (.refl _)
  obtain ⟨h₁, heq', hloses', -, -⟩ := strip_of_losesFor e.right hid' (.refl _)
  have e₁ : Graph.InStep X π g₁ h₁ := by
    have := stripReferences_jointly e.graphs id
    rw [heq, heq'] at this
    cases this with
    | ok h => exact h
  have hstrip : MatchedStates X (fun u v => u = { w with graph := g₁ } ∧
      v = { w' with graph := h₁ })
        ((Work.update fun g => stripReferences g id : Work CompileError Unit) w)
      ((Work.update fun g => stripReferences g (π id) : Work CompileError Unit) w') := by
    refine matched_write ?_
    simp only [heq, heq', Except.map]
    exact .ok ⟨trivial, rfl, rfl⟩
  refine hstrip.bind (fun _ _ u v _ _ _ h => ?_) fun _ _ u v _ _ _ h => ?_
  · rw [h.1, h.2]
    exact e₁
  obtain ⟨rfl, rfl⟩ := h
  cases removing with
  | true => exact matched_pure trivial e₁
  | false =>
    have ht := Works.tidy hloses.works e.left.tidy
    have ht' := Works.tidy hloses'.works e.right.tidy
    have hlive := contains_of_lifetime? (Works.persistent hloses.works e.left.tidy hid)
    have hlive' := contains_of_lifetime? (Works.persistent hloses'.works e.right.tidy hid')
    have hpurged : GraphsInStep X π { w with graph := g₁.purge id "functionType" }
        { w' with graph := h₁.purge (π id) "functionType" } := e₁.purge id _
    refine Matched.bind (Q := fun a b => a = g₁.values id "functionType" ∧ b = a.map π)
      (R := fun u v => u = { w with graph := g₁.purge id "functionType" } ∧
        v = { w' with graph := h₁.purge (π id) "functionType" })
      (matched_write ?_) (fun _ _ u v _ _ _ h => ?_) fun a b u v _ _ hab h => ?_
    · simp only [clearProperty_eq hlive, clearProperty_eq hlive', Except.map]
      exact .ok ⟨⟨rfl, e₁.values id _⟩, rfl, rfl⟩
    · rw [h.1, h.2]
      exact hpurged
    · obtain ⟨rfl, rfl⟩ := hab
      obtain ⟨rfl, rfl⟩ := h
      simp only [List.isEmpty_map]
      split
      · have hr := ht.toRegular
        have hq : "functionType" ∈ Metamodel.derived := by simp [Metamodel.derived]
        exact dropTypes_matched hpurged (ht.sheds (hr.sheds_purge id hq))
          (ht'.sheds (ht'.toRegular.sheds_purge (π id) hq)).toRegular.toCoherent
          (fun _ h => (hr.types_purge h).1) fun _ h => (hr.types_purge h).2
      · exact matched_pure trivial hpurged

theorem Unbinder.run_matched (e : w.OrderlyInStep X K π w')
    (hid : w.graph.lifetime? id = some (.persistent s)) {u : Unbinder} (hu : Undoes w.graph id u) :
    MatchedStates X (Workspace.OrderlyInStep X K π) (u.run removing id w)
      (u.run removing (π id) w') := by
  have hid' := lifetime?_persistent e.graphs hid
  have hu' : Undoes w'.graph (π id) u := by
    refine ⟨hu.core, ?_, ?_⟩ <;> rw [e.graphs.classifierPath?]
    exacts [hu.enumeration, hu.function]
  refine matched_orderly ?_ ((Unbinder.run_ensures e.left hid hu).mono
    (fun _ _ h => h.orderly) fun _ _ h => h.elim) ((Unbinder.run_ensures e.right hid' hu').mono
    (fun _ _ h => h.orderly) fun _ _ h => h.elim)
  cases u with
  | strip =>
    show Matched X _ _ _ ((Work.update fun g => stripReferences g id : Work CompileError Unit) w)
      ((Work.update fun g => stripReferences g (π id) : Work CompileError Unit) w')
    exact Work.matched_update (stripReferences_jointly e.graphs id)
  | class_ => exact Class.unbind_matched e.graphs id
  | association => exact Association.unbind_matched e.graphs id
  | enumeration => exact Enumeration.unbind_matched e.graphs id
  | function => exact Function.unbind_matched e hid hid'
  | recipe r => exact absurd rfl (hu.core r)

end Unbinders

end Handler

end ModelCompiler
