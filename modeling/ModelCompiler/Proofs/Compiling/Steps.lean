import ModelCompiler.Proofs.Compiling.Pipeline
import ModelCompiler.Proofs.Compiling.Sessions
import ModelCompiler.Proofs.Drafting.Hosting
import ModelCompiler.Proofs.Handling.Hosting

/-!
The steps of the pipeline. Each of them looks up one handler at most, and that in its beginning.
-/
open ModelCompiler.Action ModelCompiler.Graph

namespace ModelCompiler

open Lineage

def Content.isText : Content → Bool
  | .text _ => true
  | .script _ => false

namespace Dispatch

/-- Binding and processing is left to handlers that belong to no extension. -/
structure Native (d : Dispatch) : Prop where
  binders : ∀ e ∈ d.binders.entries, e.2.isNative = true
  processors : ∀ e ∈ d.processors.entries, e.2.isNative = true

theorem native_coreDispatch : coreDispatch.Native := by
  constructor <;> simp [coreDispatch, Binder.isNative, Processor.isNative]

variable {η : Type} {m g : Graph} {l : Lineage} (hm : m.Charted) (hb : Bears m g)
  (hl : Recollects m l) (id : NodeId)
include hm hb hl

theorem find_recollects (table : Table Path η) : Gives (find table g id) l
    (fun r l' => (∀ h, r.1 = some h → ∃ p, table.find? p = some h) ∧ Recollects m l')
    fun _ l' => Recollects m l' :=
  find_gives_of hl fun c _ => ancestors_recollects hm hb hl c

theorem orDemand_recollects {table : Table Path η} {P : η → Prop}
    (htable : ∀ e ∈ table.entries, P e.2) {default : η} (hdefault : P default) (phase : Phase) :
    Gives (find table g id >>= orDemand phase default g id) l
      (fun r l' => P r.1 ∧ Recollects m l') fun _ l' => Recollects m l' := by
  refine gives_bind ((find_recollects hm hb hl id table).imp fun r l' hr =>
    (orDemand_gives_of hr.2).mono (fun h l'' hh => ⟨?_, hh.2⟩) fun _ _ he => he.2)
  rcases hh.1 with he | he
  · exact he ▸ hdefault
  · obtain ⟨p, hp⟩ := hr.1 _ he
    exact htable _ (Table.mem_entries_of_find? hp)

theorem orDefault_recollects (table : Table Path η) (default : η) :
    Gives (find table g id >>= fun r => pure (orDefault default r)) l
      (fun _ l' => True ∧ Recollects m l') fun _ l' => Recollects m l' :=
  gives_bind ((find_recollects hm hb hl id table).imp fun _ _ h => gives_pure ⟨trivial, h.2⟩)

theorem binder_recollects {d : Dispatch} (hd : d.Native) : Gives (d.binder g id) l
    (fun r l' => r.1.isNative = true ∧ Recollects m l') fun _ l' => Recollects m l' :=
  orDemand_recollects (P := (Binder.isNative · = true)) hm hb hl id hd.binders rfl .bind

theorem processor_recollects {d : Dispatch} (hd : d.Native) : Gives (d.processor g id) l
    (fun r l' => r.1.isNative = true ∧ Recollects m l') fun _ l' => Recollects m l' :=
  orDemand_recollects (P := (Processor.isNative · = true)) hm hb hl id hd.processors rfl .process

end Dispatch

namespace Compiler

variable {ε α : Type} {m : Graph} {c c' : Compiler} {id : NodeId} {Q : α → Prop}

def TextualChanges (staged : Catalog Change) : Prop :=
  ∀ e ∈ staged.entries, ∀ content ∈ e.2.content?, content.isText = true

structure Textual (c : Compiler) : Prop where
  sources : ∀ e ∈ c.sources.entries, e.2.content.isText = true
  staged : TextualChanges c.staged

/-- Only native handlers and only texts as contents, over the metamodel `m`. -/
structure Operable (m : Graph) (c : Compiler) : Prop where
  native : c.dispatch.Native
  textual : c.Textual
  grounded : c.workspace.Grounded m

structure Booked (c c' : Compiler) : Prop where
  dispatch : c'.dispatch = c.dispatch
  workspace : c'.workspace = c.workspace
  textual : c'.Textual

/-- The steps of the pipeline over a metamodel `m`: what is done to a single node or source, and the
books. Nodes of the metamodel are never unbound. -/
inductive PipelineStep (m : Graph) (c : Compiler) : Compiler → Prop
  | walk (id : NodeId) {r d} : walkNode id c = .ok (r, d) → PipelineStep m c d
  | unbind (removing : Bool) (id : NodeId) {r d} : m.contains id = false →
      unbindNode removing id c = .ok (r, d) → PipelineStep m c d
  | remove (sources : List SourceId) {r d} :
      removeSources sources c = .ok (r, d) → PipelineStep m c d
  | parse (id : SourceId) {r d} : parseSource id c = .ok (r, d) → PipelineStep m c d
  | bind (item : SourceId × NodeId) {r d} : bindNode item c = .ok (r, d) → PipelineStep m c d
  | apply (bindings : List Handler.Binding) {r d} :
      (∀ b ∈ bindings, b.property = "resolvedNode") → applyBindings bindings c = .ok (r, d) →
      PipelineStep m c d
  | warm (items : List (SourceId × NodeId)) {r d} : warmUp items c = .ok (r, d) → PipelineStep m c d
  | schedule (id : NodeId) {r d} : ask (fun d g => d.processor g id) c = .ok (r, d) →
      PipelineStep m c d
  | process (processor : Processor) (id : NodeId) {r d} : processor.isNative = true →
      onWorkspace (processor.run id) c = .ok (r, d) → PipelineStep m c d
  | validate (item : SourceId × NodeId) {r d} :
      validateNode item c = .ok (r, d) → PipelineStep m c d
  | book {d : Compiler} : Booked c d → PipelineStep m c d

section Books

theorem Textual.modifyUnit (h : c.Textual) {f : SourceUnit → SourceUnit}
    (hf : ∀ unit : SourceUnit, unit.content.isText = true → (f unit).content.isText = true)
    (id : SourceId) : Textual { c with sources := c.sources.modify id f } :=
  ⟨Catalog.forall_entries_modify h.sources fun e he => hf e.2 he, h.staged⟩

theorem Textual.stage (h : c.Textual) (id : SourceId) {change : Change}
    (hchange : ∀ content ∈ change.content?, content.isText = true) :
    Textual { c with staged := c.staged.insert id change } :=
  ⟨h.sources, Catalog.forall_entries_insert h.staged hchange⟩

theorem Booked.operable (h : Booked c c') (hc : c.Operable m) : c'.Operable m :=
  ⟨h.dispatch ▸ hc.native, h.textual, h.workspace ▸ hc.grounded⟩

theorem operable_modifyUnit {f : SourceUnit → SourceUnit}
    (hf : ∀ unit : SourceUnit, unit.content.isText = true → (f unit).content.isText = true)
    (id : SourceId) : Maintains (Operable m) (modifyUnit id f : Action Compiler ε Unit) :=
  maintains_modify fun _ hc => ⟨hc.native, hc.textual.modifyUnit hf id, hc.grounded⟩

theorem operable_setState (id : SourceId) (state : SourceState) :
    Maintains (Operable m) (setState id state : Action Compiler ε Unit) :=
  operable_modifyUnit (by simp) id

theorem operable_setDiagnostics (id : SourceId) (diagnostics : List CompileError) :
    Maintains (Operable m) (setDiagnostics id diagnostics : Action Compiler ε Unit) :=
  operable_modifyUnit (by simp) id

theorem operable_advance : Maintains (Operable m) (advance : Action Compiler ε Unit) :=
  maintains_modify fun _ hc => ⟨hc.native, ⟨hc.textual.sources, hc.textual.staged⟩, hc.grounded⟩

end Books

section Steps

theorem operable_onWorkspace {act : Work ε α} (h : Maintains (Workspace.Grounded m) act Q) :
    Maintains (Operable m) (onWorkspace act) Q :=
  maintains_within (fun _ hc => hc.grounded)
    (fun _ _ hc hw => ⟨hc.native, ⟨hc.textual.sources, hc.textual.staged⟩, hw⟩) h

theorem operable_ask {f : Dispatch → Graph → Query α}
    (hf : ∀ d g l, d.Native → Bears m g → Recollects m l →
      Gives (f d g) l (fun a l' => Q a ∧ Recollects m l') fun _ l' => Recollects m l') :
    Maintains (Operable m) (ask f) Q :=
  maintains_bind (maintains_get fun _ hc => hc.native) fun c hc => operable_onWorkspace
    (maintains_ask fun g l hg hl => hf c.dispatch g l hc hg.toBears hl)

theorem operable_onGraph {cause : GraphError → CompileError} {act : Action Graph GraphError α}
    (h : Maintains (Hosts m) act Q) : Maintains (Operable m) (onGraph cause act) Q :=
  operable_onWorkspace (maintains_onGraph h)

theorem operable_checkConsistency : Maintains (Operable m) checkConsistency := by
  refine maintains_get_bind fun c _ => ?_
  split
  · exact maintains_pure trivial
  · exact maintains_throw _

variable (hm : m.Charted)
include hm

theorem operable_walkNode (id : NodeId) : Maintains (Operable m) (walkNode id) := by
  refine maintains_bind (maintains_attempt (Q := fun _ => True) (operable_ask fun _ _ _ _ hg hl =>
    Dispatch.orDefault_recollects hm hg hl id _ _)) fun r _ => ?_
  cases r with
  | error e => exact maintains_pure trivial
  | ok found =>
    exact maintains_bind (operable_onWorkspace (Walker.maintains_run _ _)) fun _ _ =>
      maintains_bind operable_advance fun _ _ => maintains_get_bind fun _ _ =>
        maintains_pure trivial

theorem operable_unbindNode (removing : Bool) (hid : m.contains id = false) :
    Maintains (Operable m) (unbindNode removing id) :=
  maintains_bind (R := fun _ => True) (operable_ask fun _ _ _ _ hg hl =>
    Dispatch.orDefault_recollects hm hg hl id _ _) fun found _ =>
      maintains_bind (operable_onWorkspace (Unbinder.maintains_run hm hid removing found.1))
      fun _ _ => operable_advance

theorem operable_removeSources (sources : List SourceId) :
    Maintains (Operable m) (removeSources sources) := by
  refine maintains_get_bind fun c _ =>
    maintains_when (maintains_discard (operable_onGraph (maintains_removeNodes hm _))) fun _ =>
      maintains_bind (maintains_forM fun id _ => operable_modifyUnit (by simp) id) fun _ _ =>
        maintains_bind (maintains_modify fun c hc => ⟨hc.native, ⟨hc.textual.sources,
          hc.textual.staged⟩, hc.grounded.hosts, hc.grounded.recollects.retainFresh _⟩) fun _ _ =>
          maintains_get_bind fun d _ => ?_
  split
  · exact operable_checkConsistency
  · exact maintains_pure trivial

theorem operable_runDraft (id : SourceId) {content : Content} (hcontent : content.isText = true) :
    Maintains (Operable m) (runDraft id content) := by
  intro c r c' hc hrun
  cases content with
  | script commands => simp [Content.isText] at hcontent
  | text s =>
    rw [runDraft_eq, Content.draft] at hrun
    rcases hdraft : Grammar.draft s ⟨id, c.factories⟩ ⟨c.graph, []⟩ with b | ⟨answer, draft⟩
    · simp [hdraft, Except.map] at hrun
    · rw [hdraft] at hrun
      obtain ⟨-, rfl⟩ := ok_mk_inj hrun
      have hhosts := (Grammar.hosting_draft hm s _ _ _ _ hc.grounded.hosts hdraft).1
      exact ⟨⟨hc.native, ⟨hc.textual.sources, hc.textual.staged⟩, hhosts, hc.grounded.recollects⟩,
        fun _ _ => trivial⟩

theorem operable_parseSource (id : SourceId) : Maintains (Operable m) (parseSource id) := by
  refine maintains_bind (maintains_get fun _ hc => hc.textual) fun c hc => ?_
  split
  · exact maintains_pure trivial
  · rename_i unit hunit
    refine maintains_bind (operable_runDraft hm id
      (hc.sources _ (Catalog.mem_entries_of_find? hunit))) fun answer _ => ?_
    obtain ⟨_ | _, groups⟩ := answer
    · refine maintains_get_bind fun d _ =>
        maintains_when (maintains_discard (operable_onGraph (maintains_removeNodes hm _))) fun _ =>
          maintains_bind (operable_setState _ _) fun _ _ =>
            maintains_bind (operable_setDiagnostics _ _) fun _ _ => ?_
      split
      · exact maintains_throw _
      · exact maintains_pure trivial
    · exact operable_modifyUnit (by simp) id

theorem operable_bindNode (item : SourceId × NodeId) : Maintains (Operable m) (bindNode item)
    fun answer => ∀ bindings, answer.2 = .ok bindings →
      ∀ b ∈ bindings, b.property = "resolvedNode" := by
  refine maintains_bind (maintains_attempt (Q := fun found => Binder.isNative found.1 = true)
    (operable_ask fun _ _ _ hd hg hl => Dispatch.binder_recollects hm hg hl item.2 hd))
      fun r hr => ?_
  cases r with
  | error e =>
    exact maintains_bind (R := fun r => r = .error [e]) (maintains_pure rfl) fun r hr =>
      maintains_bind operable_advance fun _ _ => maintains_pure (by simp [hr])
  | ok found =>
    exact maintains_bind (maintains_attempt
      (operable_onWorkspace (Binder.maintains_run (hr _ rfl) _)))
      fun answer h => maintains_bind operable_advance fun _ _ => maintains_pure h

theorem operable_applyBindings {bindings : List Handler.Binding}
    (h : ∀ b ∈ bindings, b.property = "resolvedNode") :
    Maintains (Operable m) (applyBindings bindings) := by
  refine operable_onWorkspace (maintains_forM fun b hb => maintains_setValues hm ?_ _ _)
  rw [h b hb]
  decide

theorem operable_warmUp (items : List (SourceId × NodeId)) :
    Maintains (Operable m) (warmUp items) := by
  refine maintains_get_bind fun c _ => ?_
  split
  · exact maintains_pure trivial
  · refine maintains_discard (maintains_poolMapM (Q := fun _ => True) (fun item => ?_) _ _ _)
    refine operable_onWorkspace (maintains_inspect fun g hg => ?_)
    have hask := keeps_ancestors hm hg.toBears
    refine keeps_bind (keeps_isInstance hask _ _) fun r => ?_
    split
    · exact keeps_bind (hask _) fun _ => keeps_pure _
    · exact keeps_pure _

theorem operable_processor (id : NodeId) : Maintains (Operable m) (ask fun d g => d.processor g id)
    fun found => found.1.isNative = true :=
  operable_ask fun _ _ _ hd hg hl => Dispatch.processor_recollects hm hg hl id hd

theorem operable_validateNode (item : SourceId × NodeId) :
    Maintains (Operable m) (validateNode item) :=
  maintains_validateNode
    (operable_ask fun _ _ _ _ hg hl => Dispatch.orDefault_recollects hm hg hl item.2 _ _)
    (fun v => operable_onWorkspace (Validator.maintains_run hm v _))
    (fun rule => operable_onWorkspace (VisibilityRule.maintains_run rule _)) operable_advance

theorem PipelineStep.operable (h : PipelineStep m c c') (hc : c.Operable m) : c'.Operable m := by
  cases h with
  | walk id h => exact (operable_walkNode hm id _ _ _ hc h).1
  | unbind removing id hid h => exact (operable_unbindNode hm removing hid _ _ _ hc h).1
  | remove sources h => exact (operable_removeSources hm sources _ _ _ hc h).1
  | parse id h => exact (operable_parseSource hm id _ _ _ hc h).1
  | bind item h => exact (operable_bindNode hm item _ _ _ hc h).1
  | apply bindings hb h => exact (operable_applyBindings hm hb _ _ _ hc h).1
  | warm items h => exact (operable_warmUp hm items _ _ _ hc h).1
  | schedule id h => exact (operable_processor hm id _ _ _ hc h).1
  | process processor id hp h =>
    exact (operable_onWorkspace (Processor.maintains_run hm hp id) _ _ _ hc h).1
  | validate item h => exact (operable_validateNode hm item _ _ _ hc h).1
  | book h => exact h.operable hc

end Steps

end Compiler

end ModelCompiler
