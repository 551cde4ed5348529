import ModelCompiler.Proofs.Lineage.Hosted

/-!
Handlers leave the metamodel in its place.
-/
open ModelCompiler.Action ModelCompiler.Graph

namespace ModelCompiler

namespace Lineage

variable {α β : Type} {I : Lineage → Prop}

def Keeps (I : Lineage → Prop) (q : StateM Lineage α) : Prop :=
  ∀ l, I l → Recalls q l fun _ => I

theorem keeps_pure (a : α) : Keeps I (pure a : StateM Lineage α) :=
  fun _ hl => hl

theorem keeps_bind {q : StateM Lineage β} {f : β → StateM Lineage α} (hq : Keeps I q)
    (hf : ∀ b, Keeps I (f b)) : Keeps I (q >>= f) :=
  fun l hl => recalls_bind ((hq l hl).mono fun b l' hl' => hf b l' hl')

theorem keeps_mapM {f : β → StateM Lineage α} (hf : ∀ b, Keeps I (f b)) :
    ∀ bs : List β, Keeps I (bs.mapM f)
  | [] => keeps_pure _
  | b :: bs => by
    rw [List.mapM_cons]
    exact keeps_bind (hf b) fun _ => keeps_bind (keeps_mapM hf bs) fun _ => keeps_pure _

theorem keeps_run {q : Query α} : Keeps I q.run ↔ ∀ l, I l → Gives q l (fun _ => I) fun _ => I := by
  refine forall₂_congr fun l _ => ?_
  unfold Gives Recalls
  cases (q.run.run l).1 <;> rfl

theorem keeps_run_bind {q : Query β} {f : β → Query α} (hq : Keeps I q.run)
    (hf : ∀ b, Keeps I (f b).run) : Keeps I (q >>= f).run :=
  keeps_run.2 fun l hl => gives_bind ((keeps_run.1 hq l hl).mono
    (fun b l' hl' => keeps_run.1 (hf b) l' hl') fun _ _ hl' => hl')

section Derived

variable {g : Graph} (h : ∀ ty, Keeps I (ancestors g ty).run)
include h

theorem keeps_isInstance (id sup : NodeId) : Keeps I (isInstance g id sup).run := by
  unfold isInstance
  split
  · unfold isSubtype
    split
    · exact keeps_pure _
    · exact keeps_run_bind (h _) fun _ => keeps_pure _
  · exact keeps_pure _

theorem keeps_findProperty (ty : NodeId) (name : String) : Keeps I (findProperty g ty name).run :=
  keeps_run_bind (keeps_run_bind (h ty) fun _ => keeps_pure _) fun _ => keeps_pure _

end Derived

end Lineage

open Lineage

namespace Handler

variable {I : Lineage → Prop} {g : Graph} (h : ∀ ty, Keeps I (ancestors g ty).run) {id : NodeId}
include h

theorem keeps_kindErrors (kind ty : NodeId) (error : CompileError) :
    Keeps I (kindErrors g kind ty error) := by
  refine keeps_bind (keeps_isInstance h ty kind) fun r => ?_
  split <;> exact keeps_pure _

theorem Association.keeps_isClass (ty : NodeId) : Keeps I (isClass g ty).run := by
  unfold isClass
  split
  · exact keeps_isInstance h ty _
  · exact keeps_pure _

theorem Class.keeps_validate : Keeps I (validate g id) := by
  unfold validate
  split
  · exact keeps_pure _
  · rename_i kind _
    refine keeps_bind (keeps_mapM (fun stub => ?_) _) fun _ =>
      keeps_bind (keeps_mapM (fun p => ?_) _) fun _ => keeps_bind (h id) fun _ => keeps_pure _
    · unfold generalizationErrors
      split
      · exact keeps_pure _
      · exact keeps_kindErrors h _ _ _
    · unfold propertyErrors
      dsimp only
      split
      · exact keeps_pure _
      · exact keeps_bind (keeps_kindErrors h _ _ _) fun _ => keeps_pure _

theorem Association.keeps_validate : Keeps I (validate g id) := by
  refine keeps_bind (keeps_mapM (fun e => ?_) _) fun _ => keeps_pure _
  obtain ⟨property, _ | ty⟩ := e
  · exact keeps_pure _
  · refine keeps_bind (keeps_isClass h ty) fun r => ?_
    split <;> exact keeps_pure _

theorem Function.keeps_validate : Keeps I (validate g id) := by
  unfold validate
  split
  · exact keeps_pure _
  · exact keeps_bind (keeps_mapM (fun _ => keeps_kindErrors h _ _ _) _) fun _ => keeps_pure _

end Handler

structure Workspace.Grounded (m : Graph) (w : Workspace) : Prop where
  hosts : Hosts m w.graph
  recollects : Recollects m w.lineage

open Workspace (Grounded)

section Steps

variable {α ε : Type} {m : Graph} {Q : α → Prop}

theorem Lineage.keeps_ancestors {g : Graph} (hm : m.Charted) (hb : Bears m g) (ty : NodeId) :
    Keeps (Recollects m) (ancestors g ty).run :=
  keeps_run.2 fun _ hl => ancestors_recollects hm hb hl ty

theorem maintains_graph : Maintains (Grounded m) (Work.graph : Work ε Graph) (Hosts m) :=
  maintains_get_bind fun _ h => maintains_pure h.hosts

theorem maintains_inspect {f : Graph → StateM Lineage α}
    (hf : ∀ g, Hosts m g → Keeps (Recollects m) (f g)) :
    Maintains (Grounded m) (Work.inspect f : Work ε α) :=
  maintains_get_bind fun w h =>
    maintains_bind (maintains_set ⟨h.hosts, hf w.graph h.hosts w.lineage h.recollects⟩) fun _ _ =>
      maintains_pure trivial

theorem maintains_ask {f : Graph → Query α} (hf : ∀ g l, Hosts m g → Recollects m l →
    Gives (f g) l (fun a l' => Q a ∧ Recollects m l') fun _ l' => Recollects m l') :
    Maintains (Grounded m) (Work.ask f) Q := by
  refine maintains_bind (R := fun r => ∀ a, r = .ok a → Q a) (maintains_bind
    (maintains_get fun _ h => h) fun w h => ?_) fun r hr => ?_
  · have hgives := hf w.graph w.lineage h.hosts h.recollects
    unfold Gives Recalls at hgives
    refine maintains_bind (maintains_set ⟨h.hosts, ?_⟩) fun _ _ => maintains_pure fun a ha => ?_
    · revert hgives
      cases ((f w.graph).run.run w.lineage).1 with
      | error e => exact fun h => h
      | ok a => exact fun h => h.2
    · rw [show ((f w.graph).run.run w.lineage).1 = .ok a from ha] at hgives
      exact hgives.1
  · cases r with
    | error e => exact maintains_throw e
    | ok a => exact maintains_pure (hr a rfl)

theorem maintains_update {f : Graph → Except Breach Graph}
    (hf : ∀ g g', Hosts m g → f g = .ok g' → Hosts m g') :
    Maintains (Grounded m) (Work.update f : Work ε Unit) := by
  refine maintains_write fun w u w' hw hrun => ?_
  cases hg : f w.graph with
  | error b => simp [hg, Except.map] at hrun
  | ok g =>
    rw [hg] at hrun
    obtain ⟨-, rfl⟩ := ok_mk_inj hrun
    exact ⟨hf _ _ hw.hosts hg, hw.recollects⟩

theorem maintains_onGraph {cause : GraphError → ε} {act : Action Graph GraphError α}
    (h : Maintains (Hosts m) act Q) :
    Maintains (Grounded m) (Work.onGraph cause act) Q :=
  maintains_within (fun _ hw => hw.hosts) (fun _ _ hw hg => ⟨hg, hw.recollects⟩) h

theorem maintains_note (text : String) :
    Maintains (Grounded m) (Work.note text : Work ε Unit) :=
  maintains_modify fun _ hw => ⟨hw.hosts, hw.recollects⟩

variable (hm : m.Charted)
include hm

theorem maintains_addValue {p : String} (hp : p ≠ "generalizations") (id value : NodeId) :
    Maintains (Grounded m) (Work.addValue id p value : Work ε Unit) :=
  maintains_update fun _ _ hg h => Request.hosts (r := .addValue id p value) hm hg (.inl hp) h

theorem maintains_setValues {p : String} (hp : p ≠ "generalizations") (id : NodeId)
    (values : List NodeId) :
    Maintains (Grounded m) (Work.setValues id p values : Work ε Unit) :=
  maintains_update fun _ _ hg h => Request.hosts (r := .setValues id p values) hm hg hp h

end Steps

namespace Graph.Hosts

open Handler

variable {m g g' : Graph} {id : NodeId} (hm : m.Charted) (hg : Hosts m g)

theorem foldlM {α : Type} {f : Graph → α → Except Breach Graph} {xs : List α} (hg : Hosts m g)
    (hf : ∀ x ∈ xs, ∀ g g', Hosts m g → f g x = .ok g' → Hosts m g')
    (h : xs.foldlM f g = .ok g') : Hosts m g' := by
  induction xs generalizing g with
  | nil => exact Except.ok.inj h ▸ hg
  | cons x xs ih =>
    obtain ⟨k, hk, h⟩ := exists_of_bind_ok h
    exact ih (hf x List.mem_cons_self g k hg hk) (fun y hy => hf y (List.mem_cons_of_mem _ hy)) h

include hm hg

theorem clearProperty {p : String} (hp : p ≠ "generalizations")
    (h : (g.clearProperty id p).map (·.2) = .ok g') : Hosts m g' :=
  Request.hosts (r := .clearProperty id p) hm hg hp h

theorem removeReferences {refs : List Ref}
    (hrefs : ∀ r ∈ refs, r.2.1 ≠ "generalizations" ∨ m.contains r.2.2 = false)
    (h : Handler.removeReferences g refs = .ok g') : Hosts m g' := by
  refine hg.foldlM (fun ⟨id, p, v⟩ hr k k' hk hrun => ?_) h
  exact Request.hosts (r := .removeValue id p v) hm hk (hrefs _ hr) hrun

theorem not_contains_of_tree (hid : m.contains id = false) {t : NodeId} (ht : t ∈ g.tree id) :
    m.contains t = false := by
  rcases List.mem_cons.1 ht with rfl | ht
  · exact hid
  · exact hg.not_contains_of_lifetime? hm ((hg.owned_iff id t).1 ht).1 (by simp)

theorem not_contains_of_isForeign {own : Option SourceId} {t : NodeId}
    (ht : Handler.isForeign g own t = true) : m.contains t = false := by
  unfold Handler.isForeign at ht
  split at ht
  · rename_i s hs
    rcases sourceOf?_eq_some_iff.1 hs with hl | ⟨o, hl, -⟩
    · exact hg.not_contains_of_lifetime? hm hl (by simp)
    · exact hg.not_contains_of_lifetime? hm hl (by simp)
  · simp at ht

theorem stripReferences (hid : m.contains id = false)
    (h : Handler.stripReferences g id = .ok g') : Hosts m g' := by
  obtain ⟨g₁, h₁, h⟩ := exists_of_bind_ok h
  have hg₁ : Hosts m g₁ := by
    refine hg.removeReferences hm (fun r hr => .inr ?_) h₁
    obtain ⟨u, -, rfl, -, -, ht, -⟩ := mem_heldByOthers hr
    exact hg.not_contains_of_tree hm hid ht
  obtain ⟨g₂, h₂, h⟩ := exists_of_bind_ok h
  have hg₂ : Hosts m g₂ := by
    refine hg₁.removeReferences hm (fun r hr => .inr ?_) h₂
    exact hg₁.not_contains_of_isForeign hm (mem_foreignReferences hg₁.toMirrored hr).2.2.2
  refine hg₂.foldlM (fun x _ k k' hk hrun => ?_) h
  unfold resetStub at hrun
  split at hrun
  · exact hk.clearProperty hm (by decide) hrun
  · split at hrun
    · exact hk.clearProperty hm (by decide) hrun
    · exact Except.ok.inj hrun ▸ hk

end Graph.Hosts

namespace Handler

variable {m : Graph} {id : NodeId} (hm : m.Charted)
include hm

section Processing

theorem Class.maintains_process (id : NodeId) : Maintains (Grounded m) (process id) := by
  refine maintains_bind (R := fun _ => True) (maintains_discard (P := fun _ => True)
    (maintains_ask fun g l hg hl => ?_)) fun _ _ => maintains_bind (R := fun _ => True)
      (maintains_ask fun g l _ hl => gives_of_except ?_) fun gs _ =>
        maintains_forM fun general _ => maintains_addValue hm (by decide) _ _
  · exact (ancestors_recollects hm hg.toBears hl id).imp (fun _ _ h => ⟨trivial, h⟩)
  · cases direct g id with
    | error e => exact hl
    | ok gs => exact ⟨trivial, hl⟩

theorem Association.maintains_process (id : NodeId) :
    Maintains (Grounded m) (process id) := by
  refine maintains_bind maintains_graph fun g _ => ?_
  split
  · refine maintains_bind (R := fun _ => True) (maintains_ask fun g l hg hl => ?_) fun both _ => ?_
    · have hclass (ty : NodeId) := keeps_run.1 (keeps_isClass (keeps_ancestors hm hg.toBears) ty)
      refine gives_bind ((hclass _ l hl).imp fun b l' hl' => ?_)
      cases b with
      | true => exact (hclass _ l' hl').imp (fun _ _ h => ⟨trivial, h⟩)
      | false => exact gives_pure ⟨trivial, hl'⟩
    · split
      · exact maintains_bind (maintains_addValue hm (by decide) _ _) fun _ _ =>
          maintains_addValue hm (by decide) _ _
      · exact maintains_pure trivial
  · exact maintains_pure trivial

theorem Enumeration.maintains_process (id : NodeId) :
    Maintains (Grounded m) (process id) :=
  maintains_bind maintains_graph fun _ _ => maintains_forM fun _ _ =>
    maintains_setValues hm (by decide) _ _

theorem Function.maintains_processExpression (expression : NodeId) :
    Maintains (Grounded m) (processExpression expression) := by
  refine maintains_bind maintains_graph fun g _ => ?_
  split
  · exact maintains_pure trivial
  · split
    · exact maintains_pure trivial
    · refine maintains_bind (maintains_inspect fun g hg =>
        keeps_findProperty (keeps_ancestors hm hg.toBears) _ _) fun r _ => ?_
      split
      · exact maintains_bind (maintains_setValues hm (by decide) _ _) fun _ _ =>
          maintains_pure trivial
      · exact maintains_pure trivial
      · exact maintains_pure trivial

theorem Function.maintains_deriveType (id : NodeId) :
    Maintains (Grounded m) (deriveType id) := by
  refine maintains_bind (R := fun _ => True) (maintains_onGraph ?_) fun c _ =>
    maintains_bind (maintains_onGraph (maintains_createEphemeral hm id _)) fun type _ =>
      maintains_bind maintains_graph fun g _ =>
        maintains_bind (maintains_forM fun _ _ => maintains_addValue hm (by decide) _ _) fun _ _ =>
        ?_
  · refine maintains_get_bind fun g _ => ?_
    unfold orMissing
    split
    · exact maintains_pure trivial
    · exact maintains_throw _
  · split
    · exact maintains_bind (maintains_addValue hm (by decide) _ _) fun _ _ =>
        maintains_setValues hm (by decide) _ _
    · exact maintains_setValues hm (by decide) _ _

theorem Function.maintains_process (id : NodeId) : Maintains (Grounded m) (process id) :=
  maintains_bind maintains_graph fun _ _ => maintains_bind
    (maintains_mapM fun _ _ => maintains_processExpression hm _) fun _ _ =>
      maintains_bind (maintains_deriveType hm id) fun _ _ => maintains_pure trivial

end Processing

section Unbinding

variable (hid : m.contains id = false)
include hid

theorem maintains_strip : Maintains (Grounded m)
    (Work.update fun g => stripReferences g id : Work CompileError Unit) :=
  maintains_update fun _ _ hg h => hg.stripReferences hm hid h

theorem Class.maintains_unbind : Maintains (Grounded m) (unbind id) :=
  maintains_bind (maintains_strip hm hid) fun _ _ =>
    maintains_modify fun _ hw => ⟨hw.hosts, hw.recollects.erase id⟩

theorem Association.maintains_unbind : Maintains (Grounded m) (unbind id) := by
  refine maintains_update fun g g' hg h => ?_
  obtain ⟨k, hk, h⟩ := exists_of_bind_ok h
  refine (hg.removeReferences hm (fun r hr => .inl ?_) hk).stripReferences hm hid h
  simp only [attachments, List.mem_flatMap, List.mem_map, List.mem_filter, decide_eq_true_eq] at hr
  obtain ⟨_, -, u, ⟨-, hu⟩, rfl⟩ := hr
  show u.property ≠ "generalizations"
  rw [hu]
  decide

theorem Enumeration.maintains_unbind : Maintains (Grounded m) (unbind id) := by
  refine maintains_update fun g g' hg h => ?_
  obtain ⟨k, hk, h⟩ := exists_of_bind_ok h
  exact (hg.stripReferences hm hid hk).foldlM
    (fun _ _ _ _ hg h => hg.clearProperty hm (by decide) h) h

theorem Function.maintains_unbind (removing : Bool) :
    Maintains (Grounded m) (unbind removing id) := by
  refine maintains_bind (maintains_strip hm hid) fun _ _ => ?_
  split
  · refine maintains_bind (maintains_write fun w old w' hw h => ?_) fun derived _ => ?_
    · rcases hclear : w.graph.clearProperty id "functionType" with b | ⟨old', g⟩
      · simp [hclear, Except.map] at h
      · rw [hclear] at h
        obtain ⟨-, rfl⟩ := ok_mk_inj h
        exact ⟨hw.hosts.clearProperty hm (p := "functionType") (by decide) (congrArg _ hclear),
          hw.recollects⟩
    · split
      · exact maintains_discard (maintains_onGraph (maintains_removeNodes hm _))
      · exact maintains_pure trivial
  · exact maintains_pure trivial

end Unbinding

section Recipes

omit hm

variable {ε : Type} (r : Recipe)

theorem Recipe.maintains_noteNode (word : String) (id : NodeId) :
    Maintains (Grounded m) (noteNode word id : Work ε Unit) :=
  maintains_bind maintains_graph fun _ _ => maintains_note _

theorem Recipe.maintains_check (word : String) (id : NodeId) :
    Maintains (Grounded m) (r.check word id : Work ε (List CompileError)) := by
  refine maintains_bind maintains_graph fun g _ => ?_
  split
  · exact maintains_bind (maintains_noteNode _ _) fun _ _ => maintains_pure trivial
  · exact maintains_pure trivial
  · exact maintains_pure trivial

theorem Recipe.maintains_unbind (removing : Bool) (id : NodeId) :
    Maintains (Grounded m) (r.unbind removing id) := by
  refine maintains_bind maintains_graph fun g _ => ?_
  split
  · exact maintains_noteNode _ _
  · split
    · exact maintains_throw _
    · exact maintains_pure trivial
  · exact maintains_pure trivial

theorem Recipe.maintains_walk (id : NodeId) :
    Maintains (Grounded m) (r.walk id : Work ε (List NodeId)) :=
  maintains_bind maintains_graph fun _ _ => maintains_when (maintains_noteNode _ _) fun _ =>
    maintains_pure trivial

end Recipes

end Handler

section Phases

variable {ε : Type} {m : Graph} {id : NodeId}

def Binder.isNative : Binder → Bool
  | .recipe _ => false
  | _ => true

def Processor.isNative : Processor → Bool
  | .recipe _ => false
  | _ => true

theorem Handler.property_of_bindElement {g : Graph} {bindings : List Handler.Binding}
    (h : Handler.bindElement g id = .ok bindings) :
    ∀ b ∈ bindings, b.property = "resolvedNode" := by
  unfold Handler.bindElement at h
  dsimp only at h
  split at h
  · intro b hb
    rw [← Except.ok.inj h] at hb
    obtain ⟨⟨stub, answer⟩, -, hb⟩ := List.mem_filterMap.1 hb
    cases answer with
    | error e => simp at hb
    | ok target => exact Option.some.inj hb ▸ rfl
  · simp at h

theorem Binder.maintains_run {binder : Binder} (hnative : binder.isNative = true) (id : NodeId) :
    Maintains (Grounded m) (binder.run id)
      fun bindings => ∀ b ∈ bindings, b.property = "resolvedNode" := by
  cases binder with
  | idle => exact maintains_pure (by simp)
  | element =>
    refine maintains_bind maintains_graph fun g _ => ?_
    split
    · rename_i bindings h
      exact maintains_pure (Handler.property_of_bindElement h)
    · exact maintains_throw _
  | recipe r => simp [isNative] at hnative

theorem Walker.maintains_run (walker : Walker) (id : NodeId) :
    Maintains (Grounded m) (walker.run id : Work ε (List NodeId)) := by
  cases walker with
  | users | class_ => exact maintains_bind maintains_graph fun _ _ => maintains_pure trivial
  | recipe r => exact Handler.Recipe.maintains_walk r id

theorem VisibilityRule.maintains_run (rule : VisibilityRule) (id : NodeId) :
    Maintains (Grounded m) (rule.run id : Work ε (List CompileError)) := by
  cases rule with
  | access => exact maintains_bind maintains_graph fun _ _ => maintains_pure trivial
  | recipe r => exact Handler.Recipe.maintains_check r _ id

variable (hm : m.Charted)
include hm

theorem Processor.maintains_run {processor : Processor} (hnative : processor.isNative = true)
    (id : NodeId) : Maintains (Grounded m) (processor.run id) := by
  have hact : Maintains (Grounded m) (processor.act id) := by
    cases processor with
    | idle => exact maintains_pure trivial
    | class_ =>
      exact maintains_bind (Handler.Class.maintains_process hm id) fun _ _ => maintains_pure trivial
    | association =>
      exact maintains_bind (Handler.Association.maintains_process hm id) fun _ _ =>
        maintains_pure trivial
    | enumeration =>
      exact maintains_bind (Handler.Enumeration.maintains_process hm id) fun _ _ =>
        maintains_pure trivial
    | function => exact Handler.Function.maintains_process hm id
    | recipe r => simp [isNative] at hnative
  refine maintains_bind (maintains_attempt hact) fun r _ => ?_
  split
  · exact maintains_pure trivial
  · exact maintains_throw _
  · exact maintains_throw _

theorem Validator.maintains_run (validator : Validator) (id : NodeId) :
    Maintains (Grounded m) (validator.run id : Work ε (List CompileError)) := by
  have hask (g : Graph) (hg : Hosts m g) (ty : NodeId) := keeps_ancestors hm hg.toBears ty
  unfold Validator.run
  cases validator with
  | idle => exact maintains_pure trivial
  | class_ => exact maintains_inspect fun g hg => Handler.Class.keeps_validate (hask g hg)
  | association =>
    exact maintains_inspect fun g hg => Handler.Association.keeps_validate (hask g hg)
  | enumeration => exact maintains_bind maintains_graph fun _ _ => maintains_pure trivial
  | function => exact maintains_inspect fun g hg => Handler.Function.keeps_validate (hask g hg)
  | recipe r => exact Handler.Recipe.maintains_check r _ id

theorem Unbinder.maintains_run (hid : m.contains id = false) (removing : Bool)
    (unbinder : Unbinder) : Maintains (Grounded m) (unbinder.run removing id) := by
  cases unbinder with
  | strip => exact Handler.maintains_strip hm hid
  | class_ => exact Handler.Class.maintains_unbind hm hid
  | association => exact Handler.Association.maintains_unbind hm hid
  | enumeration => exact Handler.Enumeration.maintains_unbind hm hid
  | function => exact Handler.Function.maintains_unbind hm hid removing
  | recipe r => exact Handler.Recipe.maintains_unbind r removing id

end Phases

end ModelCompiler
