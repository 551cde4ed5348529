import ModelCompiler.Proofs.Moves
import ModelCompiler.Proofs.Lineage.Answers

/-!
Rules for what handlers do.
-/
open ModelCompiler.Action ModelCompiler.Graph

namespace ModelCompiler

structure Workspace.Orderly (K : NodeId → Prop) (w : Workspace) : Prop where
  tidy : w.graph.Tidy K
  valid : w.lineage.Valid w.graph

structure Workspace.Worked (K R : NodeId → Prop) (w w' : Workspace) : Prop where
  works : Works K R w.graph w'.graph
  orderly : w'.Orderly K

namespace Workspace

variable {K R R' : NodeId → Prop} {u v w : Workspace}

theorem Orderly.worked (h : w.Orderly K) : Worked K R w w :=
  ⟨.refl, h⟩

theorem Worked.trans (a : Worked K R u v) (b : Worked K R v w) : Worked K R u w :=
  ⟨a.works.trans b.works, b.orderly⟩

theorem Orderly.works (h : w.Orderly K) {g : Graph} (hg : Works K R w.graph g) :
    Worked K R w { w with graph := g } :=
  ⟨hg, Works.tidy hg h.tidy, h.valid.ages (Works.ages hg h.tidy)⟩

theorem Orderly.step (h : w.Orderly K) {g : Graph} (hg : Step K R w.graph g) :
    Worked K R w { w with graph := g } :=
  h.works (.single hg)

theorem Worked.step (h : Worked K R u v) {g : Graph} (hg : Step K R v.graph g) :
    Worked K R u { v with graph := g } :=
  h.trans (h.orderly.step hg)

theorem Worked.setValue (h : Worked K R u v) {q : String} {id m x : NodeId} (hid : R id)
    (hq : q ∈ Metamodel.derived) (hback : v.graph.isBackReference q = false)
    (hm : v.graph.ownerRoot? m = some id) (hfit : v.graph.Fits m q x)
    (hlive : v.graph.contains m = true) (hx : v.graph.contains x = true)
    (he : q = "enumeration" → m ∈ v.graph.values x "values") :
    Worked K R u { v with graph := (v.graph.purge m q).link m q x } := by
  have e := frame_purge v.graph m q
  have h₁ := h.step (.purge hq hback ⟨id, hm, hid⟩)
  refine h₁.step (.link hq (hfit.agree (agree_of_frame e m) (agree_of_frame e x)
    (backReferences_congr e)) ?_ ?_ (fun h => ?_) ⟨id, ?_, hid⟩)
  · rwa [contains_congr e]
  · rwa [contains_congr e]
  · rw [values_purge, if_neg fun h' => by simp [h'.2.symm] at h]
    exact he h
  · rw [author?_of_forward (by rwa [isBackReference_congr e]), ownerRoot?_congr e, hm]

end Workspace

namespace Work

open Workspace

variable {K R : NodeId → Prop} {ε α : Type} {w : Workspace} {Q : α → Workspace → Prop}
  {E : ε → Workspace → Prop}

theorem graph_ensures {Q : Graph → Workspace → Prop} (h : Q w.graph w) :
    Ensures (Work.graph : Work ε Graph) w Q E :=
  ensures_of_eq rfl h

theorem inspect_ensures {f : Graph → StateM Lineage α}
    (h : Lineage.Recalls (f w.graph) w.lineage fun a l => Q a { w with lineage := l }) :
    Ensures (inspect f : Work ε α) w Q E :=
  ensures_of_eq rfl h

theorem ask_ensures {f : Graph → Lineage.Query α} {E : CompileError → Workspace → Prop}
    (h : Lineage.Gives (f w.graph) w.lineage (fun a l => Q a { w with lineage := l })
      fun e l => E e { w with lineage := l }) : Ensures (ask f) w Q E := by
  refine ensures_bind (inspect_ensures ?_)
  refine Lineage.Recalls.mono h fun r l hr => ?_
  cases r with
  | ok a => exact ensures_pure hr
  | error e => exact ensures_throw hr

theorem update_ensures {f : Graph → Except Breach Graph} {g : Graph} {Q : Unit → Workspace → Prop}
    (hf : f w.graph = .ok g) (h : Q () { w with graph := g }) :
    Ensures (update f : Work ε Unit) w Q E :=
  ensures_write (by rw [hf]; rfl) h

theorem onGraph_ensures {cause : GraphError → ε} {act : Action Graph GraphError α}
    (h : Ensures act w.graph (fun a g => Q a { w with graph := g })
      fun e g => E (cause e) { w with graph := g }) : Ensures (onGraph cause act) w Q E :=
  ensures_within h

theorem addValue_ensures {id value : NodeId} {q : String} {Q : Unit → Workspace → Prop}
    (hid : w.graph.contains id = true) (hv : w.graph.contains value = true)
    (h : Q () { w with graph := w.graph.link id q value }) :
    Ensures (addValue id q value : Work ε Unit) w Q E :=
  update_ensures (by simp [Graph.addValue, hid, hv]) h

theorem setValues_single {g : Graph} {id value : NodeId} {q : String} (hid : g.contains id = true)
    (hv : g.contains value = true) :
    g.setValues id q [value] = .ok ((g.purge id q).link id q value) := by
  have e := frame_purge g id q
  simp [Graph.setValues, clearProperty_eq hid, bind, Except.bind, Graph.addValue,
    contains_congr e, hid, hv, pure, Except.pure]

theorem setValues_ensures {id value : NodeId} {q : String} {Q : Unit → Workspace → Prop}
    (hid : w.graph.contains id = true) (hv : w.graph.contains value = true)
    (h : Q () { w with graph := (w.graph.purge id q).link id q value }) :
    Ensures (setValues id q [value] : Work ε Unit) w Q E :=
  update_ensures (setValues_single hid hv) h

end Work

end ModelCompiler
