import ModelCompiler.Proofs.Catalogs
import ModelCompiler.Proofs.ForkJoin
import ModelCompiler.Proofs.Lasting
import ModelCompiler.Proofs.Drafting.Texts
import ModelCompiler.Proofs.Compiling.Core

/-!
States of a compiler.
-/
open ModelCompiler.Action ModelCompiler.Graph ModelCompiler.Workspace

namespace ModelCompiler

/-- A text whose elements are of kinds that may be used. -/
def Content.Admissible (K : NodeId → Prop) : Content → Prop
  | .text s => ∀ l ∈ Grammar.lines s, Grammar.Allowed K (Declaration.read (Text.trim l.text))
  | .script _ => False

namespace Compiler

/-- What holds of a compiler at all times. -/
structure Sane (K : NodeId → Prop) (c : Compiler) : Prop where
  dispatch : c.dispatch = coreDispatch
  factories : c.factories = coreFactories
  visibility : c.visibility = [.access]
  orderly : c.workspace.Orderly K
  whole : c.graph.Whole
  sorted : c.sources.Sorted
  contents : ∀ id unit, c.sources.find? id = some unit → unit.content.Admissible K
  registered : ∀ s, c.graph.persistentNodes s ≠ [] → ∃ unit, c.sources.find? s = some unit
  blank : ∀ s unit, c.sources.find? s = some unit → unit.state = .unregistered →
    c.graph.persistentNodes s = []

structure Looked (K : NodeId → Prop) (c c' : Compiler) : Prop where
  sane : c'.Sane K
  graph : c'.graph = c.graph
  sources : c'.sources = c.sources
  staged : c'.staged = c.staged

structure Advanced (K : NodeId → Prop) (T : SourceId → Prop) (c c' : Compiler) : Prop where
  sane : c'.Sane K
  trace : Trace K T c.graph c'.graph
  units : ∀ id, ¬ T id → c'.sources.find? id = c.sources.find? id
  staged : c'.staged = c.staged

def Elements (c : Compiler) (T : SourceId → Prop) (x : NodeId) : Prop :=
  ∃ s, T s ∧ x ∈ c.graph.persistentNodes s

structure Handled (K : NodeId → Prop) (T : SourceId → Prop) (c c' : Compiler) : Prop
    extends Advanced K T c c' where
  works : Works K (c.Elements T) c.graph c'.graph
  persistent : ∀ s, c'.graph.persistentNodes s = c.graph.persistentNodes s

section Relations

variable {K : NodeId → Prop} {T U : SourceId → Prop} {b c d : Compiler}

theorem Sane.tidy (h : c.Sane K) : c.graph.Tidy K :=
  h.orderly.tidy

theorem Sane.looked (h : c.Sane K) : Looked K c c :=
  ⟨h, rfl, rfl, rfl⟩

theorem Looked.trans (h : Looked K b c) (h' : Looked K c d) : Looked K b d :=
  ⟨h'.sane, h'.graph.trans h.graph, h'.sources.trans h.sources, h'.staged.trans h.staged⟩

theorem Sane.advanced (h : c.Sane K) : Advanced K T c c :=
  ⟨h, .refl, fun _ _ => rfl, rfl⟩

theorem Looked.advanced (h : Looked K c d) : Advanced K T c d where
  sane := h.sane
  trace := h.graph ▸ .refl
  units _ _ := by rw [h.sources]
  staged := h.staged

theorem Advanced.trans (h : Advanced K T b c) (h' : Advanced K T c d) : Advanced K T b d where
  sane := h'.sane
  trace := h.trace.trans h'.trace
  units id hid := (h'.units id hid).trans (h.units id hid)
  staged := h'.staged.trans h.staged

theorem Advanced.mono (hTU : ∀ s, T s → U s) (h : Advanced K T c d) : Advanced K U c d where
  sane := h.sane
  trace := Trace.mono hTU h.trace
  units id hid := h.units id fun ht => hid (hTU id ht)
  staged := h.staged

theorem Elements.mono (hTU : ∀ s, T s → U s) {x : NodeId} (h : c.Elements T x) :
    c.Elements U x := by
  obtain ⟨s, hs, hx⟩ := h
  exact ⟨s, hTU s hs, hx⟩

theorem Sane.within (h : c.Sane K) : c.graph.Within (c.Elements T) T := fun x hx => by
  obtain ⟨s, hs, hmem⟩ := hx
  exact ⟨s, hs, (h.tidy.persistent_iff s x).1 hmem⟩

theorem Advanced.handled (h : Advanced K T c d) (hg : d.graph = c.graph) : Handled K T c d where
  toAdvanced := h
  works := hg ▸ .refl
  persistent _ := by rw [hg]

theorem Looked.handled (h : Looked K c d) : Handled K T c d :=
  h.advanced.handled h.graph

theorem Handled.trans (h : Handled K T b c) (h' : Handled K T c d) : Handled K T b d where
  toAdvanced := h.toAdvanced.trans h'.toAdvanced
  works := h.works.trans (Works.mono (fun x hx => by
    obtain ⟨s, hs, hmem⟩ := hx
    exact ⟨s, hs, h.persistent s ▸ hmem⟩) h'.works)
  persistent s := (h'.persistent s).trans (h.persistent s)

theorem Handled.mono (hTU : ∀ s, T s → U s) (h : Handled K T c d) : Handled K U c d where
  toAdvanced := h.toAdvanced.mono hTU
  works := Works.mono (fun _ hx => hx.mono hTU) h.works
  persistent := h.persistent

end Relations

section Changes

variable {K R : NodeId → Prop} {T : SourceId → Prop} {c : Compiler} {id : SourceId}

theorem Sane.remember (h : c.Sane K) {l : Lineage} (hl : l.Valid c.graph) :
    Looked K c { c with workspace := { c.workspace with lineage := l } } :=
  ⟨⟨h.dispatch, h.factories, h.visibility, ⟨h.tidy, hl⟩, h.whole, h.sorted,
    h.contents, h.registered, h.blank⟩, rfl, rfl, rfl⟩

theorem Sane.progress (h : c.Sane K) (meter : Progress) (lines : List String) :
    Looked K c { c with meter := meter, progress := lines } :=
  ⟨⟨h.dispatch, h.factories, h.visibility, h.orderly, h.whole, h.sorted, h.contents, h.registered,
    h.blank⟩, rfl, rfl, rfl⟩

theorem Sane.worked (h : c.Sane K) {w : Workspace} (hw : Worked K R c.workspace w)
    (hR : ∀ x, R x → c.Elements T x) : Handled K T c { c with workspace := w } := by
  have hnodes (s : SourceId) : w.graph.persistentNodes s = c.graph.persistentNodes s :=
    Works.persistentNodes hw.works h.tidy s
  have hworks := Works.mono hR hw.works
  refine ⟨⟨⟨h.dispatch, h.factories, h.visibility, hw.orderly,
    Works.whole hw.works h.tidy h.whole, h.sorted, h.contents, fun s hs => h.registered s ?_,
    fun s unit hu hst => ?_⟩, Works.trace hworks h.tidy h.within, fun _ _ => rfl, rfl⟩,
    hworks, hnodes⟩
  · rwa [← hnodes s]
  · exact (hnodes s).trans (h.blank s unit hu hst)

theorem Sane.modifyUnit (h : c.Sane K) {f : SourceUnit → SourceUnit}
    (hcontent : ∀ unit, c.sources.find? id = some unit → (f unit).content.Admissible K)
    (hblank : ∀ unit, c.sources.find? id = some unit → (f unit).state = .unregistered →
      c.graph.persistentNodes id = []) :
    Advanced K (· = id) c { c with sources := c.sources.modify id f } := by
  have hfind (s : SourceId) := c.sources.find?_modify id f s
  refine ⟨⟨h.dispatch, h.factories, h.visibility, h.orderly, h.whole, h.sorted.modify id f,
    fun s unit hu => ?_, fun s hs => ?_, fun s unit hu hst => ?_⟩, .refl, fun s hs => ?_, rfl⟩
  · rw [hfind] at hu
    split at hu
    · rename_i hs
      subst hs
      obtain ⟨unit', hu', rfl⟩ := Option.map_eq_some_iff.1 hu
      exact hcontent unit' hu'
    · exact h.contents s unit hu
  · obtain ⟨unit, hu⟩ := h.registered s hs
    rw [hfind, hu]
    split
    · exact ⟨_, rfl⟩
    · exact ⟨_, rfl⟩
  · rw [hfind] at hu
    split at hu
    · rename_i hs
      subst hs
      obtain ⟨unit', hu', rfl⟩ := Option.map_eq_some_iff.1 hu
      exact hblank unit' hu' hst
    · exact h.blank s unit hu hst
  · rw [hfind, if_neg hs]

end Changes

section Rules

variable {K : NodeId → Prop} {c : Compiler} {ε α : Type} {Q : α → Compiler → Prop}
  {E : ε → Compiler → Prop}

theorem onWorkspace_ensures {act : Work ε α}
    (h : Ensures act c.workspace (fun a w => Q a { c with workspace := w })
      fun e w => E e { c with workspace := w }) : Ensures (onWorkspace act) c Q E :=
  ensures_within h

theorem ask_ensures (hs : c.Sane K) {f : Dispatch → Graph → Lineage.Query α} {P : α → Prop}
    {F : CompileError → Prop} {E : CompileError → Compiler → Prop}
    (h : Lineage.Gives (f coreDispatch c.graph) c.workspace.lineage
      (fun a l => P a ∧ l.Valid c.graph) fun e l => F e ∧ l.Valid c.graph)
    (hq : ∀ a c', P a → Looked K c c' → Q a c') (he : ∀ e c', F e → Looked K c c' → E e c') :
    Ensures (ask f) c Q E := by
  refine ensures_get_bind ?_
  rw [hs.dispatch]
  refine onWorkspace_ensures (Work.ask_ensures (h.mono (fun a l ha => ?_) fun e l ha => ?_))
  · exact hq a _ ha.1 (hs.remember ha.2)
  · exact he e _ ha.1 (hs.remember ha.2)

theorem advance_ensures (hs : c.Sane K) {Q : Unit → Compiler → Prop}
    (h : ∀ c', Looked K c c' → Q () c') : Ensures (advance : Action Compiler ε Unit) c Q E :=
  ensures_modify (h _ (hs.progress _ _))

theorem startProgress_ensures (hs : c.Sane K) {phase : Phase} {total : Nat}
    {Q : Unit → Compiler → Prop} (h : ∀ c', Looked K c c' → Q () c') :
    Ensures (startProgress phase total : Action Compiler ε Unit) c Q E :=
  ensures_modify (h _ (hs.progress _ _))

end Rules

end Compiler

end ModelCompiler
