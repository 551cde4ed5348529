import ModelCompiler.Proofs.Handling.Approval
import ModelCompiler.Proofs.Compiling.Entering
import ModelCompiler.Proofs.Compiling.Restoring

/-!
Back-references.
-/

open ModelCompiler.Action ModelCompiler.Graph ModelCompiler.Workspace ModelCompiler.Handler

namespace ModelCompiler

namespace Graph

variable {K : NodeId → Prop} {T : SourceId → Prop} {g g' : Graph} {j m v x : NodeId} {q : String}
  {s : SourceId}

/-- Nothing is kept on other nodes for `x` and its parts. -/
def Unkept (g : Graph) (x : NodeId) : Prop :=
  ∀ v, g.ownerRoot? v = some x → ∀ j, ∀ q ∈ ["specializations", "propertiesFromAssociations"],
    v ∉ g.values j q

theorem Indexed.mem_tree_of_root (hi : g.Indexed) (hx : g.contains x = true)
    (h : g.ownerRoot? v = some x) : v ∈ g.tree x := by
  obtain ⟨l, hl, hroot⟩ := Option.map_eq_some_iff.1 ((ownerRoot?_eq g v).symm.trans h)
  cases l with
  | ephemeral o =>
    obtain rfl : o = x := by simpa using hroot
    exact List.mem_cons_of_mem _ ((hi.owned_iff o v).2 ⟨hl, hx⟩)
  | bootstrap | implicit | persistent =>
    obtain rfl : v = x := by simpa using hroot
    exact List.mem_cons_self

theorem Stripped.unkept (h : Stripped g x) (hr : g.Regular K)
    (hx : g.lifetime? x = some (.persistent s)) : g.Unkept x := by
  intro v hv j q hq hmem
  have hback : g.isBackReference q = true ∧ q ≠ "children" := by
    simp only [List.mem_cons, List.not_mem_nil, or_false] at hq
    rcases hq with rfl | rfl
    · exact ⟨hr.specializations_back, by simp⟩
    · exact ⟨hr.attachments_back, by simp⟩
  exact h.not_kept hr hx hback.1 hback.2 hmem (hr.mem_tree_of_root (contains_of_lifetime? hx) hv)

theorem Trace.sourceOf?_before (ht : g.Tidy K) (hK : CoversMetamodel K)
    (h : Trace K T g g') (hm : g'.sourceOf? m = some s) (hT : ¬ T s) : g.sourceOf? m = some s := by
  obtain ⟨r, hr, htree⟩ := (Trace.tidy hK h ht).sourceOf?_iff_tree.1 hm
  rw [Trace.persistentNodes ht hK h hT] at hr
  refine ht.sourceOf?_iff_tree.2 ⟨r, hr, ?_⟩
  have hun := Trace.untouched ht hK h (sourceOf?_persistent ((ht.persistent_iff s r).1 hr)) hT
  rwa [tree, hun.owned] at htree

end Graph

namespace Compiler

variable {K : NodeId → Prop} {c c₁ d : Compiler} {a : Agenda} {report : CompileReport}
  {j m v x : NodeId} {q : String} {s : SourceId} {e f o t u : NodeId} {unit : SourceUnit}

section Spared

theorem Compiled.severed (h : Compiled K a report c c₁ d) :
    c.graph.Severed (· ∈ a.deleted ++ a.touched) :=
  h.prepared.users

variable (h : Compiled K a report c c₁ d) (hs : c.Ready K) (hK : CoversMetamodel K)
include h hs hK

theorem Compiled.shares :
    Shares (c.graph.Spared (· ∈ a.deleted ++ a.touched)) c.graph d.graph :=
  Trace.shares hs.tidy hK h.trace h.severed

theorem Compiled.kept_le (hv : c.graph.sourceOf? v = some s) (hn : s ∉ a.deleted ++ a.touched)
    (hb : c.graph.isBackReference q = true) (hc : q ≠ "children") :
    (d.graph.values j q).count v ≤ (c.graph.values j q).count v := by
  rw [List.count_eq_length_filter, List.count_eq_length_filter]
  refine (Trace.kept_sublist hs.tidy hK h.trace hb hc fun w hw => ?_).length_le
  obtain rfl : w = v := by simpa using hw
  exact ⟨s, hv, hn⟩

theorem Compiled.kept_eq (hv : c.graph.sourceOf? v = some s) (hn : s ∉ a.deleted ++ a.touched)
    (hb : c.graph.isBackReference q = true) (hc : q ≠ "children")
    (hj : c.graph.Spared (· ∈ a.deleted ++ a.touched) j) :
    (d.graph.values j q).count v = (c.graph.values j q).count v := by
  rw [List.count_eq_length_filter, List.count_eq_length_filter,
    Trace.kept_eq hs.tidy hK h.trace hb hc (fun w hw => ?_) fun _ hw =>
    Trace.stays hs.tidy hK hw hj]
  obtain rfl : w = v := by simpa using hw
  exact ⟨s, hv, hn⟩

end Spared

section Batch

theorem Compiled.mem_batch (h : Compiled K a report c c₁ d) (hm : d.graph.sourceOf? m = some s)
    (hT : s ∈ a.deleted ++ a.touched) : s ∈ a.batch := by
  obtain ⟨r, hr, -⟩ := h.lasts.sane.tidy.sourceOf?_iff_tree.1 hm
  rw [h.phased.persistent] at hr
  obtain ⟨unit, hu⟩ := h.prepared.sane.registered s (List.ne_nil_of_mem hr)
  cases h.prepared.standing s unit hu with
  | parsed hb => exact hb
  | failed _ hst => simp [h.prepared.sane.blank s unit hu hst] at hr
  | kept hn => exact absurd hT hn

theorem Compiled.fate (h : Compiled K a report c c₁ d) (hb : s ∈ a.batch)
    (hx : x ∈ d.graph.persistentNodes s) : ∃ g, g.Tidy K ∧ g.lifetime? x = some (.persistent s) ∧
      g.Unkept x ∧ ((∃ p, Passed K s x p g d.graph) ∨ Calm K x g d.graph ∧
        ∀ unit, d.sources.find? s = some unit → unit.state ≠ .processed ∧
          unit.state ≠ .active) := by
  rw [h.phased.persistent] at hx
  obtain ⟨errors, errors', halt, c₂, c₃, hp⟩ :=
    h.phases.passage (fun s => h.prepared.batch_known) hb
  have hx₂ : c₂.graph.lifetime? x = some (.persistent s) := by
    rw [lifetime?_congr hp.bound.frame]
    exact (h.prepared.sane.tidy.persistent_iff s x).1 hx
  refine ⟨c₂.graph, hp.bound.sane.tidy, hx₂, ?_, ?_⟩
  · have hstripped := (h.prepared.cleared s hb x hx).stripped.unkept h.prepared.sane.tidy.toRegular
      ((h.prepared.sane.tidy.persistent_iff s x).1 hx)
    intro v hv j q hq
    rw [hp.bound.values j q (by rintro rfl; simp at hq)]
    exact hstripped v (by rwa [← ownerRoot?_congr hp.bound.frame]) j q hq
  · rw [hp.graph]
    rcases hp.treated.fate hp.bound.sane (hp.bound.sane.nodup_inState _) hx₂ with
      ⟨-, hpassed⟩ | ⟨hcalm, hhalt⟩
    · exact .inl hpassed
    · refine .inr ⟨hcalm, fun unit hu => ?_⟩
      by_contra hst
      have hfar : unit.state = .processed ∨ unit.state = .active := by
        by_contra hno
        exact hst (not_or.1 hno)
      have hmem := (hp.treated.mem_inState hp.bound h.prepared.settled).1
        (hp.processed s hb unit hu hfar).1
      exact hhalt hmem.1 hmem.2.1 hmem.2.2

theorem Compiled.resolved (h : Compiled K a report c c₁ d) (hb : s ∈ a.batch)
    (hu : d.sources.find? s = some unit) (hst : unit.state = .processed ∨ unit.state = .active)
    (hx : x ∈ d.graph.persistentNodes s)
    (hkind : d.graph.Propertied x) (hp : d.graph.Part x Metamodel.importStub m) :
    d.graph.values m "resolvedNode" ≠ [] := by
  obtain ⟨errors, errors', halt, c₂, c₃, hpass⟩ :=
    h.phases.passage (fun s => h.prepared.batch_known) hb
  have hmem := (hpass.treated.mem_inState hpass.bound h.prepared.settled).1
    (hpass.processed s hb unit hu hst).1
  have hnone := ((hpass.bound.mem_inState hpass.mild h.prepared.settled fun t ht =>
    (h.prepared.batch_known ht).imp fun _ hu => hu.1).1 hmem.1).2
  rw [hpass.graph, hpass.treated.bound]
  -- the stub and its element were there when binding began
  have hworks := h.phased.works
  have ht₁ := h.prepared.sane.tidy
  have hlife := (h.lasts.sane.tidy.persistent_iff s x).1 hx
  have hlast {m : NodeId} (hm : d.graph.Lasting m) : c₁.graph.Lasting m :=
    (Works.lasting_iff hworks ht₁).1 hm
  have hx' := hlast ⟨contains_of_lifetime? hlife, Regular.not_isType_persistent hlife⟩
  have hm' : c₁.graph.Lasting m := hlast ⟨hp.contains, fun ⟨o, ht⟩ =>
    absurd (hp.kind.symm.trans ht.kind) (by decide)⟩
  refine hpass.bound.complete hpass.mild s hb hnone x ?_ ?_ m ?_ ?_
  · rwa [← h.phased.persistent]
  · rwa [Propertied, ← Works.kind hworks ht₁ hx']
  · exact (ht₁.owned_iff x m).2
      ⟨(lifetime?_of_bare (Works.bare hworks ht₁ hm')).symm.trans hp.lifetime, hx'.live⟩
  · rw [isImportStub, ← Works.kind hworks ht₁ hm', hp.kind]
    simp

theorem Compiled.approved (h : Compiled K a report c c₁ d) (hrests : AtRest c) (hb : s ∈ a.batch)
    (hu : d.sources.find? s = some unit) (hst : unit.state = .active)
    (hx : x ∈ d.graph.persistentNodes s) : verdict d.graph x = [] := by
  obtain ⟨_, _, _, _, _, hpass⟩ := h.phases.passage (fun s => h.prepared.batch_known) hb
  have hdiag := (hpass.processed s hb unit hu (.inr hst)).2
  have hnil : unit.diagnostics = [] := by
    cases h.rests hrests hu with
    | unparsed hst' => simp [hst] at hst'
    | pending hst' => simp [hst, SourceState.isPending] at hst'
    | active _ hnil => exact hnil
  exact List.flatMap_eq_nil_iff.1 (hdiag.symm.trans hnil) x hx

end Batch

section Associations

variable {g : Graph}

theorem verdict_of_kind (hr : g.Regular K) {p : Path} {v : Validator}
    (hx : g.classifierPath? x = some p) (hv : coreDispatch.validators.find? p = some v)
    (h : verdict g x = []) : v.verdict g x = [] := by
  rw [verdict, List.append_eq_nil_iff] at h
  rcases ha : Lineage.Query.answer (coreDispatch.validator g x) with e | ⟨w, origin⟩
  · simp [ha] at h
  · have hgives : Lineage.Gives (coreDispatch.validator g x) ∅ (fun r l => r.1 = v ∧ l.Valid g)
        fun e l => (e.blame = .user ∧ ¬ Predefined K) ∧ l.Valid g :=
      Dispatch.orDefault_gives (Q := (· = v)) hr (Lineage.valid_empty g) fun r hf => by
        rw [hf.eq_of_exact hx hv, Option.getD_some]
    obtain ⟨l, rfl, -⟩ := exists_of_answer hgives ha
    simpa [ha] using h.1

theorem declaredType?_isSome (hr : g.Regular K) (hw : g.Whole)
    (hbound : ∀ m, g.Part x Metamodel.importStub m → g.values m "resolvedNode" ≠ [])
    (hp : v ∈ g.values x "properties") : ∃ t, g.declaredType? v = some t := by
  obtain ⟨hpart, -⟩ := (hr.fits x _ v hp).property rfl
  have hnt : ¬ g.IsType v := fun ⟨o, ht⟩ => absurd (hpart.kind.symm.trans ht.kind) (by decide)
  obtain ⟨stub, rest, hstub⟩ := List.exists_cons_of_ne_nil (((hw x).typed v hp).resolve_left id)
  have hmem : stub ∈ g.values v "genericType" := by simp [hstub]
  obtain ⟨o, ho, hs⟩ := ((hr.fits v _ stub hmem).typing (.inl rfl)).resolve_right fun h => hnt h.1
  obtain rfl : x = o := Option.some.inj ((ownerRoot?_part hpart.lifetime).symm.trans ho)
  obtain ⟨t, rest', ht⟩ := List.exists_cons_of_ne_nil (hbound stub hs)
  refine ⟨t, ?_⟩
  simp [declaredType?, value?, hstub, referenced?, hs.isImportStub, ht]

theorem exists_joins (hr : g.Regular K) (hw : g.Whole)
    (hx : g.classifierPath? x = some Metamodel.association)
    (hbound : ∀ m, g.Part x Metamodel.importStub m → g.values m "resolvedNode" ≠ [])
    (h : verdict g x = []) : ∃ a t b u, a ≠ b ∧ Joins g x a t b u := by
  obtain ⟨hlen, hclass⟩ := (Association.validate_eq_nil hr.toClosed hr.issued).1
    (verdict_of_kind (v := .association) hr hx (by decide +kernel) h)
  have hdistinct := (hw x).distinct
  have htypes {p : NodeId} (hp : p ∈ g.values x "properties") :=
    declaredType?_isSome hr hw hbound hp
  rw [Association.ends, List.length_map, List.length_eq_two] at hlen
  obtain ⟨a, b, hvalues⟩ := hlen
  obtain ⟨t, ht⟩ := htypes (p := a) (by simp [hvalues])
  obtain ⟨u, hu⟩ := htypes (p := b) (by simp [hvalues])
  have hends : Association.ends g x = [(a, some t), (b, some u)] := by
    simp [Association.ends, hvalues, ht, hu]
  rw [hends] at hclass
  refine ⟨a, t, b, u, by simpa [hvalues] using hdistinct, hends, ?_, ?_⟩
  · exact hclass (a, some t) (by simp) t rfl
  · exact hclass (b, some u) (by simp) u rfl

end Associations

section Exact

/-- The association `o` leads by its end `e` to `t` and by its end `f` to `u`. -/
def Leads (g : Graph) (o e t f u : NodeId) : Prop :=
  g.classifierPath? o = some Metamodel.association ∧
    Association.ends g o = [(e, some t), (f, some u)]

/-- What is kept on nodes for the sake of others is what these declare. -/
structure Exact (c : Compiler) : Prop where
  specialization : ∀ t x, x ∈ c.graph.values t "specializations" →
    ∃ gs, Lineage.direct c.graph x = .ok gs ∧ t ∈ gs
  specializations : ∀ s unit, c.sources.find? s = some unit →
    unit.state = .processed ∨ unit.state = .active → ∀ x ∈ c.graph.persistentNodes s,
      ∃ gs, Lineage.direct c.graph x = .ok gs ∧
        ∀ t, (c.graph.values t "specializations").count x = gs.count t
  attachment : ∀ t p, p ∈ c.graph.values t "propertiesFromAssociations" →
    ∃ o e u f v, Leads c.graph o e u f v ∧ (p = e ∧ t = v ∨ p = f ∧ t = u)
  attachments : ∀ s unit, c.sources.find? s = some unit → unit.state = .active →
    ∀ o ∈ c.graph.persistentNodes s, c.graph.classifierPath? o = some Metamodel.association →
      ∃ e t f u, Leads c.graph o e t f u ∧
        (c.graph.values u "propertiesFromAssociations").count e = 1 ∧
        (c.graph.values t "propertiesFromAssociations").count f = 1

theorem Leads.part {g : Graph} (h : Leads g o e t f u) (hr : g.Regular K)
    {p : NodeId} (hp : p = e ∨ p = f) : g.Part o Metamodel.property p := by
  have hends : (p, some (if p = e then t else u)) ∈ Association.ends g o := by
    rw [h.2]
    rcases hp with rfl | rfl <;> split <;> simp_all
  exact ((hr.fits o _ p (mem_ends.1 hends).1).property rfl).1

theorem Leads.shares {g g' : Graph} {S : NodeId → Prop} (a : Shares S g g')
    (ho : S o) (h : Leads g o e t f u) : Leads g' o e t f u ∧ S t ∧ S u := by
  have htype {p ty : NodeId} (hp : (p, some ty) ∈ Association.ends g o) : S ty := by
    obtain ⟨hp, hty⟩ := mem_ends.1 hp
    exact a.of_declaredType? (a.closed o ho _ (by decide) p hp) hty
  refine ⟨⟨(a.kind o ho).trans h.1, (a.ends ho).trans h.2⟩, htype (p := e) ?_, htype (p := f) ?_⟩
  · simp [h.2]
  · simp [h.2]

theorem exact_initial (h : c.graph = initial) (hsources : c.sources = ∅) : Exact c := by
  have ht : c.graph.Tidy fun _ => True := h ▸ tidy_initial fun _ _ => trivial
  have hboot {m : NodeId} {l : Lifetime} (hm : c.graph.lifetime? m = some l) : l = .bootstrap := by
    rw [h] at hm
    simpa [hm] using rooted_initial.lifetime? (contains_of_lifetime? hm)
  refine ⟨fun t x hx => ?_, fun s unit hu => ?_, fun t p hp => ?_, fun s unit hu => ?_⟩
  · obtain ⟨⟨s, hs⟩, -⟩ := (ht.fits t _ x hx).specialization rfl
    simpa using hboot hs
  · simp [hsources, Catalog.find?_empty] at hu
  · obtain ⟨o, hpart, -⟩ := (ht.fits t _ p hp).attachment rfl
    simpa using hboot hpart.lifetime
  · simp [hsources, Catalog.find?_empty] at hu

section Batch

variable (h : Compiled K a report c c₁ d) (hb : s ∈ a.batch) (hx : x ∈ d.graph.persistentNodes s)
include h hb hx

theorem Compiled.specializations_of_batch :
    (∃ gs, Lineage.direct d.graph x = .ok gs ∧
      ∀ t, (d.graph.values t "specializations").count x = gs.count t) ∨
    (∀ t, x ∉ d.graph.values t "specializations") ∧
      ∀ unit, d.sources.find? s = some unit → unit.state ≠ .processed ∧ unit.state ≠ .active := by
  obtain ⟨g, ht, hlife, hunkept, hfate⟩ := h.fate hb hx
  have hnone (t : NodeId) : x ∉ g.values t "specializations" :=
    hunkept x (ownerRoot?_persistent hlife) t _ (by simp)
  rcases hfate with ⟨p, hpassed⟩ | ⟨hcalm, hstate⟩
  · exact .inl (hpassed.specializations ht hnone)
  · refine .inr ⟨fun t => ?_, hstate⟩
    have hlast : g.Lasting x := ⟨contains_of_lifetime? hlife, Regular.not_isType_persistent hlife⟩
    rw [← List.count_eq_zero,
      hcalm.kept x hlast (ownerRoot?_persistent hlife) t _ (by simp), List.count_eq_zero]
    exact hnone t

theorem Compiled.attachments_of_batch :
    (∃ e t f u, Joins d.graph x e t f u ∧
      d.graph.classifierPath? x = some Metamodel.association ∧
      ∀ v, d.graph.Lasting v → d.graph.ownerRoot? v = some x → ∀ j,
        (d.graph.values j "propertiesFromAssociations").count v =
          (if j = u then [e] else []).count v + (if j = t then [f] else []).count v) ∨
    (∀ v, d.graph.Lasting v → d.graph.ownerRoot? v = some x → ∀ j,
        v ∉ d.graph.values j "propertiesFromAssociations") ∧
      ((d.graph.classifierPath? x = some Metamodel.association →
          ∀ e t f u, ¬ Joins d.graph x e t f u) ∨
        ∀ unit, d.sources.find? s = some unit → unit.state ≠ .active) := by
  obtain ⟨g, ht, hlife, hunkept, ⟨p, hpassed⟩ | ⟨hcalm, hstate⟩⟩ := h.fate hb hx
  · rcases hpassed.attachments ht fun v _ hv j => hunkept v hv j _ (by simp) with
      ⟨e, t, f, u, hjoins⟩ | ⟨hno, hnone⟩
    · exact .inl ⟨e, t, f, u, hjoins⟩
    · exact .inr ⟨hnone, .inl hno⟩
  · refine .inr ⟨fun v hv hroot j => ?_, .inr fun unit hu => (hstate unit hu).2⟩
    have hv₀ := (Works.lasting_iff hcalm.works ht).1 hv
    have hroot₀ := (hcalm.ownerRoot? ht hv₀).symm.trans hroot
    rw [← List.count_eq_zero, hcalm.kept v hv₀ hroot₀ j _ (by simp), List.count_eq_zero]
    exact hunkept v hroot₀ j _ (by simp)

end Batch

section Step

variable (h : Compiled K a report c c₁ d) (hs : c.Ready K) (hK : CoversMetamodel K)
  (hexact : Exact c)
include h hs hK hexact

theorem Compiled.specialization (hx : x ∈ d.graph.values t "specializations") :
    ∃ gs, Lineage.direct d.graph x = .ok gs ∧ t ∈ gs := by
  have ht := h.lasts.sane.tidy
  obtain ⟨⟨s, hlife⟩, -⟩ := (ht.fits t _ x hx).specialization rfl
  have hsource := sourceOf?_persistent hlife
  by_cases hT : s ∈ a.deleted ++ a.touched
  · rcases h.specializations_of_batch (h.mem_batch hsource hT)
      ((ht.persistent_iff s x).2 hlife) with
      ⟨gs, hgs, hcount⟩ | ⟨hnone, -⟩
    · refine ⟨gs, hgs, List.count_pos_iff.1 ?_⟩
      rw [← hcount t]
      exact List.count_pos_iff.2 hx
    · exact absurd hx (hnone t)
  · -- the element is of a source that the compile does not touch, and its entry is an old one
    have hbefore := Trace.sourceOf?_before hs.tidy hK h.trace hsource hT
    have hold : x ∈ c.graph.values t "specializations" :=
      List.count_pos_iff.1 ((List.count_pos_iff.2 hx).trans_le
        (h.kept_le hs hK hbefore hT hs.tidy.specializations_back (by simp)))
    obtain ⟨gs, hgs, hmem⟩ := hexact.specialization t x hold
    exact ⟨gs, (h.shares hs hK).direct (.inr ⟨s, hbefore, hT⟩) hgs, hmem⟩

theorem Compiled.specializations (hu : d.sources.find? s = some unit)
    (hst : unit.state = .processed ∨ unit.state = .active) (hx : x ∈ d.graph.persistentNodes s) :
    ∃ gs, Lineage.direct d.graph x = .ok gs ∧
      ∀ t, (d.graph.values t "specializations").count x = gs.count t := by
  have ht := h.lasts.sane.tidy
  have hsource := sourceOf?_persistent ((ht.persistent_iff s x).1 hx)
  by_cases hT : s ∈ a.deleted ++ a.touched
  · refine (h.specializations_of_batch (h.mem_batch hsource hT) hx).resolve_right fun hno => ?_
    have := hno.2 unit hu
    simp_all
  · have hbefore := Trace.sourceOf?_before hs.tidy hK h.trace hsource hT
    have hspared : c.graph.Spared (· ∈ a.deleted ++ a.touched) x := .inr ⟨s, hbefore, hT⟩
    have hshares := h.shares hs hK
    rw [h.units hT] at hu
    rw [Trace.persistentNodes hs.tidy hK h.trace hT] at hx
    obtain ⟨gs, hgs, hcount⟩ := hexact.specializations s unit hu hst x hx
    refine ⟨gs, hshares.direct hspared hgs, fun t => ?_⟩
    by_cases ht : t ∈ gs
    · rw [← hcount t]
      exact h.kept_eq hs hK hbefore hT hs.tidy.specializations_back (by simp)
        (hshares.of_direct hspared hgs ht)
    · -- on other nodes there was no entry, and no new one has come
      have hle := h.kept_le (j := t) hs hK hbefore hT hs.tidy.specializations_back (by simp)
      rw [hcount t, List.count_eq_zero.2 ht, Nat.le_zero] at hle
      rw [hle, List.count_eq_zero.2 ht]

theorem Compiled.attachment (hv : v ∈ d.graph.values t "propertiesFromAssociations") :
    ∃ o e u f w, Leads d.graph o e u f w ∧ (v = e ∧ t = w ∨ v = f ∧ t = u) := by
  have ht := h.lasts.sane.tidy
  obtain ⟨o, hpart, -⟩ := (ht.fits t _ v hv).attachment rfl
  obtain ⟨s, hlife⟩ := ht.owner v o hpart.lifetime
  have hsource : d.graph.sourceOf? v = some s :=
    sourceOf?_eq_some_iff.2 (.inr ⟨o, hpart.lifetime, hlife⟩)
  by_cases hT : s ∈ a.deleted ++ a.touched
  · have hlast := ht.lasting_value hv (by simp)
    have hroot := ownerRoot?_part hpart.lifetime
    rcases h.attachments_of_batch (h.mem_batch hsource hT) ((ht.persistent_iff s o).2 hlife) with
      ⟨e, u, f, w, hjoins, hkind, hcount⟩ | ⟨hnone, -⟩
    · refine ⟨o, e, u, f, w, ⟨hkind, hjoins.1⟩, ?_⟩
      have hpos := List.count_pos_iff.2 hv
      rw [hcount v hlast hroot t] at hpos
      rcases Nat.add_pos_iff_pos_or_pos.1 hpos with hfirst | hsecond
      · have hmem := List.count_pos_iff.1 hfirst
        split at hmem
        case isTrue hw => exact .inl ⟨List.mem_singleton.1 hmem, hw⟩
        case isFalse => simp at hmem
      · have hmem := List.count_pos_iff.1 hsecond
        split at hmem
        case isTrue hu => exact .inr ⟨List.mem_singleton.1 hmem, hu⟩
        case isFalse => simp at hmem
    · exact absurd hv (hnone v hlast hroot t)
  · have hbefore := Trace.sourceOf?_before hs.tidy hK h.trace hsource hT
    have hold : v ∈ c.graph.values t "propertiesFromAssociations" :=
      List.count_pos_iff.1 ((List.count_pos_iff.2 hv).trans_le
        (h.kept_le hs hK hbefore hT hs.tidy.attachments_back (by simp)))
    obtain ⟨o', e, u, f, w, hleads, hend⟩ := hexact.attachment t v hold
    -- the association is of the same source as its end
    have hpart' := hleads.part hs.tidy.toRegular (hend.imp (·.1) (·.1))
    obtain ⟨s', hlife'⟩ := hs.tidy.owner v o' hpart'.lifetime
    have hsource' := sourceOf?_eq_some_iff.2 (.inr ⟨o', hpart'.lifetime, hlife'⟩)
    obtain rfl : s' = s := Option.some.inj (hsource'.symm.trans hbefore)
    have hspared : c.graph.Spared (· ∈ a.deleted ++ a.touched) o' :=
      .inr ⟨s', sourceOf?_persistent hlife', hT⟩
    exact ⟨o', e, u, f, w, (hleads.shares (h.shares hs hK) hspared).1, hend⟩

theorem Compiled.attachments (hrests : AtRest c)
    (hu : d.sources.find? s = some unit) (hst : unit.state = .active)
    (hx : x ∈ d.graph.persistentNodes s)
    (hkind : d.graph.classifierPath? x = some Metamodel.association) :
    ∃ e t f u, Leads d.graph x e t f u ∧
      (d.graph.values u "propertiesFromAssociations").count e = 1 ∧
      (d.graph.values t "propertiesFromAssociations").count f = 1 := by
  have ht := h.lasts.sane.tidy
  have hsource := sourceOf?_persistent ((ht.persistent_iff s x).1 hx)
  by_cases hT : s ∈ a.deleted ++ a.touched
  · have hb := h.mem_batch hsource hT
    have hfound := h.approved hrests hb hu hst hx
    obtain ⟨e, t, f, u, hne, hjoins⟩ := exists_joins ht.toRegular h.lasts.sane.whole hkind
      (fun m => h.resolved hb hu (.inr hst) hx (.inr hkind)) hfound
    have hleads : Leads d.graph x e t f u := ⟨hkind, hjoins.1⟩
    rcases h.attachments_of_batch hb hx with ⟨e', t', f', u', hjoins', -, hcount⟩ | ⟨-, hno | hno⟩
    · have heq := hjoins.1.symm.trans hjoins'.1
      simp only [List.cons.injEq, Prod.mk.injEq, Option.some.injEq, and_true] at heq
      obtain ⟨⟨rfl, rfl⟩, rfl, rfl⟩ := heq
      have hlast {p : NodeId} (hp : p = e ∨ p = f) : d.graph.Lasting p ∧
          d.graph.ownerRoot? p = some x := by
        have hpart := hleads.part ht.toRegular hp
        refine ⟨⟨contains_of_lifetime? hpart.lifetime, ?_⟩, ownerRoot?_part hpart.lifetime⟩
        rintro ⟨o, htype⟩
        exact absurd (hpart.kind.symm.trans htype.kind) (by decide)
      obtain ⟨he, hroote⟩ := hlast (.inl rfl)
      obtain ⟨hf, hrootf⟩ := hlast (.inr rfl)
      refine ⟨e, t, f, u, hleads, ?_, ?_⟩
      · rw [hcount e he hroote, if_pos rfl]
        split <;> simp [hne.symm]
      · rw [hcount f hf hrootf, if_pos rfl]
        split <;> simp [hne]
    · exact absurd hjoins (hno hkind e t f u)
    · exact absurd hst (hno unit hu)
  · have hbefore := Trace.sourceOf?_before hs.tidy hK h.trace hsource hT
    have hspared : c.graph.Spared (· ∈ a.deleted ++ a.touched) x := .inr ⟨s, hbefore, hT⟩
    have hshares := h.shares hs hK
    rw [h.units hT] at hu
    rw [Trace.persistentNodes hs.tidy hK h.trace hT] at hx
    rw [hshares.kind x hspared] at hkind
    obtain ⟨e, t, f, u, hleads, he, hf⟩ := hexact.attachments s unit hu hst x hx hkind
    obtain ⟨hleads', hspared_t, hspared_u⟩ := hleads.shares hshares hspared
    have hkept {p j : NodeId} (hp : p = e ∨ p = f)
        (hj : c.graph.Spared (· ∈ a.deleted ++ a.touched) j) :
        (d.graph.values j "propertiesFromAssociations").count p =
          (c.graph.values j "propertiesFromAssociations").count p := by
      refine h.kept_eq hs hK ?_ hT hs.tidy.attachments_back (by simp) hj
      exact sourceOf?_eq_some_iff.2 (.inr ⟨x, (hleads.part hs.tidy.toRegular hp).lifetime,
        (hs.tidy.persistent_iff s x).1 hx⟩)
    exact ⟨e, t, f, u, hleads', (hkept (.inl rfl) hspared_u).trans he,
      (hkept (.inr rfl) hspared_t).trans hf⟩

end Step

/-- In a session in which no compile fails, what is kept on nodes for the sake of others is what
these declare, at all times. -/
theorem back_references_exact (hc : Reached Call.Succeeds c) : Exact c := by
  refine (hc.preserved (K := fun _ => True) (I := fun c => AtRest c ∧ Exact c)
    (fun _ _ => trivial)
    (fun _ _ _ text _ => Content.admissible_any text) (fun _ _ h => h) (fun c hg hsources => ?_)
    (fun c c' ih hg hsources => ?_) fun c c₁ c' a report hs _ ih h => ?_).2
  · exact ⟨fun id unit hu => by simp [hsources, Catalog.find?_empty] at hu,
      exact_initial hg hsources⟩
  · refine ⟨fun id unit hu => ih.1 id unit (hsources ▸ hu), ?_⟩
    obtain ⟨h₁, h₂, h₃, h₄⟩ := ih.2
    rw [← hg] at h₁ h₂ h₃ h₄
    rw [← hsources] at h₂ h₄
    exact ⟨h₁, h₂, h₃, h₄⟩
  · have hK : CoversMetamodel fun _ => True := fun _ _ => trivial
    exact ⟨fun id unit hu => h.rests ih.1 hu,
      fun t x hx => h.specialization hs hK ih.2 hx,
      fun s unit hu hst x hx => h.specializations hs hK ih.2 hu hst hx,
      fun t p hp => h.attachment hs hK ih.2 hp,
      fun s unit hu hst o ho hkind => h.attachments hs hK ih.2 ih.1 hu hst ho hkind⟩

theorem sample_back_references : ∃ c gs e t f u, Reached Call.Succeeds c ∧ Exact c ∧
    c.graph.values 41 "specializations" = [46] ∧ Lineage.direct c.graph 46 = .ok gs ∧ 41 ∈ gs ∧
    Leads c.graph 52 e t f u ∧ (c.graph.values u "propertiesFromAssociations").count e = 1 ∧
    (c.graph.values t "propertiesFromAssociations").count f = 1 := by
  obtain ⟨c₀, report, c, hsession, hcompile, -, -, -, hstate, -, -, -, hspec, hmem, hkind⟩ :=
    sample_compiles
  have hc₀ := Reached.of_session hsession
  have hrun : Call.compile.run c₀ = .ok (.ok (some report), c) := by
    rw [Call.run, run_bind, hcompile]
    rfl
  have hc : Reached Call.Succeeds c := .call hc₀ hrun fun _ => rfl
  have hexact := back_references_exact hc
  obtain ⟨gs, hgs, h41⟩ := hexact.specialization 41 46 (by simp [hspec])
  cases hu : c.sources.find? "ties" with
  | none => simp [stateOf, hu] at hstate
  | some unit =>
    obtain ⟨e, t, f, u, hleads, he, hf⟩ := hexact.attachments "ties" unit hu
      (by simpa [stateOf, hu] using hstate) 52 hmem hkind
    exact ⟨c, gs, e, t, f, u, hc, hexact, hspec, hgs, h41, hleads, he, hf⟩

end Exact

end Compiler

end ModelCompiler
