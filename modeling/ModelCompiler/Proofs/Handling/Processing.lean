import ModelCompiler.Proofs.Handling.Rules

/-!
What processors write. Each of them takes steps in the name of the element that it is called for,
and fails with errors of the author only.
-/
open ModelCompiler.Action ModelCompiler.Graph ModelCompiler.Workspace

namespace ModelCompiler

namespace Graph

variable {K : NodeId → Prop} {g : Graph} {j v x : NodeId} {s : SourceId}

theorem Named.contains (h : g.Named x) : g.contains x = true := by
  obtain ⟨p, hp⟩ := h.path
  exact contains_of_path? hp

theorem Named.congr {h : Graph} (hn : g.Named x) (e : h.frame = g.frame) : h.Named x :=
  hn.agree (agree_of_frame e x)

namespace Regular

variable (hr : g.Regular K)
include hr

theorem not_ephemeral (hn : g.Named x) (o : NodeId) : g.lifetime? x ≠ some (.ephemeral o) := by
  obtain ⟨p, hp⟩ := hn.path
  exact hr.not_ephemeral_of_path? hp o

theorem not_implicit (hn : g.Named x) : g.lifetime? x ≠ some .implicit := fun h => by
  exact absurd (hr.implicit_package x h) (by simp [hn.package])

theorem named_of_referenced (hv : g.isImportStub v = true ∨ g.Named v)
    (h : g.referenced? v = some x) : g.Named x := by
  unfold referenced? at h
  split at h
  · exact ((hr.fits v _ x (List.mem_of_head? h)).resolvedNode rfl).2
  · rename_i hstub
    obtain rfl := Option.some.inj h
    exact hv.resolve_left hstub

theorem named_general (h : some x ∈ g.generals v) : g.Named x := by
  obtain ⟨stub, hmem, hx⟩ := List.mem_map.1 h
  refine hr.named_of_referenced ?_ hx
  rcases (hr.fits v _ stub hmem).generalization rfl with ⟨hp, -⟩ | hn
  · exact .inl hp.isImportStub
  · exact .inr hn.1

theorem named_type (h : g.declaredType? v = some x) : g.Named x := by
  obtain ⟨stub, hstub, hx⟩ := Option.bind_eq_some_iff.1 h
  exact hr.named_of_referenced ((hr.fits v _ stub (List.mem_of_head? hstub)).refers (.inl rfl)) hx

theorem not_isType_of_named (hn : g.Named x) : ¬ g.IsType x := fun ⟨o, hp⟩ =>
  hr.not_ephemeral hn o hp.lifetime

omit hr in
theorem not_isType_persistent (hx : g.lifetime? x = some (.persistent s)) : ¬ g.IsType x :=
  fun ⟨o, hp⟩ => absurd (hx.symm.trans hp.lifetime) (by simp)

theorem specializations_back : g.isBackReference "specializations" = true :=
  (hr.isBackReference_iff _).2 (by simp)

theorem attachments_back : g.isBackReference "propertiesFromAssociations" = true :=
  (hr.isBackReference_iff _).2 (by simp)

theorem forward {q : String} (h : q ≠ "children") (h' : q ≠ "specializations")
    (h'' : q ≠ "propertiesFromAssociations") : g.isBackReference q = false := by
  rw [← Bool.not_eq_true, hr.isBackReference_iff]
  simp [h, h', h'']

end Regular

section Fits

theorem fits_derived {q : String} (hq : q ∈ Metamodel.derived) (hruled : g.Ruled j q v)
    (himplicit : g.lifetime? v ≠ some .implicit)
    (hshared : g.isBackReference q = true ∨ ∃ s, g.sourceOf? j = some s)
    (htype : g.IsType v → q = "functionType") : g.Fits j q v where
  toRuled := hruled
  implicit h := absurd h himplicit
  shared h := hshared.imp_right fun ⟨s, hs⟩ => by simp [h] at hs
  within h := absurd hq h
  type := htype

theorem ruled_specializations (hv : g.lifetime? v = some (.persistent s)) (hne : j ≠ v)
    (hj : ∀ o, g.lifetime? j ≠ some (.ephemeral o)) : g.Ruled j "specializations" v := by
  constructor <;> intro h <;> first | (simp at h; done) | exact ⟨⟨s, hv⟩, hne, hj⟩

theorem ruled_attachment {o : NodeId} (hv : g.Part o Metamodel.property v) (hne : j ≠ o)
    (hj : ∀ o, g.lifetime? j ≠ some (.ephemeral o)) :
    g.Ruled j "propertiesFromAssociations" v := by
  constructor <;> intro h <;> first | (simp at h; done) | exact ⟨o, hv, hne, hj⟩

theorem ruled_enumeration (hj : g.Part v Metamodel.enum j)
    (hv : g.classifierPath? v = some Metamodel.enumeration) : g.Ruled j "enumeration" v := by
  constructor <;> intro h <;> first | (simp at h; done) | exact ⟨hj, hv⟩

theorem ruled_resolvedProperty {o : NodeId} (hj : g.isPropertyStub j = true)
    (hv : g.Part o Metamodel.property v) : g.Ruled j "resolvedProperty" v := by
  constructor <;> intro h <;> first | (simp at h; done) | exact ⟨hj, o, hv⟩

theorem ruled_resolvedNode (hj : g.isImportStub j = true) (hv : g.Named v) :
    g.Ruled j "resolvedNode" v := by
  constructor <;> intro h <;> first | (simp at h; done) | exact ⟨hj, hv⟩

theorem ruled_functionType (hv : g.Part j Metamodel.functionType v) :
    g.Ruled j "functionType" v := by
  constructor <;> intro h <;> first | (simp at h; done) | exact hv

end Fits

end Graph

namespace Handler

variable {K : NodeId → Prop} {w : Workspace} {id : NodeId} {s : SourceId} {l : Lineage}
  {j t v : NodeId} {p : Processor} {q : String} {w' : Workspace}

structure Wrote (K : NodeId → Prop) (id : NodeId) (w w' : Workspace) : Prop extends
    Worked K (· = id) w w' where
  frame : w'.graph.frame = w.graph.frame

def Alike (g g' : Graph) : Prop :=
  ∀ j, ∀ q ∈ ["resolvedNode", "specializations", "propertiesFromAssociations"],
    g'.values j q = g.values j q

/-- An error of the author, and nothing is written that others would have to take back. -/
structure Failed (K : NodeId → Prop) (id : NodeId) (w : Workspace) (e : CompileError)
    (w' : Workspace) : Prop extends Wrote K id w w' where
  blame : e.blame = .user
  alike : Alike w.graph w'.graph

section Alike

variable {g h k : Graph}

theorem Alike.refl (g : Graph) : Alike g g :=
  fun _ _ _ => rfl

theorem Alike.trans (a : Alike g h) (b : Alike h k) : Alike g k :=
  fun j q hq => (b j q hq).trans (a j q hq)

theorem alike_link (hj : g.contains j = true)
    (hq : q ∉ ["resolvedNode", "specializations", "propertiesFromAssociations"]) :
    Alike g (g.link j q v) := fun i p hp => by
  rw [values_link hj, if_neg]
  rintro ⟨-, rfl⟩
  exact hq hp

theorem alike_purge (hq : q ∉ ["resolvedNode", "specializations", "propertiesFromAssociations"]) :
    Alike g (g.purge j q) := fun i p hp => by
  rw [values_purge, if_neg]
  rintro ⟨-, rfl⟩
  exact hq hp

end Alike

theorem Wrote.step (h : Wrote K id w w') {g : Graph}
    (hg : Step K (· = id) w'.graph g) (e : g.frame = w'.graph.frame) :
    Wrote K id w { w' with graph := g } :=
  ⟨h.toWorked.step hg, e.trans h.frame⟩

theorem Wrote.asked (hw : w.Orderly K) (hl : l.Valid w.graph) :
    Wrote K id w { w with lineage := l } :=
  ⟨⟨.refl, hw.tidy, hl⟩, rfl⟩

theorem Failed.asked (hw : w.Orderly K) (hl : l.Valid w.graph) {e : CompileError}
    (he : e.blame = .user) : Failed K id w e { w with lineage := l } :=
  ⟨.asked hw hl, he, .refl _⟩

section Class

theorem step_specialization (hr : w.graph.Regular K)
    (hid : w.graph.lifetime? id = some (.persistent s)) {general : NodeId}
    (hn : w.graph.Named general) (hne : general ≠ id) :
    Step K (· = id) w.graph (w.graph.link general "specializations" id) := by
  have hq : "specializations" ∈ Metamodel.derived := by simp [Metamodel.derived]
  refine .link hq (fits_derived hq ?_ (by simp [hid]) (.inl hr.specializations_back) ?_)
    hn.contains (contains_of_lifetime? hid) (by simp) ⟨id, ?_, rfl⟩
  · exact ruled_specializations hid hne (hr.not_ephemeral hn)
  · exact fun ht => absurd ht (Regular.not_isType_persistent hid)
  · rw [author?_of_back hr.specializations_back, ownerRoot?_persistent hid]

theorem Class.process_ensures (hw : w.Orderly K)
    (hid : w.graph.lifetime? id = some (.persistent s)) :
    Ensures (Class.process id) w
      (fun _ w' => Wrote K id w w' ∧ ∃ gs, Lineage.direct w.graph id = .ok gs ∧
        ∀ j q, w'.graph.values j q = w.graph.values j q ++
          if q = "specializations" then List.replicate (gs.count j) id else [])
      (Failed K id w) := by
  have hr := hw.tidy.toRegular
  have hlive := contains_of_lifetime? hid
  refine ensures_bind (ensures_discard (Work.ask_ensures ?_))
  refine (Lineage.ancestors_gives hr.toClosed hr.issued hlive hw.valid).mono (fun as l h => ?_)
    fun e l h => .asked hw h.2 h.1
  obtain ⟨has, hl⟩ := h
  obtain ⟨gs, hgs, hmap⟩ | ⟨e, he, -⟩ := Lineage.direct_cases hlive
  · refine ensures_bind (Work.ask_ensures (Lineage.gives_of_except ?_))
    rw [hgs]
    -- the generalizations are named elements other than the class, whatever has been linked so far
    refine Ensures.mono (ensures_forM (I := fun done w' => Wrote K id w w' ∧
        ∀ j q, w'.graph.values j q = w.graph.values j q ++
          if q = "specializations" then List.replicate (done.count j) id else [])
      ⟨.asked hw hl, by simp⟩ fun general hmem done w' h => ?_) (fun _ w' h => ⟨h.1, gs, rfl, h.2⟩)
      fun _ _ h => h
    obtain ⟨h, hvalues⟩ := h
    have hgen : some general ∈ w.graph.generals id := hmap ▸ List.mem_map_of_mem hmem
    have hn := (hr.named_general hgen).congr h.frame
    have hid' : w'.graph.lifetime? id = some (.persistent s) := by rwa [lifetime?_congr h.frame]
    refine Work.addValue_ensures hn.contains (contains_of_lifetime? hid')
      ⟨h.step (step_specialization h.orderly.tidy.toRegular hid' hn (has.general_ne_self hgen))
        (frame_link _ _ _ _), fun j q => ?_⟩
    simp only [values_link hn.contains, hvalues]
    by_cases hq : q = "specializations"
    · by_cases hj : j = general
      · simp [hq, hj, List.replicate_add]
      · simp [hq, hj, Ne.symm hj]
    · simp [hq]
  · obtain ⟨gs, ls, hgs, -⟩ := has
    simp [Lineage.direct_of_generals hlive hgs] at he

end Class

section Association

open Association

variable {g : Graph}

def IsClass (g : Graph) (x : NodeId) : Prop :=
  ∃ kind c, g.lookup Metamodel.class_ = some kind ∧ g.classifier? x = some c ∧
    Lineage.Below g c kind

theorem isClass_gives (hr : g.Regular K) (x : NodeId) (hl : l.Valid g) :
    Lineage.Gives (isClass g x) l (fun b l' => (b = true ↔ IsClass g x) ∧ l'.Valid g)
      fun e l' => e.blame = .user ∧ l'.Valid g := by
  unfold isClass
  cases hk : g.lookup Metamodel.class_ with
  | none => exact Lineage.gives_pure ⟨by simp [IsClass, hk], hl⟩
  | some kind =>
    refine (Lineage.isInstance_gives hr.toClosed hr.issued x kind hl).imp (fun b l' h => ?_)
    refine ⟨h.1.trans ?_, h.2⟩
    simp [IsClass, hk]

theorem not_isClass_of_association (hr : g.Regular K) {x : NodeId}
    (hx : g.classifierPath? x = some Metamodel.association) : ¬ IsClass g x := by
  rintro ⟨kind, c, hk, hc, hbelow⟩
  obtain ⟨c', hc', hpath⟩ := Option.bind_eq_some_iff.1 hx
  obtain rfl : c = c' := Option.some.inj (hc.symm.trans hc')
  have hpk := (hr.lookup_iff _ _).1 hk
  have hboot := (hr.initial_of_landmark hr.toIndexed hpath (by decide +kernel)).2
  rcases hbelow with rfl | ⟨as, has, hmem⟩
  · rw [hpath] at hpk
    exact absurd (Option.some.inj hpk) (by decide +kernel)
  · obtain ⟨bs, hbs, htop⟩ := hr.lineal hboot
    obtain rfl := has.unique hbs
    obtain ⟨p, hp, hpath'⟩ := htop kind hmem
    rw [hpk] at hpath'
    exact absurd (Option.some.inj hpath' ▸ hp) (by decide +kernel)

theorem step_attachment (hr : w.graph.Regular K) {type property : NodeId}
    (hp : w.graph.Part id Metamodel.property property) (hn : w.graph.Named type) (hne : type ≠ id) :
    Step K (· = id) w.graph (w.graph.link type "propertiesFromAssociations" property) := by
  have hq : "propertiesFromAssociations" ∈ Metamodel.derived := by simp [Metamodel.derived]
  refine .link hq (fits_derived hq (ruled_attachment hp hne (hr.not_ephemeral hn))
    (by simp [hp.lifetime]) (.inl hr.attachments_back) ?_) hn.contains
    (contains_of_lifetime? hp.lifetime) (by simp) ⟨id, ?_, rfl⟩
  · rintro ⟨o, ht⟩
    exact absurd (Option.some.inj (hp.kind.symm.trans ht.kind)) (by decide +kernel)
  · rw [author?_of_back hr.attachments_back, ownerRoot?_part hp.lifetime]

theorem mem_ends {p : NodeId} {ty : Option NodeId} :
    (p, ty) ∈ ends g id ↔ p ∈ g.values id "properties" ∧ g.declaredType? p = ty := by
  simp only [ends, List.mem_map, Prod.mk.injEq]
  constructor
  · rintro ⟨q, hq, rfl, rfl⟩
    exact ⟨hq, rfl⟩
  · rintro ⟨hp, rfl⟩
    exact ⟨p, hp, rfl, rfl⟩

def Joins (g : Graph) (id a s b t : NodeId) : Prop :=
  ends g id = [(a, some s), (b, some t)] ∧ IsClass g s ∧ IsClass g t

/-- Each end is attached to the class at the other end, or there are no two such ends. -/
inductive Attached (g : Graph) (id : NodeId) (g' : Graph) : Prop
  | ends {a s b t : NodeId} : Joins g id a s b t →
      (∀ j q, g'.values j q = g.values j q ++ if q = "propertiesFromAssociations" then
        (if j = t then [a] else []) ++ (if j = s then [b] else []) else []) → Attached g id g'
  | none : (∀ a s b t, ¬ Joins g id a s b t) → Alike g g' → Attached g id g'

/-- The ends of an association are attached to classes, never to the association itself: its kind is
found at once, and it is not that of classes. -/
theorem Association.process_ensures (hw : w.Orderly K)
    (hkind : w.graph.classifierPath? id ≠ some Metamodel.class_) :
    Ensures (Association.process id) w
      (fun _ w' => Wrote K id w w' ∧ Attached w.graph id w'.graph) (Failed K id w) := by
  have hr := hw.tidy.toRegular
  refine ensures_bind (Work.graph_ensures ?_)
  split
  · rename_i first firstType second secondType hends
    have hend (p ty : NodeId) (h : (p, some ty) ∈ ends w.graph id) :
        w.graph.Part id Metamodel.property p ∧ w.graph.Named ty ∧
          (IsClass w.graph ty → ty ≠ id) := by
      obtain ⟨hp, hty⟩ := mem_ends.1 h
      have hruled := (hr.fits id _ p hp).property rfl
      refine ⟨hruled.1, hr.named_type hty, ?_⟩
      rintro hclass rfl
      exact not_isClass_of_association hr (hruled.2.resolve_left hkind) hclass
    obtain ⟨hfirst, hfirstType, hfirstNe⟩ := hend first firstType (by simp [hends])
    obtain ⟨hsecond, hsecondType, hsecondNe⟩ := hend second secondType (by simp [hends])
    have hnone {l : Lineage} (hl : l.Valid w.graph)
        (hn : ¬ (IsClass w.graph firstType ∧ IsClass w.graph secondType)) :
        Wrote K id w { w with lineage := l } ∧ Attached w.graph id w.graph := by
      refine ⟨.asked hw hl, .none (fun a s b t h => hn ?_) (.refl _)⟩
      obtain ⟨he, hs, ht⟩ := h
      rw [hends] at he
      simp only [List.cons.injEq, Prod.mk.injEq, Option.some.injEq, and_true] at he
      obtain ⟨⟨-, rfl⟩, -, rfl⟩ := he
      exact ⟨hs, ht⟩
    refine ensures_bind (Work.ask_ensures (Lineage.gives_bind ?_))
    refine (isClass_gives hr firstType hw.valid).mono (fun b l h => ?_)
      fun e l h => .asked hw h.2 h.1
    cases b with
    | false =>
      exact Lineage.gives_pure (ensures_pure (hnone h.2 fun hn => by simpa using h.1.2 hn.1))
    | true =>
      refine (isClass_gives hr secondType h.2).mono (fun b l' h' => ?_)
        fun e l h => .asked hw h.2 h.1
      cases b with
      | false => exact ensures_pure (hnone h'.2 fun hn => by simpa using h'.1.2 hn.2)
      | true =>
        have h₀ : Wrote K id w { w with lineage := l' } := .asked hw h'.2
        have e := frame_link w.graph secondType first "propertiesFromAssociations"
        have h₁ := h₀.step (step_attachment (w := { w with lineage := l' }) hr hfirst
          hsecondType (hsecondNe (h'.1.1 rfl))) e
        refine ensures_bind (Work.addValue_ensures hsecondType.contains
          (contains_of_lifetime? hfirst.lifetime) ?_)
        have hagree (m : NodeId) := agree_of_frame e m
        refine Work.addValue_ensures (hfirstType.congr e).contains
          (contains_of_lifetime? (hsecond.agree (hagree _)).lifetime) ⟨?_, ?_⟩
        · exact h₁.step (step_attachment h₁.orderly.tidy.toRegular (hsecond.agree (hagree _))
            (hfirstType.congr e) (hfirstNe (h.1.1 rfl))) (frame_link _ _ _ _)
        · refine .ends ⟨hends, h.1.1 rfl, h'.1.1 rfl⟩ fun j q => ?_
          simp only [values_link (hfirstType.congr e).contains, values_link hsecondType.contains]
          by_cases hq : q = "propertiesFromAssociations"
          · subst hq
            by_cases hj : j = secondType
            · subst hj
              by_cases hj' : j = firstType
              · subst hj'
                simp
              · simp [hj']
            · by_cases hj' : j = firstType
              · subst hj'
                simp [hj]
              · simp [hj, hj']
          · simp [hq]
  · rename_i hends
    refine ensures_pure ⟨.asked hw hw.valid, .none (fun a s b t h => ?_) (.refl _)⟩
    exact hends a s b t h.1

end Association

section Enumeration

theorem Enumeration.process_ensures (hw : w.Orderly K)
    (hid : w.graph.lifetime? id = some (.persistent s)) :
    Ensures (Enumeration.process id) w
      (fun _ w' => Wrote K id w w' ∧ Alike w.graph w'.graph) (Failed K id w) := by
  have hr := hw.tidy.toRegular
  refine ensures_bind (Work.graph_ensures ?_)
  -- the values themselves do not change while they are led back
  refine Ensures.mono (ensures_forM_invariant
    (I := fun w' => (Wrote K id w w' ∧ Alike w.graph w'.graph) ∧
      w'.graph.values id "values" = w.graph.values id "values")
    ⟨⟨.asked hw hw.valid, .refl _⟩, rfl⟩ fun value hmem w' h => ?_) (fun _ _ h => h.1)
      fun _ _ h => h
  obtain ⟨⟨hwrote, halike⟩, hvalues⟩ := h
  have e := hwrote.frame
  have hr' := hwrote.orderly.tidy.toRegular
  have hruled := (hr'.fits id _ value (hvalues ▸ hmem)).value rfl
  have hid' : w'.graph.lifetime? id = some (.persistent s) := by rwa [lifetime?_congr e]
  have hlive := contains_of_lifetime? hruled.1.lifetime
  have hq : "enumeration" ∈ Metamodel.derived := by simp [Metamodel.derived]
  refine Work.setValues_ensures hlive (contains_of_lifetime? hid') ⟨⟨⟨?_, ?_⟩, ?_⟩, ?_⟩
  · refine hwrote.setValue rfl hq (hr'.forward (by simp) (by simp) (by simp))
      (ownerRoot?_part hruled.1.lifetime) ?_ hlive (contains_of_lifetime? hid') fun _ =>
      hvalues ▸ hmem
    refine fits_derived hq (ruled_enumeration hruled.1 hruled.2) (by simp [hid'])
      (.inr ⟨s, ?_⟩) fun ht => absurd ht (Regular.not_isType_persistent hid')
    exact sourceOf?_eq_some_iff.2 (.inr ⟨id, hruled.1.lifetime, hid'⟩)
  · exact ((frame_link _ _ _ _).trans (frame_purge _ _ _)).trans e
  · refine halike.trans ((alike_purge (by simp)).trans (alike_link ?_ (by simp)))
    rwa [contains_congr (frame_purge _ _ _)]
  · rw [values_link (by rwa [contains_congr (frame_purge _ _ _)]), if_neg (by simp), values_purge,
      if_neg (by simp), hvalues]

end Enumeration

section Function

variable {g : Graph}

theorem part_of_ownProperty (hr : g.Regular K) {ty p : NodeId} {name : String}
    (h : Lineage.ownProperty? g ty name = some p) : ∃ o, g.Part o Metamodel.property p := by
  rcases List.mem_append.1 (List.mem_of_find?_eq_some h) with hp | hp
  · exact ⟨ty, ((hr.fits ty _ p hp).property rfl).1⟩
  · obtain ⟨o, ho, -⟩ := (hr.fits ty _ p hp).attachment rfl
    exact ⟨o, ho⟩

/-- What is kept while the body of a function is processed: all but the bindings of its parts. -/
structure WroteBody (K : NodeId → Prop) (id : NodeId) (w w' : Workspace) : Prop extends
    Wrote K id w w' where
  values : ∀ j q, q ≠ "resolvedProperty" → w'.graph.values j q = w.graph.values j q

theorem WroteBody.alike (h : WroteBody K id w w') : Alike w.graph w'.graph :=
  fun j q hq => h.values j q fun e => by simp [e] at hq

theorem Function.processExpression_ensures (hw : w.Orderly K)
    (hid : w.graph.lifetime? id = some (.persistent s)) {expression : NodeId}
    (he : expression ∈ w.graph.values id "expressionSequence") :
    Ensures (Function.processExpression expression) w
      (fun errors w' => (∀ e ∈ errors, e.blame = .user) ∧ WroteBody K id w w') fun _ _ =>
        False := by
  have hr := hw.tidy.toRegular
  have hasked {l : Lineage} (hl : l.Valid w.graph) : WroteBody K id w { w with lineage := l } :=
    ⟨.asked hw hl, fun _ _ _ => rfl⟩
  refine ensures_bind (Work.graph_ensures ?_)
  split
  · exact ensures_pure ⟨by simp, hasked hw.valid⟩
  · rename_i hstub
    split
    · exact ensures_pure ⟨by simp, hasked hw.valid⟩
    · rename_i receiver hreceiver
      obtain ⟨variable_, -, htype⟩ := Option.bind_eq_some_iff.1 hreceiver
      have hlive := (hr.named_type htype).contains
      refine ensures_bind (Work.inspect_ensures ?_)
      have hfind := Lineage.findProperty_gives hr.toClosed hr.issued hlive
        ((w.graph.name? expression).getD "") hw.valid
      refine Lineage.Recalls.mono hfind fun r l hr' => ?_
      cases r with
      | error e =>
        refine ensures_pure ⟨?_, hasked hr'.2⟩
        simpa using hr'.1
      | ok found =>
        obtain ⟨⟨as, -, hfound⟩, hl⟩ := hr'
        cases found with
        | none =>
          exact ensures_pure ⟨by simp [CompileError.blame], hasked hl⟩
        | some property =>
          obtain ⟨ty, -, hown⟩ := List.exists_of_findSome?_eq_some hfound.symm
          obtain ⟨o, hp⟩ := part_of_ownProperty hr hown
          have hexpr := (hr.fits id _ expression he).expression rfl
          have hlive := contains_of_lifetime? hexpr.lifetime
          have hq : "resolvedProperty" ∈ Metamodel.derived := by simp [Metamodel.derived]
          refine ensures_bind (Work.setValues_ensures hlive (contains_of_lifetime? hp.lifetime)
            (ensures_pure ⟨by simp, ⟨?_, ?_⟩, fun j q hne => ?_⟩))
          · refine (hasked hl).setValue rfl hq
              (hr.forward (by simp) (by simp) (by simp)) (ownerRoot?_part hexpr.lifetime) ?_ hlive
              (contains_of_lifetime? hp.lifetime) (by simp)
            refine fits_derived hq (ruled_resolvedProperty ?_ hp) (by simp [hp.lifetime])
              (.inr ⟨s, ?_⟩) ?_
            · simp [isPropertyStub, hexpr.kind]
            · exact sourceOf?_eq_some_iff.2 (.inr ⟨id, hexpr.lifetime, hid⟩)
            · rintro ⟨o', ht⟩
              exact absurd (Option.some.inj (hp.kind.symm.trans ht.kind)) (by decide +kernel)
          · exact (frame_link _ _ _ _).trans (frame_purge _ _ _)
          · rw [values_link (by rwa [contains_congr (frame_purge _ _ _)]), if_neg fun h => hne h.2,
              values_purge, if_neg fun h => hne h.2]

theorem part_seat (hc : g.Coherent) {spec : NodeSpec} {o o' m : NodeId} {kind : Path} :
    (g.seat spec (.ephemeral o) false).Part o' kind m ↔ g.Part o' kind m ∨
      m = g.fresh ∧ o' = o ∧
        (g.seat spec (.ephemeral o) false).classifierPath? g.fresh = some kind := by
  have hi := hc.toIndexed
  by_cases hm : m = g.fresh
  · subst hm
    have hno : ¬ g.Part o' kind g.fresh := fun hp =>
      hi.ne_fresh (contains_of_lifetime? hp.lifetime) rfl
    constructor
    · intro hp
      have hl := hp.lifetime
      rw [lifetime?_seat _ _ _ hi, if_pos rfl] at hl
      exact .inr ⟨rfl, by simpa using hl.symm, hp.kind⟩
    · rintro (hp | ⟨-, rfl, hk⟩)
      · exact absurd hp hno
      · exact ⟨by rw [lifetime?_seat _ _ _ hi, if_pos rfl], hk⟩
  · constructor
    · intro hp
      have hlive := contains_of_lifetime? hp.lifetime
      simp only [contains_seat _ _ _ hi, hm, decide_false, Bool.false_or] at hlive
      exact .inl (hp.agree (hc.agree_seat spec _ _ hlive).symm)
    · rintro (hp | ⟨h, -⟩)
      · exact hp.agree (hc.agree_seat spec _ _ (contains_of_lifetime? hp.lifetime))
      · exact absurd h hm

/-- One more type, that of the function `id`, under which it is entered. -/
def GainsType (id : NodeId) (g g' : Graph) : Prop :=
  ∃ t, g'.values id "functionType" = [t] ∧
    ∀ o m, g'.Part o Metamodel.functionType m ↔
      g.Part o Metamodel.functionType m ∨ m = t ∧ o = id

theorem step_fill (hr : w.graph.Regular K) (hp : w.graph.Part id Metamodel.functionType t)
    (hid : w.graph.lifetime? id = some (.persistent s)) (hq : q ∈ ["parameters", "returnType"])
    (hn : w.graph.Named v) : Step K (· = id) w.graph (w.graph.link t q v) := by
  refine .fill ⟨id, hp⟩ ⟨id, ownerRoot?_part hp.lifetime, rfl⟩ hq
    { toRuled := ?_, implicit := ?_, shared := ?_, within := ?_, type := ?_ } hn.contains
  · simp only [List.mem_cons, List.not_mem_nil, or_false] at hq
    rcases hq with rfl | rfl
    · constructor <;> intro h <;> simp at h
    · constructor <;> intro h <;> first | (simp at h; done) | exact .inr ⟨⟨id, hp⟩, hn⟩
  · exact fun h => absurd h (hr.not_implicit hn)
  · intro h
    have := sourceOf?_eq_some_iff.2 (.inr ⟨id, hp.lifetime, hid⟩)
    simp [h] at this
  · exact fun _ _ h => absurd ⟨id, hp⟩ h
  · exact fun h => absurd h (hr.not_isType_of_named hn)

theorem enterType_ensures (h : Worked K (· = id) w w')
    (halike : Alike w.graph w'.graph) (hid : w'.graph.lifetime? id = some (.persistent s))
    (hp : w'.graph.Part id Metamodel.functionType t)
    (htypes : ∀ o m, w'.graph.Part o Metamodel.functionType m ↔
      w.graph.Part o Metamodel.functionType m ∨ m = t ∧ o = id)
    {E : CompileError → Workspace → Prop} :
    Ensures (Work.setValues id "functionType" [t]) w'
      (fun _ w'' => Worked K (· = id) w w'' ∧ GainsType id w.graph w''.graph ∧
        Alike w.graph w''.graph) E := by
  have hr := h.orderly.tidy.toRegular
  have hlive := contains_of_lifetime? hid
  have hq : "functionType" ∈ Metamodel.derived := by simp [Metamodel.derived]
  have e : ((w'.graph.purge id "functionType").link id "functionType" t).frame = w'.graph.frame :=
    (frame_link _ _ _ _).trans (frame_purge _ _ _)
  refine Work.setValues_ensures hlive (contains_of_lifetime? hp.lifetime)
    ⟨?_, ⟨t, ?_, fun o m => ?_⟩, ?_⟩
  · exact h.setValue rfl hq (hr.forward (by simp) (by simp) (by simp)) (ownerRoot?_persistent hid)
      (fits_derived hq (ruled_functionType hp) (by simp [hp.lifetime])
        (.inr ⟨s, sourceOf?_persistent hid⟩) fun _ => rfl)
      hlive (contains_of_lifetime? hp.lifetime) (by simp)
  · rw [values_link (by rwa [contains_congr (frame_purge _ _ _)]), if_pos ⟨rfl, rfl⟩, values_purge,
      if_pos ⟨rfl, rfl⟩, List.nil_append]
  · rw [← htypes]
    exact ⟨fun h => h.agree (agree_of_frame e m).symm, fun h => h.agree (agree_of_frame e m)⟩
  · refine halike.trans ((alike_purge (by simp)).trans (alike_link ?_ (by simp)))
    rwa [contains_congr (frame_purge _ _ _)]

theorem Function.deriveType_ensures (hw : w.Orderly K) (hK : CoversMetamodel K)
    (hid : w.graph.lifetime? id = some (.persistent s)) :
    Ensures (Function.deriveType id) w
      (fun _ w' => Worked K (· = id) w w' ∧ GainsType id w.graph w'.graph ∧ Alike w.graph w'.graph)
      fun _ _ => False := by
  have hr := hw.tidy.toRegular
  have hi := hr.toIndexed
  obtain ⟨k, hk, hboot, hpath⟩ := hr.landmark hi
    (show Metamodel.functionType ∈ Metamodel.landmarks by decide +kernel)
  refine ensures_bind (Work.onGraph_ensures (ensures_get_bind ?_))
  simp only [hk]
  refine ensures_pure (ensures_bind (Work.onGraph_ensures
    ((createEphemeral_ensures id).mono (fun t g ht => ?_) fun e g he => ?_)))
  · obtain ⟨root, hroot, -, -, rfl, rfl⟩ := ht
    obtain rfl : id = root := by simpa [ownerRoot?_persistent hid] using hroot
    set g₁ := w.graph.seat { classifier := some k } (.ephemeral id) false with hg₁
    have h₁ : Worked K (· = id) w { w with graph := g₁ } :=
      hw.worked.step (.type rfl hid rfl rfl hpath (hK k hboot))
    have hpart : g₁.Part id Metamodel.functionType w.graph.fresh := by
      refine (part_seat hr.toCoherent).2 (.inr ⟨rfl, rfl, ?_⟩)
      have hne := hi.ne_fresh (contains_of_path? hpath)
      simp [classifierPath?, classifier?_seat _ _ _ hi, path?_seat _ _ _ hi, hne, hpath]
    have hr₁ := h₁.orderly.tidy.toRegular
    have hid₁ : g₁.lifetime? id = some (.persistent s) :=
      (hr.agree_seat _ _ _ (contains_of_lifetime? hid)).lifetime.trans hid
    refine ensures_bind (Work.graph_ensures (ensures_bind ?_))
    have hlive {w' : Workspace} (h : w'.graph.frame = g₁.frame) :
        w'.graph.contains w.graph.fresh = true := by
      rw [contains_congr h]
      exact contains_of_lifetime? hpart.lifetime
    -- filling the type leaves the frame as it is
    let Filling (w' : Workspace) : Prop :=
      Worked K (· = id) w w' ∧ w'.graph.frame = g₁.frame ∧ Alike w.graph w'.graph
    have hfill {w' : Workspace} {q : String} {ty : NodeId} (hq : q ∈ ["parameters", "returnType"])
        (h : Filling w') (hn : g₁.Named ty) :
        Filling { w' with graph := w'.graph.link w.graph.fresh q ty } := by
      obtain ⟨hw', e, halike⟩ := h
      refine ⟨hw'.step (step_fill (s := s) hw'.orderly.tidy.toRegular
        (hpart.agree (agree_of_frame e _)) ?_ hq (hn.congr e)), (frame_link _ _ _ _).trans e,
        halike.trans (alike_link (hlive e) ?_)⟩
      · rwa [lifetime?_congr e]
      · simp only [List.mem_cons, List.not_mem_nil, or_false] at hq
        rcases hq with rfl | rfl <;> simp
    have henter {w' : Workspace} (h : Filling w') :
        Ensures (Work.setValues id "functionType" [w.graph.fresh]) w'
          (fun _ w'' => Worked K (· = id) w w'' ∧ GainsType id w.graph w''.graph ∧
            Alike w.graph w''.graph) fun (_ : CompileError) _ => False := by
      obtain ⟨hw', e, halike⟩ := h
      refine enterType_ensures hw' halike (by rwa [lifetime?_congr e])
        (hpart.agree (agree_of_frame e _)) fun o m => ?_
      have hsame : w'.graph.Part o Metamodel.functionType m ↔ g₁.Part o Metamodel.functionType m :=
        ⟨fun hp => hp.agree (agree_of_frame e m).symm, fun hp => hp.agree (agree_of_frame e m)⟩
      rw [hsame, part_seat hr.toCoherent, and_iff_left hpart.kind]
    refine Ensures.mono (ensures_forM_invariant (I := Filling)
      ⟨h₁, rfl, fun j q _ => values_seat _ _ _ hi j q⟩ fun ty hty w' h => ?_) (fun _ w' h => ?_)
      fun _ _ h => h
    · obtain ⟨p, -, hp⟩ := List.mem_filterMap.1 hty
      have hn := hr₁.named_type hp
      exact Work.addValue_ensures (hlive h.2.1) (hn.congr h.2.1).contains (hfill (by simp) h hn)
    · split
      · rename_i ty hty
        obtain ⟨stub, hstub, href⟩ := Option.bind_eq_some_iff.1 hty
        have hn := hr₁.named_of_referenced
          ((hr₁.fits id _ stub (List.mem_of_head? hstub)).refers (.inr rfl)) href
        exact ensures_bind (Work.addValue_ensures (hlive h.2.1) (hn.congr h.2.1).contains
          (henter (hfill (by simp) h hn)))
      · exact henter h
  · obtain ⟨-, h | ⟨c, hc, hdead⟩ | h⟩ := he
    · exact h rfl
    · obtain rfl := Option.some.inj hc
      simp [contains_of_path? hpath] at hdead
    · simp [contains_of_lifetime? hid] at h

theorem Function.process_ensures (hw : w.Orderly K) (hK : CoversMetamodel K)
    (hid : w.graph.lifetime? id = some (.persistent s)) :
    Ensures (Function.process id) w
      (fun errors w' => (∀ e ∈ errors, e.blame = .user) ∧ Worked K (· = id) w w' ∧
        GainsType id w.graph w'.graph ∧ Alike w.graph w'.graph) fun _ _ => False := by
  refine ensures_bind (Work.graph_ensures (ensures_bind ?_))
  refine Ensures.mono (ensures_mapM
    (I := fun (errors : List (List CompileError)) w' =>
      (∀ es ∈ errors, ∀ e ∈ es, e.blame = .user) ∧ WroteBody K id w w')
    ⟨by simp, .asked hw hw.valid, fun _ _ _ => rfl⟩ fun expression hmem done w' h => ?_)
    (fun errors w' h => ?_) fun _ _ h => h
  · obtain ⟨hdone, h⟩ := h
    have hid' : w'.graph.lifetime? id = some (.persistent s) := by rwa [lifetime?_congr h.frame]
    refine (processExpression_ensures h.orderly hid' ?_).imp (fun es w'' h' => ?_)
    · rwa [h.values _ _ (by simp)]
    · refine ⟨fun fs hfs => ?_, ⟨h.toWorked.trans h'.2.toWorked, h'.2.frame.trans h.frame⟩,
        fun j q hq => (h'.2.values j q hq).trans (h.values j q hq)⟩
      rcases List.mem_append.1 hfs with hfs | hfs
      · exact hdone fs hfs
      · exact List.mem_singleton.1 hfs ▸ h'.1
  · obtain ⟨herrors, h⟩ := h
    have hid' : w'.graph.lifetime? id = some (.persistent s) := by rwa [lifetime?_congr h.frame]
    refine ensures_bind ((deriveType_ensures h.orderly hK hid').imp fun _ w'' h' => ensures_pure
      ⟨fun e he => ?_, h.toWorked.trans h'.1, ?_, h.alike.trans h'.2.2⟩)
    · obtain ⟨es, hes, he⟩ := List.mem_flatten.1 he
      exact herrors es hes e he
    · obtain ⟨t, ht, htypes⟩ := h'.2.1
      refine ⟨t, ht, fun o m => ?_⟩
      rw [htypes]
      have e := agree_of_frame h.frame m
      exact or_congr_left ⟨fun hp => hp.agree e.symm, fun hp => hp.agree e⟩

end Function

section Processor

/-- What a processor of the core leaves behind. Only that of functions makes a node. -/
structure Processed (K : NodeId → Prop) (p : Processor) (id : NodeId) (g g' : Graph) : Prop where
  works : Works K (· = id) g g'
  typed : p = .function → GainsType id g g'
  frame : p ≠ .function → g'.frame = g.frame

inductive Entered (g : Graph) (id : NodeId) (g' : Graph) : Processor → Prop
  | class_ {gs : List NodeId} : Lineage.direct g id = .ok gs →
      (∀ j q, g'.values j q = g.values j q ++
        if q = "specializations" then List.replicate (gs.count j) id else []) →
      Entered g id g' .class_
  | association : Attached g id g' → Entered g id g' .association
  | other {p : Processor} : p ≠ .class_ → p ≠ .association → Alike g g' → Entered g id g' p

structure Suits (g : Graph) (id : NodeId) (p : Processor) : Prop where
  core : ∀ r, p ≠ .recipe r
  class_ : g.classifierPath? id = some Metamodel.class_ → p = .class_
  association : g.classifierPath? id = some Metamodel.association → p = .association

/-- What the processor `p` has left when it was called for `id`. -/
structure RanProcessor (K : NodeId → Prop) (p : Processor) (id : NodeId)
    (w w' : Workspace) : Prop where
  processed : Processed K p id w.graph w'.graph
  orderly : w'.Orderly K

theorem Wrote.ran (h : Wrote K id w w') (hp : p ≠ .function) : RanProcessor K p id w w' :=
  ⟨⟨h.works, fun e => absurd e hp, fun _ => h.frame⟩, h.orderly⟩

theorem Processor.act_ensures (hw : w.Orderly K) (hK : CoversMetamodel K)
    (hid : w.graph.lifetime? id = some (.persistent s)) (hp : Suits w.graph id p) :
    Ensures (p.act id) w
      (fun errors w' => RanProcessor K p id w w' ∧ (∀ e ∈ errors, e.blame = .user) ∧
        (errors = [] → Entered w.graph id w'.graph p) ∧ (errors ≠ [] → Alike w.graph w'.graph))
      fun e w' => RanProcessor K p id w w' ∧ e.blame = .user ∧ Alike w.graph w'.graph := by
  -- all but functions either fail or have no errors
  have hwrite {act : Work CompileError Unit} {Q : Workspace → Prop} (hne : p ≠ .function)
      (hQ : ∀ w', Q w' → Entered w.graph id w'.graph p)
      (h : Ensures act w (fun _ w' => Wrote K id w w' ∧ Q w') (Failed K id w)) :
      Ensures (do act; return ([] : List CompileError)) w
        (fun errors w' => RanProcessor K p id w w' ∧ (∀ e ∈ errors, e.blame = .user) ∧
          (errors = [] → Entered w.graph id w'.graph p) ∧ (errors ≠ [] → Alike w.graph w'.graph))
        fun e w' => RanProcessor K p id w w' ∧ e.blame = .user ∧ Alike w.graph w'.graph :=
    ensures_bind (h.mono
      (fun _ w' h => ensures_pure ⟨h.1.ran hne, by simp, fun _ => hQ w' h.2, by simp⟩)
      fun _ _ h => ⟨h.toWrote.ran hne, h.blame, h.alike⟩)
  cases p with
  | idle =>
    exact ensures_pure ⟨(Wrote.asked hw hw.valid).ran (by simp), by simp,
      fun _ => .other (by simp) (by simp) (.refl _), by simp⟩
  | class_ =>
    refine hwrite (by simp) (fun w' h => ?_) (Class.process_ensures hw hid)
    obtain ⟨gs, hgs, hvalues⟩ := h
    exact .class_ hgs hvalues
  | association =>
    refine hwrite (by simp) (fun w' h => .association h)
      (Association.process_ensures hw fun h => ?_)
    simpa using hp.class_ h
  | enumeration =>
    exact hwrite (by simp) (fun w' h => .other (by simp) (by simp) h)
      (Enumeration.process_ensures hw hid)
  | function =>
    refine (Function.process_ensures hw hK hid).mono (fun errors w' h => ?_) fun _ _ h => h.elim
    obtain ⟨hblame, hworked, htyped, halike⟩ := h
    exact ⟨⟨⟨hworked.works, fun _ => htyped, fun h => absurd rfl h⟩, hworked.orderly⟩, hblame,
      fun _ => .other (by simp) (by simp) halike, fun _ => halike⟩
  | recipe r => exact absurd rfl (hp.core r)

theorem Processor.run_ensures (hw : w.Orderly K) (hK : CoversMetamodel K)
    (hid : w.graph.lifetime? id = some (.persistent s)) (hp : Suits w.graph id p) :
    Ensures (p.run id) w (fun _ w' => RanProcessor K p id w w' ∧ Entered w.graph id w'.graph p)
      fun errors w' => RanProcessor K p id w w' ∧ errors ≠ [] ∧ (∀ e ∈ errors, e.blame = .user) ∧
        Alike w.graph w'.graph := by
  refine ensures_bind (ensures_attempt ((Processor.act_ensures hw hK hid hp).mono
    (fun errors w' h => ?_) fun e w' h => ?_))
  · obtain ⟨hran, hblame, hok, hfail⟩ := h
    cases errors with
    | nil => exact ensures_pure ⟨hran, hok rfl⟩
    | cons e es => exact ensures_throw ⟨hran, by simp, hblame, hfail (by simp)⟩
  · exact ensures_throw ⟨h.1, by simp, by simpa using h.2.1, h.2.2⟩

end Processor

end Handler

end ModelCompiler
