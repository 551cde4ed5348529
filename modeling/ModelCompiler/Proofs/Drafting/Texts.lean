import ModelCompiler.Proofs.Drafting.Parts

/-!
Drafts of texts.
-/
open ModelCompiler.Action ModelCompiler.Graph ModelCompiler.Draft

namespace ModelCompiler.Grammar

section Places

variable {set : Setting} {d : Draft} {l : Line} {α : Type} {E : CompileError → Draft → Prop}

theorem span_ensures {Q : Span → Draft → Prop} (h : ∀ span, Q span d) :
    Ensures (l.span set) d Q E :=
  ensures_run_bind (ensures_run_read (ensures_run_pure (h _)))

theorem spanOf_ensures {Q : Span → Draft → Prop} {piece : Piece} (h : ∀ span, Q span d) :
    Ensures (l.spanOf piece set) d Q E := by
  unfold Line.spanOf
  cases Text.cutAt piece l.text with
  | some cut => exact ensures_run_bind (ensures_run_read (ensures_run_pure (h _)))
  | none => exact span_ensures h

variable {K : NodeId → Prop} {s : SourceId} {g₀ : Graph} {Q : α → Draft → Prop}

theorem fail_ensures {message : String} (hd : Drafted K s g₀ d.graph) :
    Ensures ((l.fail message : Drafting α) set) d Q (Refused K s g₀) :=
  ensures_run_bind (span_ensures fun _ => ensures_run_throw ⟨by simp [CompileError.blame], hd⟩)

theorem demand_ensures {r : Except String α} (hd : Drafted K s g₀ d.graph) (h : ∀ a, Q a d) :
    Ensures (l.demand r set) d Q (Refused K s g₀) := by
  cases r with
  | ok a => exact ensures_run_pure (h a)
  | error message => exact fail_ensures hd

end Places

def Proceeds (K : NodeId → Prop) (s : SourceId) (g₀ : Graph) (set : Setting) (d : Draft)
    (step : Drafting Unit) : Prop :=
  Ensures (step set) d (fun _ d' => Advances K s g₀ d.graph d'.graph) (Refused K s g₀)

section Steps

variable {K : NodeId → Prop} {s : SourceId} {g₀ : Graph} {set : Setting} {d : Draft} {l : Line}

theorem proceeds_forM {α : Type} {f : α → Drafting Unit} {xs : List α} (hd : Drafted K s g₀ d.graph)
    (hf : ∀ a ∈ xs, ∀ d', Advances K s g₀ d.graph d'.graph → Proceeds K s g₀ set d' (f a)) :
    Proceeds K s g₀ set d (xs.forM f) := by
  unfold Proceeds
  rw [run_forM]
  exact ensures_forM_invariant (.refl hd) fun a ha d' hd' =>
    (hf a ha d' hd').imp fun _ _ h => hd'.trans h

variable (hd : Drafted K s g₀ d.graph)
include hd

theorem draftStereotype_proceeds {id : NodeId} (hid : d.graph.sourceOf? id = some s)
    (stereotype : Piece) : Proceeds K s g₀ set d (draftStereotype l id stereotype) := by
  have hadd (path : Path) (hpath : path ∈ Metamodel.landmarks) :
      Proceeds K s g₀ set d (do addValue id "stereotypes" (← known path)) := by
    refine ensures_run_bind ((known_ensures hd).imp fun v d' h => ?_)
    obtain ⟨rfl, hv⟩ := h
    have hr := hd.regular
    obtain ⟨v', hv', hinit, hpv⟩ := hr.landmark hr.toIndexed hpath
    obtain rfl : v' = v := Option.some.inj (hv'.symm.trans hv)
    refine addValue_ensures hd hid (hr.contains hinit) ⟨ruled_of_free (by decide), ?_, ?_, ?_, ?_⟩
      (by decide)
    · simp [hr.lifetime? hinit]
    · exact fun _ => .inr (hr.toRooted.sourceOf? hinit)
    · exact fun _ _ _ => .inl (hr.toRooted.sourceOf? hinit)
    · exact fun h => absurd h (hr.not_isType_of_path hpv)
  unfold draftStereotype
  split
  · exact ensures_run_bind (ensures_run_pure (hadd _ (by simp [Metamodel.landmarks])))
  · exact ensures_run_bind (ensures_run_pure (hadd _ (by simp [Metamodel.landmarks])))
  · exact ensures_run_bind (fail_ensures hd)

variable (hK : CoversMetamodel K)
include hK

theorem draftValue_proceeds {id : NodeId} (hid : d.graph.Element s Metamodel.enumeration id)
    (value : Piece) : Proceeds K s g₀ set d (draftValue l id value) := by
  unfold draftValue
  refine ensures_run_bind (spanOf_ensures fun span => ?_)
  refine ensures_run_bind ((namedPart_ensures hK hd hid.lifetime
    (by simp [Metamodel.landmarks, Metamodel.classifiers]) (by decide) _
    span).imp fun v d' h => ?_)
  obtain ⟨ha, hp, -⟩ := h
  have hid' := ha.element hid
  refine (addOwn_ensures ha.drafted hid'.sourceOf? (hp.sourceOf? hid'.lifetime)
    (hp.not_isType (by decide)) (ruled_values hp hid'.kind) (by decide)).imp
    fun _ _ h => ha.trans h

variable {group owner : NodeId} (hg : d.graph.Element s Metamodel.importGroup group)
include hg

theorem draftGeneral_proceeds (ho : d.graph.Element s Metamodel.class_ owner) (general : Piece) :
    Proceeds K s g₀ set d (draftGeneral l group owner general) := by
  unfold draftGeneral
  refine ensures_run_bind (spanOf_ensures fun span => ?_)
  refine ensures_run_bind ((importStub_ensures hK hd ho.lifetime hg _ span).imp
    fun stub d' h => ?_)
  obtain ⟨ha, hp⟩ := h
  have ho' := ha.element ho
  refine (addOwn_ensures ha.drafted ho'.sourceOf? (hp.sourceOf? ho'.lifetime)
    (hp.not_isType (by decide)) (ruled_generalizations hp ho'.kind) (by decide)).imp
    fun _ _ h => ha.trans h

theorem draftProperty_proceeds {kind : Path}
    (hkind : kind = Metamodel.class_ ∨ kind = Metamodel.association)
    (ho : d.graph.Element s kind owner) (member : Except String Member) :
    Proceeds K s g₀ set d (draftProperty l group owner member) := by
  unfold draftProperty
  refine ensures_run_bind (demand_ensures hd fun m => ?_)
  refine ensures_run_bind (spanOf_ensures fun span => ?_)
  refine ensures_run_bind ((namedPart_ensures hK hd ho.lifetime
    (by simp [Metamodel.landmarks, Metamodel.classifiers]) (by decide) _
    span).imp fun p d₁ h => ?_)
  obtain ⟨a₁, hp, hnew⟩ := h
  have ho₁ := a₁.element ho
  have hkind₁ := hkind.imp (fun h => h ▸ ho₁.kind) fun h => h ▸ ho₁.kind
  have hs₁ := hp.sourceOf? ho₁.lifetime
  refine ensures_run_bind ((link_ensures a₁.drafted ho₁.sourceOf? hp.contains
    (fits_own ho₁.sourceOf? hs₁ (hp.not_isType (by decide)) (ruled_properties hp hkind₁))
    (by decide)).imp fun _ d₂ h₂ => ?_)
  obtain ⟨a₂, hd₂⟩ := h₂
  have ho₂ := a₂.element ho₁
  have hp₂ := a₂.part hp
  refine ensures_run_bind ((addOwn_ensures a₂.drafted (hp₂.sourceOf? ho₂.lifetime) ho₂.sourceOf?
    ho₂.not_isType (ruled_of_free (by decide)) (by decide)).imp fun _ d₃ a₃ => ?_)
  have ho₃ := a₃.element ho₂
  have hp₃ := a₃.part hp₂
  have a₁₃ := a₁.toExtendsDraft.trans (a₂.trans a₃.toExtendsDraft)
  refine ensures_run_bind ((importStub_ensures hK a₃.drafted ho₃.lifetime (a₁₃.element hg) _
    span).imp fun stub d₄ h => ?_)
  obtain ⟨a₄, hstub⟩ := h
  have ho₄ := a₄.element ho₃
  have hp₄ := a₄.part hp₃
  have hs₄ := hp₄.sourceOf? ho₄.lifetime
  refine (link_ensures a₄.drafted hs₄ hstub.contains (fits_own hs₄ (hstub.sourceOf? ho₄.lifetime)
    (hstub.not_isType (by decide)) (ruled_typing (.inl rfl) (ownerRoot?_part hp₄.lifetime) hstub))
    (by decide)).imp (fun _ d₅ h₅ => ?_)
  obtain ⟨a₅, hd₅⟩ := h₅
  -- the property lacks a type until the last step
  refine ⟨a₁₃.trans (a₄.toExtendsDraft.trans a₅), fun P x hx => ?_⟩
  have h₂ : d₂.graph.Complete (fun m => P m ∨ m = p) x := by
    rw [hd₂]
    exact (a₁.complete P x hx).declare ho₁.contains (hnew owner _)
  rw [hd₅]
  exact (a₄.complete _ x (a₃.complete _ x h₂)).type hp₄.contains

theorem draftResult_proceeds (ho : d.graph.lifetime? owner = some (.persistent s))
    (result : Piece) : Proceeds K s g₀ set d (draftResult l group owner result) := by
  unfold draftResult
  refine ensures_run_bind (spanOf_ensures fun span => ?_)
  refine ensures_run_bind ((importStub_ensures hK hd ho hg _ span).imp
    fun stub d' h => ?_)
  obtain ⟨ha, hp⟩ := h
  have ho' := (ha.agree owner (contains_of_lifetime? ho)).lifetime.trans ho
  exact (addOwn_ensures ha.drafted (sourceOf?_persistent ho') (hp.sourceOf? ho')
    (hp.not_isType (by decide)) (ruled_typing (.inr rfl) (ownerRoot?_persistent ho') hp)
    (by decide)).imp
    fun _ _ h => ha.trans h

theorem draftParameter_ensures (ho : d.graph.lifetime? owner = some (.persistent s))
    (member : Except String Member) : Ensures (draftParameter l group owner member set) d
      (fun r d' => Advances K s g₀ d.graph d'.graph ∧
        d'.graph.Part owner Metamodel.variableExpression r.2) (Refused K s g₀) := by
  unfold draftParameter
  refine ensures_run_bind (demand_ensures hd fun m => ?_)
  refine ensures_run_bind (spanOf_ensures fun span => ?_)
  refine ensures_run_bind ((namedPart_ensures hK hd ho
    (by simp [Metamodel.landmarks, Metamodel.classifiers]) (by decide) _
    span).imp fun p d₁ h => ?_)
  obtain ⟨a₁, hp, -⟩ := h
  have ho₁ := (a₁.agree owner (contains_of_lifetime? ho)).lifetime.trans ho
  refine ensures_run_bind ((importStub_ensures hK a₁.drafted ho₁ (a₁.element hg) _
    span).imp fun stub d₂ h => ?_)
  obtain ⟨a₂, hstub⟩ := h
  have ho₂ := (a₂.agree owner (contains_of_lifetime? ho₁)).lifetime.trans ho₁
  have hp₂ := a₂.part hp
  refine ensures_run_bind ((addOwn_ensures a₂.drafted (hp₂.sourceOf? ho₂) (hstub.sourceOf? ho₂)
    (hstub.not_isType (by decide)) (ruled_typing (.inl rfl) (ownerRoot?_part hp₂.lifetime) hstub)
    (by decide)).imp fun _ d₃ a₃ => ?_)
  have ho₃ := (a₃.agree owner (contains_of_lifetime? ho₂)).lifetime.trans ho₂
  have hp₃ := a₃.part hp₂
  refine ensures_run_bind ((addOwn_ensures a₃.drafted (sourceOf?_persistent ho₃)
    (hp₃.sourceOf? ho₃) (hp₃.not_isType (by decide)) (ruled_of_free (by decide))
    (by decide)).imp fun _ d₄ a₄ => ?_)
  exact ensures_run_pure ⟨a₁.trans (a₂.trans (a₃.trans a₄)), a₄.part hp₃⟩

omit hg in
theorem draftProjection_proceeds (ho : d.graph.lifetime? owner = some (.persistent s))
    {scope : List (Piece × NodeId)}
    (hscope : ∀ x ∈ scope, d.graph.Part owner Metamodel.variableExpression x.2)
    (projection : Except String Projection) :
    Proceeds K s g₀ set d (draftProjection l scope owner projection) := by
  unfold draftProjection
  refine ensures_run_bind (demand_ensures hd fun a => ?_)
  cases hl : scope.lookup a.receiver with
  | none => exact fail_ensures hd
  | some receiver =>
    have hrec : d.graph.Part owner Metamodel.variableExpression receiver := by
      obtain ⟨l₁, l₂, rfl, -⟩ := List.lookup_eq_some_iff.1 hl
      exact hscope (a.receiver, receiver) (by simp)
    refine ensures_run_bind (spanOf_ensures fun span => ?_)
    refine ensures_run_bind ((propertyStub_ensures hK hd ho hrec _ span).imp
      fun stub d' h => ?_)
    obtain ⟨ha, hp⟩ := h
    have ho' := (ha.agree owner (contains_of_lifetime? ho)).lifetime.trans ho
    exact (addOwn_ensures ha.drafted (sourceOf?_persistent ho') (hp.sourceOf? ho')
      (hp.not_isType (by decide)) (ruled_expression hp) (by decide)).imp
      fun _ _ h => ha.trans h

def Allowed (K : NodeId → Prop) (decl : Declaration) : Prop :=
  ∀ classifier path, decl = .element classifier path →
    ∀ kind, Path.parse (String.ofList classifier) = .ok kind → Admits K kind

omit hd hK hg in
theorem draftProperties_proceeds (hd : Drafted K s g₀ d.graph) (hK : CoversMetamodel K)
    (hg : d.graph.Element s Metamodel.importGroup group) {kind : Path}
    (hkind : kind = Metamodel.class_ ∨ kind = Metamodel.association)
    (ho : d.graph.Element s kind owner) (members : List (Except String Member)) :
    Proceeds K s g₀ set d (members.forM (draftProperty l group owner)) :=
  proceeds_forM hd fun m _ _ a =>
    draftProperty_proceeds a.drafted hK (a.element hg) hkind (a.element ho) m

theorem element_proceeds (hset : PlainSetting s set) {kind : Path}
    (hkind : kind ∈ Metamodel.landmarks) (path : String) {next : NodeId → Drafting Unit}
    (hnext : ∀ id d', Advances K s g₀ d.graph d'.graph → d'.graph.Element s kind id →
      d'.graph.Element s Metamodel.importGroup group → Proceeds K s g₀ set d' (next id)) :
    Proceeds K s g₀ set d (do next (← Draft.element kind path (← l.span))) := by
  refine ensures_run_bind (span_ensures fun span => ?_)
  refine ensures_run_bind ((element_ensures hK hset hd (admits_landmark hK hkind) path span).imp
    fun id d' h => ?_)
  exact (hnext id d' h.1 h.2 (h.1.element hg)).imp fun _ _ a => h.1.trans a

theorem draftParameters_ensures (ho : d.graph.lifetime? owner = some (.persistent s))
    (members : List (Except String Member)) :
    Ensures (members.mapM (draftParameter l group owner) set) d
      (fun scope d' => Advances K s g₀ d.graph d'.graph ∧
        ∀ x ∈ scope, d'.graph.Part owner Metamodel.variableExpression x.2) (Refused K s g₀) := by
  rw [run_mapM]
  refine ensures_mapM ⟨.refl hd, by simp⟩ fun m _ scope d' h => ?_
  obtain ⟨a, hscope⟩ := h
  have ho' := (a.agree owner (contains_of_lifetime? ho)).lifetime.trans ho
  refine (draftParameter_ensures a.drafted hK (a.element hg) ho' m).imp (fun r d'' h => ?_)
  refine ⟨a.trans h.1, fun x hx => ?_⟩
  rcases List.mem_append.1 hx with hx | hx
  · exact h.1.part (hscope x hx)
  · obtain rfl := List.mem_singleton.1 hx
    exact h.2

theorem draftDeclaration_proceeds (hset : PlainSetting s set) {decl : Declaration}
    (hallowed : Allowed K decl) : Proceeds K s g₀ set d (draftDeclaration l group decl) := by
  cases decl with
  | imported package =>
    refine ensures_run_bind (spanOf_ensures fun span => ensures_run_discard ?_)
    exact addImport_ensures hK hd hg _ span
  | class_ path stereotypes generals properties =>
    refine element_proceeds hd hK hg hset (by decide) _ fun id d₁ a₁ he hg₁ => ?_
    refine ensures_run_bind ((proceeds_forM a₁.drafted fun m _ _ a =>
      draftStereotype_proceeds a.drafted (a.element he).sourceOf? m).imp
      fun _ d₂ a₂ => ?_)
    refine ensures_run_bind ((proceeds_forM a₂.drafted fun m _ _ a =>
      draftGeneral_proceeds a.drafted hK ((a₂.trans a).element hg₁)
        ((a₂.trans a).element he) m).imp fun _ d₃ a₃ => ?_)
    exact (draftProperties_proceeds a₃.drafted hK ((a₂.trans a₃).element hg₁) (.inl rfl)
      ((a₂.trans a₃).element he) properties).imp (fun _ _ a₄ => a₂.trans (a₃.trans a₄))
  | association path properties =>
    refine element_proceeds hd hK hg hset (by decide) _ fun id d₁ a₁ he hg₁ => ?_
    exact draftProperties_proceeds a₁.drafted hK hg₁ (.inr rfl) he properties
  | enumeration path values =>
    refine element_proceeds hd hK hg hset (by decide) _ fun id d₁ a₁ he _ => ?_
    exact proceeds_forM a₁.drafted fun m _ _ a =>
      draftValue_proceeds a.drafted hK (a.element he) m
  | function path parameters result body =>
    refine element_proceeds hd hK hg hset (by decide) _ fun id d₁ a₁ he hg₁ => ?_
    refine ensures_run_bind ((draftParameters_ensures a₁.drafted hK hg₁ he.lifetime
      parameters).imp fun scope d₂ h => ?_)
    obtain ⟨a₂, hscope⟩ := h
    have hresult : Proceeds K s g₀ set d₂ (result.forM (draftResult l group id)) := by
      cases result with
      | none => exact ensures_run_pure (.refl a₂.drafted)
      | some result =>
        exact draftResult_proceeds a₂.drafted hK (a₂.element hg₁) (a₂.element he).lifetime result
    refine ensures_run_bind (hresult.imp fun _ d₃ a₃ => ?_)
    exact (proceeds_forM a₃.drafted fun m _ _ a =>
      draftProjection_proceeds a.drafted hK ((a₂.trans (a₃.trans a)).element he).lifetime
        (fun x hx => (a₃.trans a).part (hscope x hx)) m).imp
      (fun _ _ a₄ => a₂.trans (a₃.trans a₄))
  | element classifier path =>
    refine ensures_run_bind (span_ensures fun span => ensures_run_discard ?_)
    unfold elementNamed
    cases hkind : Path.parse (String.ofList classifier) with
    | error e => exact ensures_run_throw ⟨by simp [CompileError.blame], hd⟩
    | ok kind =>
      exact (element_ensures hK hset hd (hallowed classifier path rfl kind hkind) _ span).imp
        (fun _ _ h => h.1)
  | malformed message => exact fail_ensures hd

omit hg in
theorem groupFor_ensures (hset : PlainSetting s set) {scope : Scope}
    (hscope : ∀ group ∈ scope.group, d.graph.Element s Metamodel.importGroup group)
    (decl : Declaration) : Ensures (groupFor l scope decl set) d
      (fun group d' => Advances K s g₀ d.graph d'.graph ∧
        d'.graph.Element s Metamodel.importGroup group) (Refused K s g₀) := by
  unfold groupFor
  have hopen : Ensures ((do Draft.importGroup (← l.span) : Drafting NodeId) set) d
      (fun group d' => Advances K s g₀ d.graph d'.graph ∧
        d'.graph.Element s Metamodel.importGroup group) (Refused K s g₀) :=
    ensures_run_bind (span_ensures fun span => importGroup_ensures hK hd hset span)
  cases hgroup : scope.group with
  | none => exact hopen
  | some group =>
    simp only
    split
    · exact hopen
    · exact ensures_run_pure ⟨.refl hd, hscope group hgroup⟩

omit hg in
theorem draftLine_ensures (hset : PlainSetting s set) {scope : Scope}
    (hscope : ∀ group ∈ scope.group, d.graph.Element s Metamodel.importGroup group)
    (hallowed : Allowed K (Declaration.read (Text.trim l.text))) :
    Ensures (draftLine scope l set) d
      (fun scope' d' => Advances K s g₀ d.graph d'.graph ∧
        ∀ group ∈ scope'.group, d'.graph.Element s Metamodel.importGroup group)
      (Refused K s g₀) := by
  unfold draftLine
  simp only
  split
  · exact ensures_run_pure ⟨.refl hd, hscope⟩
  · refine ensures_run_bind ((groupFor_ensures hd hK hset hscope _).imp fun group d' h => ?_)
    obtain ⟨a, hg'⟩ := h
    refine ensures_run_bind ((draftDeclaration_proceeds a.drafted hK hg' hset hallowed).imp
      fun _ d'' a' => ensures_run_pure ⟨a.trans a', fun group' h => ?_⟩)
    obtain rfl : group = group' := Option.some.inj h
    exact a'.element hg'

omit hd hg in
theorem draft_ensures (hset : PlainSetting s set) {content : String} (hd : Drafted K s g₀ d.graph)
    (hallowed : ∀ l ∈ lines content, Allowed K (Declaration.read (Text.trim l.text))) :
    Ensures (draft content set) d (fun _ d' => Advances K s g₀ d.graph d'.graph)
      (Refused K s g₀) := by
  unfold draft
  refine ensures_run_discard ?_
  rw [run_foldlM]
  refine (ensures_foldlM (I := fun (scope : Scope) d' => Advances K s g₀ d.graph d'.graph ∧
    ∀ group ∈ scope.group, d'.graph.Element s Metamodel.importGroup group) ⟨.refl hd, by simp⟩
    fun l hl scope d' h => ?_).imp (fun _ _ h => h.1)
  exact (draftLine_ensures h.1.drafted hK hset h.2 (hallowed l hl)).mono
    (fun _ _ h' => ⟨h.1.trans h'.1, h'.2⟩) fun _ _ h' => h'

end Steps

end ModelCompiler.Grammar
