import ModelCompiler.Source.Grammar
import ModelCompiler.Proofs.Drafting.Growth

/-!
What drafts are made of: elements, parts, names and import groups.
-/
open ModelCompiler.Action ModelCompiler.Graph

namespace ModelCompiler

namespace Draft

section Rules

variable {α β : Type} {set : Setting} {d : Draft} {Q : α → Draft → Prop}
  {E : CompileError → Draft → Prop}

theorem ensures_run_bind {x : Drafting β} {f : β → Drafting α}
    (h : Ensures (x set) d (fun b d' => Ensures (f b set) d' Q E) E) :
    Ensures ((x >>= f) set) d Q E :=
  ensures_bind h

theorem ensures_run_pure {a : α} (h : Q a d) : Ensures ((pure a : Drafting α) set) d Q E :=
  ensures_pure h

theorem ensures_run_throw {e : CompileError} (h : E e d) :
    Ensures ((throw e : Drafting α) set) d Q E :=
  ensures_throw h

theorem ensures_run_get {Q : Draft → Draft → Prop} (h : Q d d) :
    Ensures ((get : Drafting Draft) set) d Q E :=
  ensures_get h

theorem ensures_run_read {Q : Setting → Draft → Prop} (h : Q set d) :
    Ensures ((read : Drafting Setting) set) d Q E :=
  ensures_pure h

theorem ensures_run_modify {Q : PUnit → Draft → Prop} {f : Draft → Draft} (h : Q ⟨⟩ (f d)) :
    Ensures ((modify f : Drafting PUnit) set) d Q E :=
  ensures_modify h

theorem ensures_run_discard {x : Drafting β} {Q : PUnit → Draft → Prop}
    (h : Ensures (x set) d (fun _ d' => Q ⟨⟩ d') E) : Ensures ((discard x) set) d Q E :=
  ensures_discard h

theorem run_forM (f : α → Drafting PUnit) (set : Setting) : ∀ xs : List α,
    (xs.forM f) set = xs.forM fun a => f a set
  | [] => rfl
  | a :: xs => by
    show (f a set >>= fun _ => (xs.forM f) set) = f a set >>= fun _ => xs.forM fun a => f a set
    rw [run_forM f set xs]

theorem run_mapM (f : α → Drafting β) (set : Setting) : ∀ xs : List α,
    (xs.mapM f) set = xs.mapM fun a => f a set
  | [] => by
    rw [List.mapM_nil, List.mapM_nil]
    rfl
  | a :: xs => by
    rw [List.mapM_cons, List.mapM_cons, ← run_mapM f set xs]
    rfl

theorem run_foldlM (f : β → α → Drafting β) (set : Setting) : ∀ (xs : List α) (b : β),
    (xs.foldlM f b) set = xs.foldlM (fun b a => f b a set) b
  | [], b => rfl
  | a :: xs, b => by
    rw [List.foldlM_cons, List.foldlM_cons]
    show (f b a set >>= fun b' => (xs.foldlM f b') set) = _
    congr 1
    funext b'
    exact run_foldlM f set xs b'

end Rules

end Draft

namespace Graph

variable {g : Graph} {id m o : NodeId} {kind : Path} {s : SourceId}

structure Element (g : Graph) (s : SourceId) (kind : Path) (id : NodeId) : Prop where
  lifetime : g.lifetime? id = some (.persistent s)
  kind : g.classifierPath? id = some kind

theorem Element.agree {g' : Graph}
    (he : g.Element s kind id) (h : Agree g g' id) : g'.Element s kind id :=
  ⟨h.lifetime.trans he.lifetime, h.classifierPath.trans he.kind⟩

theorem Element.contains (he : g.Element s kind id) : g.contains id = true :=
  contains_of_lifetime? he.lifetime

theorem Element.sourceOf? (he : g.Element s kind id) : g.sourceOf? id = some s :=
  sourceOf?_persistent he.lifetime

theorem Part.contains (hp : g.Part o kind m) :
    g.contains m = true :=
  contains_of_lifetime? hp.lifetime

theorem Part.sourceOf?
    (hp : g.Part o kind m) (ho : g.lifetime? o = some (.persistent s)) : g.sourceOf? m = some s :=
  sourceOf?_eq_some_iff.2 (.inr ⟨o, hp.lifetime, ho⟩)

theorem Part.not_isType (hp : g.Part o kind m)
    (hne : kind ≠ Metamodel.functionType) : ¬ g.IsType m := by
  rintro ⟨o', ht⟩
  exact hne (Option.some.inj (hp.kind.symm.trans ht.kind))

theorem Element.not_isType (he : g.Element s kind id) : ¬ g.IsType id := by
  rintro ⟨o, ht⟩
  simpa using he.lifetime.symm.trans ht.lifetime

theorem ruled_of_free {j v : NodeId} {q : String}
    (hq : q ∉ ["generalizations", "genericType", "returnType", "properties", "values",
      "expressionSequence"] ++ Metamodel.derived) : g.Ruled j q v := by
  simp only [Metamodel.derived, List.cons_append, List.nil_append, List.mem_cons, List.not_mem_nil,
    or_false, not_or] at hq
  constructor <;> intro h <;> simp_all

section Ruled

variable {g : Graph} {j v : NodeId}

theorem ruled_generalizations (h : g.Part j Metamodel.importStub v)
    (hj : g.classifierPath? j = some Metamodel.class_) : g.Ruled j "generalizations" v := by
  constructor <;> intro hq <;> first | exact absurd hq (by decide) | exact .inl ⟨h, hj⟩

theorem ruled_typing {q : String} (hq : q = "genericType" ∨ q = "returnType")
    (ho : g.ownerRoot? j = some o) (h : g.Part o Metamodel.importStub v) : g.Ruled j q v := by
  rcases hq with rfl | rfl <;>
    constructor <;> intro hq <;> first | exact absurd hq (by decide) | exact .inl ⟨o, ho, h⟩

theorem ruled_properties (h : g.Part j Metamodel.property v)
    (hj : g.classifierPath? j = some Metamodel.class_ ∨
      g.classifierPath? j = some Metamodel.association) : g.Ruled j "properties" v := by
  constructor <;> intro hq <;> first | exact absurd hq (by decide) | exact ⟨h, hj⟩

theorem ruled_values (h : g.Part j Metamodel.enum v)
    (hj : g.classifierPath? j = some Metamodel.enumeration) : g.Ruled j "values" v := by
  constructor <;> intro hq <;> first | exact absurd hq (by decide) | exact ⟨h, hj⟩

theorem ruled_expression (h : g.Part j Metamodel.propertyStub v) :
    g.Ruled j "expressionSequence" v := by
  constructor <;> intro hq <;> first | exact absurd hq (by decide) | exact h

end Ruled

section Complete

variable {g g' : Graph} {P : NodeId → Prop} {x : NodeId}

structure Complete (g : Graph) (P : NodeId → Prop) (x : NodeId) : Prop where
  distinct : (g.values x "properties").Nodup
  typed : ∀ p ∈ g.values x "properties", P p ∨ g.values p "genericType" ≠ []

theorem Complete.of_values (h : g.Complete P x)
    (hx : g'.values x "properties" = g.values x "properties")
    (ht : ∀ p ∈ g.values x "properties", g.values p "genericType" ≠ [] →
      g'.values p "genericType" ≠ []) : g'.Complete P x where
  distinct := hx ▸ h.distinct
  typed p hp := by
    rw [hx] at hp
    exact (h.typed p hp).imp_right (ht p hp)

theorem complete_of_nil (h : g.values x "properties" = []) : g.Complete P x :=
  ⟨by simp [h], by simp [h]⟩

variable {j v : NodeId} {q : String}

theorem Complete.link (h : g.Complete P x) (hj : g.contains j = true) (hq : q ≠ "properties") :
    (g.link j q v).Complete P x := by
  refine h.of_values ?_ fun p _ hp => ?_
  · rw [values_link hj, if_neg fun h => hq h.2.symm]
  · rw [values_link hj]
    split
    · simp
    · exact hp

theorem Complete.declare (h : g.Complete P x) (hj : g.contains j = true)
    (hv : v ∉ g.values j "properties") :
    (g.link j "properties" v).Complete (fun p => P p ∨ p = v) x := by
  have htyped (p : NodeId) : (g.link j "properties" v).values p "genericType" =
      g.values p "genericType" := by
    rw [values_link hj, if_neg (by simp)]
  by_cases hx : x = j
  · subst hx
    have hvalues : (g.link x "properties" v).values x "properties" =
        g.values x "properties" ++ [v] := by
      rw [values_link hj, if_pos ⟨rfl, rfl⟩]
    refine ⟨?_, fun p hp => ?_⟩
    · rw [hvalues]
      exact h.distinct.append (List.nodup_singleton v) (by simpa using hv)
    · rw [hvalues] at hp
      rw [htyped]
      rcases List.mem_append.1 hp with hp | hp
      · exact (h.typed p hp).imp_left .inl
      · exact .inl (.inr (List.mem_singleton.1 hp))
  · have hvalues : (g.link j "properties" v).values x "properties" = g.values x "properties" := by
      rw [values_link hj, if_neg fun h => hx h.1]
    refine ⟨hvalues ▸ h.distinct, fun p hp => ?_⟩
    rw [hvalues] at hp
    rw [htyped]
    exact (h.typed p hp).imp_left .inl

theorem Complete.type (h : g.Complete (fun p => P p ∨ p = j) x) (hj : g.contains j = true) :
    (g.link j "genericType" v).Complete P x := by
  have h' := h.link (v := v) hj (show "genericType" ≠ "properties" by decide)
  refine ⟨h'.distinct, fun p hp => ?_⟩
  rcases h'.typed p hp with (hp | rfl) | hp
  · exact .inl hp
  · right
    rw [values_link hj, if_pos ⟨rfl, rfl⟩]
    simp
  · exact .inr hp

end Complete

/-- From one step of a draft of `s` to a later one: the nodes that were there are as before. -/
structure ExtendsDraft (K : NodeId → Prop) (s : SourceId) (g₀ g g' : Graph) : Prop where
  drafted : Drafted K s g₀ g'
  agree : ∀ m, g.contains m = true → Agree g g' m

/-- From one step of a draft to a later one, and every property that has come has got a type. -/
structure Advances (K : NodeId → Prop) (s : SourceId) (g₀ g g' : Graph) : Prop extends
    ExtendsDraft K s g₀ g g' where
  complete : ∀ P x, g.Complete P x → g'.Complete P x

section Advances

variable {K : NodeId → Prop} {s : SourceId} {g₀ g h k : Graph}

theorem ExtendsDraft.trans (a : ExtendsDraft K s g₀ g h) (b : ExtendsDraft K s g₀ h k) :
    ExtendsDraft K s g₀ g k :=
  ⟨b.drafted, fun m hm => (a.agree m hm).trans (b.agree m (by
    obtain ⟨l, hl⟩ := exists_lifetime? hm
    exact contains_of_lifetime? ((a.agree m hm).lifetime.trans hl)))⟩

theorem ExtendsDraft.element (a : ExtendsDraft K s g₀ g h) (he : g.Element s kind id) :
    h.Element s kind id :=
  he.agree (a.agree id he.contains)

theorem ExtendsDraft.part (a : ExtendsDraft K s g₀ g h) (hp : g.Part o kind m) :
    h.Part o kind m :=
  hp.agree (a.agree m hp.contains)

theorem Advances.refl (hd : Drafted K s g₀ g) : Advances K s g₀ g g :=
  ⟨⟨hd, fun m _ => agree_of_frame rfl m⟩, fun _ _ h => h⟩

theorem Advances.trans (a : Advances K s g₀ g h) (b : Advances K s g₀ h k) : Advances K s g₀ g k :=
  ⟨a.toExtendsDraft.trans b.toExtendsDraft, fun P x hx => b.complete P x (a.complete P x hx)⟩

end Advances

def Admits (K : NodeId → Prop) (kind : Path) : Prop :=
  ∀ g : Graph, g.Rooted → g.Indexed → ∀ k, g.lookup kind = some k → K k

theorem admits_landmark {K : NodeId → Prop} (hK : CoversMetamodel K)
    (h : kind ∈ Metamodel.landmarks) : Admits K kind := by
  intro g hr hi k hk
  obtain ⟨id, hid, hinit, -⟩ := hr.landmark hi h
  obtain rfl : id = k := Option.some.inj (hid.symm.trans hk)
  exact hK id hinit

end Graph

namespace Draft

variable {group j owner v : NodeId} {kind : Path} {q : String}

section Steps

variable {K : NodeId → Prop} {s : SourceId} {g₀ : Graph} {set : Setting} {d : Draft}

def Refused (K : NodeId → Prop) (s : SourceId) (g₀ : Graph) (e : CompileError) (d : Draft) : Prop :=
  e.blame ≠ .internal ∧ Drafted K s g₀ d.graph

/-- The setting is that of `s`, and elements are created as they are by default. -/
structure PlainSetting (s : SourceId) (set : Setting) : Prop where
  source : set.source = s
  factory : ∀ p f, set.factories.find? p = some f → f = .element

theorem PlainSetting.factory_eq (h : PlainSetting s set) (kind : Path) :
    (set.factories.find? kind).getD .element = .element := by
  cases hf : set.factories.find? kind with
  | none => rfl
  | some f => exact h.factory kind f hf

theorem element_ensures (hK : CoversMetamodel K) (hset : PlainSetting s set)
    (hd : Drafted K s g₀ d.graph) (hadm : Admits K kind) (path : String)
    (span : Span) : Ensures (element kind path span set) d
      (fun id d' => Advances K s g₀ d.graph d'.graph ∧ d'.graph.Element s kind id)
      (Refused K s g₀) := by
  unfold element
  refine ensures_run_bind (ensures_run_get ?_)
  cases hl : d.graph.lookup kind with
  | none => exact ensures_run_throw ⟨by simp [CompileError.blame], hd⟩
  | some k =>
    have hpath := (hd.regular.lookup_iff kind k).1 hl
    have hKk := hadm d.graph hd.regular.toRooted hd.regular.toIndexed k hl
    cases hp : Path.parse path with
    | error e => exact ensures_run_throw ⟨by simp [CompileError.blame], hd⟩
    | ok path =>
      refine ensures_run_bind (ensures_run_read (ensures_run_bind (ensures_run_read ?_)))
      rw [hset.factory_eq, hset.source]
      apply ensures_within
      refine (@createPersistent_ensures d.graph
        { classifier := some k, span := some span, path := some path }
        hd.regular.root_isPackage s).mono
        (fun id g' h => ?_) fun e g' h => ?_
      · rcases h with ⟨path', -, he⟩ | ⟨hnone, -⟩
        · have hnode := he.node hd.regular.toSound
          have hagree := fun m (hm : d.graph.contains m = true) => he.agree hd.regular.toSound hm
          refine ⟨⟨⟨hd.established hK he fun k' hk' => ?_, hagree⟩, fun P x hx => ?_⟩, hnode.1, ?_⟩
          · obtain rfl : k = k' := Option.some.inj hk'
            exact ⟨hKk, kind, hpath⟩
          · have hvalues (m : NodeId) (q : String) (hq : q ≠ "children") (hp : q ≠ "package") :
                g'.values m q = d.graph.values m q :=
              he.values hd.regular.toSound hq hp m
            exact hx.of_values (hvalues x _ (by decide) (by decide)) fun p _ hp => by
              rwa [hvalues p _ (by decide) (by decide)]
          · show (g'.classifier? id >>= g'.path?) = some kind
            rw [hnode.2]
            exact (hagree k (contains_of_path? hpath)).path.trans hpath
        · simp at hnone
      · obtain ⟨rfl, href⟩ := h
        refine ⟨?_, hd⟩
        cases href with
        | duplicate | invalid => simp [elementError, CompileError.blame]
        | classifier hc hn =>
          obtain rfl := Option.some.inj hc
          simp [contains_of_path? hpath] at hn

theorem known_ensures (hd : Drafted K s g₀ d.graph) :
    Ensures (known kind set) d
      (fun id d' => d' = d ∧ d.graph.lookup kind = some id) (Refused K s g₀) := by
  unfold known
  refine ensures_run_bind (ensures_run_get ?_)
  cases hl : d.graph.lookup kind with
  | none => exact ensures_run_throw ⟨by simp [CompileError.blame], hd⟩
  | some id => exact ensures_run_pure ⟨rfl, rfl⟩

theorem namedPart_ensures (hK : CoversMetamodel K) (hd : Drafted K s g₀ d.graph)
    (ho : d.graph.lifetime? owner = some (.persistent s))
    (hkind : kind ∈ Metamodel.landmarks) (hne : kind ≠ Metamodel.functionType) (name : String)
    (span : Span) : Ensures (namedPart owner kind name span set) d
      (fun id d' => Advances K s g₀ d.graph d'.graph ∧ d'.graph.Part owner kind id ∧
        ∀ j q, id ∉ d'.graph.values j q) (Refused K s g₀) := by
  unfold namedPart
  refine ensures_run_bind ((known_ensures hd).imp fun k d' h => ?_)
  obtain ⟨rfl, hl⟩ := h
  have hi := hd.regular.toIndexed
  have hpath := (hi.lookup_iff kind k).1 hl
  have hKk := admits_landmark hK hkind _ hd.regular.toRooted hi k hl
  unfold part onGraph
  apply ensures_within
  refine (@createEphemeral_ensures d'.graph
    { classifier := some k, name := some name, span := some span } owner).mono
    (fun id g' h => ?_) fun e g' h => ?_
  · obtain ⟨root, hroot, -, -, rfl, rfl⟩ := h
    obtain rfl : root = owner := by
      rw [ownerRoot?_eq, ho] at hroot
      exact (Option.some.inj hroot).symm
    refine ⟨⟨⟨hd.part ho rfl rfl hpath hKk hne,
      fun m hm => hd.regular.agree_seat _ _ _ hm⟩, fun P x hx => ?_⟩, ⟨?_, ?_⟩, fun j q hv => ?_⟩
    · refine hx.of_values (values_seat _ _ _ hi _ _) fun p _ hp => ?_
      rwa [values_seat _ _ _ hi]
    · rw [lifetime?_seat _ _ _ hi, if_pos rfl]
    · rw [classifierPath?, classifier?_seat _ _ _ hi, if_pos rfl]
      exact (hd.regular.agree_seat _ _ _ (contains_of_path? hpath)).path.trans hpath
    · rw [values_seat _ _ _ hi] at hv
      exact hi.ne_fresh (hd.regular.value_live j q _ hv) rfl
  · obtain ⟨rfl, hn | ⟨c, hc, hn⟩ | hn⟩ := h
    · exact absurd rfl hn
    · obtain rfl := Option.some.inj hc
      simp [contains_of_path? hpath] at hn
    · simp [contains_of_lifetime? ho] at hn

theorem link_ensures (hd : Drafted K s g₀ d.graph)
    (hj : d.graph.sourceOf? j = some s) (hv : d.graph.contains v = true)
    (hfit : d.graph.Fits j q v) (hq : q ∉ "package" :: "children" :: Metamodel.derived) :
    Ensures (addValue j q v set) d
      (fun _ d' => ExtendsDraft K s g₀ d.graph d'.graph ∧ d'.graph = d.graph.link j q v)
      (Refused K s g₀) := by
  simp only [List.mem_cons, not_or] at hq
  refine ensures_write (a := ()) (t := { d with graph := d.graph.link j q v }) ?_
    ⟨⟨hd.link hj hv hfit hq.2.2 hq.1 hq.2.1, fun m _ => agree_of_frame (frame_link _ _ _ _) m⟩, rfl⟩
  simp [Graph.addValue, contains_of_sourceOf? hj, hv, Except.map]

theorem addValue_ensures (hd : Drafted K s g₀ d.graph)
    (hj : d.graph.sourceOf? j = some s) (hv : d.graph.contains v = true) (hfit : d.graph.Fits j q v)
    (hq : q ∉ "properties" :: "package" :: "children" :: Metamodel.derived) :
    Ensures (addValue j q v set) d
      (fun _ d' => Advances K s g₀ d.graph d'.graph) (Refused K s g₀) := by
  obtain ⟨hne, hq⟩ := not_or.1 (mt List.mem_cons.2 hq)
  refine (link_ensures hd hj hv hfit hq).imp (fun _ d' h => ⟨h.1, fun P x hx => ?_⟩)
  rw [h.2]
  exact hx.link (contains_of_sourceOf? hj) hne

theorem fits_own {g : Graph} (hj : g.sourceOf? j = some s)
    (hv : g.sourceOf? v = some s) (ht : ¬ g.IsType v) (hr : g.Ruled j q v) : g.Fits j q v := by
  refine ⟨hr, ?_, ?_, ?_, ?_⟩
  · intro h
    rcases sourceOf?_eq_some_iff.1 hv with hl | ⟨o, hl, -⟩ <;> simp [h] at hl
  · simp [hj]
  · exact fun _ _ _ => .inr (hv.trans hj.symm)
  · exact fun h => absurd h ht

theorem addOwn_ensures (hd : Drafted K s g₀ d.graph)
    (hj : d.graph.sourceOf? j = some s) (hv : d.graph.sourceOf? v = some s)
    (ht : ¬ d.graph.IsType v) (hr : d.graph.Ruled j q v)
    (hq : q ∉ "properties" :: "package" :: "children" :: Metamodel.derived) :
    Ensures (addValue j q v set) d
      (fun _ d' => Advances K s g₀ d.graph d'.graph) (Refused K s g₀) :=
  addValue_ensures hd hj (contains_of_sourceOf? hv) (fits_own hj hv ht hr) hq

variable (hK : CoversMetamodel K) (hd : Drafted K s g₀ d.graph)
include hK hd

theorem importGroup_ensures (hset : PlainSetting s set) (span : Span) :
    Ensures (importGroup span set) d
      (fun id d' => Advances K s g₀ d.graph d'.graph ∧
        d'.graph.Element s Metamodel.importGroup id) (Refused K s g₀) := by
  unfold importGroup
  refine ensures_run_bind (ensures_run_get (ensures_run_bind (ensures_run_read ?_)))
  refine ensures_run_bind ((element_ensures hK hset hd
    (admits_landmark hK (by simp [Metamodel.landmarks, Metamodel.classifiers])) _ span).imp
    fun id d' h => ?_)
  exact ensures_run_bind (ensures_run_modify (ensures_run_pure h))

theorem addImport_ensures (hg : d.graph.Element s Metamodel.importGroup group)
    (package : String) (span : Span) : Ensures (addImport group package span set) d
      (fun _ d' => Advances K s g₀ d.graph d'.graph) (Refused K s g₀) := by
  unfold addImport
  refine ensures_run_bind ((namedPart_ensures hK hd hg.lifetime
    (by simp [Metamodel.landmarks, Metamodel.classifiers]) (by decide)
    package span).imp fun id d' h => ?_)
  obtain ⟨ha, hp, -⟩ := h
  have hg' := ha.element hg
  refine ensures_run_bind ((addOwn_ensures ha.drafted hg'.sourceOf? (hp.sourceOf? hg'.lifetime)
    (hp.not_isType (by decide)) (ruled_of_free (by decide)) (by decide)).imp
    fun _ d'' h => ?_)
  exact ensures_run_pure (ha.trans h)

theorem importStub_ensures (ho : d.graph.lifetime? owner = some (.persistent s))
    (hg : d.graph.Element s Metamodel.importGroup group) (identifier : String) (span : Span) :
    Ensures (importStub owner group identifier span set) d
      (fun id d' => Advances K s g₀ d.graph d'.graph ∧ d'.graph.Part owner Metamodel.importStub id)
      (Refused K s g₀) := by
  unfold importStub
  refine ensures_run_bind ((namedPart_ensures hK hd ho
    (by simp [Metamodel.landmarks, Metamodel.classifiers]) (by decide) identifier span).imp
    fun id d' h => ?_)
  obtain ⟨ha, hp, -⟩ := h
  have hg' := ha.element hg
  have ho' := (ha.agree owner (contains_of_lifetime? ho)).lifetime.trans ho
  refine ensures_run_bind ((addOwn_ensures ha.drafted (hp.sourceOf? ho') hg'.sourceOf?
    hg'.not_isType (ruled_of_free (by decide)) (by decide)).imp
    fun _ d'' h => ?_)
  exact ensures_run_pure ⟨ha.trans h, h.part hp⟩

theorem propertyStub_ensures {target : NodeId} (ho : d.graph.lifetime? owner = some (.persistent s))
    (ht : d.graph.Part owner Metamodel.variableExpression target) (property : String)
    (span : Span) : Ensures (propertyStub owner target property span set) d
      (fun id d' => Advances K s g₀ d.graph d'.graph ∧
        d'.graph.Part owner Metamodel.propertyStub id) (Refused K s g₀) := by
  unfold propertyStub
  refine ensures_run_bind ((namedPart_ensures hK hd ho
    (by simp [Metamodel.landmarks, Metamodel.classifiers]) (by decide) property span).imp
    fun id d' h => ?_)
  obtain ⟨ha, hp, -⟩ := h
  have ho' := (ha.agree owner (contains_of_lifetime? ho)).lifetime.trans ho
  have ht' := ha.part ht
  refine ensures_run_bind ((addOwn_ensures ha.drafted (hp.sourceOf? ho') (ht'.sourceOf? ho')
    (ht'.not_isType (by decide)) (ruled_of_free (by decide)) (by decide)).imp
    fun _ d'' h => ?_)
  exact ensures_run_pure ⟨ha.trans h, h.part hp⟩

end Steps

end Draft

end ModelCompiler
