import ModelCompiler.Proofs.Drafting.Texts
import ModelCompiler.Proofs.Slots.Storing

/-!
Drafts on graphs that are in step. A text is drafted alike: what it introduces in the one graph is
what it introduces in the other, under other names.
-/
open ModelCompiler.Action ModelCompiler.Graph ModelCompiler.Draft

namespace ModelCompiler

namespace Graph

variable {g h : Graph} {m : NodeId} {p : Path} {spec : NodeSpec}

section Places

theorem Founded.path? {package : NodeId} (hf : Founded .implicit g h package) (hu : g.Upheld)
    (hm : g.path? m = some p) : h.path? m = some p := by
  induction hf with
  | refl => exact hm
  | step hf _ ih =>
    have hc := (hf.gains rfl hu).upheld.toCoherent
    rw [path?_congr (frame_found _ _ _ _ _)]
    exact (hc.agree_seat _ _ _ (contains_of_path? ih)).path.trans ih

theorem Established.path? {path : Path} {s : SourceId} {id : NodeId}
    (he : Established g spec path (.persistent s) id h) (hu : g.Upheld)
    (hm : g.path? m = some p) : h.path? m = some p := by
  obtain ⟨k, parent, hf, -, -, -, rfl⟩ := he.founded
  have hk := hf.path? hu hm
  have hc := (hf.gains rfl hu).upheld.toCoherent
  rw [path?_congr (frame_found _ _ _ _ _)]
  exact (hc.agree_seat _ _ _ (contains_of_path? hk)).path.trans hk

structure Anchored (g : Graph) : Prop extends Upheld g where
  landmark : ∀ kind ∈ Metamodel.landmarks, ∃ k, initial.contains k = true ∧ g.path? k = some kind

namespace Anchored

variable (ha : g.Anchored)
include ha

theorem initial_contains {kind : Path} (hkind : kind ∈ Metamodel.landmarks) {k : NodeId}
    (hk : g.lookup kind = some k) : initial.contains k = true := by
  obtain ⟨k', hinit, hpath⟩ := ha.landmark kind hkind
  obtain rfl := Option.some.inj (((ha.lookup_iff kind k').2 hpath).symm.trans hk)
  exact hinit

theorem of_path? (hu : h.Upheld) (hp : ∀ m p, g.path? m = some p → h.path? m = some p) :
    h.Anchored where
  toUpheld := hu
  landmark kind hkind :=
    have ⟨k, hinit, hk⟩ := ha.landmark kind hkind
    ⟨k, hinit, hp k kind hk⟩

theorem createPersistent (source : SourceId) (spec : NodeSpec) :
    Ensures (Graph.createPersistent source spec) g (fun _ h => h.Anchored) fun _ h => h = g := by
  refine (createPersistent_ensures ha.root_isPackage source).mono (fun id h hk => ?_)
    fun _ _ he => he.1
  rcases hk with ⟨path, -, he⟩ | ⟨hp, hcl, -, rfl⟩
  · exact ha.of_path? (he.gains ha.toUpheld (by simp) (by simp)).1.upheld fun _ _ hm =>
      he.path? ha.toUpheld hm
  · exact ha.of_path? (Gains.seat ha.toUpheld (admissible_pathless hp source hcl)).upheld
      fun _ _ hm => (ha.agree_seat _ _ _ (contains_of_path? hm)).path.trans hm

theorem createEphemeral (owner : NodeId) (spec : NodeSpec) :
    Ensures (Graph.createEphemeral owner spec) g (fun _ h => h.Anchored) fun _ h => h = g := by
  refine (createEphemeral_ensures owner).mono (fun id h hk => ?_) fun _ _ he => he.1
  obtain ⟨root, hroot, hp, hcl, -, rfl⟩ := hk
  exact ha.of_path?
    (Gains.seat ha.toUpheld (ha.toCoherent.admissible_part hroot hp hcl)).upheld
    fun _ _ hm => (ha.agree_seat _ _ _ (contains_of_path? hm)).path.trans hm

theorem addValue {id v : NodeId} {q : String} (h' : g.addValue id q v = .ok h) : h.Anchored := by
  have he := Extended.addValue ha.toUpheld h'
  exact ha.of_path? he.upheld fun m _ hm => (path?_congr he.frame m).trans hm

end Anchored

end Places

end Graph

namespace Draft

variable {X : Prop} {π : NodeId → NodeId} {set : Setting} {α β γ ζ : Type} {Q : α → β → Prop}

/-- The graphs are in step, and the same import groups have been opened. -/
structure AnchoredInStep (X : Prop) (π : NodeId → NodeId) (d d' : Draft) : Prop where
  graph : Graph.InStep X π d.graph d'.graph
  anchored : d.graph.Anchored
  importGroups : d'.importGroups = d.importGroups.map π

def Excused (e e' : CompileError) : Prop :=
  e.blame = .internal ∨ e' = e

/-- From drafts in step, both go on in step and give results that `Q` relates, or fail alike. -/
def Together (X : Prop) (set : Setting) (π : NodeId → NodeId) (Q : α → β → Prop) (x : Drafting α)
    (y : Drafting β) : Prop :=
  ∀ d d', AnchoredInStep X π d d' → Matched X Excused Q (AnchoredInStep X π) (x set d) (y set d')

section Rules

theorem together_pure {a : α} {b : β} (h : Q a b) :
    Together X set π Q (pure a) (pure b) := fun _ _ e =>
  matched_pure h e

theorem together_throw {e : CompileError} :
    Together X set π Q (throw e : Drafting α) (throw e : Drafting β) := fun _ _ e =>
  matched_throw (.inr rfl) e

theorem Together.bind {P : γ → ζ → Prop} {x : Drafting α} {y : Drafting β}
    {f : α → Drafting γ} {g : β → Drafting ζ} (h : Together X set π Q x y)
    (hf : ∀ a b, Q a b → Together X set π P (f a) (g b)) :
    Together X set π P (x >>= f) (y >>= g) := fun d d' e =>
  (h d d' e).seq fun a b u v hab e' => hf a b hab u v e'

theorem matched_run_get {f : Draft → Drafting α} {g : Draft → Drafting β} {d d' : Draft}
    (h : Matched X Excused Q (AnchoredInStep X π) (f d set d) (g d' set d')) :
    Matched X Excused Q (AnchoredInStep X π) ((get >>= f : Drafting α) set d)
      ((get >>= g : Drafting β) set d') :=
  h

theorem Together.discard {x : Drafting α} {y : Drafting β} (h : Together X set π Q x y) :
    Together X set π (fun _ _ => True) (Functor.discard x) (Functor.discard y) :=
  h.bind fun _ _ _ => together_pure trivial

theorem together_forM {f g : γ → Drafting PUnit}
    (hf : ∀ c, Together X set π (fun _ _ => True) (f c) (g c)) :
    ∀ cs : List γ, Together X set π (fun _ _ => True) (cs.forM f) (cs.forM g)
  | [] => together_pure trivial
  | c :: cs => (hf c).bind fun _ _ _ => together_forM hf cs

theorem together_mapM {f : γ → Drafting α} {g : γ → Drafting β}
    (hf : ∀ c, Together X set π Q (f c) (g c)) :
    ∀ cs : List γ, Together X set π (List.Forall₂ Q) (cs.mapM f) (cs.mapM g)
  | [] => by
    rw [List.mapM_nil, List.mapM_nil]
    exact together_pure .nil
  | c :: cs => by
    rw [List.mapM_cons, List.mapM_cons]
    exact (hf c).bind fun _ _ ha => (together_mapM hf cs).bind fun _ _ has =>
      together_pure (.cons ha has)

theorem together_foldlM {f : α → γ → Drafting α} {g : β → γ → Drafting β}
    (hf : ∀ c a b, Q a b → Together X set π Q (f a c) (g b c)) :
    ∀ (cs : List γ) {a : α} {b : β}, Q a b → Together X set π Q (cs.foldlM f a) (cs.foldlM g b)
  | [], _, _, h => together_pure h
  | c :: cs, a, b, h => by
    rw [List.foldlM_cons, List.foldlM_cons]
    exact (hf c a b h).bind fun _ _ h' => together_foldlM hf cs h'

end Rules

section Steps

variable {s : SourceId}

theorem together_addValue (id : NodeId) (p : String) (v : NodeId) :
    Together X set π (fun _ _ => True) (addValue id p v) (addValue (π id) p (π v)) := fun _ _ e =>
  matched_write (((e.graph.addValue id p v).imp fun _ _ h _ e' =>
    (⟨e', e.anchored.addValue h⟩ : _ ∧ Graph.Anchored _)).map fun _ _ h =>
      ⟨trivial, h.1, h.2, e.importGroups⟩)

theorem together_known (path : Path) :
    Together X set π (fun a b => b = π a) (known path) (known path) :=
  fun d d' e => by
  show Matched X _ _ _ (orUnknown path.text (d.graph.lookup path) set d)
    (orUnknown path.text (d'.graph.lookup path) set d')
  rw [e.graph.lookup]
  cases d.graph.lookup path with
  | none => exact together_throw d d' e
  | some id => exact matched_pure rfl e

theorem matched_onGraph {d d' : Draft} (e : AnchoredInStep X π d d')
    {cause : GraphError → CompileError} {act act' : Action Graph GraphError NodeId}
    (h : Matched X (fun x y => y = x.relabel π) (fun a b => b = π a)
      (Graph.InStep X π) (act d.graph)
      (act' d'.graph))
    (ha : Ensures act d.graph (fun _ g => g.Anchored) fun _ g => g = d.graph)
    (hcause : ∀ x, Excused (cause x) (cause (x.relabel π))) :
    Matched X Excused (fun a b => b = π a) (AnchoredInStep X π) (onGraph cause act set d)
      (onGraph cause act' set d') := by
  have hcreated := h.mono (S := fun u v => Graph.InStep X π u v ∧ u.Anchored)
    (fun _ _ _ _ hu _ hF hR => ⟨hF, hR, ha.error hu ▸ e.anchored⟩)
    fun _ _ _ _ hu _ hQ hR => ⟨hQ, hR, ha.result hu⟩
  exact hcreated.within (fun x _ h => h ▸ hcause x) fun _ _ h => ⟨h.1, h.2, e.importGroups⟩

theorem together_part (owner : NodeId) {kind : NodeId} (hkind : initial.contains kind = true)
    (name : Option String) (span : Option Span) : Together X set π (fun a b => b = π a)
      (part owner kind name span) (part (π owner) (π kind) name span) := fun _ _ e =>
  matched_onGraph e (e.graph.createEphemeral owner { classifier := some kind, name, span }
    fun _ hc => Option.some.inj hc ▸ hkind) (e.anchored.createEphemeral _ _) fun _ => .inl rfl

theorem together_namedPart (owner : NodeId) {kind : Path} (hkind : kind ∈ Metamodel.landmarks)
    (name : String) (span : Span) : Together X set π (fun a b => b = π a)
      (namedPart owner kind name span) (namedPart (π owner) kind name span) := fun d d' e => by
  show Matched X _ _ _
    ((orUnknown kind.text (d.graph.lookup kind) >>= fun k => part owner k (some name) (some span))
      set d)
    ((orUnknown kind.text (d'.graph.lookup kind) >>= fun k =>
      part (π owner) k (some name) (some span)) set d')
  rw [e.graph.lookup]
  cases hk : d.graph.lookup kind with
  | none => exact matched_throw (.inr rfl) e
  | some k =>
    have hpart : Together X set π (fun a b => b = π a) (part owner k (some name) (some span))
        (part (π owner) (π k) (some name) (some span)) :=
      together_part owner (e.anchored.initial_contains hkind hk) (some name) (some span)
    exact hpart d d' e

theorem excused_elementError (span : Span) (x : GraphError) :
    Excused (elementError span x) (elementError span (x.relabel π)) := by
  cases x <;> first | exact .inr rfl | exact .inl rfl

theorem together_element (hset : PlainSetting s set) (kind : Path) (path : String) (span : Span) :
    Together X set π (fun a b => b = π a) (element kind path span) (element kind path span) :=
  fun d d' e => by
  refine matched_run_get ?_
  rw [e.graph.lookup]
  cases d.graph.lookup kind with
  | none => exact matched_throw (.inr rfl) e
  | some classifier =>
    simp only [Option.map_some]
    cases Path.parse path with
    | error x => exact matched_throw (.inr rfl) e
    | ok path =>
      show Matched X _ _ _ (onGraph _
        (((set.factories.find? kind).getD .element).create _ _ _ _) set d)
        (onGraph _ (((set.factories.find? kind).getD .element).create _ _ _ _) set d')
      rw [hset.factory_eq]
      let spec : NodeSpec := { classifier := some classifier, span := some span, path := some path }
      have hpath : spec.path = some path := rfl
      exact matched_onGraph e (e.graph.createPersistent e.anchored.toIndexed set.source hpath)
        (e.anchored.createPersistent set.source spec) (excused_elementError span)

theorem together_importGroup (hset : PlainSetting s set) (span : Span) :
    Together X set π (fun a b => b = π a) (importGroup span) (importGroup span) := fun d d' e => by
  refine matched_run_get ?_
  rw [e.importGroups, List.length_map]
  refine Matched.seq (together_element hset Metamodel.importGroup _ span d d' e)
    fun a b u v hab e' => ?_
  subst hab
  exact .ok rfl ⟨e'.graph, e'.anchored, by simp [e'.importGroups]⟩

theorem together_addImport (group : NodeId) (package : String) (span : Span) :
    Together X set π (fun a b => b = π a) (addImport group package span)
      (addImport (π group) package span) := by
  refine (together_namedPart group (by simp [Metamodel.landmarks, Metamodel.classifiers])
    package span).bind fun id _ h => ?_
  subst h
  exact (together_addValue group "imports" id).bind fun _ _ _ => together_pure rfl

theorem together_importStub (owner group : NodeId) (identifier : String) (span : Span) :
    Together X set π (fun a b => b = π a) (importStub owner group identifier span)
      (importStub (π owner) (π group) identifier span) := by
  refine (together_namedPart owner (by simp [Metamodel.landmarks, Metamodel.classifiers])
    identifier span).bind fun stub _ h => ?_
  subst h
  exact (together_addValue stub "importGroup" group).bind fun _ _ _ => together_pure rfl

theorem together_propertyStub (owner target : NodeId) (property : String) (span : Span) :
    Together X set π (fun a b => b = π a) (propertyStub owner target property span)
      (propertyStub (π owner) (π target) property span) := by
  refine (together_namedPart owner (by simp [Metamodel.landmarks, Metamodel.classifiers])
    property span).bind fun stub _ h => ?_
  subst h
  exact (together_addValue stub "owner" target).bind fun _ _ _ => together_pure rfl

end Steps

end Draft

namespace Grammar

variable {X : Prop} {π : NodeId → NodeId} {set : Setting} {l : Line} {s : SourceId} {α β : Type}
  {Q : α → β → Prop}

section Places

theorem together_span : Together X set π Eq l.span l.span := fun _ _ e =>
  matched_pure rfl e

theorem together_spanOf (piece : Piece) :
    Together X set π Eq (l.spanOf piece) (l.spanOf piece) := by
  unfold Line.spanOf
  cases Text.cutAt piece l.text with
  | none => exact together_span
  | some parts => exact fun _ _ e => matched_pure rfl e

theorem together_fail (message : String) :
    Together X set π Q (l.fail message : Drafting α) (l.fail message : Drafting β) :=
  together_span.bind fun _ _ h => h ▸ together_throw

theorem together_demand (r : Except String α) : Together X set π Eq (l.demand r) (l.demand r) := by
  cases r with
  | error message => exact together_fail message
  | ok a => exact together_pure rfl

end Places

section Declarations

theorem together_stereotype (id : NodeId) (stereotype : Piece) :
    Together X set π (fun _ _ => True) (draftStereotype l id stereotype)
      (draftStereotype l (π id) stereotype) := by
  have hadd (path : Path) : Together X set π (fun _ _ => True)
      (do Draft.addValue id "stereotypes" (← Draft.known path))
      (do Draft.addValue (π id) "stereotypes" (← Draft.known path)) :=
    (together_known path).bind fun access _ h => h ▸ together_addValue id "stereotypes" access
  unfold draftStereotype
  split
  · exact (together_pure (Q := Eq) rfl).bind fun path _ h => h ▸ hadd path
  · exact (together_pure (Q := Eq) rfl).bind fun path _ h => h ▸ hadd path
  · exact (together_fail (Q := Eq) _).bind fun path _ h => h ▸ hadd path

theorem together_general (group id : NodeId) (general : Piece) :
    Together X set π (fun _ _ => True) (draftGeneral l group id general)
      (draftGeneral l (π group) (π id) general) := by
  refine (together_spanOf general).bind fun span _ h => ?_
  subst h
  exact (together_importStub id group _ span).bind fun stub _ h =>
    h ▸ together_addValue id "generalizations" stub

theorem together_property (group owner : NodeId) (member : Except String Member) :
    Together X set π (fun _ _ => True) (draftProperty l group owner member)
      (draftProperty l (π group) (π owner) member) := by
  refine (together_demand member).bind fun m _ h => ?_
  subst h
  refine (together_spanOf m.text).bind fun span _ h => ?_
  subst h
  refine (together_namedPart owner (by simp [Metamodel.landmarks, Metamodel.classifiers])
    _ span).bind fun property _ h => ?_
  subst h
  refine (together_addValue owner "properties" property).bind fun _ _ _ => ?_
  refine (together_addValue property "owner" owner).bind fun _ _ _ => ?_
  exact (together_importStub owner group _ span).bind fun stub _ h =>
    h ▸ together_addValue property "genericType" stub

theorem together_value (id : NodeId) (value : Piece) :
    Together X set π (fun _ _ => True) (draftValue l id value) (draftValue l (π id) value) := by
  refine (together_spanOf value).bind fun span _ h => ?_
  subst h
  exact (together_namedPart id (by simp [Metamodel.landmarks, Metamodel.classifiers])
    _ span).bind fun node _ h => h ▸ together_addValue id "values" node

theorem together_parameter (group function : NodeId) (member : Except String Member) :
    Together X set π (fun x y => y = (x.1, π x.2)) (draftParameter l group function member)
      (draftParameter l (π group) (π function) member) := by
  refine (together_demand member).bind fun m _ h => ?_
  subst h
  refine (together_spanOf m.text).bind fun span _ h => ?_
  subst h
  refine (together_namedPart function (by simp [Metamodel.landmarks, Metamodel.classifiers])
    _ span).bind fun parameter _ h => ?_
  subst h
  refine (together_importStub function group _ span).bind fun stub _ h => ?_
  subst h
  refine (together_addValue parameter "genericType" stub).bind fun _ _ _ => ?_
  exact (together_addValue function "parameters" parameter).bind fun _ _ _ => together_pure rfl

theorem lookup_of_forall₂ {scope scope' : List (Piece × NodeId)}
    (h : List.Forall₂ (fun x y => y = (x.1, π x.2)) scope scope') (name : Piece) :
    scope'.lookup name = (scope.lookup name).map π := by
  induction h with
  | nil => rfl
  | @cons x y xs ys hxy _ ih =>
    subst hxy
    rw [List.lookup_cons, List.lookup_cons, ih]
    split <;> rfl

theorem together_projection {scope scope' : List (Piece × NodeId)}
    (hscope : List.Forall₂ (fun x y => y = (x.1, π x.2)) scope scope') (function : NodeId)
    (projection : Except String Projection) :
    Together X set π (fun _ _ => True) (draftProjection l scope function projection)
      (draftProjection l scope' (π function) projection) := by
  refine (together_demand projection).bind fun a _ h => ?_
  subst h
  rw [lookup_of_forall₂ hscope]
  cases scope.lookup a.receiver with
  | none => exact together_fail _
  | some receiver =>
    refine (together_spanOf a.text).bind fun span _ h => ?_
    subst h
    exact (together_propertyStub function receiver _ span).bind fun stub _ h =>
      h ▸ together_addValue function "expressionSequence" stub

theorem together_result (group function : NodeId) (result : Piece) :
    Together X set π (fun _ _ => True) (draftResult l group function result)
      (draftResult l (π group) (π function) result) := by
  refine (together_spanOf result).bind fun span _ h => ?_
  subst h
  exact (together_importStub function group _ span).bind fun stub _ h =>
    h ▸ together_addValue function "returnType" stub

theorem together_element_bind (hset : PlainSetting s set) (kind : Path) (path : String)
    {next next' : NodeId → Drafting Unit}
    (hnext : ∀ id, Together X set π (fun _ _ => True) (next id) (next' (π id))) :
    Together X set π (fun _ _ => True) (do next (← Draft.element kind path (← l.span)))
      (do next' (← Draft.element kind path (← l.span))) :=
  together_span.bind fun span _ h => h ▸ (together_element hset kind path span).bind fun id _ h =>
    h ▸ hnext id

theorem together_declaration (hset : PlainSetting s set) (group : NodeId) (decl : Declaration) :
    Together X set π (fun _ _ => True) (draftDeclaration l group decl)
      (draftDeclaration l (π group) decl) := by
  cases decl with
  | imported package =>
    refine (together_spanOf package).bind fun span _ h => ?_
    subst h
    exact (together_addImport group _ span).discard
  | class_ path stereotypes generals properties =>
    exact together_element_bind hset _ _ fun id =>
      (together_forM (fun c => together_stereotype id c) stereotypes).bind fun _ _ _ =>
        (together_forM (fun c => together_general group id c) generals).bind fun _ _ _ =>
          together_forM (fun c => together_property group id c) properties
  | association path properties =>
    exact together_element_bind hset _ _ fun id =>
      together_forM (fun c => together_property group id c) properties
  | enumeration path values =>
    exact together_element_bind hset _ _ fun id =>
      together_forM (fun c => together_value id c) values
  | function path parameters result body =>
    refine together_element_bind hset _ _ fun id =>
      (together_mapM (fun c => together_parameter group id c) parameters).bind
      fun scope scope' h => ?_
    refine Together.bind (Q := fun _ _ => True) ?_ fun _ _ _ =>
      together_forM (fun c => together_projection h id c) body
    cases result with
    | none => exact together_pure trivial
    | some result => exact together_result group id result
  | element classifier path =>
    refine together_span.bind fun span _ h => ?_
    subst h
    refine Together.discard (Q := fun a b => b = π a) ?_
    unfold elementNamed
    cases Path.parse (String.ofList classifier) with
    | error x => exact together_throw
    | ok kind => exact together_element hset kind _ span
  | malformed message => exact together_fail message

def Scope.relabel (π : NodeId → NodeId) (scope : Scope) : Scope :=
  { scope with group := scope.group.map π }

theorem together_groupFor (hset : PlainSetting s set) (scope : Scope) (decl : Declaration) :
    Together X set π (fun a b => b = π a) (groupFor l scope decl)
      (groupFor l (scope.relabel π) decl) := by
  have hopen : Together X set π (fun a b => b = π a) (do Draft.importGroup (← l.span))
      (do Draft.importGroup (← l.span)) :=
    together_span.bind fun span _ h => h ▸ together_importGroup hset span
  obtain ⟨group, importing⟩ := scope
  cases group with
  | none => exact hopen
  | some group =>
    show Together X set π _ (if isImport decl && !importing then _ else _)
      (if isImport decl && !importing then _ else _)
    split
    · exact hopen
    · exact together_pure rfl

theorem together_line (hset : PlainSetting s set) (scope : Scope) (l : Line) :
    Together X set π (fun a b => b = a.relabel π) (draftLine scope l)
      (draftLine (scope.relabel π) l) := by
  unfold draftLine
  dsimp only
  split
  · exact together_pure rfl
  · refine (together_groupFor hset scope _).bind fun group _ h => ?_
    subst h
    exact (together_declaration hset group _).bind fun _ _ _ => together_pure rfl

theorem together_draft (hset : PlainSetting s set) (content : String) :
    Together X set π (fun _ _ => True) (draft content) (draft content) :=
  (together_foldlM (Q := fun a b => b = a.relabel π)
    (fun l scope _ h => h ▸ together_line hset scope l) (lines content) rfl).discard

end Declarations

end Grammar

end ModelCompiler
