import ModelCompiler.Proofs.Compiling.BackReferences

/-!
Properties that are declared again. A class is held against the first of its ancestors that declares
a property of the same name, and against no other. So a property has one type along a row of such
ancestors, as long as these are of active sources; other ancestors may have given it another type.
-/
open ModelCompiler.Action ModelCompiler.Graph ModelCompiler.Handler

namespace ModelCompiler

variable {K : NodeId → Prop} {g g' : Graph} {x p y q : NodeId}

namespace Graph

/-- The first property of that name that a node declares. -/
def declared? (g : Graph) (x : NodeId) (name : String) : Option NodeId :=
  (g.values x "properties").find? fun p => g.name? p = some name

/-- The property `p` of `x` stands in the place of the property `q` of `y`, the first of the
ancestors of `x` to declare one of that name. -/
def Redeclares (g : Graph) (x p y q : NodeId) : Prop :=
  ∃ name before after, p ∈ g.values x "properties" ∧ g.name? p = some name ∧
    Lineage.Query.answer (Lineage.ancestors g x) = .ok (before ++ y :: after) ∧
    (∀ b ∈ before, g.declared? b name = none) ∧ g.declared? y name = some q

theorem inherited?_of_first {before after : List NodeId} {name : String}
    (hbefore : ∀ b ∈ before, g.declared? b name = none) (hy : g.declared? y name = some q) :
    Class.inherited? g (before ++ y :: after) name = some (y, q) := by
  unfold declared? at hbefore hy
  have hnone : (before.findSome? fun ancestor =>
      ((g.values ancestor "properties").find? fun p => g.name? p = some name).map (ancestor, ·)) =
        none :=
    List.findSome?_eq_none_iff.2 fun b hb => by rw [hbefore b hb, Option.map_none]
  rw [Class.inherited?, List.findSome?_append, hnone, Option.none_or, List.findSome?_cons, hy]
  rfl

theorem nodup_of_flagRepeats {seen : List String} {ids : List NodeId}
    (h : ∀ r ∈ flagRepeats g seen ids, r.2 = false) :
    (ids.map fun i => (g.name? i).getD "").Nodup ∧ ∀ i ∈ ids, (g.name? i).getD "" ∉ seen := by
  induction ids generalizing seen with
  | nil => simp
  | cons i ids ih =>
    rw [flagRepeats] at h
    have hi : (g.name? i).getD "" ∉ seen := of_decide_eq_false (h _ List.mem_cons_self)
    obtain ⟨hnodup, hseen⟩ := ih fun r hr => h r (List.mem_cons_of_mem _ hr)
    refine ⟨List.nodup_cons.2 ⟨fun hmem => ?_, hnodup⟩, ?_⟩
    · obtain ⟨j, hj, heq⟩ := List.mem_map.1 hmem
      exact hseen j hj (heq ▸ List.mem_cons_self)
    · rintro j (_ | ⟨_, hj⟩)
      · exact hi
      · exact fun hmem => hseen j hj (List.mem_cons_of_mem _ hmem)

/-- Its properties have types, those of a class have distinct names, and a class keeps the types of
those that it inherits. -/
structure Typed (g : Graph) (x : NodeId) : Prop where
  known : ∀ p ∈ g.values x "properties", ∃ t, g.declaredType? p = some t
  distinct : g.classifierPath? x = some Metamodel.class_ → ∀ p ∈ g.values x "properties",
    ∀ q ∈ g.values x "properties", g.name? p = g.name? q → p = q
  kept : g.classifierPath? x = some Metamodel.class_ →
    ∃ as, g.Lineal x as ∧ ∀ p ∈ g.values x "properties", Class.overrideError? g x as p = none

theorem Typed.shares (h : Typed g x) {S : NodeId → Prop} (a : Shares S g g') (hx : S x) :
    Typed g' x := by
  have hproperty := a.closed x hx "properties" (by decide)
  refine ⟨fun p hp => ?_, fun hkind p hp q hq hname => ?_, fun hkind => ?_⟩
  · rw [a.values x hx _ (by decide)] at hp
    rw [a.declaredType? (hproperty p hp)]
    exact h.known p hp
  · rw [a.values x hx _ (by decide)] at hp hq
    rw [a.name? (hproperty p hp), a.name? (hproperty q hq)] at hname
    exact h.distinct ((a.kind x hx).symm.trans hkind) p hp q hq hname
  · obtain ⟨as, has, hkept⟩ := h.kept ((a.kind x hx).symm.trans hkind)
    obtain ⟨has', hS⟩ := a.lineal hx has
    refine ⟨as, has', fun p hp => ?_⟩
    rw [a.values x hx _ (by decide)] at hp
    exact Class.overrideError?_shares a hS (hproperty p hp) (hkept p hp)

theorem Regular.class_of_ancestor (hr : g.Regular K) {s : SourceId} (hx : g.sourceOf? x = some s)
    {as : List NodeId} (has : g.Lineal x as) (hne : as ≠ []) :
    g.classifierPath? x = some Metamodel.class_ := by
  cases has with
  | intro gs ls hgs _ =>
    obtain ⟨a, gs', rfl⟩ : ∃ a gs', gs = a :: gs' := by
      refine List.exists_cons_of_ne_nil fun hnil => hne ?_
      rw [hnil]
      rfl
    obtain ⟨stub, hstub, -⟩ := List.mem_map.1
      (show some a ∈ g.generals x from hgs ▸ List.mem_cons_self)
    rcases (hr.fits x _ stub hstub).generalization rfl with h | h
    · exact h.2
    · simp [hx] at h

theorem Redeclares.mem (h : Redeclares g x p y q) : p ∈ g.values x "properties" := by
  obtain ⟨_, _, _, hp, -⟩ := h
  exact hp

theorem Redeclares.mem_general (h : Redeclares g x p y q) : q ∈ g.values y "properties" := by
  obtain ⟨_, _, _, -, -, -, -, hq⟩ := h
  exact List.mem_of_find?_eq_some hq

theorem Redeclares.type_eq (h : Redeclares g x p y q) (hr : g.Regular K) {s : SourceId}
    (hs : g.lifetime? x = some (.persistent s)) (hx : Typed g x) {t u : NodeId}
    (ht : g.declaredType? p = some t) (hu : g.declaredType? q = some u) : t = u := by
  obtain ⟨name, before, after, hp, hname, hanc, hbefore, hy⟩ := h
  have hlineal := (answer_ancestors hr.toClosed hr.issued (contains_of_lifetime? hs)).1 hanc
  obtain ⟨as, has, hkept⟩ := hx.kept
    (hr.class_of_ancestor (sourceOf?_persistent hs) hlineal (by simp))
  obtain rfl := has.unique hlineal
  refine Class.overrideError?_eq_none.1 (hkept p hp) t ht (y, q) ?_ u hu
  rw [hname]
  exact inherited?_of_first hbefore hy

end Graph

namespace Compiler

variable {c c₁ d : Compiler} {a : Agenda} {report : CompileReport}

def Active (c : Compiler) (x : NodeId) : Prop :=
  ∃ s unit, c.sources.find? s = some unit ∧ unit.state = .active ∧ x ∈ c.graph.persistentNodes s

theorem Compiled.typed (h : Compiled K a report c c₁ d) (hs : c.Ready K)
    (hK : CoversMetamodel K) (hrests : AtRest c)
    (htyped : ∀ x, c.Active x → Typed c.graph x) (hx : d.Active x) : Typed d.graph x := by
  obtain ⟨s, unit, hu, hst, hx⟩ := hx
  have ht := h.lasts.sane.tidy
  have hlife := (ht.persistent_iff s x).1 hx
  by_cases hT : s ∈ a.deleted ++ a.touched
  · have hb := h.mem_batch (sourceOf?_persistent hlife) hT
    obtain ⟨kind, hk, -⟩ := ht.landmark ht.toIndexed (p := Metamodel.type) (by decide)
    have hvalid := fun hkind : d.graph.classifierPath? x = some Metamodel.class_ =>
      (Class.validate_eq_nil ht.toClosed ht.issued (contains_of_lifetime? hlife) hk).1
        (verdict_of_kind (v := .class_) ht.toRegular hkind (by decide +kernel)
          (h.approved hrests hb hu hst hx))
    refine ⟨fun p hp => ?_, fun hkind p hp q hq hname => ?_, fun hkind => (hvalid hkind).2.2⟩
    · have hkind := ((ht.fits x _ p hp).property rfl).2
      exact declaredType?_isSome ht.toRegular h.lasts.sane.whole
        (fun m => h.resolved hb hu (.inr hst) hx hkind) hp
    · have hnodup := (nodup_of_flagRepeats fun r hr => ((hvalid hkind).2.1 r hr).1).1
      exact List.inj_on_of_nodup_map hnodup hp hq (by rw [hname])
  · have hbefore := Trace.sourceOf?_before hs.tidy hK h.trace (sourceOf?_persistent hlife) hT
    rw [h.units hT] at hu
    rw [Trace.persistentNodes hs.tidy hK h.trace hT] at hx
    exact (htyped x ⟨s, unit, hu, hst, hx⟩).shares (h.shares hs hK) (.inr ⟨s, hbefore, hT⟩)

theorem Reached.typed (hc : Reached Call.Succeeds c) (hx : c.Active x) : Typed c.graph x := by
  refine (hc.preserved (K := fun _ => True) (I := fun c => AtRest c ∧
    ∀ x, c.Active x → Typed c.graph x)
    (fun _ _ => trivial) (fun _ _ _ text _ => Content.admissible_any text) (fun _ _ h => h)
    (fun c _ hsources => ?_) (fun c c' ih hg hsources => ?_)
    fun c c₁ c' a report hs _ ih h => ?_).2 x hx
  · refine ⟨fun id unit hu => by simp [hsources, Catalog.find?_empty] at hu, ?_⟩
    rintro x ⟨s, unit, hu, -⟩
    simp [hsources, Catalog.find?_empty] at hu
  · refine ⟨fun id unit hu => ih.1 id unit (hsources ▸ hu), ?_⟩
    unfold Active at ih ⊢
    rw [hg, hsources]
    exact ih.2
  · exact ⟨fun id unit hu => h.rests ih.1 hu, fun x => h.typed hs (fun _ _ => trivial) ih.1 ih.2⟩

theorem Active.lifetime? (hc : c.Ready K) (hx : c.Active x) :
    ∃ s, c.graph.lifetime? x = some (.persistent s) := by
  obtain ⟨s, _, _, _, hx⟩ := hx
  exact ⟨s, (hc.tidy.persistent_iff s x).1 hx⟩

/-- A class of an active source, with one of its properties, and the ancestor with the property that
this one stands for. -/
def Overrides (c : Compiler) (a b : NodeId × NodeId) : Prop :=
  c.Active a.1 ∧ Redeclares c.graph a.1 a.2 b.1 b.2

theorem Overrides.declaredType? (hc : Reached Call.Succeeds c) {a b : NodeId × NodeId}
    (h : c.Overrides a b) {t : NodeId} (ht : c.graph.declaredType? b.2 = some t) :
    c.graph.declaredType? a.2 = some t := by
  obtain ⟨ha, hab⟩ := h
  obtain ⟨s, hs⟩ := ha.lifetime? hc.ready_of_any
  obtain ⟨u, hu⟩ := (hc.typed ha).known a.2 hab.mem
  rw [hu, hab.type_eq hc.ready_of_any.tidy.toRegular hs (hc.typed ha) hu ht]

theorem declaredType?_of_row (hc : Reached Call.Succeeds c) {a b : NodeId × NodeId}
    (h : Relation.TransGen c.Overrides a b) {t : NodeId}
    (ht : c.graph.declaredType? b.2 = some t) : c.graph.declaredType? a.2 = some t := by
  induction h using Relation.TransGen.head_induction_on with
  | single hab => exact hab.declaredType? hc ht
  | head hab _ ih => exact hab.declaredType? hc ih

/-- Where a class of an active source declares again what it inherits, the property has the type
that the first ancestor to declare it has given it, and so on from that one upwards, as long as the
ancestors are of active sources. A class has only one property of that name. -/
theorem redeclared_types_agree (hc : Reached Call.Succeeds c)
    (h : Relation.TransGen c.Overrides (x, p) (y, q)) (hy : c.Active y) :
    (∃ t, c.graph.declaredType? p = some t ∧ c.graph.declaredType? q = some t) ∧
      (c.graph.classifierPath? y = some Metamodel.class_ → ∀ r ∈ c.graph.values y "properties",
        c.graph.name? r = c.graph.name? q → r = q) := by
  have hq : q ∈ c.graph.values y "properties" := by
    obtain ⟨_, -, -, hlast⟩ := Relation.TransGen.tail'_iff.1 h
    exact hlast.mem_general
  obtain ⟨t, ht⟩ := (hc.typed hy).known q hq
  exact ⟨⟨t, declaredType?_of_row hc h ht, ht⟩,
    fun hkind r hr => (hc.typed hy).distinct hkind r hr q hq⟩

theorem active_of_stateOf {s : SourceId} (hs : c.stateOf s = .active)
    (hx : x ∈ c.graph.persistentNodes s) : c.Active x := by
  cases hu : c.sources.find? s with
  | none => simp [stateOf, hu] at hs
  | some unit => exact ⟨s, unit, hu, by simpa [stateOf, hu] using hs, hx⟩

/-- `C` takes `x` from `A`, and it has another type in `B`. -/
def branching : List Call :=
  [.create "general" "Class A { x: String; }\nClass B { x: Integer; }",
    .create "special" "Class C extends A, B { x: String; }\nClass D extends C { x: String; }",
    .compile]

theorem branching_compiles : ∃ c, session branching = some c ∧
    c.stateOf "general" = .active ∧ c.stateOf "special" = .active ∧
    [41, 44] ⊆ c.graph.persistentNodes "general" ∧ [48, 53] ⊆ c.graph.persistentNodes "special" ∧
    [41, 44, 48, 53].map (c.graph.values · "properties") = [[42], [45], [51], [55]] ∧
    [42, 45, 51, 55].map c.graph.name? = [some "x", some "x", some "x", some "x"] ∧
    [48, 53].map (fun i => (Lineage.Query.answer (Lineage.ancestors c.graph i)).toOption) =
      [some [41, 44], some [48, 41, 44]] ∧
    [45, 51].map c.graph.declaredType? = [some 30, some 29] :=
  exists_session (by rw [session, new, spelledOut.2]; decide +kernel)

theorem branching_row_agrees : ∃ c, Reached Call.Succeeds c ∧
    Relation.TransGen c.Overrides (53, 55) (41, 42) ∧ c.Active 41 ∧
    (∃ t, c.graph.declaredType? 55 = some t ∧ c.graph.declaredType? 42 = some t) ∧
    (c.graph.classifierPath? 41 = some Metamodel.class_ → ∀ r ∈ c.graph.values 41 "properties",
      c.graph.name? r = c.graph.name? 42 → r = 42) := by
  obtain ⟨c, hsession, hgeneral, hspecial, hA, hC, hvalues, hnames, hancestors, -⟩ :=
    branching_compiles
  have hc := Reached.of_session hsession
  simp only [List.map_cons, List.map_nil, List.cons.injEq, and_true] at hvalues hnames hancestors
  obtain ⟨hv41, -, hv48, hv53⟩ := hvalues
  obtain ⟨hn42, -, hn51, hn55⟩ := hnames
  have hDC : c.Overrides (53, 55) (48, 51) :=
    ⟨active_of_stateOf hspecial (hC (by decide)), "x", [], [41, 44], by simp [hv53], hn55,
      eq_ok_of_toOption hancestors.2, by simp, by simp [declared?, hv48, hn51]⟩
  have hCA : c.Overrides (48, 51) (41, 42) :=
    ⟨active_of_stateOf hspecial (hC (by decide)), "x", [], [44], by simp [hv48], hn51,
      eq_ok_of_toOption hancestors.1, by simp, by simp [declared?, hv41, hn42]⟩
  have hrow := Relation.TransGen.head hDC (.single hCA)
  have hactive := active_of_stateOf hgeneral (hA (by decide : 41 ∈ [41, 44]))
  exact ⟨c, hc, hrow, hactive, redeclared_types_agree hc hrow hactive⟩

theorem branching_disagrees : ∃ c, Reached Call.Succeeds c ∧ c.Active 48 ∧ c.Active 44 ∧
    Lineage.Query.answer (Lineage.ancestors c.graph 48) = .ok [41, 44] ∧
    51 ∈ c.graph.values 48 "properties" ∧ 45 ∈ c.graph.values 44 "properties" ∧
    c.graph.name? 51 = c.graph.name? 45 ∧
    c.graph.declaredType? 51 = some 29 ∧ c.graph.declaredType? 45 = some 30 := by
  obtain ⟨c, hsession, hgeneral, hspecial, hB, hC, hvalues, hnames, hancestors, htypes⟩ :=
    branching_compiles
  have hc := Reached.of_session hsession
  simp only [List.map_cons, List.map_nil, List.cons.injEq,
    and_true] at hvalues hnames hancestors htypes
  obtain ⟨-, hv44, hv48, -⟩ := hvalues
  obtain ⟨-, hn45, hn51, -⟩ := hnames
  exact ⟨c, hc, active_of_stateOf hspecial (hC (by decide)), active_of_stateOf hgeneral
    (hB (by decide)),
    eq_ok_of_toOption hancestors.1, by simp [hv48], by simp [hv44], hn51.trans hn45.symm,
    htypes.2, htypes.1⟩

end Compiler

end ModelCompiler
