import ModelCompiler.Proofs.Reading
import ModelCompiler.Proofs.Handling.Verdicts

/-!
What validators approve of.
-/
open ModelCompiler.Graph ModelCompiler.Lineage

namespace ModelCompiler.Handler

variable {K : NodeId → Prop} {g g' : Graph} {x y kind ty : NodeId} {S : NodeId → Prop}

section Kinds

def IsKind (g : Graph) (kind x : NodeId) : Prop :=
  ∃ c, g.classifier? x = some c ∧ Below g c kind

variable (hc : g.Closed) (hi : g.Issued)
include hc hi

theorem answer_isInstance : Query.answer (isInstance g x kind) = .ok true ↔ IsKind g kind x := by
  constructor
  · intro h
    obtain ⟨l, hiff, -⟩ := exists_of_answer (isInstance_gives hc hi x kind (valid_empty g)) h
    exact hiff.1 rfl
  · rintro ⟨c, hcl, hbelow⟩
    have hlive := hc.classifier_live x c hcl
    unfold isInstance
    rw [hcl]
    simp only
    rw [(isSubtype_answers hc hi hlive kind).2]
    rcases hbelow with rfl | ⟨as, has, hmem⟩
    · simp
    · split
      · rfl
      · rw [← (ancestors_answers hc hi hlive).2, answer_ancestors_of_lineal hc hi hlive has]
        simp [Except.map, hmem]

theorem answer_ancestors (hx : g.contains x = true) {as : List NodeId} :
    Query.answer (ancestors g x) = .ok as ↔ g.Lineal x as := by
  refine ⟨fun h => ?_, answer_ancestors_of_lineal hc hi hx⟩
  obtain ⟨l, hlineal, -⟩ := exists_of_answer (ancestors_gives hc hi hx (valid_empty g)) h
  exact hlineal

theorem kindErrors_eq_nil {error : CompileError} :
    answer (kindErrors g kind ty error) = [] ↔ IsKind g kind ty := by
  rw [← answer_isInstance hc hi, kindErrors, Query.answer,
    answer_bind (isInstance_steady hc hi ty kind) (by split <;> exact steady_pure _)]
  generalize answer (isInstance g ty kind).run = r
  rcases r with e | b
  · simp
  · cases b <;> simp

theorem answer_isClass : Query.answer (Association.isClass g x) = .ok true ↔ IsClass g x := by
  unfold Association.isClass IsClass
  cases hk : g.lookup Metamodel.class_ with
  | none =>
    simp [Query.answer, answer, pure, ExceptT.pure, ExceptT.mk, StateT.pure, ExceptT.run,
      StateT.run]
  | some kind => simpa [IsKind] using answer_isInstance hc hi

end Kinds

section Approval

variable (hc : g.Closed) (hi : g.Issued)
include hc hi

theorem Association.endErrors_eq_nil {e : NodeId × Option NodeId} :
    answer (Association.endErrors g x e) = [] ↔ ∀ ty ∈ e.2, IsClass g ty := by
  obtain ⟨property, _ | ty⟩ := e
  · simp [Association.endErrors]
  · rw [Association.endErrors, answer_bind (Association.isClass_steady hc hi ty)
      (by split <;> exact steady_pure _)]
    simp only [Option.mem_def, Option.some.injEq, forall_eq', ← answer_isClass hc hi, Query.answer]
    generalize answer (Association.isClass g ty).run = r
    rcases r with e | b
    · simp
    · cases b <;> simp

theorem Association.validate_eq_nil : answer (Association.validate g x) = [] ↔
    (Association.ends g x).length = 2 ∧
      ∀ e ∈ Association.ends g x, ∀ ty ∈ e.2, IsClass g ty := by
  rw [Association.validate, answer_bind_pure,
    (mapM_answers fun e _ => Association.endErrors_steady hc hi e).2, List.append_eq_nil_iff]
  refine and_congr ?_ ?_
  · simp
  · simp only [List.flatten_eq_nil_iff, List.mem_map, forall_exists_index, and_imp,
      forall_apply_eq_imp_iff₂, Association.endErrors_eq_nil hc hi]

theorem Class.generalizationErrors_eq_nil {stub : NodeId} :
    answer (Class.generalizationErrors g kind x stub) = [] ↔
      ∀ t ∈ g.referenced? stub, IsKind g kind t := by
  unfold Class.generalizationErrors
  cases g.referenced? stub with
  | none => simp
  | some t => simp [kindErrors_eq_nil hc hi]

theorem Class.propertyErrors_eq_nil {p : NodeId × Bool} :
    answer (Class.propertyErrors g kind x p) = [] ↔
      p.2 = false ∧ ∀ t ∈ g.declaredType? p.1, IsKind g kind t := by
  obtain ⟨property, repeats⟩ := p
  unfold Class.propertyErrors
  simp only
  cases g.declaredType? property with
  | none => simp
  | some t =>
    simp only [answer_bind_pure, List.append_eq_nil_iff, kindErrors_eq_nil hc hi]
    simp

theorem Class.validate_eq_nil (hx : g.contains x = true)
    (hk : g.lookup Metamodel.type = some kind) :
    answer (Class.validate g x) = [] ↔
      (∀ stub ∈ g.values x "generalizations", ∀ t ∈ g.referenced? stub, IsKind g kind t) ∧
      (∀ p ∈ flagRepeats g [] (g.values x "properties"),
        p.2 = false ∧ ∀ t ∈ g.declaredType? p.1, IsKind g kind t) ∧
      ∃ as, g.Lineal x as ∧ ∀ p ∈ g.values x "properties",
        Class.overrideError? g x as p = none := by
  rw [Class.answer_validate hc hi hk hx, List.append_eq_nil_iff, List.append_eq_nil_iff, and_assoc]
  refine and_congr ?_ (and_congr ?_ ?_)
  · simp only [List.flatten_eq_nil_iff, List.mem_map, forall_exists_index, and_imp,
      forall_apply_eq_imp_iff₂, Class.generalizationErrors_eq_nil hc hi]
  · simp only [List.flatten_eq_nil_iff, List.mem_map, forall_exists_index, and_imp,
      forall_apply_eq_imp_iff₂, Class.propertyErrors_eq_nil hc hi]
  · simp only [← answer_ancestors hc hi hx]
    generalize Query.answer (ancestors g x) = r
    cases r with
    | error e | ok as => simp

omit hc hi in
theorem Class.overrideError?_eq_none {as : List NodeId} {p : NodeId} :
    Class.overrideError? g x as p = none ↔ ∀ t ∈ g.declaredType? p,
      ∀ found ∈ Class.inherited? g as ((g.name? p).getD ""), ∀ former ∈ g.declaredType? found.2,
        t = former := by
  unfold Class.overrideError?
  cases g.declaredType? p with
  | none => simp
  | some t =>
    rcases hin : Class.inherited? g as ((g.name? p).getD "") with _ | ⟨owner, found⟩
    · simp [hin]
    · cases hf : g.declaredType? found <;> simp [hin, hf]

omit hc hi in
theorem Class.overrideError?_shares (a : Shares S g g') {as : List NodeId} (has : ∀ m ∈ as, S m)
    {p : NodeId} (hp : S p) (h : Class.overrideError? g x as p = none) :
    Class.overrideError? g' x as p = none := by
  rw [Class.overrideError?_eq_none] at h ⊢
  rw [a.declaredType? hp, a.name? hp, a.inherited? has]
  intro t ht found hfound former hformer
  rw [a.declaredType? (a.of_inherited? has hfound)] at hformer
  exact h t ht found hfound former hformer

theorem Function.validate_eq_nil (hk : g.lookup Metamodel.type = some kind) :
    answer (Function.validate g x) = [] ↔ repeated g (g.values x "parameters") = [] ∧
      ∀ use ∈ Function.typeUses g x, IsKind g kind use.2 := by
  rw [Function.validate, hk]
  simp only
  rw [answer_bind_pure, (mapM_answers fun use _ => kindErrors_steady hc hi _ use.2 _).2,
    List.append_eq_nil_iff, Function.parameterErrors, List.map_eq_nil_iff]
  refine and_congr_right fun _ => ?_
  simp only [List.flatten_eq_nil_iff, List.mem_map, forall_exists_index, and_imp,
    forall_apply_eq_imp_iff₂, kindErrors_eq_nil hc hi]

omit hc hi in
theorem accessErrors_eq_nil : accessErrors g x = [] ↔ (accessLevels g x).length ≤ 1 ∧
    ∀ viewer ∈ g.packagePath? x, ∀ stub ∈ g.ownedBy x, g.isImportStub stub = true →
      ∀ target ∈ g.value? stub "resolvedNode", seesTarget g viewer x target = true := by
  have herror (viewer : Path) (stub : NodeId) : accessError? g viewer x stub = none ↔
      (g.isImportStub stub = true →
        ∀ target ∈ g.value? stub "resolvedNode", seesTarget g viewer x target = true) := by
    unfold accessError?
    by_cases hstub : g.isImportStub stub = true
    · cases htarget : g.value? stub "resolvedNode" <;> simp [hstub]
    · simp [hstub]
  unfold accessErrors
  cases g.packagePath? x with
  | none => simp
  | some viewer => simp [List.filterMap_eq_nil_iff, herror]

end Approval

section Views

theorem mem_of_mem_flagRepeats {seen : List String} {ids : List NodeId} {p : NodeId × Bool}
    (h : p ∈ flagRepeats g seen ids) : p.1 ∈ ids := by
  induction ids generalizing seen with
  | nil => simp [flagRepeats] at h
  | cons m ids ih =>
    rw [flagRepeats, List.mem_cons] at h
    rcases h with rfl | h
    · exact List.mem_cons_self
    · exact List.mem_cons_of_mem _ (ih h)

/-- Both graphs share the nodes `S`, and they agree on what stands around these: their parts and
their kinds, which belong to `S`, their packages, and the landmarks of the metamodel. -/
structure Views (S : NodeId → Prop) (g g' : Graph) : Prop extends Shares S g g' where
  owned : ∀ m, S m → g'.ownedBy m = g.ownedBy m
  part : ∀ m, S m → ∀ v ∈ g.ownedBy m, S v
  home : ∀ m, S m → g'.packagePath? m = g.packagePath? m
  classifier : ∀ m k, S m → g.classifier? m = some k → S k
  landmark : ∀ p ∈ Metamodel.landmarks, g'.lookup p = g.lookup p

namespace Views

variable (a : Views S g g')
include a

theorem isKind (hx : S x) (h : IsKind g kind x) : IsKind g' kind x := by
  obtain ⟨c, hc, hbelow⟩ := h
  exact ⟨c, (classifier?_of_bare (a.bare x hx)).trans hc, a.below (a.classifier x c hx hc) hbelow⟩

theorem flagRepeats {ids : List NodeId} (hids : ∀ m ∈ ids, S m) (seen : List String) :
    flagRepeats g' seen ids = flagRepeats g seen ids := by
  induction ids generalizing seen with
  | nil => rfl
  | cons m ids ih =>
    have hname := a.name? (hids m List.mem_cons_self)
    have hrest := ih fun v hv => hids v (List.mem_cons_of_mem _ hv)
    simp only [Handler.flagRepeats, hname, hrest]

theorem repeated {ids : List NodeId} (hids : ∀ m ∈ ids, S m) :
    repeated g' ids = repeated g ids := by
  rw [Handler.repeated, Handler.repeated, a.flagRepeats hids]

theorem accessLevels {m : NodeId} (hm : S m) : accessLevels g' m = accessLevels g m := by
  rw [Handler.accessLevels, Handler.accessLevels, a.values m hm _ (by decide)]
  refine List.filterMap_congr fun s hs => ?_
  rw [path?_of_bare (a.bare s (a.closed m hm _ (by decide) s hs))]

theorem seesTarget {target : NodeId} (ht : S target) (viewer : Path) :
    seesTarget g' viewer x target = seesTarget g viewer x target := by
  rw [Handler.seesTarget, Handler.seesTarget, a.home target ht, a.accessLevels ht]

theorem typeUses (hx : S x) : Function.typeUses g' x = Function.typeUses g x ∧
    ∀ use ∈ Function.typeUses g x, S use.2 := by
  have hparameters := a.closed x hx "parameters" (by decide)
  have hreturn {stub : NodeId} (hstub : stub ∈ (g.value? x "returnType").toList) : S stub :=
    a.of_value? hx (by decide) (Option.mem_toList.1 hstub)
  constructor
  · rw [Function.typeUses, Function.typeUses, a.values x hx _ (by decide), a.value? hx (by decide)]
    congr 1
    · exact List.filterMap_congr fun p hp => by rw [a.declaredType? (hparameters p hp)]
    · exact List.filterMap_congr fun stub hstub => by rw [a.referenced? (hreturn hstub)]
  · intro use huse
    rw [Function.typeUses, List.mem_append, List.mem_filterMap, List.mem_filterMap] at huse
    rcases huse with ⟨p, hp, huse⟩ | ⟨stub, hstub, huse⟩
    · obtain ⟨t, ht, rfl⟩ := Option.map_eq_some_iff.1 huse
      exact a.of_declaredType? (hparameters p hp) ht
    · obtain ⟨t, ht, rfl⟩ := Option.map_eq_some_iff.1 huse
      exact a.of_referenced? (hreturn hstub) ht

variable (hr : g.Regular K) (hr' : g'.Regular K) (hx : S x) (hlive : g.contains x = true)
include hr hr' hx

include hlive in
theorem class_ (h : answer (Class.validate g x) = []) : answer (Class.validate g' x) = [] := by
  obtain ⟨kind, hk, -⟩ := hr.landmark hr.toIndexed (p := Metamodel.type) (by decide)
  have hk' := (a.landmark Metamodel.type (by decide)).trans hk
  rw [Class.validate_eq_nil hr.toClosed hr.issued hlive hk] at h
  rw [Class.validate_eq_nil hr'.toClosed hr'.issued ((a.contains hx).trans hlive) hk',
    a.values x hx _ (by decide), a.values x hx _ (by decide)]
  obtain ⟨hgenerals, hproperties, as, has, hoverrides⟩ := h
  have hstubs := a.closed x hx "generalizations" (by decide)
  have hproperty := a.closed x hx "properties" (by decide)
  obtain ⟨has', hS⟩ := a.lineal hx has
  refine ⟨fun stub hstub t ht => ?_, fun p hp => ?_, as, has', fun p hp => ?_⟩
  · rw [a.referenced? (hstubs stub hstub)] at ht
    exact a.isKind (a.of_referenced? (hstubs stub hstub) ht) (hgenerals stub hstub t ht)
  · rw [a.flagRepeats hproperty] at hp
    have hSp := hproperty _ (mem_of_mem_flagRepeats hp)
    refine ⟨(hproperties p hp).1, fun t ht => ?_⟩
    rw [a.declaredType? hSp] at ht
    exact a.isKind (a.of_declaredType? hSp ht) ((hproperties p hp).2 t ht)
  · exact Class.overrideError?_shares a.toShares hS (hproperty p hp) (hoverrides p hp)

theorem association (h : answer (Association.validate g x) = []) :
    answer (Association.validate g' x) = [] := by
  rw [Association.validate_eq_nil hr.toClosed hr.issued] at h
  rw [Association.validate_eq_nil hr'.toClosed hr'.issued, a.ends hx]
  refine ⟨h.1, fun e he ty hty => ?_⟩
  have hend : S ty := by
    obtain ⟨hp, htype⟩ := mem_ends.1 (show (e.1, some ty) ∈ Association.ends g x from by
      rwa [← Option.mem_def.1 hty])
    exact a.of_declaredType? (a.closed x hx _ (by decide) _ hp) htype
  exact a.isClass a.classifier (a.landmark _ (by decide)) hend (h.2 e he ty hty)

omit hr hr' in
theorem enumeration (h : Enumeration.validate g x = []) : Enumeration.validate g' x = [] := by
  rw [Enumeration.validate, List.map_eq_nil_iff] at h ⊢
  rwa [a.values x hx _ (by decide), a.repeated (a.closed x hx _ (by decide))]

theorem function (h : answer (Function.validate g x) = []) :
    answer (Function.validate g' x) = [] := by
  obtain ⟨kind, hk, -⟩ := hr.landmark hr.toIndexed (p := Metamodel.type) (by decide)
  have hk' := (a.landmark Metamodel.type (by decide)).trans hk
  rw [Function.validate_eq_nil hr.toClosed hr.issued hk] at h
  rw [Function.validate_eq_nil hr'.toClosed hr'.issued hk', a.values x hx _ (by decide),
    a.repeated (a.closed x hx _ (by decide)), (a.typeUses hx).1]
  exact ⟨h.1, fun use huse => a.isKind ((a.typeUses hx).2 use huse) (h.2 use huse)⟩

include hlive in
theorem approves {v : Validator} (h : v.verdict g x = []) : v.verdict g' x = [] := by
  cases v with
  | class_ => exact a.class_ hr hr' hx hlive h
  | association => exact a.association hr hr' hx h
  | enumeration => exact a.enumeration hx h
  | function => exact a.function hr hr' hx h
  | idle | recipe r => rfl

omit hr hr' in
theorem accessErrors (h : accessErrors g x = []) : accessErrors g' x = [] := by
  rw [accessErrors_eq_nil] at h ⊢
  rw [a.accessLevels hx, a.home x hx, a.owned x hx]
  refine ⟨h.1, fun viewer hviewer stub hstub himport target htarget => ?_⟩
  have hS := a.part x hx stub hstub
  rw [a.isImportStub hS] at himport
  rw [a.value? hS (by decide)] at htarget
  rw [a.seesTarget (a.of_value? hS (by decide) htarget)]
  exact h.2 viewer hviewer stub hstub himport target htarget

end Views

end Views

end ModelCompiler.Handler
