import ModelCompiler.Proofs.Compiling.Core
import ModelCompiler.Proofs.Handling.Approval
import ModelCompiler.Proofs.Lineage.Memory
import ModelCompiler.Proofs.Slots.Renaming

/-!
What is read of graphs that are the same up to names.
-/
open ModelCompiler.Graph ModelCompiler.Lineage ModelCompiler.Handler

namespace ModelCompiler

variable {g : Graph} {K : NodeId → Prop}

section Lists

variable {α β γ δ : Type}

theorem eraseDups_map {π : NodeId → NodeId} (hπ : Function.Injective π) :
    ∀ l : List NodeId, (l.map π).eraseDups = l.eraseDups.map π
  | [] => rfl
  | x :: l => by
    have hfilter : (l.map π).filter (fun y => !(y == π x)) =
        (l.filter fun y => !(y == x)).map π := by
      rw [List.filter_map]
      congr 1
      refine List.filter_congr fun y _ => ?_
      simp [hπ.eq_iff]
    have hlen : (l.filter fun y => !(y == x)).length < l.length + 1 :=
      Nat.lt_succ_of_le (List.length_filter_le _ l)
    rw [List.map_cons, List.eraseDups_cons, List.eraseDups_cons, hfilter, eraseDups_map hπ,
      List.map_cons]
termination_by l => l.length

theorem mapM_map_except {ρ : α → β} {k : γ → δ} {f : α → Except CompileError γ}
    {f' : β → Except CompileError δ} : ∀ {xs : List α}, (∀ x ∈ xs, f' (ρ x) = (f x).map k) →
      (xs.map ρ).mapM f' = (xs.mapM f).map (List.map k)
  | [], _ => rfl
  | x :: xs, h => by
    rw [List.map_cons, List.mapM_cons, List.mapM_cons, h x List.mem_cons_self,
      mapM_map_except fun y hy => h y (List.mem_cons_of_mem _ hy)]
    cases f x with
    | error e => rfl
    | ok c => cases xs.mapM f <;> rfl

end Lists

theorem Graph.Regular.named_of_lineal (hr : g.Regular K) {ty : NodeId}
    {l : List NodeId} (hl : g.Lineal ty l) : ∀ x ∈ l, g.Named x := by
  induction hl with
  | intro gs ls hgs _ ih =>
    intro x hx
    rcases List.mem_append.1 (List.mem_eraseDups.1 hx) with hx | hx
    · exact hr.named_general (hgs ▸ List.mem_map_of_mem hx)
    · obtain ⟨y, hy, hx⟩ := List.mem_flatMap.1 hx
      exact ih y hy x hx

theorem Graph.Regular.named_of_typeUses (hr : g.Regular K)
    {id : NodeId} {use : NodeId × NodeId} (huse : use ∈ Function.typeUses g id) :
    g.Named use.2 := by
  rcases List.mem_append.1 huse with huse | huse
  · obtain ⟨parameter, -, hp⟩ := List.mem_filterMap.1 huse
    obtain ⟨ty, hty, rfl⟩ := Option.map_eq_some_iff.1 hp
    exact hr.named_type hty
  · obtain ⟨stub, hstub, hs⟩ := List.mem_filterMap.1 huse
    obtain ⟨ty, hty, rfl⟩ := Option.map_eq_some_iff.1 hs
    have hmem : stub ∈ g.values id "returnType" := List.mem_of_mem_head? (Option.mem_toList.1 hstub)
    exact hr.named_of_referenced ((hr.fits id _ stub hmem).refers (.inr rfl)) hty

def Handler.Binding.relabel (π : NodeId → NodeId) (b : Binding) : Binding :=
  ⟨π b.node, b.property, π b.value⟩

namespace Dispatch

variable {η : Type} {g : Graph}

theorem mem_of_found {table : Table Path η} (hu : g.Upheld) {id : NodeId} {x : η} {origin : Origin}
    (hf : found table g id = .ok (some x, origin)) : ∃ e ∈ table.entries, e.2 = x := by
  have hgives := @find_gives _ table _ hu.toClosed hu.issued id _ (valid_empty g)
  have hrun : ((find table g id).run.run ∅).1 = .ok (some x, origin) := hf
  unfold Gives Recalls at hgives
  generalize (find table g id).run.run ∅ = out at hgives hrun
  obtain ⟨r, l⟩ := out
  subst hrun
  obtain ⟨p, hp⟩ := Finds.mem hgives.1
  exact ⟨_, Table.mem_entries_of_find? hp, rfl⟩

theorem orDemand_answers (phase : Phase) (default : η) (id : NodeId) (r : Option η × Origin) :
    Steady g (orDemand phase default g id r).run ∧
      ∀ a, Query.answer (orDemand phase default g id r) = .ok a → r.1 = some a.1 ∨
        a.1 = default := by
  obtain ⟨_ | x, origin⟩ := r
  · unfold orDemand
    simp only
    split
    · split
      · exact ⟨steady_pure _, fun a ha => by cases ha⟩
      · exact ⟨steady_pure _, fun a ha => .inr (by rw [← Except.ok.inj ha])⟩
    · exact ⟨steady_pure _, fun a ha => .inr (by rw [← Except.ok.inj ha])⟩
  · exact ⟨steady_pure _, fun a ha => .inl (by rw [← Except.ok.inj ha])⟩

section Steady

variable (hu : g.Upheld) (d : Dispatch) (id : NodeId)
include hu

theorem walker_steady : Steady g (d.walker g id).run :=
  (query_bind_answers (find_steady hu.toClosed hu.issued d.walkers id) fun _ _ => steady_pure _).1

theorem unbinder_steady : Steady g (d.unbinder g id).run :=
  (query_bind_answers (find_steady hu.toClosed hu.issued d.unbinders id) fun _ _ => steady_pure _).1

theorem processor_steady : Steady g (d.processor g id).run :=
  (query_bind_answers (find_steady hu.toClosed hu.issued d.processors id)
    fun r _ => (orDemand_answers _ _ id r).1).1

end Steady

theorem binder_plain (hu : g.Upheld) (id : NodeId) : Steady g (coreDispatch.binder g id).run ∧
    ∀ a, Query.answer (coreDispatch.binder g id) = .ok a → ∀ r, a.1 ≠ .recipe r := by
  obtain ⟨hs, ha⟩ := query_bind_answers (find_steady hu.toClosed hu.issued coreDispatch.binders id)
    fun r _ => (orDemand_answers .bind Binder.idle id r).1
  refine ⟨hs, fun a h => ?_⟩
  rw [Dispatch.binder, ha] at h
  obtain ⟨⟨found, origin⟩, hfound, h⟩ := exists_of_bind_ok h
  rcases (orDemand_answers _ _ _ _).2 a h with hsome | hdefault
  · obtain ⟨e, he, heq⟩ := mem_of_found hu (hfound.trans (by rw [← hsome]))
    have hcore : ∀ e ∈ coreDispatch.binders.entries, ∀ r, e.2 ≠ .recipe r := by simp [coreDispatch]
    exact heq ▸ hcore e he
  · simp [hdefault]

end Dispatch

namespace Graph.SameUpTo

variable {π : NodeId → NodeId} {g h : Graph} (e : SameUpTo π g h) {K : NodeId → Prop} {ty : NodeId}
  {p : Path}
include e

section Names

open Resolution

variable (stub : NodeId) (identifier : String)

theorem elementAt? (path : String) : elementAt? h path = (elementAt? g path).map π := by
  simp only [Resolution.elementAt?, e.lookupText, Option.filter_map, Function.comp_def, e.isPackage]

theorem homePackage? : homePackage? h (π stub) = homePackage? g stub := by
  simp only [Resolution.homePackage?, e.ownerRoot?]
  cases g.ownerRoot? stub with
  | none => rfl
  | some o => exact e.packagePath? o

theorem scope : scope h (π stub) = scope g stub := by
  simp only [Resolution.scope, e.value?, e.homePackage?]
  cases g.value? stub "importGroup" with
  | none => rfl
  | some group =>
    simp only [Option.map_some, e.values, List.filterMap_map, Function.comp_def, e.name?]

theorem matching : matching h (π stub) identifier = (matching g stub identifier).map π := by
  simp only [Resolution.matching, e.scope, e.elementAt?, ← List.map_filterMap,
    eraseDups_map e.injective]

theorem candidates (home : Option Path) :
    candidates h home identifier = candidates g home identifier := by
  simp only [Resolution.candidates, e.elementsNamed, List.filterMap_map, Function.comp_def, e.path?]

theorem unresolved : unresolved h (π stub) identifier = unresolved g stub identifier := by
  simp only [Resolution.unresolved, e.spanOf, e.homePackage?, e.candidates]

theorem orUnresolved (found : Option NodeId) : orUnresolved h (π stub) identifier (found.map π) =
    (orUnresolved g stub identifier found).map π := by
  cases found with
  | none => simp only [Option.map_none, Resolution.orUnresolved, e.unresolved]; rfl
  | some id => rfl

theorem resolveBare : resolveBare h (π stub) identifier =
    (resolveBare g stub identifier).map π := by
  unfold Resolution.resolveBare
  rw [e.matching]
  rcases Resolution.matching g stub identifier with _ | ⟨a, _ | ⟨b, ids⟩⟩
  · simp only [List.map_nil, e.elementAt?, e.orUnresolved]
  · rfl
  · simp only [List.map_cons, List.filterMap_cons, List.filterMap_map, Function.comp_def, e.path?,
      e.spanOf]
    rfl

theorem resolve : resolve h (π stub) = (resolve g stub).map π := by
  unfold Resolution.resolve
  simp only [e.name?, e.elementAt?, e.orUnresolved, e.resolveBare]
  split
  · rfl
  · split
    · cases Resolution.elementAt? g ((g.name? stub).getD "") <;> rfl
    · rfl

end Names

section Elements

theorem openStubs (id : NodeId) : openStubs h (π id) = (openStubs g id).map π := by
  simp only [Handler.openStubs, e.ownedBy, List.filter_map, Function.comp_def, e.isImportStub,
    e.value?, Option.isNone_map]

theorem bindElement (id : NodeId) :
    bindElement h (π id) = (bindElement g id).map (List.map (Binding.relabel π)) := by
  unfold Handler.bindElement
  simp only [e.openStubs, List.filterMap_map, Function.comp_def, e.resolve]
  rw [apply_ite (Except.map _)]
  refine if_congr (iff_of_eq (congrArg (fun l : List CompileError => l.isEmpty = true) ?_)) ?_
    (congrArg Except.error ?_)
  · exact List.filterMap_congr fun stub _ => by cases Resolution.resolve g stub <;> rfl
  · refine congrArg Except.ok ?_
    rw [List.map_filterMap]
    exact List.filterMap_congr fun stub _ => by cases Resolution.resolve g stub <;> rfl
  · exact List.filterMap_congr fun stub _ => by cases Resolution.resolve g stub <;> rfl

theorem accessLevels (id : NodeId) : accessLevels h (π id) = accessLevels g id := by
  simp only [Handler.accessLevels, e.values, List.filterMap_map, Function.comp_def, e.path?]

theorem seesTarget (viewer : Path) (id target : NodeId) :
    seesTarget h viewer (π id) (π target) = seesTarget g viewer id target := by
  simp only [Handler.seesTarget, e.injective.eq_iff, e.packagePath?, e.accessLevels]

theorem accessErrors {id : NodeId} (hp : g.path? id = some p)
    (htarget : ∀ stub target, g.value? stub "resolvedNode" = some target →
      ∃ q, g.path? target = some q) : accessErrors h (π id) = accessErrors g id := by
  have herror (viewer : Path) (stub : NodeId) :
      accessError? h viewer (π id) (π stub) = accessError? g viewer id stub := by
    unfold Handler.accessError?
    rw [e.isImportStub, e.value?, e.spanOf, e.describe id hp]
    cases hv : g.value? stub "resolvedNode" with
    | none => rfl
    | some target =>
      obtain ⟨q, hq⟩ := htarget stub target hv
      simp only [Option.map_some, e.seesTarget, e.describe target hq]
  unfold Handler.accessErrors
  simp only [e.accessLevels, e.spanOf, e.describe id hp, e.packagePath?, e.ownedBy,
    List.filterMap_map, Function.comp_def, herror]

theorem flagRepeats : ∀ (seen : List String) (ids : List NodeId),
    flagRepeats h seen (ids.map π) = (flagRepeats g seen ids).map fun p => (π p.1, p.2)
  | _, [] => rfl
  | seen, id :: ids => by
    simp only [List.map_cons, Handler.flagRepeats, e.name?, flagRepeats _ ids]

theorem repeated (ids : List NodeId) : repeated h (ids.map π) = (repeated g ids).map π := by
  simp only [Handler.repeated, e.flagRepeats, List.filter_map, List.map_map, Function.comp_def]

end Elements

section Lineages

theorem general (owner node : NodeId) :
    Lineage.general h (π owner) (π node) = (Lineage.general g owner node).map π := by
  simp only [Lineage.general, e.referenced?, unboundSpan, e.span?, e.name?]
  cases g.referenced? node <;> rfl

theorem direct (hty : g.contains ty = true) :
    Lineage.direct h (π ty) = (Lineage.direct g ty).map (List.map π) := by
  rw [Lineage.direct, Lineage.direct, e.contains, if_pos hty, if_pos hty, e.values]
  exact mapM_map_except fun v _ => e.general ty v

theorem cycleError {way : List NodeId} (hpath : ∀ x ∈ way ++ [ty], ∃ p, g.path? x = some p) :
    cycleError h (way.map π) (π ty) = cycleError g way ty := by
  have hspan : cycleSpan h (way.map π) (π ty) = cycleSpan g way ty := by
    rw [cycleSpan, cycleSpan, ← List.map_cons, List.findSome?_map]
    simp only [Function.comp_def, e.span?]
  rw [Lineage.cycleError, Lineage.cycleError, hspan, ← List.map_singleton, ← List.map_append,
    List.map_map]
  congr 1
  refine List.map_congr_left fun x hx => ?_
  obtain ⟨p, hp⟩ := hpath x hx
  exact e.describe x hp

theorem localize {stub general : NodeId} (hp : g.path? general = some p) :
    localize h (π ty) (π stub) (π general) = localize g ty stub general := by
  funext x
  have hforeign : Lineage.isForeign h (π ty) x = Lineage.isForeign g ty x := by
    simp only [Lineage.isForeign, e.sourceOf?]
  simp only [Lineage.localize, hforeign, e.span?, e.describe general hp]

theorem dropWhile_ne (ty : NodeId) (way : List NodeId) :
    (way.map π).dropWhile (fun x => decide (x ≠ π ty)) =
      (way.dropWhile fun x => decide (x ≠ ty)).map π := by
  rw [List.dropWhile_map]
  congr 2
  funext x
  simp [e.injective.eq_iff]

theorem climb (hr : g.Regular K) : ∀ {fuel fuel' : Nat} {way : List NodeId} {ty : NodeId},
    Climbing g fuel way → Climbing h fuel' (way.map π) →
    (∀ x ∈ way ++ [ty], ∃ p, g.path? x = some p) →
    climb h fuel' (way.map π) (π ty) = (climb g fuel way ty).map (List.map π)
  | 0, _, _, _, hc, _, _ => absurd rfl hc.fuel_ne_zero
  | _, 0, _, _, _, hc, _ => absurd rfl hc.fuel_ne_zero
  | fuel + 1, fuel' + 1, way, ty, hc, hc', hpath => by
    obtain ⟨p, hp⟩ := hpath ty (by simp)
    have hty : g.contains ty = true := contains_of_path? hp
    have hmem : π ty ∈ way.map π ↔ ty ∈ way := e.mem_map
    by_cases hway : ty ∈ way
    · rw [Lineage.climb, Lineage.climb, if_pos hway, if_pos (hmem.2 hway),
        e.dropWhile_ne, e.cycleError]
      · rfl
      · intro x hx
        refine hpath x ?_
        rcases List.mem_append.1 hx with hx | hx
        · exact List.mem_append_left _ ((List.dropWhile_sublist _).mem hx)
        · exact List.mem_append_right _ hx
    · rcases direct_cases hty with ⟨gs, hgs, hgenerals⟩ | ⟨x, hx, -⟩
      · have hgs' : Lineage.direct h (π ty) = .ok (gs.map π) := by
          rw [e.direct hty, hgs]
          rfl
        have hinherited : (((g.values ty "generalizations").zip gs).map
            (Prod.map π π)).mapM (fun p =>
              (Lineage.climb h fuel' (way.map π ++ [π ty]) p.2).mapError
                (Lineage.localize h (π ty) p.1 p.2)) =
            (((g.values ty "generalizations").zip gs).mapM fun p =>
              (Lineage.climb g fuel (way ++ [ty]) p.2).mapError
                (Lineage.localize g ty p.1 p.2)).map (List.map (List.map π)) := by
          refine mapM_map_except fun p hp => ?_
          have hgeneral : some p.2 ∈ g.generals ty := by
            rw [hgenerals]
            exact List.mem_map_of_mem (List.of_mem_zip hp).2
          obtain ⟨q, hq⟩ := (hr.named_general hgeneral).path
          have hup : Climbing h fuel' ((way ++ [ty]).map π) := by
            rw [List.map_append]
            exact hc'.succ (mt hmem.1 hway) (by rwa [e.contains])
          have hnext := climb hr (hc.succ hway hty) hup fun x hx => by
            rcases List.mem_append.1 hx with hx | hx
            · exact hpath x hx
            · exact ⟨q, (List.mem_singleton.1 hx) ▸ hq⟩
          rw [List.map_append, List.map_singleton] at hnext
          simp only [Prod.map, e.localize hq, hnext]
          cases Lineage.climb g fuel (way ++ [ty]) p.2 <;> rfl
        rw [climb_succ hway hgs, climb_succ (mt hmem.1 hway) hgs', e.values,
          List.zip_map, hinherited]
        cases ((g.values ty "generalizations").zip gs).mapM fun p =>
            (Lineage.climb g fuel (way ++ [ty]) p.2).mapError (Lineage.localize g ty p.1 p.2) with
        | error x => rfl
        | ok inherited =>
          simp only [Except.map, ← List.map_flatten, ← List.map_append, eraseDups_map e.injective]
      · have hx' : Lineage.direct h (π ty) = .error x := by
          rw [e.direct hty, hx]
          rfl
        rw [Lineage.climb, Lineage.climb, if_neg hway, if_neg (mt hmem.1 hway), hx, hx']
        rfl

end Lineages

section Queries

variable (hr : g.Regular K) (hr' : h.Regular K)
include hr hr'

theorem answer_ancestors (hp : g.path? ty = some p) :
    Query.answer (ancestors h (π ty)) = (Query.answer (ancestors g ty)).map (List.map π) := by
  have hty : g.contains ty = true := contains_of_path? hp
  rw [(ancestors_answers hr.toClosed hr.issued hty).2,
    (ancestors_answers hr'.toClosed hr'.issued (e.contains ty ▸ hty)).2]
  refine e.climb hr (.start g) (.start h) fun x hx => ⟨p, ?_⟩
  rw [List.nil_append, List.mem_singleton] at hx
  rwa [hx]

theorem answer_isSubtype {sub : NodeId} (hp : g.path? sub = some p) (sup : NodeId) :
    Query.answer (isSubtype h (π sub) (π sup)) = Query.answer (isSubtype g sub sup) := by
  have hsub : g.contains sub = true := contains_of_path? hp
  have hancestors := e.answer_ancestors hr hr' hp
  rw [(ancestors_answers hr.toClosed hr.issued hsub).2,
    (ancestors_answers hr'.toClosed hr'.issued (e.contains sub ▸ hsub)).2] at hancestors
  rw [(isSubtype_answers hr.toClosed hr.issued hsub sup).2,
    (isSubtype_answers hr'.toClosed hr'.issued (e.contains sub ▸ hsub) (π sup)).2, hancestors]
  simp only [e.injective.eq_iff]
  split
  · rfl
  · cases Lineage.climb g (g.slots.size + 2) [] sub with
    | error x => rfl
    | ok as =>
      simp only [Except.map, List.contains_eq_mem, e.mem_map]

theorem answer_isInstance (id sup : NodeId) :
    Query.answer (isInstance h (π id) (π sup)) = Query.answer (isInstance g id sup) := by
  unfold Lineage.isInstance
  rw [e.classifier?]
  cases hc : g.classifier? id with
  | none => rfl
  | some c =>
    obtain ⟨p, hp⟩ := (hr.kind id c hc).2
    exact e.answer_isSubtype hr hr' hp sup

theorem answer_isClass (id : NodeId) :
    Query.answer (Association.isClass h (π id)) = Query.answer (Association.isClass g id) := by
  unfold Association.isClass
  rw [e.lookup]
  cases g.lookup Metamodel.class_ with
  | none => rfl
  | some kind => exact e.answer_isInstance hr hr' id kind

omit hr hr' in
theorem ownProperty? (ty : NodeId) (name : String) :
    ownProperty? h (π ty) name = (ownProperty? g ty name).map π := by
  simp only [Lineage.ownProperty?, e.values, ← List.map_append, List.find?_map, Function.comp_def,
    e.name?]

theorem answer_findProperty (hp : g.path? ty = some p) (name : String) :
    Query.answer (findProperty h (π ty) name) =
      (Query.answer (findProperty g ty name)).map (Option.map π) := by
  have hty : g.contains ty = true := contains_of_path? hp
  have hancestors := e.answer_ancestors hr hr' hp
  rw [(ancestors_answers hr.toClosed hr.issued hty).2,
    (ancestors_answers hr'.toClosed hr'.issued (e.contains ty ▸ hty)).2] at hancestors
  rw [(findProperty_answers hr.toClosed hr.issued hty name).2,
    (findProperty_answers hr'.toClosed hr'.issued (e.contains ty ▸ hty) name).2, hancestors]
  cases Lineage.climb g (g.slots.size + 2) [] ty with
  | error x => rfl
  | ok as =>
    simp only [Except.map, ← List.map_cons, List.findSome?_map, Function.comp_def, e.ownProperty?,
      List.map_findSome?]

end Queries

section Dispatch

open Dispatch

variable (hr : g.Regular K) (hr' : h.Regular K) {η : Type} (table : Table Path η) (id : NodeId)

omit hr hr' in
theorem handlerAt? : handlerAt? table h (π id) = handlerAt? table g id := by
  simp only [Dispatch.handlerAt?, e.path?]

include hr hr'

theorem found : Dispatch.found table h (π id) = Dispatch.found table g id := by
  unfold Dispatch.found Dispatch.find
  rw [e.classifier?]
  cases hc : g.classifier? id with
  | none => rfl
  | some c =>
    obtain ⟨p, hp⟩ := (hr.kind id c hc).2
    have hlive : g.contains c = true := contains_of_path? hp
    simp only [Option.map_some, e.handlerAt?]
    split
    · rfl
    · split
      · rfl
      · rw [(query_bind_answers (ancestors_answers hr.toClosed hr.issued hlive).1 ?_).2,
          (query_bind_answers (ancestors_answers hr'.toClosed hr'.issued
            (e.contains c ▸ hlive)).1 ?_).2, e.answer_ancestors hr hr' hp]
        · cases Query.answer (ancestors g c) with
          | error x => rfl
          | ok as =>
            simp only [Except.map, bind, Except.bind, List.findSome?_map,
              Function.comp_def, e.handlerAt?]
        · intro b _
          split <;> exact steady_pure _
        · intro b _
          split <;> exact steady_pure _

theorem answer_find_bind {α : Type} {f f' : Option η × Origin → Query α}
    (hs : ∀ r, Steady g (f r).run) (hs' : ∀ r, Steady h (f' r).run)
    (hf : ∀ r, Query.answer (f' r) = Query.answer (f r)) :
    Query.answer (find table h (π id) >>= f') = Query.answer (find table g id >>= f) := by
  rw [(query_bind_answers (find_steady hr.toClosed hr.issued table id) fun r _ => hs r).2,
    (query_bind_answers (find_steady hr'.toClosed hr'.issued table (π id)) fun r _ => hs' r).2]
  have hfound := e.found hr hr' table id
  unfold Dispatch.found at hfound
  rw [hfound]
  cases Query.answer (find table g id) with
  | error x => rfl
  | ok r => exact hf r

omit hr hr' in
theorem answer_orDemand (phase : Phase) (default : η) (r : Option η × Origin) :
    Query.answer (orDemand phase default h (π id) r) =
      Query.answer (orDemand phase default g id r) := by
  obtain ⟨_ | x, origin⟩ := r
  · have hkind : unrecognized h phase (π id) = unrecognized g phase id := by
      simp only [unrecognized, e.classifierPath?, e.span?]
    have hbare := e.bare id
    simp only [orDemand, hkind]
    cases hn : g.node? id with
    | none =>
      have hn' : h.node? (π id) = none := by simpa [hn] using hbare
      rw [hn']
    | some n =>
      obtain ⟨m, hm, hmn⟩ := Option.map_eq_some_iff.1 (hbare.trans (by rw [hn]; rfl))
      have hlifetime : m.lifetime = n.lifetime.rename π := (congrArg Node.lifetime hmn :)
      have hpersistent : m.lifetime.isPersistent = n.lifetime.isPersistent := by
        rw [hlifetime]
        cases n.lifetime <;> rfl
      simp only [hm, hpersistent]
  · rfl

theorem answer_binder (d : Dispatch) :
    Query.answer (d.binder h (π id)) = Query.answer (d.binder g id) :=
  e.answer_find_bind hr hr' d.binders id (fun r => (orDemand_answers _ _ id r).1)
    (fun r => (orDemand_answers _ _ (π id) r).1) (e.answer_orDemand id .bind Binder.idle)

theorem answer_processor (d : Dispatch) :
    Query.answer (d.processor h (π id)) = Query.answer (d.processor g id) :=
  e.answer_find_bind hr hr' d.processors id (fun r => (orDemand_answers _ _ id r).1)
    (fun r => (orDemand_answers _ _ (π id) r).1) (e.answer_orDemand id .process Processor.idle)

theorem answer_validator (d : Dispatch) :
    Query.answer (d.validator h (π id)) = Query.answer (d.validator g id) :=
  e.answer_find_bind hr hr' d.validators id (fun _ => steady_pure _) (fun _ => steady_pure _)
    fun _ => rfl

theorem answer_unbinder (d : Dispatch) :
    Query.answer (d.unbinder h (π id)) = Query.answer (d.unbinder g id) :=
  e.answer_find_bind hr hr' d.unbinders id (fun _ => steady_pure _) (fun _ => steady_pure _)
    fun _ => rfl

theorem answer_walker (d : Dispatch) :
    Query.answer (d.walker h (π id)) = Query.answer (d.walker g id) :=
  e.answer_find_bind hr hr' d.walkers id (fun _ => steady_pure _) (fun _ => steady_pure _)
    fun _ => rfl

end Dispatch

section Verdicts

variable (hr : g.Regular K) (hr' : h.Regular K) {id : NodeId} {p : Path} (hp : g.path? id = some p)
include hr hr'

theorem answer_kindErrors (kind ty : NodeId) (x : CompileError) :
    answer (kindErrors h (π kind) (π ty) x) = answer (kindErrors g kind ty x) := by
  have hinstance := e.answer_isInstance hr hr' ty kind
  unfold Query.answer at hinstance
  rw [kindErrors, kindErrors,
    answer_bind (isInstance_steady hr.toClosed hr.issued ty kind)
    (by split <;> exact steady_pure _),
    answer_bind (isInstance_steady hr'.toClosed hr'.issued (π ty) (π kind))
      (by split <;> exact steady_pure _), hinstance]

include hp

theorem answer_generalizationErrors {stub : NodeId} (hstub : stub ∈ g.values id "generalizations")
    (kind : NodeId) : answer (Class.generalizationErrors h (π kind) (π id) (π stub)) =
      answer (Class.generalizationErrors g kind id stub) := by
  unfold Class.generalizationErrors
  rw [e.referenced?]
  cases hs : g.referenced? stub with
  | none => rfl
  | some general =>
    have hgeneral : some general ∈ g.generals id := hs ▸ List.mem_map_of_mem hstub
    obtain ⟨q, hq⟩ := (hr.named_general hgeneral).path
    simp only [Option.map_some, e.spanOf, e.describe id hp, e.describe general hq]
    exact e.answer_kindErrors hr hr' kind general _

theorem answer_propertyErrors (kind : NodeId) (r : NodeId × Bool) :
    answer (Class.propertyErrors h (π kind) (π id) (π r.1, r.2)) =
      answer (Class.propertyErrors g kind id r) := by
  obtain ⟨property, repeats⟩ := r
  unfold Class.propertyErrors
  simp only [e.name?, e.spanOf, e.describe id hp, e.declaredType?]
  cases ht : g.declaredType? property with
  | none => rfl
  | some ty =>
    obtain ⟨q, hq⟩ := (hr.named_type ht).path
    simp only [Option.map_some, e.describe ty hq, answer_bind_pure, e.answer_kindErrors hr hr']

omit hr hr' hp in
theorem inherited? (as : List NodeId) (name : String) :
    Class.inherited? h (as.map π) name = (Class.inherited? g as name).map (Prod.map π π) := by
  simp only [Class.inherited?, List.findSome?_map, Function.comp_def, e.values,
    List.find?_map, e.name?, List.map_findSome?, Option.map_map]
  rfl

omit hr' in
theorem overrideError? {as : List NodeId} (has : ∀ x ∈ as, ∃ q, g.path? x = some q)
    (property : NodeId) : Class.overrideError? h (π id) (as.map π) (π property) =
      Class.overrideError? g id as property := by
  unfold Class.overrideError?
  simp only [e.name?, e.declaredType?, e.inherited?, e.spanOf, e.describe id hp]
  cases ht : g.declaredType? property with
  | none => rfl
  | some ty =>
    obtain ⟨q, hq⟩ := (hr.named_type ht).path
    cases hi : Class.inherited? g as ((g.name? property).getD "") with
    | none => rfl
    | some found =>
      obtain ⟨ancestor, overridden⟩ := found
      obtain ⟨x, hx, hfound⟩ := List.exists_of_findSome?_eq_some hi
      obtain ⟨_, -, hpair⟩ := Option.map_eq_some_iff.1 hfound
      obtain ⟨a, ha⟩ := has x hx
      obtain rfl : x = ancestor := congrArg Prod.fst hpair
      cases hf : g.declaredType? overridden with
      | none => simp [hf, e.declaredType?]
      | some former =>
        obtain ⟨r, hr⟩ := (hr.named_type hf).path
        simp [hf, e.declaredType?, e.injective.eq_iff, e.describe ty hq, e.describe former hr,
          e.describe x ha]

theorem answer_class : answer (Class.validate h (π id)) = answer (Class.validate g id) := by
  have hid : g.contains id = true := contains_of_path? hp
  cases hkind : g.lookup Metamodel.type with
  | none =>
    have hkind' : h.lookup Metamodel.type = none := by rw [e.lookup, hkind]; rfl
    rw [Class.validate, Class.validate, hkind, hkind']
  | some kind =>
    have hkind' : h.lookup Metamodel.type = some (π kind) := by rw [e.lookup, hkind]; rfl
    rw [Class.answer_validate hr.toClosed hr.issued hkind hid,
      Class.answer_validate hr'.toClosed hr'.issued hkind' (e.contains id ▸ hid),
      e.values, e.values, e.flagRepeats, e.answer_ancestors hr hr' hp]
    refine congrArg₂ (· ++ ·) (congrArg₂ (· ++ ·) ?_ ?_) ?_
    · rw [List.map_map]
      exact congrArg _ (List.map_congr_left fun stub hstub =>
        e.answer_generalizationErrors hr hr' hp hstub kind)
    · rw [List.map_map]
      exact congrArg _ (List.map_congr_left fun r _ => e.answer_propertyErrors hr hr' hp kind r)
    · cases ha : Query.answer (ancestors g id) with
      | error x => rfl
      | ok as =>
        have hlineal := (Handler.answer_ancestors hr.toClosed hr.issued hid).1 ha
        simp only [Except.map, List.filterMap_map, Function.comp_def]
        exact List.filterMap_congr fun property _ =>
          e.overrideError? hr hp (fun x hx => (hr.named_of_lineal hlineal x hx).path) property

theorem answer_endErrors (end_ : NodeId × Option NodeId) (hend : g.declaredType? end_.1 = end_.2) :
    answer (Association.endErrors h (π id) (π end_.1, end_.2.map π)) =
      answer (Association.endErrors g id end_) := by
  obtain ⟨property, _ | ty⟩ := end_
  · rfl
  · obtain ⟨q, hq⟩ := (hr.named_type hend).path
    have hclass := e.answer_isClass hr hr' ty
    unfold Query.answer at hclass
    simp only [Option.map_some]
    rw [Association.endErrors, Association.endErrors,
      answer_bind (Association.isClass_steady hr.toClosed hr.issued ty)
        (by split <;> exact steady_pure _),
      answer_bind (Association.isClass_steady hr'.toClosed hr'.issued (π ty))
        (by split <;> exact steady_pure _), hclass, e.name?, e.spanOf, e.describe id hp,
      e.describe ty hq]

omit hr hr' hp in
theorem ends (id : NodeId) : Association.ends h (π id) =
    (Association.ends g id).map fun x => (π x.1, x.2.map π) := by
  simp only [Association.ends, e.values, List.map_map, Function.comp_def, e.declaredType?]

theorem answer_association :
    answer (Association.validate h (π id)) = answer (Association.validate g id) := by
  rw [Association.validate, Association.validate, answer_bind_pure, answer_bind_pure,
    (mapM_answers fun x _ => Association.endErrors_steady hr.toClosed hr.issued x).2,
    (mapM_answers fun x _ => Association.endErrors_steady hr'.toClosed hr'.issued x).2, e.ends,
    List.length_map, e.spanOf, e.describe id hp, List.map_map]
  refine congrArg _ (congrArg _ (List.map_congr_left fun x hx => ?_))
  refine e.answer_endErrors hr hr' hp x ?_
  obtain ⟨property, -, rfl⟩ := List.mem_map.1 hx
  rfl

omit hr hr' in
theorem enumeration : Enumeration.validate h (π id) = Enumeration.validate g id := by
  simp only [Enumeration.validate, e.values, e.repeated, List.map_map, Function.comp_def, e.name?,
    e.spanOf, e.describe id hp]

theorem answer_function :
    answer (Function.validate h (π id)) = answer (Function.validate g id) := by
  have huses : Function.typeUses h (π id) = (Function.typeUses g id).map (Prod.map π π) := by
    simp only [Function.typeUses, e.values, e.value?, List.filterMap_map, Function.comp_def,
      e.declaredType?, Option.map_map, List.map_append, List.map_filterMap]
    cases g.value? id "returnType" with
    | none => rfl
    | some stub =>
      simp only [Option.map_some, Option.toList_some, List.filterMap_cons, e.referenced?]
      cases g.referenced? stub <;> rfl
  have hparameters : Function.parameterErrors h (π id) = Function.parameterErrors g id := by
    simp only [Function.parameterErrors, e.values, e.repeated, List.map_map, Function.comp_def,
      e.name?, e.spanOf, e.describe id hp]
  rw [Function.validate, Function.validate, e.lookup]
  cases g.lookup Metamodel.type with
  | none => rfl
  | some kind =>
    simp only [Option.map_some]
    rw [answer_bind_pure, answer_bind_pure,
      (mapM_answers fun use _ => kindErrors_steady hr'.toClosed hr'.issued _ use.2 _).2,
      (mapM_answers fun use _ => kindErrors_steady hr.toClosed hr.issued _ use.2 _).2, huses,
      hparameters, List.map_map]
    refine congrArg _ (congrArg _ (List.map_congr_left fun use huse => ?_))
    obtain ⟨q, hq⟩ := (hr.named_of_typeUses huse).path
    simp only [Function.comp, Prod.map, e.spanOf, e.describe id hp, e.describe use.2 hq]
    exact e.answer_kindErrors hr hr' kind use.2 _

theorem verdict (v : Validator) : v.verdict h (π id) = v.verdict g id := by
  cases v with
  | class_ => exact e.answer_class hr hr' hp
  | association => exact e.answer_association hr hr' hp
  | enumeration => exact e.enumeration hp
  | function => exact e.answer_function hr hr' hp
  | idle | recipe => rfl

end Verdicts

end Graph.SameUpTo

end ModelCompiler
