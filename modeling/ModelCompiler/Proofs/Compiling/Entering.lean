import ModelCompiler.Proofs.Reading
import ModelCompiler.Proofs.Compiling.Phases

/-!
What processing enters on other nodes.
-/
open ModelCompiler.Graph ModelCompiler.Handler

namespace ModelCompiler

namespace Handler

variable {K : NodeId → Prop} {g g' : Graph} {x y : NodeId} {p : Processor} {s : SourceId}

theorem Entered.bound (h : Entered g x g' p) (m : NodeId) :
    g'.values m "resolvedNode" = g.values m "resolvedNode" := by
  cases h with
  | class_ _ hvalues => simp [hvalues]
  | association h =>
    cases h with
    | ends _ hvalues => simp [hvalues]
    | none _ halike => exact halike m _ (by simp)
  | other _ _ halike => exact halike m _ (by simp)

theorem direct_of_suits (hs : Suits g x p) (hr : g.Regular K)
    (hx : g.lifetime? x = some (.persistent s)) (hp : p ≠ .class_) :
    Lineage.direct g x = .ok [] := by
  refine Lineage.direct_of_generals (contains_of_lifetime? hx) ?_
  have hnil : g.values x "generalizations" = [] := by
    refine List.eq_nil_iff_forall_not_mem.2 fun v hv => ?_
    rcases (hr.fits x _ v hv).generalization rfl with ⟨-, hkind⟩ | ⟨-, -, hnone⟩
    · exact hp (hs.class_ hkind)
    · simp [sourceOf?_persistent hx] at hnone
  rw [generals, hnil]
  rfl

theorem Entered.specializations (h : Entered g x g' p) (hs : Suits g x p) (hr : g.Regular K)
    (hx : g.lifetime? x = some (.persistent s)) :
    ∃ gs, Lineage.direct g x = .ok gs ∧ ∀ j, g'.values j "specializations" =
      g.values j "specializations" ++ List.replicate (gs.count j) x := by
  cases h with
  | class_ hgs hvalues => exact ⟨_, hgs, fun j => by simp [hvalues]⟩
  | association h =>
    refine ⟨[], direct_of_suits hs hr hx (by simp), fun j => ?_⟩
    cases h with
    | ends _ hvalues => simp [hvalues]
    | none _ halike => simpa using halike j _ (by simp)
  | other hne _ halike =>
    exact ⟨[], direct_of_suits hs hr hx hne, fun j => by simpa using halike j _ (by simp)⟩

/-- The ends of an association are attached, each to the class at the other end, if there are two
and they lead to classes; otherwise nothing is attached. -/
theorem Entered.attachments (h : Entered g x g' p) (hs : Suits g x p) :
    (∃ a s b t, p = .association ∧ Joins g x a s b t ∧
      ∀ j, g'.values j "propertiesFromAssociations" = g.values j "propertiesFromAssociations" ++
        ((if j = t then [a] else []) ++ if j = s then [b] else [])) ∨
    (g.classifierPath? x = some Metamodel.association → ∀ a s b t, ¬ Joins g x a s b t) ∧
      ∀ j, g'.values j "propertiesFromAssociations" = g.values j "propertiesFromAssociations" := by
  cases h with
  | class_ _ hvalues =>
    exact .inr ⟨fun hkind => by simpa using hs.association hkind, fun j => by simp [hvalues]⟩
  | association h =>
    cases h with
    | ends hjoins hvalues => exact .inl ⟨_, _, _, _, rfl, hjoins, fun j => by simp [hvalues]⟩
    | none hno halike => exact .inr ⟨fun _ => hno, fun j => halike j _ (by simp)⟩
  | other _ hne halike =>
    exact .inr ⟨fun hkind => absurd (hs.association hkind) hne, fun j => halike j _ (by simp)⟩

theorem Joins.part {a b t u : NodeId} (h : Joins g x a t b u) (hr : g.Regular K) :
    g.Part x Metamodel.property a ∧ g.Part x Metamodel.property b := by
  have hend {e : NodeId} {ty : Option NodeId} (he : (e, ty) ∈ Association.ends g x) :
      g.Part x Metamodel.property e :=
    ((hr.fits x _ e (mem_ends.1 he).1).property rfl).1
  have ha : (a, some t) ∈ Association.ends g x := by simp [h.1]
  have hb : (b, some u) ∈ Association.ends g x := by simp [h.1]
  exact ⟨hend ha, hend hb⟩

theorem Joins.kind {a b t u : NodeId} (h : Joins g x a t b u) (hr : g.Regular K)
    (hs : Suits g x .association) : g.classifierPath? x = some Metamodel.association := by
  have ha : (a, some t) ∈ Association.ends g x := by simp [h.1]
  refine ((hr.fits x _ a (mem_ends.1 ha).1).property rfl).2.resolve_left fun hclass => ?_
  simpa using hs.class_ hclass

end Handler

namespace Compiler

variable {K : NodeId → Prop} {g g' h : Graph} {x y : NodeId} {p : Processor} {s : SourceId}
  {errors : List (SourceId × CompileError)} {items : List (SourceId × NodeId × Processor)}

/-- Handlers have worked without binding names, and nothing kept for `x` has come or gone. -/
structure Calm (K : NodeId → Prop) (x : NodeId) (g g' : Graph) : Prop where
  works : Works K (fun _ => True) g g'
  bound : ∀ m, g'.values m "resolvedNode" = g.values m "resolvedNode"
  kept : ∀ v, g.Lasting v → g.ownerRoot? v = some x → ∀ j,
    ∀ q ∈ ["specializations", "propertiesFromAssociations"],
      (g'.values j q).count v = (g.values j q).count v

namespace Calm

theorem refl (x : NodeId) (g : Graph) : Calm K x g g :=
  ⟨.refl, fun _ => rfl, fun _ _ _ _ _ _ => rfl⟩

theorem ownerRoot? (a : Calm K x g h) (ht : g.Tidy K) {v : NodeId} (hv : g.Lasting v) :
    h.ownerRoot? v = g.ownerRoot? v := by
  rw [ownerRoot?_eq, ownerRoot?_eq, lifetime?_of_bare (Works.bare a.works ht hv)]

theorem trans (a : Calm K x g h) (b : Calm K x h g') (ht : g.Tidy K) : Calm K x g g' where
  works := a.works.trans b.works
  bound m := (b.bound m).trans (a.bound m)
  kept v hv hx j q hq := by
    rw [b.kept v ((Works.lasting_iff a.works ht).2 hv) ((a.ownerRoot? ht hv).trans hx) j q hq,
      a.kept v hv hx j q hq]

end Calm

theorem calm_of_alike (hp : Processed K p y g h) (ha : Alike g h) : Calm K x g h where
  works := Works.mono (fun _ _ => trivial) hp.works
  bound m := ha m _ (by simp)
  kept v _ _ j q hq := by rw [ha j q (List.mem_cons_of_mem _ hq)]

theorem calm_of_entered (hp : Processed K p y g h) (he : Entered g y h p) (ht : g.Tidy K)
    (hplan : Planned K g (s, y, p)) (hne : y ≠ x) : Calm K x g h where
  works := Works.mono (fun _ _ => trivial) hp.works
  bound := he.bound
  kept v hv hx j q hq := by
    have hother {z : NodeId} (hz : g.ownerRoot? z = some y) : z ≠ v := by
      rintro rfl
      exact hne (Option.some.inj (hz.symm.trans hx))
    simp only [List.mem_cons, List.not_mem_nil, or_false] at hq
    rcases hq with rfl | rfl
    · obtain ⟨gs, -, hvalues⟩ := he.specializations hplan.suits ht.toRegular hplan.element
      rw [hvalues, List.count_append, List.count_replicate]
      simp [hother (ownerRoot?_persistent hplan.element)]
    · rcases he.attachments hplan.suits with ⟨a, t, b, u, -, hjoins, hvalues⟩ | ⟨-, hvalues⟩
      · obtain ⟨hparta, hpartb⟩ := hjoins.part ht.toRegular
        rw [hvalues, List.count_append, List.count_append]
        have ha : (if j = u then [a] else []).count v = 0 := by
          split <;> simp [hother (ownerRoot?_part hparta.lifetime)]
        have hb : (if j = t then [b] else []).count v = 0 := by
          split <;> simp [hother (ownerRoot?_part hpartb.lifetime)]
        rw [ha, hb, Nat.add_zero]
      · rw [hvalues]

def Passed (K : NodeId → Prop) (s : SourceId) (x : NodeId) (p : Processor) (g g' : Graph) : Prop :=
  ∃ h₁ h₂, Calm K x g h₁ ∧ Planned K h₁ (s, x, p) ∧ Processed K p x h₁ h₂ ∧ Entered h₁ x h₂ p ∧
    Calm K x h₂ g'

theorem Course.calm (hc : Course K items errors g g') (ht : g.Tidy K)
    (hx : ∀ item ∈ items, item.2.1 ≠ x) : Calm K x g g' := by
  induction hc with
  | nil => exact .refl x _
  | entered hplan hp he _ ih =>
    exact (calm_of_entered hp he ht hplan (hx _ List.mem_cons_self)).trans
      (ih (Works.tidy hp.works ht) fun item hitem => hx item (List.mem_cons_of_mem _ hitem)) ht
  | failed _ hp ha _ _ _ ih =>
    exact (calm_of_alike hp ha).trans
      (ih (Works.tidy hp.works ht) fun item hitem => hx item (List.mem_cons_of_mem _ hitem)) ht
  | halted _ hp ha => exact calm_of_alike hp ha

theorem Course.passed (hc : Course K items errors g g') (ht : g.Tidy K)
    (hnodup : (items.map (·.2.1)).Nodup) (hmem : (s, x, p) ∈ items) :
    Passed K s x p g g' ∨
      Calm K x g g' ∧ (errorsOf s errors = [] → (fatal? errors).isSome = true) := by
  induction hc with
  | nil => simp at hmem
  | @entered t y r rest errors g h g' hplan hp he hrest ih =>
    have hh := Works.tidy hp.works ht
    rw [List.map_cons, List.nodup_cons] at hnodup
    rcases List.mem_cons.1 hmem with heq | hmem
    · cases heq
      refine .inl ⟨g, h, .refl x g, hplan, hp, he, hrest.calm hh fun item hitem hne => ?_⟩
      exact hnodup.1 (List.mem_map.2 ⟨item, hitem, hne⟩)
    · have hne : y ≠ x := by
        rintro rfl
        exact hnodup.1 (List.mem_map.2 ⟨_, hmem, rfl⟩)
      have hcalm : Calm K x g h := calm_of_entered hp he ht hplan hne
      rcases ih hh hnodup.2 hmem with ⟨h₁, h₂, a, hrest⟩ | ⟨a, herrors⟩
      · exact .inl ⟨h₁, h₂, hcalm.trans a ht, hrest⟩
      · exact .inr ⟨hcalm.trans a ht, herrors⟩
  | @failed t y r own rest errors g h g' hplan hp ha hown hfatal hrest ih =>
    have hh := Works.tidy hp.works ht
    rw [List.map_cons, List.nodup_cons] at hnodup
    have hcalm : Calm K x g h := calm_of_alike hp ha
    rcases List.mem_cons.1 hmem with heq | hmem
    · cases heq
      refine .inr ⟨hcalm.trans (hrest.calm hh fun item hitem hne => ?_) ht, fun hnone => ?_⟩
      · exact hnodup.1 (List.mem_map.2 ⟨item, hitem, hne⟩)
      · rw [errorsOf_append, errorsOf_map, if_pos rfl] at hnone
        exact absurd (List.append_eq_nil_iff.1 hnone).1 hown
    · rcases ih hh hnodup.2 hmem with ⟨h₁, h₂, a, hrest⟩ | ⟨a, herrors⟩
      · exact .inl ⟨h₁, h₂, hcalm.trans a ht, hrest⟩
      · refine .inr ⟨hcalm.trans a ht, fun hnone => ?_⟩
        rw [errorsOf_append] at hnone
        have hfound := herrors (List.append_eq_nil_iff.1 hnone).2
        rw [fatal?] at hfatal hfound ⊢
        rw [List.map_append, List.find?_append, hfatal, Option.none_or, hfound]
  | halted _ hp ha _ hfatal =>
    exact .inr ⟨calm_of_alike hp ha, fun _ => by simp [hfatal]⟩

theorem Course.bound (hc : Course K items errors g g') (m : NodeId) :
    g'.values m "resolvedNode" = g.values m "resolvedNode" := by
  induction hc with
  | nil => rfl
  | entered _ _ he _ ih => rw [ih, he.bound]
  | failed _ _ ha _ _ _ ih => rw [ih, ha m _ (by simp)]
  | halted _ _ ha => exact ha m _ (by simp)

section Treated

variable {c d : Compiler} {batch : List SourceId} {halt : Option CompileError}

theorem Treated.bound (h : Treated K errors halt batch c d) (m : NodeId) :
    d.graph.values m "resolvedNode" = c.graph.values m "resolvedNode" := by
  rcases h.course with ⟨hg, -⟩ | ⟨scheduled, -, hcourse, -⟩
  · rw [hg]
  · exact hcourse.bound m

theorem Treated.fate (h : Treated K errors halt batch c d) (hs : c.Sane K) (hnodup : batch.Nodup)
    (hx : c.graph.lifetime? x = some (.persistent s)) :
    (s ∈ batch ∧ ∃ p, Passed K s x p c.graph d.graph) ∨
      Calm K x c.graph d.graph ∧ (s ∈ batch → errorsOf s errors = [] → halt ≠ none) := by
  rcases h.course with ⟨hg, hhalt⟩ | ⟨scheduled, hitems, hcourse, rfl⟩
  · refine .inr ⟨hg ▸ .refl x _, fun _ _ hnone => ?_⟩
    simp [hnone] at hhalt
  have hperm := perm_inOrder scheduled
  by_cases hmem : s ∈ batch
  · have hitem : (s, x) ∈ c.items batch :=
      List.mem_flatMap.2 ⟨s, hmem, List.mem_map_of_mem ((hs.tidy.persistent_iff s x).2 hx)⟩
    rw [← hitems] at hitem
    obtain ⟨⟨s', x', p⟩, hplan, heq⟩ := List.mem_map.1 hitem
    obtain ⟨rfl, rfl⟩ := Prod.mk.inj heq
    have hnodup' : ((inOrder scheduled).map (·.2.1)).Nodup := by
      refine ((hperm.map _).nodup_iff).2 ?_
      have := hs.nodup_items hnodup
      rwa [← hitems, List.map_map] at this
    rcases hcourse.passed hs.tidy hnodup' (hperm.mem_iff.2 hplan) with hp | ⟨hcalm, herrors⟩
    · exact .inl ⟨hmem, p, hp⟩
    · exact .inr ⟨hcalm, fun _ hnone hhalt => by simpa [hhalt] using herrors hnone⟩
  · refine .inr ⟨hcourse.calm hs.tidy fun item hitem hne => ?_, fun h => absurd h hmem⟩
    have hin := List.mem_map_of_mem (f := fun item => (item.1, item.2.1)) (hperm.mem_iff.1 hitem)
    rw [hitems] at hin
    obtain ⟨t, ht, hin⟩ := List.mem_flatMap.1 hin
    obtain ⟨y, hy, heq⟩ := List.mem_map.1 hin
    have hyx : y = x := (Prod.mk.inj heq).2.trans hne
    have hl := (hs.tidy.persistent_iff t y).1 hy
    rw [hyx, hx, Option.some.injEq, Lifetime.persistent.injEq] at hl
    exact hmem (hl ▸ ht)

end Treated

section Passed

variable {h₁ h₂ : Graph} {v : NodeId}

theorem Calm.shares_after (b : Calm K x h₂ g') (hp : Processed K p x h₁ h₂) (he : Entered h₁ x h₂ p)
    (ht : h₁.Tidy K) : Shares h₁.Lasting h₁ g' :=
  (Works.shares hp.works ht he.bound).trans
    ((Works.shares b.works (Works.tidy hp.works ht) b.bound).congr fun _ =>
      (Works.lasting_iff hp.works ht).symm)

theorem Passed.specializations (h : Passed K s x p g g') (ht : g.Tidy K)
    (hnone : ∀ j, x ∉ g.values j "specializations") : ∃ gs, Lineage.direct g' x = .ok gs ∧
      ∀ j, (g'.values j "specializations").count x = gs.count j := by
  obtain ⟨h₁, h₂, a, hplan, hp, he, b⟩ := h
  have ht₁ := Works.tidy a.works ht
  obtain ⟨gs, hgs, hvalues⟩ := he.specializations hplan.suits ht₁.toRegular hplan.element
  have hlast : h₁.Lasting x :=
    ⟨contains_of_lifetime? hplan.element, Regular.not_isType_persistent hplan.element⟩
  have hroot := ownerRoot?_persistent hplan.element
  have hlast₀ := (Works.lasting_iff a.works ht).1 hlast
  refine ⟨gs, (b.shares_after hp he ht₁).direct hlast hgs, fun j => ?_⟩
  have hlast₂ := (Works.lasting_iff hp.works ht₁).2 hlast
  have hroot₂ := ownerRoot?_persistent (Works.persistent hp.works ht₁ hplan.element)
  rw [b.kept x hlast₂ hroot₂ j _ (by simp), hvalues, List.count_append,
    a.kept x hlast₀ ((a.ownerRoot? ht hlast₀).symm.trans hroot) j _ (by simp),
    List.count_eq_zero.2 (hnone j), List.count_replicate_self, Nat.zero_add]

theorem Passed.attachments (h : Passed K s x p g g') (ht : g.Tidy K)
    (hnone : ∀ v, g.Lasting v → g.ownerRoot? v = some x → ∀ j,
      v ∉ g.values j "propertiesFromAssociations") :
    (∃ a t b u, Joins g' x a t b u ∧ g'.classifierPath? x = some Metamodel.association ∧
      ∀ v, g'.Lasting v → g'.ownerRoot? v = some x → ∀ j,
      (g'.values j "propertiesFromAssociations").count v =
        (if j = u then [a] else []).count v + (if j = t then [b] else []).count v) ∨
    (g'.classifierPath? x = some Metamodel.association → ∀ a t b u, ¬ Joins g' x a t b u) ∧
      ∀ v, g'.Lasting v → g'.ownerRoot? v = some x → ∀ j,
        v ∉ g'.values j "propertiesFromAssociations" := by
  obtain ⟨h₁, h₂, a, hplan, hp, he, b⟩ := h
  have ht₁ := Works.tidy a.works ht
  have ht₂ := Works.tidy hp.works ht₁
  have ht' := Works.tidy b.works ht₂
  have hshare := b.shares_after hp he ht₁
  have hlast : h₁.Lasting x :=
    ⟨contains_of_lifetime? hplan.element, Regular.not_isType_persistent hplan.element⟩
  have hclass := ht₁.lookup_eq ht₁.toIndexed ht'.toRooted ht'.toIndexed
    (show Metamodel.class_ ∈ Metamodel.landmarks by decide +kernel)
  have hcount {v : NodeId} (hv : g'.Lasting v) (hx : g'.ownerRoot? v = some x) (j : NodeId) :
      (g'.values j "propertiesFromAssociations").count v =
        (h₂.values j "propertiesFromAssociations").count v ∧
      (h₁.values j "propertiesFromAssociations").count v = 0 := by
    have hv₂ := (Works.lasting_iff b.works ht₂).1 hv
    have hv₁ := (Works.lasting_iff hp.works ht₁).1 hv₂
    have hv₀ := (Works.lasting_iff a.works ht).1 hv₁
    have hx₂ := (b.ownerRoot? ht₂ hv₂).symm.trans hx
    have hx₁ : h₁.ownerRoot? v = some x := by
      rw [← hx₂, ownerRoot?_eq, ownerRoot?_eq, lifetime?_of_bare (Works.bare hp.works ht₁ hv₁)]
    have hx₀ := (a.ownerRoot? ht hv₀).symm.trans hx₁
    refine ⟨b.kept v hv₂ hx₂ j _ (by simp), ?_⟩
    rw [a.kept v hv₀ hx₀ j _ (by simp)]
    exact List.count_eq_zero.2 (hnone v hv₀ hx₀ j)
  rcases he.attachments hplan.suits with ⟨e, t, f, u, rfl, hjoins, hvalues⟩ | ⟨hno, hvalues⟩
  · refine .inl ⟨e, t, f, u, hshare.joins (fun m k _ => ht₁.lasting_classifier) hclass hlast hjoins,
      ?_, fun v hv hx j => ?_⟩
    · rw [hshare.kind x hlast]
      exact hjoins.kind ht₁.toRegular hplan.suits
    · obtain ⟨hafter, hbefore⟩ := hcount hv hx j
      rw [hafter, hvalues, List.count_append, List.count_append, hbefore, Nat.zero_add]
  · refine .inr ⟨fun hkind e t f u hjoins => hno ?_ e t f u ?_, fun v hv hx j => ?_⟩
    · rwa [← hshare.kind x hlast]
    · refine hshare.symm.joins (fun m k hm hk => ?_) hclass.symm hlast hjoins
      rw [classifier?_of_bare (hshare.bare m hm)] at hk
      exact ht₁.lasting_classifier hk
    · obtain ⟨hafter, hbefore⟩ := hcount hv hx j
      rw [← List.count_eq_zero, hafter, hvalues, hbefore]

end Passed

end Compiler

end ModelCompiler
