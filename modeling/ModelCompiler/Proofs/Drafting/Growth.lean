import ModelCompiler.Proofs.Moves
import ModelCompiler.Proofs.Store.Breaches

/-!
Growth of a graph.
-/
open ModelCompiler.Action

namespace ModelCompiler.Graph

/-- Nothing that was there has changed, and what is new holds nothing derived. -/
structure Grows (g g' : Graph) : Prop where
  bare : ∀ m, g.contains m = true → (g'.node? m).map Node.bare = (g.node? m).map Node.bare
  values : ∀ j q, g.contains j = true → q ≠ "children" → g'.values j q = g.values j q
  children : ∀ P, g.contains P = true →
    ∃ new, g'.children P = g.children P ++ new ∧ ∀ m ∈ new, g.contains m = false
  owned : ∀ o, g.contains o = true → g'.ownedBy o = g.ownedBy o
  package : ∀ m, g.contains m = true → g'.isPackage m = g.isPackage m
  derived : ∀ j q, g.contains j = false → q ∈ Metamodel.derived → g'.values j q = []
  types : ∀ m, g.contains m = false → ¬ g'.IsType m
  stamps : ∀ m, g.contains m = true → g'.stamp? m = g.stamp? m
  excerpt : ∀ p : NodeId → Bool, (∀ m, p m = true → g.contains m = true) →
    g'.excerpt p = g.excerpt p
  packageClassifier : g'.packageClassifier = g.packageClassifier
  ages : Ages g g'

namespace Grows

variable {K : NodeId → Prop} {g h k : Graph} {j m v : NodeId} {q : String}

theorem contains (a : Grows g h) (hm : g.contains m = true) : h.contains m = true := by
  rw [contains_of_bare (a.bare m hm)]
  exact hm

theorem agree (a : Grows g h) (hc : g.Closed) (hm : g.contains m = true) : Agree g h m :=
  agree_of_bare (a.bare m hm)
    (fun c hcl => path?_of_bare (a.bare c (hc.classifier_live m c hcl)))
    (fun o ho => lifetime?_of_bare (a.bare o (hc.owner_live m o ho))) (a.package m hm)

theorem refl (g : Graph) : Grows g g where
  bare _ _ := rfl
  values _ _ _ _ := rfl
  children P _ := ⟨[], by simp⟩
  owned _ _ := rfl
  package _ _ := rfl
  derived j q hj _ := by
    rw [values_eq, propertiesOf_of_not_contains hj]
    rfl
  types m hm := fun ⟨o, hp⟩ => by simp [contains_of_lifetime? hp.lifetime] at hm
  stamps _ _ := rfl
  excerpt _ _ := rfl
  packageClassifier := rfl
  ages := .refl g

theorem trans (a : Grows g h) (b : Grows h k) (hc : h.Closed) : Grows g k where
  bare m hm := (b.bare m (a.contains hm)).trans (a.bare m hm)
  values j q hj hq := (b.values j q (a.contains hj) hq).trans (a.values j q hj hq)
  children P hP := by
    obtain ⟨new, hnew, hn⟩ := a.children P hP
    obtain ⟨more, hmore, hm⟩ := b.children P (a.contains hP)
    refine ⟨new ++ more, by rw [hmore, hnew, List.append_assoc], fun m hmem => ?_⟩
    rcases List.mem_append.1 hmem with hmem | hmem
    · exact hn m hmem
    · by_contra hg
      have := hm m hmem
      simp [a.contains (m := m) (by simpa using hg)] at this
  owned o ho := (b.owned o (a.contains ho)).trans (a.owned o ho)
  package m hm := (b.package m (a.contains hm)).trans (a.package m hm)
  derived j q hj hq := by
    by_cases hh : h.contains j = true
    · rw [b.values j q hh fun e => by simp [e, Metamodel.derived] at hq, a.derived j q hj hq]
    · exact b.derived j q (by simpa using hh) hq
  types m hm ht := by
    by_cases hh : h.contains m = true
    · exact a.types m hm (ht.agree (b.agree hc hh).symm)
    · exact b.types m (by simpa using hh) ht
  stamps m hm := (b.stamps m (a.contains hm)).trans (a.stamps m hm)
  excerpt p hp := (b.excerpt p fun m hm => a.contains (hp m hm)).trans (a.excerpt p hp)
  packageClassifier := b.packageClassifier.trans a.packageClassifier
  ages := a.ages.trans b.ages

section Steps

variable {g₀ : Graph} (a : Grows g₀ g)
include a

theorem not_contains_fresh (hi : g.Indexed) : g₀.contains g.fresh = false := by
  by_contra hf
  have := a.contains (m := g.fresh) (by simpa using hf)
  simp [hi.contains_fresh] at this

theorem not_fresh (hi : g.Indexed) {p : NodeId → Bool}
    (hp : ∀ m, p m = true → g₀.contains m = true) : p g.fresh = false := by
  by_contra hf
  have := hp g.fresh (by simpa using hf)
  simp [a.not_contains_fresh hi] at this

theorem found (hr : g.Regular K) {spec : NodeSpec} {lifetime : Lifetime} {package : Bool}
    {parent : NodeId} (hl : ∀ o, lifetime ≠ .ephemeral o) (hp : g.contains parent = true) :
    Grows g₀ (g.found spec lifetime package parent) := by
  have hi := hr.toIndexed
  have e := frame_found g spec lifetime package parent
  have hne {m : NodeId} (hm : g₀.contains m = true) : m ≠ g.fresh := hi.ne_fresh (a.contains hm)
  exact {
    bare := fun m hm => by
      rw [← a.bare m hm, ← node?_frame, e, node?_frame]
      exact hi.bare_seat _ _ _ (a.contains hm)
    values := fun j q hj hq => by
      rw [values_found hi hp, if_neg fun h => hq h.2, if_neg fun h => hne hj h.1,
        a.values j q hj hq]
    children := fun P hP => by
      obtain ⟨new, hnew, hn⟩ := a.children P hP
      rw [Graph.children, values_found hi hp]
      split
      · rename_i hPp
        refine ⟨new ++ [g.fresh], by rw [← hPp.1, hnew, List.append_assoc], fun m hm => ?_⟩
        rcases List.mem_append.1 hm with hm | hm
        · exact hn m hm
        · exact List.mem_singleton.1 hm ▸ a.not_contains_fresh hi
      · rw [if_neg (by simp)]
        exact ⟨new, hnew, hn⟩
    owned := fun o ho => by
      rw [ownedBy_congr e, ownedBy_seat, if_neg (hl o), a.owned o ho]
    package := fun m hm => by
      rw [isPackage_congr e, isPackage_seat, ← a.package m hm]
      simp [hne hm]
    derived := fun j q hj hq => by
      rw [values_found hi hp, if_neg fun h => by simp [h.2, Metamodel.derived] at hq,
        if_neg fun h => by simp [h.2, Metamodel.derived] at hq]
      exact a.derived j q hj hq
    types := fun m hm ht => by
      obtain ⟨o, hpart⟩ := ht
      have hlife := hpart.lifetime
      rw [lifetime?_congr e, lifetime?_seat _ _ _ hi] at hlife
      split at hlife
      · exact hl o (Option.some.inj hlife)
      · have hlive := contains_of_lifetime? hlife
        exact a.types m hm ⟨o, hpart.agree
          ((hr.agree_seat _ _ _ hlive).trans (agree_of_frame e m)).symm⟩
    stamps := fun m hm => by
      rw [stamp?_found hi ((hr.isBackReference_iff _).2 (.inl rfl)) hl package parent (hne hm),
        a.stamps m hm]
    excerpt := fun p hp' => by
      rw [excerpt_found hr.toCoherent hp (a.not_fresh hi hp'), a.excerpt p hp']
    packageClassifier := (packageClassifier_congr e).trans a.packageClassifier
    ages := a.ages.trans (hr.tracked.ages_found spec lifetime package hr.toCoherent parent) }

theorem part (hr : g.Regular K) {spec : NodeSpec} {o c : NodeId} {kind : Path}
    (ho : g₀.contains o = false) (hc : spec.classifier = some c) (hkind : g.path? c = some kind)
    (hne : kind ≠ Metamodel.functionType) : Grows g₀ (g.seat spec (.ephemeral o) false) := by
  have hi := hr.toIndexed
  exact {
    bare := fun m hm => (hi.bare_seat _ _ _ (a.contains hm)).trans (a.bare m hm)
    values := fun j q hj hq => (values_seat _ _ _ hi j q).trans (a.values j q hj hq)
    children := fun P hP => by
      rw [Graph.children, values_seat _ _ _ hi]
      exact a.children P hP
    owned := fun o' ho' => by
      rw [ownedBy_seat, if_neg, a.owned o' ho']
      intro h
      obtain rfl : o = o' := by simpa using h
      simp [ho] at ho'
    package := fun m hm => by
      rw [isPackage_seat, ← a.package m hm]
      simp
    derived := fun j q hj hq => (values_seat _ _ _ hi j q).trans (a.derived j q hj hq)
    types := fun m hm ht => by
      obtain ⟨o', hpart⟩ := ht
      by_cases hm' : m = g.fresh
      · have := hpart.kind
        rw [classifierPath?, hm', classifier?_seat _ _ _ hi, if_pos rfl, hc] at this
        have hpath : (g.seat spec (.ephemeral o) false).path? c = some kind := by
          rw [path?_seat _ _ _ hi, if_neg (hi.ne_fresh (contains_of_path? hkind)), hkind]
        exact hne (Option.some.inj (hpath.symm.trans this))
      · have hlife := hpart.lifetime
        rw [lifetime?_seat _ _ _ hi, if_neg hm'] at hlife
        exact a.types m hm ⟨o', hpart.agree
          (hr.agree_seat _ _ _ (contains_of_lifetime? hlife)).symm⟩
    stamps := fun m hm =>
      (stamp?_seat hi _ _ _ (hi.ne_fresh (a.contains hm))).trans (a.stamps m hm)
    excerpt := fun p hp => (excerpt_seat hi _ _ _ (a.not_fresh hi hp)).trans (a.excerpt p hp)
    packageClassifier := a.packageClassifier
    ages := a.ages.trans (hr.ages_seat _ _ _) }

theorem link (hr : g.Regular K) (hi₀ : g₀.Indexed) (hj : g.contains j = true)
    (hnew : g₀.contains j = false) (hq : q ∉ Metamodel.derived) (hc : q ≠ "children") :
    Grows g₀ (g.link j q v) := by
  have e := frame_link g j v q
  exact {
    bare := fun m hm => by
      rw [← a.bare m hm, ← node?_frame, e, node?_frame]
    values := fun i p hi hp => by
      rw [values_link hj, if_neg, a.values i p hi hp]
      rintro ⟨rfl, -⟩
      simp [hnew] at hi
    children := fun P hP => by
      rw [Graph.children, values_link hj, if_neg fun h => hc h.2.symm]
      exact a.children P hP
    owned := fun o ho => (ownedBy_congr e o).trans (a.owned o ho)
    package := fun m hm => (isPackage_congr e m).trans (a.package m hm)
    derived := fun i p hi hp => by
      rw [values_link hj, if_neg, a.derived i p hi hp]
      rintro ⟨-, rfl⟩
      exact hq hp
    types := fun m hm ht => a.types m hm (ht.agree (agree_of_frame e m).symm)
    stamps := fun m hm => by
      rw [stamp?_link _ (.inr _), a.stamps m hm]
      rintro (rfl | hown)
      · simp [hm] at hnew
      · -- parts of what was there were there as well
        have hmem := (hr.owned_iff m j).2 ⟨hown, a.contains hm⟩
        rw [a.owned m hm] at hmem
        simp [contains_of_lifetime? ((hi₀.owned_iff m j).1 hmem).1] at hnew
    excerpt := fun p hp => by
      rw [excerpt_link hr.toMirrored hj (.inl _), a.excerpt p hp]
      by_contra hpj
      simp [hp j (by simpa using hpj)] at hnew
    packageClassifier := (packageClassifier_congr e).trans a.packageClassifier
    ages := a.ages.trans (hr.tracked.ages_link j v q) }

end Steps

end Grows

theorem Goes.extend {g g' : Graph} {a b : NodeId → Prop} (hab : ∀ m, a m → Goes g' b m)
    (hl : ∀ P, g.lifetime? P = some .implicit → g'.lifetime? P = some .implicit)
    (hc : ∀ P, g.contains P = true → ∀ c ∈ g'.children P, c ∈ g.children P ∨ Goes g' b c)
    {m : NodeId} (h : Goes g a m) : Goes g' b m := by
  induction h with
  | base ha => exact hab _ ha
  | @package P hP _ ih =>
    refine .package (hl P hP) fun c hmem => ?_
    rcases hc P (contains_of_lifetime? hP) c hmem with hmem | hgoes
    · exact ih c hmem
    · exact hgoes

/-- A graph grown by nodes of one source and packages for them. What is new goes with the source. -/
structure Grown (K : NodeId → Prop) (s : SourceId) (g₀ g : Graph) : Prop where
  base : g₀.Tidy K
  unused : ∀ m, g₀.sourceOf? m ≠ some s
  regular : g.Regular K
  grows : Grows g₀ g
  new : ∀ m, g.contains m = true → g₀.contains m = false →
    g.sourceOf? m = some s ∨ g.lifetime? m = some .implicit
  fleeting : ∀ m, g.contains m = true → g₀.contains m = false →
    Goes g (g.InTrees (g.persistentNodes s)) m
  others : ∀ t, t ≠ s → g.persistentNodes t = g₀.persistentNodes t
  sources : g.sources.filter (· ≠ s) = g₀.sources.filter (· ≠ s)
  packages : ∀ P k, g₀.contains P = false → g.lifetime? P = some .implicit →
    g.classifier? P = some k → initial.contains k = true

namespace Grown

variable {K : NodeId → Prop} {s : SourceId} {g₀ g h : Graph}

theorem found (hd : Grown K s g₀ g) {spec : NodeSpec} {lifetime : Lifetime} {package : Bool}
    {parent : NodeId} (hl : lifetime = .persistent s ∨ lifetime = .implicit)
    (hr : (g.found spec lifetime package parent).Regular K)
    (hk : lifetime = .implicit → ∀ k, spec.classifier = some k → initial.contains k = true)
    (hp : g.contains parent = true) : Grown K s g₀ (g.found spec lifetime package parent) := by
  have hi := hd.regular.toIndexed
  have e := frame_found g spec lifetime package parent
  have hlife (m : NodeId) : (g.found spec lifetime package parent).lifetime? m =
      if m = g.fresh then some lifetime else g.lifetime? m := by
    rw [lifetime?_congr e, lifetime?_seat _ _ _ hi]
  have hne (o : NodeId) : lifetime ≠ .ephemeral o := by rcases hl with rfl | rfl <;> simp
  have hpar : parent ≠ g.fresh := hi.ne_fresh hp
  -- the new node is one of the source, or a package in which there is nothing yet
  have hfresh : Goes (g.found spec lifetime package parent) ((g.found spec lifetime package
      parent).InTrees ((g.found spec lifetime package parent).persistentNodes s)) g.fresh := by
    rcases hl with rfl | rfl
    · refine .base ⟨g.fresh, ?_, List.mem_cons_self⟩
      rw [persistentNodes_congr e, persistentNodes_seat, if_pos rfl]
      simp
    · refine .package (by rw [hlife, if_pos rfl]) fun c hc => ?_
      rw [children, values_found hi hp, if_neg fun h => hpar h.1.symm, if_neg (by simp), values_eq,
        propertiesOf_of_not_contains hi.contains_fresh] at hc
      simp at hc
  refine ⟨hd.base, hd.unused, hr, hd.grows.found hd.regular hne hp,
    fun m hm hm₀ => ?_, fun m hm hm₀ => ?_, fun t ht => ?_, ?_, fun P k hP hlP hkP => ?_⟩
  · by_cases hmf : m = g.fresh
    · rcases hl with rfl | rfl
      · exact .inl (sourceOf?_persistent (by rw [hlife, if_pos hmf]))
      · exact .inr (by rw [hlife, if_pos hmf])
    · have hlive : g.contains m = true := by
        obtain ⟨l, hl'⟩ := exists_lifetime? hm
        rw [hlife, if_neg hmf] at hl'
        exact contains_of_lifetime? hl'
      have ha := (hd.regular.agree_seat spec lifetime package hlive).trans (agree_of_frame e m)
      rw [ha.source, ha.lifetime]
      exact hd.new m hlive hm₀
  · by_cases hmf : m = g.fresh
    · exact hmf ▸ hfresh
    · have hlive : g.contains m = true := by
        rw [contains_congr e, contains_seat _ _ _ hi] at hm
        simpa [hmf] using hm
      refine (hd.fleeting m hlive hm₀).extend (fun i hi' => ?_) (fun P hP => ?_) fun P _ c hc => ?_
      · obtain ⟨r, hr, hi'⟩ := hi'
        refine .base ⟨r, ?_, ?_⟩
        · rw [persistentNodes_congr e, persistentNodes_seat]
          split
          · exact List.mem_append_left _ hr
          · exact hr
        · rwa [tree, ownedBy_congr e, ownedBy_seat, if_neg (hne r)]
      · rw [hlife, if_neg (hi.ne_fresh (contains_of_lifetime? hP)), hP]
      · rw [children, values_found hi hp] at hc
        split at hc
        · rename_i hPp
          rcases List.mem_append.1 hc with hc | hc
          · exact .inl (hPp.1 ▸ hc)
          · exact .inr (List.mem_singleton.1 hc ▸ hfresh)
        · rw [if_neg (by simp)] at hc
          exact .inl hc
  · rw [persistentNodes_congr e, persistentNodes_seat, if_neg, hd.others t ht]
    rcases hl with rfl | rfl
    · simp [ht.symm]
    · simp
  · rw [sources_congr e, filter_sources_seat, hd.sources]
    rintro t rfl
    rcases hl with h | h <;> simp_all
  · rw [hlife] at hlP
    rw [classifier?_congr e, classifier?_seat _ _ _ hi] at hkP
    split at hlP
    · rename_i hPf
      rw [if_pos hPf] at hkP
      exact hk (Option.some.inj hlP) k hkP
    · rename_i hPf
      rw [if_neg hPf] at hkP
      exact hd.packages P k hP hlP hkP

theorem not_contains (hd : Grown K s g₀ g) {m : NodeId} (hm : g.sourceOf? m = some s) :
    g₀.contains m = false := by
  by_contra h
  have ha := hd.grows.agree hd.base.toClosed (m := m) (by simpa using h)
  exact hd.unused m (ha.source.symm.trans hm)

theorem founded (hd : Grown K s g₀ g) {P : NodeId} (hf : Founded .implicit g h P)
    (hK : CoversMetamodel K) : Grown K s g₀ h := by
  induction hf with
  | refl => exact hd
  | step hf hpath ih =>
    have hr := (hf.step hpath).regular hd.regular hK
    exact ih.found (.inr rfl) hr
      (fun _ k hk => ih.regular.bootstrap k (ih.regular.classifier_bootstrap k hk))
      (ih.regular.isPackage_live hf.isPackage)

end Grown

structure Drafted (K : NodeId → Prop) (s : SourceId) (g₀ g : Graph) : Prop extends
    Grown K s g₀ g where
  filled : g.Filled
  trace : Trace K (· = s) g₀ g

namespace Drafted

variable {K : NodeId → Prop} {s : SourceId} {g₀ g : Graph}

theorem tidy (hd : Drafted K s g₀ g) : g.Tidy K :=
  ⟨hd.regular, hd.filled⟩

theorem refl (ht : g.Tidy K) (hs : ∀ m, g.sourceOf? m ≠ some s) : Drafted K s g g where
  base := ht
  unused := hs
  regular := ht.toRegular
  grows := .refl g
  new m hm hn := by simp [hm] at hn
  fleeting m hm hn := by simp [hm] at hn
  others _ _ := rfl
  sources := rfl
  packages P k hP hl _ := by simp [contains_of_lifetime? hl] at hP
  filled := ht.filled
  trace := .refl

theorem established (hd : Drafted K s g₀ g) (hK : CoversMetamodel K)
    {spec : NodeSpec} {path : Path} {id : NodeId} {g' : Graph}
    (he : Established g spec path (.persistent s) id g')
    (hk : ∀ k, spec.classifier = some k → K k ∧ ∃ p, g.path? k = some p) :
    Drafted K s g₀ g' := by
  have ht := he.tidy hd.tidy hK hk
  obtain ⟨h, parent, hf, -, -, -, rfl⟩ := he.founded
  have hh := hd.toGrown.founded hf hK
  exact ⟨hh.found (.inl rfl) ht.toRegular (by simp) (hh.regular.isPackage_live hf.isPackage),
    ht.filled, hd.trace.tail (.element rfl he hk)⟩

theorem part (hd : Drafted K s g₀ g) {spec : NodeSpec} {o c : NodeId} {kind : Path}
    (ho : g.lifetime? o = some (.persistent s)) (hp : spec.path = none)
    (hc : spec.classifier = some c) (hkind : g.path? c = some kind) (hK : K c)
    (hne : kind ≠ Metamodel.functionType) :
    Drafted K s g₀ (g.seat spec (.ephemeral o) false) := by
  have hi := hd.regular.toIndexed
  have hlife (m : NodeId) : (g.seat spec (.ephemeral o) false).lifetime? m =
      if m = g.fresh then some (.ephemeral o) else g.lifetime? m := lifetime?_seat _ _ _ hi m
  have hof : o ≠ g.fresh := hi.ne_fresh (contains_of_lifetime? ho)
  have hr : (g.seat spec (.ephemeral o) false).Regular K := hd.regular.part ho hp fun k hk => by
    obtain rfl : c = k := Option.some.inj (hc.symm.trans hk)
    exact ⟨hK, kind, hkind⟩
  refine ⟨⟨hd.base, hd.unused, hr, hd.grows.part hd.regular
    (hd.not_contains (sourceOf?_persistent ho)) hc hkind hne, fun m hm hm₀ => ?_,
    fun m hm hm₀ => ?_, fun t ht => ?_, ?_, fun P k hP hl hk => ?_⟩, fun P hl => ?_,
    hd.trace.tail (.part rfl ho hp hc hkind hK hne)⟩
  · by_cases hmf : m = g.fresh
    · refine .inl (sourceOf?_eq_some_iff.2 (.inr ⟨o, by rw [hlife, if_pos hmf], ?_⟩))
      rw [hlife, if_neg hof, ho]
    · have hlive : g.contains m = true := by
        obtain ⟨l, hl⟩ := exists_lifetime? hm
        rw [hlife, if_neg hmf] at hl
        exact contains_of_lifetime? hl
      have ha := hd.regular.agree_seat spec (.ephemeral o) false hlive
      rw [ha.source, ha.lifetime]
      exact hd.new m hlive hm₀
  · by_cases hmf : m = g.fresh
    · refine .base ⟨o, ?_, List.mem_cons_of_mem _ ?_⟩
      · rw [persistentNodes_seat, if_neg (by simp)]
        exact (hd.regular.persistent_iff s o).2 ho
      · rw [ownedBy_seat, if_pos rfl, hmf]
        simp
    · have hlive : g.contains m = true := by
        rw [contains_seat _ _ _ hi] at hm
        simpa [hmf] using hm
      refine (hd.fleeting m hlive hm₀).extend (fun i hi' => ?_) (fun P hP => ?_)
        fun P _ c hc => .inl ?_
      · obtain ⟨r, hr, hi'⟩ := hi'
        refine .base ⟨r, ?_, ?_⟩
        · rwa [persistentNodes_seat, if_neg (by simp)]
        · rw [tree, ownedBy_seat]
          split
          · rcases List.mem_cons.1 hi' with rfl | hi'
            · exact List.mem_cons_self
            · exact List.mem_cons_of_mem _ (List.mem_append_left _ hi')
          · exact hi'
      · rw [hlife, if_neg (hi.ne_fresh (contains_of_lifetime? hP)), hP]
      · rwa [children, values_seat _ _ _ hi] at hc
  · rw [persistentNodes_seat, if_neg (by simp), hd.others t ht]
  · rw [filter_sources_seat _ _ _ (by simp), hd.sources]
  · have hne' : P ≠ g.fresh := fun e => by
      rw [hlife, if_pos e] at hl
      simp at hl
    rw [hlife, if_neg hne'] at hl
    rw [classifier?_seat _ _ _ hi, if_neg hne'] at hk
    exact hd.packages P k hP hl hk
  · rw [children, values_seat _ _ _ hi]
    refine hd.filled P ?_
    rw [hlife] at hl
    split at hl
    · simp at hl
    · exact hl

theorem link (hd : Drafted K s g₀ g) {j v : NodeId} {q : String} (hj : g.sourceOf? j = some s)
    (hv : g.contains v = true) (hfit : g.Fits j q v) (hq : q ∉ Metamodel.derived)
    (hp : q ≠ "package") (hc : q ≠ "children") : Drafted K s g₀ (g.link j q v) := by
  have e := frame_link g j v q
  have hlive : g.contains j = true := by
    rcases sourceOf?_eq_some_iff.1 hj with h | ⟨o, h, -⟩ <;> exact contains_of_lifetime? h
  have hr : (g.link j q v).Regular K := by
    refine hd.regular.link hfit hlive hv hp hc (fun _ => ?_) fun h => ?_
    · by_contra hb
      have hnone : g.sourceOf? j = none := hd.regular.sourceOf? (by simpa using hb)
      simp [hnone] at hj
    · simp [h, Metamodel.derived] at hq
  refine ⟨⟨hd.base, hd.unused, hr,
    hd.grows.link hd.regular hd.base.toIndexed hlive (hd.not_contains hj) hq hc,
    fun m hm hm₀ => ?_, fun m hm hm₀ => ?_, fun t ht => ?_, ?_, fun P k hP hl hk => ?_⟩,
      fun P hl => ?_,
    hd.trace.tail (.write ⟨s, hj, rfl⟩ hv hfit hq hp hc)⟩
  · rw [contains_congr e] at hm
    rw [sourceOf?_congr e, lifetime?_congr e]
    exact hd.new m hm hm₀
  · rw [contains_congr e] at hm
    refine (hd.fleeting m hm hm₀).extend (fun i hi => ?_) (fun P hP => ?_) fun P _ c hmem => .inl ?_
    · obtain ⟨r, hr, hi⟩ := hi
      refine .base ⟨r, ?_, ?_⟩
      · rwa [persistentNodes_congr e]
      · rwa [tree, ownedBy_congr e]
    · rwa [lifetime?_congr e]
    · rwa [children, values_link hlive, if_neg fun h => hc h.2.symm] at hmem
  · rw [persistentNodes_congr e, hd.others t ht]
  · rw [sources_congr e, hd.sources]
  · rw [lifetime?_congr e] at hl
    rw [classifier?_congr e] at hk
    exact hd.packages P k hP hl hk
  · rw [children, values_link hlive, if_neg fun h => hc h.2.symm]
    exact hd.filled P (lifetime?_congr e P ▸ hl)

section Discard

variable (hd : Drafted K s g₀ g)
include hd

theorem inTrees_iff {m : NodeId} :
    g.InTrees (g.persistentNodes s) m ↔ g.sourceOf? m = some s :=
  hd.regular.toIndexed.sourceOf?_iff_tree.symm

theorem not_goes {m : NodeId} (hm : g₀.contains m = true) :
    ¬ Goes g (g.InTrees (g.persistentNodes s)) m := by
  intro hg
  induction hg with
  | base hb => simp [hd.not_contains (hd.inTrees_iff.1 hb)] at hm
  | @package P hl hkids ih =>
    -- a package that was there had a child, and that one stays
    have ha := hd.grows.agree hd.base.toClosed hm
    have hne := hd.base.filled P (ha.lifetime.symm.trans hl)
    obtain ⟨c, hc⟩ := List.exists_mem_of_ne_nil _ hne
    obtain ⟨new, hnew, -⟩ := hd.grows.children P hm
    exact ih c (by rw [hnew]; exact List.mem_append_left _ hc) (hd.base.value_live P _ c hc)

/-- The nodes of the source can be removed: only they and packages refer to them. -/
theorem removable : Removable g (g.persistentNodes s) where
  present id hid := ⟨_, (hd.regular.persistent_iff s id).1 hid, by simp⟩
  user u hu ht hn := by
    rw [hd.inTrees_iff] at ht hn
    have hmem := hd.regular.toCoherent.target_mem_values hu
    have hnew := hd.not_contains ht
    have hkids : u.property = "children" := by
      by_contra hq
      by_cases hold : g₀.contains u.user = true
      · rw [hd.grows.values _ _ hold hq] at hmem
        simp [hd.base.value_live _ _ _ hmem] at hnew
      · -- a new package holds back-references only, and of these no derived ones
        have hold' : g₀.contains u.user = false := by simpa using hold
        have hlife := (hd.new u.user (contains_of_mem_values hmem) hold').resolve_left hn
        have hsrc : g.sourceOf? u.user = none :=
          hd.regular.sourceOf?_package (hd.regular.implicit_package _ hlife)
        rcases (hd.regular.fits _ _ _ hmem).shared hsrc with hb | hnone
        · rcases (hd.regular.isBackReference_iff _).1 hb with h | h | h
          · exact hq h
          · simp [h, hd.grows.derived u.user "specializations" hold' (by decide)] at hmem
          · simp [h, hd.grows.derived u.user "propertiesFromAssociations" hold' (by decide)] at hmem
        · simp [hnone] at ht
    refine ⟨hkids, hd.regular.parent_isPackage u.user u.target ?_⟩
    rwa [hkids] at hmem
  member i c hcl hg := by
    have hc₀ : g₀.contains c = false := by
      by_contra h
      exact hd.not_goes (by simpa using h) hg
    have hi₀ : g₀.contains i = false := by
      by_contra h
      have hb := classifier?_of_bare (hd.grows.bare i (by simpa using h))
      simp [hd.base.classifier_live i c (hb.symm.trans hcl)] at hc₀
    rcases hd.new i (contains_of_classifier? hcl) hi₀ with h | h
    · exact hd.inTrees_iff.2 h
    · have := hd.packages i c hi₀ h hcl
      simp [hd.base.contains this] at hc₀
  implicit_user u hu hl _ :=
    (hd.regular.fits _ _ _ (hd.regular.toCoherent.target_mem_values hu)).implicit hl
  implicit_owner e P he hP := by
    obtain ⟨t, ht⟩ := hd.regular.owner e P he
    simp [hP] at ht

theorem discard {order pruned : List NodeId} {g' : Graph}
    (ho : Ordered g (g.persistentNodes s) order) (hk : Removed g g' order pruned)
    (hc : g'.Coherent) : Drafted K s g₀ g' ∧ g'.persistentNodes s = [] := by
  have horder (m : NodeId) : m ∈ order ↔ g.InTrees (g.persistentNodes s) m := ho.mem_iff m
  have hstay {m : NodeId} (hm : g₀.contains m = true) : m ∉ order ++ pruned := fun h =>
    hd.not_goes hm ((hk.goes m h).mono fun x hx => (horder x).1 hx)
  have hboot (m : NodeId) (hm : m ∈ order) : g.lifetime? m ≠ some .bootstrap := by
    obtain ⟨l, hl, hne⟩ := ho.live hd.regular.toIndexed hm
    rw [hl]
    simpa using hne
  have hr := hd.regular.removed hk hc hboot
  have hfilter {l : List NodeId} (hl : ∀ m ∈ l, g₀.contains m = true) :
      l.filter (· ∉ order ++ pruned) = l :=
    List.filter_eq_self.2 fun m hm => by simpa using hstay (hl m hm)
  have hagree {m : NodeId} (hm : g'.contains m = true) := Regular.agree_removed hk hc.toClosed hm
  have hback {m : NodeId} (hm : g'.contains m = true) : g.contains m = true := by
    rw [hk.contains] at hm
    simp at hm
    exact hm.2
  have hothers {t : SourceId} (ht : t ≠ s) : g'.persistentNodes t = g₀.persistentNodes t := by
    rw [hk.persistent, hd.others t ht]
    exact hfilter fun m hm => hd.base.persistent_live hm
  refine ⟨⟨⟨hd.base, hd.unused, hr, ?_, fun m hm hm₀ => ?_, fun m hm hm₀ => ?_, fun t ht => ?_, ?_,
    fun P k hP hl hcl => ?_⟩,
    hk.filled hd.filled, hd.trace.tail (.remove (fun id hid => ?_) ho hk hc)⟩, ?_⟩
  · exact {
      bare := fun m hm => by
        rw [hk.bare, if_neg (hstay hm)]
        exact hd.grows.bare m hm
      values := fun j q hj hq => by
        rw [hk.values, if_neg (hstay hj), if_neg hq]
        exact hd.grows.values j q hj hq
      children := fun P hP => by
        obtain ⟨new, hnew, hn⟩ := hd.grows.children P hP
        refine ⟨new.filter (· ∉ order ++ pruned), ?_, fun m hm => hn m (List.mem_filter.1 hm).1⟩
        have hch : g.values P "children" = g₀.children P ++ new := hnew
        rw [children, hk.values, if_neg (hstay hP), if_pos rfl, hch, List.filter_append,
          hfilter (l := g₀.children P) fun m hm => hd.base.value_live P _ m hm]
      owned := fun o ho' => by
        rw [hk.owned, if_neg (hstay ho'), hd.grows.owned o ho']
        exact hfilter fun m hm => contains_of_lifetime? ((hd.base.owned_iff o m).1 hm).1
      package := fun m hm => by
        rw [hk.package, hd.grows.package m hm]
        simp [hstay hm]
      derived := fun j q hj hq => by
        rw [hk.values]
        split
        · rfl
        · rw [if_neg fun e => by simp [e, Metamodel.derived] at hq]
          exact hd.grows.derived j q hj hq
      types := fun m hm ht => by
        have hlive : g'.contains m = true := by
          obtain ⟨o, hp⟩ := ht
          exact contains_of_lifetime? hp.lifetime
        exact hd.grows.types m hm (ht.agree (hagree hlive).symm)
      stamps := fun m hm => by
        rw [hk.stamp ((hd.regular.isBackReference_iff _).2 (.inl rfl)) m (hstay hm),
          hd.grows.stamps m hm]
      excerpt := fun p hp => by
        rw [hk.excerpt p fun j hj => ?_, hd.grows.excerpt p hp]
        by_contra hpj
        exact hstay (hp j (by simpa using hpj)) hj
      packageClassifier := hk.packageClassifier.trans hd.grows.packageClassifier
      ages := hd.grows.ages.trans (hk.ages hc.toClosed) }
  · rw [(hagree hm).source, (hagree hm).lifetime]
    exact hd.new m (hback hm) hm₀
  · have hgone := (hk.mem_iff ho hd.filled m).2 (hd.fleeting m (hback hm) hm₀)
    exact absurd hgone (hk.not_mem_of_contains hm)
  · exact hothers ht
  · -- the other sources have kept their nodes, and so their places
    refine List.Sublist.eq_of_length_le (hd.sources ▸ hk.sources.filter _)
      (List.Subperm.length_le (List.Nodup.subperm (hd.base.source_keys.filter _) fun t ht => ?_))
    obtain ⟨hmem, hts⟩ := List.mem_filter.1 ht
    have hts : t ≠ s := by simpa using hts
    refine List.mem_filter.2 ⟨?_, by simpa using hts⟩
    rw [hr.toTabled.mem_sources_iff, hothers hts]
    exact (hd.base.toTabled.mem_sources_iff t).1 hmem
  · exact hd.packages P k hP (hk.lifetime?_eq_some hl).2
      ((classifier?_of_bare (hk.bare_of_contains (contains_of_classifier? hcl))).symm.trans hcl)
  · exact ⟨s, rfl, (hd.regular.persistent_iff s id).1 hid⟩
  · rw [hk.persistent, List.filter_eq_nil_iff]
    intro m hm
    have : m ∈ order := (horder m).2 ⟨m, hm, List.mem_cons_self⟩
    simp [this]

end Discard

end Drafted

end ModelCompiler.Graph
