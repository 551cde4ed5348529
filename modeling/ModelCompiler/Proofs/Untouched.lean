import ModelCompiler.Proofs.Moves

/-!
What is left alone.
-/
namespace ModelCompiler.Graph

variable {h : Graph} {j package v : NodeId} {spec : NodeSpec} {p : String}

/-- The node is as it was, references that are kept on it for others apart. -/
structure Untouched (g g' : Graph) (m : NodeId) : Prop where
  bare : (g'.node? m).map Node.bare = (g.node? m).map Node.bare
  stamp : g'.stamp? m = g.stamp? m
  values : ∀ q, g.isBackReference q = false → g'.values m q = g.values m q
  owned : g'.ownedBy m = g.ownedBy m

namespace Untouched

variable {g h k : Graph} {m : NodeId}

theorem refl (g : Graph) (m : NodeId) : Untouched g g m :=
  ⟨rfl, rfl, fun _ _ => rfl, rfl⟩

theorem trans (a : Untouched g h m) (b : Untouched h k m)
    (e : h.backReferences = g.backReferences) : Untouched g k m where
  bare := b.bare.trans a.bare
  stamp := b.stamp.trans a.stamp
  values q hq := by
    have hq' : h.isBackReference q = false := by rwa [isBackReference, e]
    exact (b.values q hq').trans (a.values q hq)
  owned := b.owned.trans a.owned

end Untouched

section Writes

variable {K R : NodeId → Prop} {T : SourceId → Prop} {g g' : Graph} {m : NodeId}

theorem untouched_of_write (e : g'.frame = g.frame)
    (hv : ∀ i q, ¬ (i = j ∧ q = p) → g'.values i q = g.values i q)
    (hstamp : g.Leaves j p m → g'.stamp? m = g.stamp? m) (h : g.Leaves j p m) :
    Untouched g g' m where
  bare := by rw [← node?_frame, e, node?_frame]
  stamp := hstamp h
  values q hq := by
    apply hv
    rintro ⟨rfl, rfl⟩
    rcases h with h | h
    · simp [h] at hq
    · exact h (.inl rfl)
  owned := ownedBy_congr e m

theorem untouched_link (hj : g.contains j = true)
    (h : g.Leaves j p m) : Untouched g (g.link j p v) m :=
  untouched_of_write (frame_link g j v p) (fun i q hiq => by rw [values_link hj, if_neg hiq])
    (stamp?_link v) h

theorem untouched_unlink (hj : g.contains j = true)
    (h : g.Leaves j p m) : Untouched g (g.unlink j p v) m :=
  untouched_of_write (frame_unlink g j v p) (fun i q hiq => by rw [values_unlink hj, if_neg hiq])
    (stamp?_unlink v) h

theorem untouched_purge (h : g.Leaves j p m) :
    Untouched g (g.purge j p) m :=
  untouched_of_write (frame_purge g j p) (fun i q hiq => by rw [values_purge, if_neg hiq])
    stamp?_purge h

theorem untouched_seat (hi : g.Indexed) {lifetime : Lifetime} {package : Bool}
    (hm : g.contains m = true) (hl : lifetime ≠ .ephemeral m) :
    Untouched g (g.seat spec lifetime package) m where
  bare := hi.bare_seat _ _ _ hm
  stamp := by rw [stamp?, node?_seat _ _ _ hi, if_neg (hi.ne_fresh hm), stamp?]
  values q _ := values_seat _ _ _ hi m q
  owned := by rw [ownedBy_seat, if_neg hl]

theorem leaves_of_source (hj : Among T (g.sourceOf? j))
    (hm : ∀ s, g.sourceOf? m = some s → ¬ T s) : g.Leaves j p m := by
  obtain ⟨s, hs, hT⟩ := hj
  refine .inr fun ht => ?_
  rcases ht with rfl | ht
  · exact hm s hs hT
  · rcases sourceOf?_eq_some_iff.1 hs with h | ⟨o, h, ho⟩
    · simp [ht] at h
    · obtain rfl : m = o := by simpa [ht] using h
      exact hm s (sourceOf?_persistent ho) hT

theorem Regular.leaves_of_owner (hr : g.Regular K)
    (hj : Among R (g.ownerRoot? j)) (hm : ¬ Among R (g.ownerRoot? m)) : g.Leaves j p m := by
  obtain ⟨x, hx, hR⟩ := hj
  refine .inr fun ht => hm ?_
  rcases ht with rfl | ht
  · exact ⟨x, hx, hR⟩
  · obtain ⟨s, hs⟩ := hr.owner j m ht
    rw [ownerRoot?_part ht] at hx
    exact ⟨m, ownerRoot?_persistent hs, Option.some.inj hx ▸ hR⟩

theorem Regular.leaves_of_author (hr : g.Regular K)
    (ha : Among R (g.author? j p v)) (hm : ¬ Among R (g.ownerRoot? m)) : g.Leaves j p m := by
  by_cases hp : g.isBackReference p = true
  · exact .inl hp
  · rw [author?_of_forward (by simpa using hp)] at ha
    exact hr.leaves_of_owner ha hm

theorem Removed.untouched {order pruned : List NodeId} (hk : Removed g g' order pruned)
    (hb : g.isBackReference "children" = true) (hm : g'.contains m = true)
    (howned : ∀ e ∈ g.ownedBy m, e ∉ order ++ pruned) : Untouched g g' m := by
  have hgone := hk.not_mem_of_contains hm
  exact {
    bare := hk.bare_of_contains hm
    stamp := hk.stamp hb m hgone
    values := fun q hq => by
      rw [hk.values, if_neg hgone, if_neg]
      rintro rfl
      simp [hb] at hq
    owned := by
      rw [hk.owned, if_neg hgone, List.filter_eq_self]
      exact fun e he => decide_eq_true (howned e he) }

end Writes

section Moves

variable {K R : NodeId → Prop} {T : SourceId → Prop} {g g' : Graph} {m : NodeId}

theorem Regular.children_back (hr : g.Regular K) : g.isBackReference "children" = true :=
  (hr.isBackReference_iff _).2 (.inl rfl)

theorem Indexed.sourceOf?_owned (hi : g.Indexed) {e : NodeId} (he : e ∈ g.ownedBy m) :
    g.lifetime? e = some (.ephemeral m) ∧ g.sourceOf? e = g.sourceOf? m := by
  obtain ⟨hl, hm⟩ := (hi.owned_iff m e).1 he
  obtain ⟨l, hlm⟩ := exists_lifetime? hm
  refine ⟨hl, ?_⟩
  rw [sourceOf?_ephemeral hl, sourceOf?_eq, ownerRoot?_eq, hlm]
  cases l with
  | ephemeral o => exact absurd (hi.owner_plain e m hl _ hlm) (by simp [Lifetime.isEphemeral])
  | _ => simp [hlm]

theorem Step.untouched (h : Step K R g g') (ht : g.Tidy K) (hm : ¬ Among R (g.ownerRoot? m))
    (hlive : g.contains m = true) (hstay : g'.contains m = true) : Untouched g g' m := by
  cases h with
  | link _ _ hj _ _ ha => exact untouched_link hj (ht.leaves_of_author ha hm)
  | type ho hl =>
    refine untouched_seat ht.toIndexed hlive ?_
    rintro ⟨⟩
    exact hm ⟨m, ownerRoot?_persistent hl, ho⟩
  | fill hty ha _ _ _ =>
    obtain ⟨o, hp⟩ := hty
    exact untouched_link (contains_of_lifetime? hp.lifetime) (ht.leaves_of_owner ha hm)
  | unlink hv _ ha =>
    refine untouched_unlink (contains_of_mem_values hv) ?_
    rcases ha with ha | ha
    · exact ht.leaves_of_owner ha hm
    · exact ht.leaves_of_author ha hm
  | purge _ _ ha => exact untouched_purge (ht.leaves_of_owner ha hm)
  | drop htypes ho hk _ =>
    refine hk.untouched ht.children_back hstay fun e he hgone => hm ?_
    rw [List.append_nil, ho.mem_types ht.toRegular fun t h => (htypes t h).1] at hgone
    obtain ⟨x, hx, hR⟩ := (htypes e hgone).2
    obtain ⟨hl, -⟩ := ht.sourceOf?_owned he
    obtain ⟨s, hs⟩ := ht.owner e m hl
    rw [ownerRoot?_part hl] at hx
    exact ⟨m, ownerRoot?_persistent hs, Option.some.inj hx ▸ hR⟩

theorem Step.stays (h : Step K R g g') (ht : g.Tidy K) (hm : ¬ Among R (g.ownerRoot? m))
    (hlive : g.contains m = true) : g'.contains m = true := by
  cases h with
  | link => rwa [contains_congr (frame_link _ _ _ _)]
  | type => exact contains_seat_of_contains _ _ _ ht.toIndexed hlive
  | fill => rwa [contains_congr (frame_link _ _ _ _)]
  | unlink => rwa [contains_congr (frame_unlink _ _ _ _)]
  | purge => rwa [contains_congr (frame_purge _ _ _)]
  | drop htypes ho hk _ =>
    rw [hk.contains, hlive, Bool.and_true, decide_eq_true_eq, List.append_nil,
      ho.mem_types ht.toRegular fun t h => (htypes t h).1]
    exact fun hmem => hm (htypes m hmem).2

theorem Works.untouched (h : Works K R g g') (ht : g.Tidy K) {x : NodeId}
    (hm : g.ownerRoot? m = some x) (hx : ¬ R x) :
    g'.ownerRoot? m = some x ∧ Untouched g g' m := by
  induction h with
  | refl => exact ⟨hm, .refl g m⟩
  | @tail h k hw hs ih =>
    obtain ⟨hm', hu⟩ := ih
    have hh := Works.tidy hw ht
    have hnot : ¬ Among R (h.ownerRoot? m) := by
      rintro ⟨y, hy, hR⟩
      exact hx (Option.some.inj (hm'.symm.trans hy) ▸ hR)
    have hlive : h.contains m = true := by
      obtain ⟨l, hl, -⟩ := Option.map_eq_some_iff.1 ((ownerRoot?_eq h m).symm.trans hm')
      exact contains_of_lifetime? hl
    have hstay := hs.stays hh hnot hlive
    refine ⟨?_, hu.trans (hs.untouched hh hnot hlive hstay) ?_⟩
    · rw [ownerRoot?_eq, (hs.agree hh hlive hstay).lifetime, ← ownerRoot?_eq, hm']
    · exact hh.backReferences.trans ht.backReferences.symm

variable (hm : ∀ s, g.sourceOf? m = some s → ¬ T s)
include hm

omit hm in
theorem untouched_found (hr : g.Regular K) {lifetime : Lifetime} {package : Bool}
    {parent : NodeId} (hl : ∀ o, lifetime ≠ .ephemeral o) (hp : g.contains parent = true)
    (hlive : g.contains m = true) : Untouched g (g.found spec lifetime package parent) m := by
  have hi := hr.toIndexed
  have hfresh : (g.seat spec lifetime package).contains g.fresh = true := by
    simp [contains_seat _ _ _ hi]
  have hown : ¬ (g.seat spec lifetime package).Touches g.fresh m := by
    rintro (rfl | h)
    · exact hi.ne_fresh hlive rfl
    · rw [lifetime?_seat _ _ _ hi, if_pos rfl] at h
      exact hl m (Option.some.inj h)
  have hseat : Untouched g (g.seat spec lifetime package) m := untouched_seat hi hlive (hl m)
  have hplace := untouched_link (v := parent) (p := "package") hfresh (.inr hown)
  refine (hseat.trans hplace rfl).trans (untouched_link ?_ (.inl ?_)) ?_
  · rw [contains_congr (frame_link _ _ _ _)]
    exact contains_seat_of_contains _ _ _ hi hp
  · rw [isBackReference_congr (frame_link _ _ _ _)]
    exact hr.children_back
  · exact (backReferences_congr (frame_link _ _ _ _)).trans (backReferences_seat _ _ _ g)

omit hm in
theorem Founded.untouched (hf : Founded .implicit g h package)
    (hr : g.Regular K) (hK : CoversMetamodel K) (hlive : g.contains m = true) :
    Untouched g h m := by
  induction hf with
  | refl => exact .refl g m
  | step hf _ ih =>
    have hh := hf.regular hr hK
    refine ih.trans (untouched_found hh (by simp) (hh.isPackage_live hf.isPackage) ?_)
      (hh.backReferences.trans hr.backReferences.symm)
    exact hf.contains rfl hr.toSound hlive

omit hm in
theorem Established.untouched {path : Path} {s : SourceId} {id : NodeId}
    (he : Established g spec path (.persistent s) id g') (hr : g.Regular K)
    (hK : CoversMetamodel K) (hlive : g.contains m = true) :
    Untouched g g' m := by
  obtain ⟨h, parent, hf, -, -, -, rfl⟩ := he.founded
  have hh := hf.regular hr hK
  refine (hf.untouched hr hK hlive).trans
    (untouched_found hh (by simp) (hh.isPackage_live hf.isPackage) ?_)
    (hh.backReferences.trans hr.backReferences.symm)
  exact hf.contains rfl hr.toSound hlive

theorem Move.untouched (h : Move K T g g') (ht : g.Tidy K)
    (hK : CoversMetamodel K) (hlive : g.contains m = true)
    (hstay : g'.contains m = true) : Untouched g g' m := by
  cases h with
  | step hR h =>
    refine h.untouched ht (fun ha => ?_) hlive hstay
    obtain ⟨s, hs, hT⟩ := hR.sourceOf? ha
    exact hm s hs hT
  | element _ he _ => exact he.untouched ht.toRegular hK hlive
  | part hs ho =>
    refine untouched_seat ht.toIndexed hlive ?_
    rintro ⟨⟩
    exact hm _ (sourceOf?_persistent ho) hs
  | write ha => exact untouched_link ha.contains (leaves_of_source ha hm)
  | remove hids ho hk _ =>
    refine hk.untouched ht.children_back hstay fun e he hgone => ?_
    obtain ⟨hl, hsrc⟩ := ht.sourceOf?_owned he
    rcases List.mem_append.1 hgone with h | h
    · obtain ⟨id, hid, htree⟩ := (ho.mem_iff e).1 h
      obtain ⟨s, hs, hlid⟩ := hids id hid
      refine hm s (hsrc ▸ ht.sourceOf?_iff_tree.2 ⟨id, ?_, htree⟩) hs
      exact (ht.persistent_iff s id).2 hlid
    · simp [hk.implicit e h] at hl

end Moves

section Sources

variable {K : NodeId → Prop} {T : SourceId → Prop} {g g' : Graph} {m : NodeId} {t : SourceId}

theorem Tidy.not_mem_gone (ht : g.Tidy K) {ids order pruned : List NodeId}
    (hids : ∀ id ∈ ids, ∃ s, T s ∧ g.lifetime? id = some (.persistent s))
    (ho : Ordered g ids order) (hk : Removed g g' order pruned) (hm : g.sourceOf? m = some t)
    (hT : ¬ T t) : m ∉ order ++ pruned := by
  intro hgone
  rcases List.mem_append.1 hgone with h | h
  · obtain ⟨id, hid, htree⟩ := (ho.mem_iff m).1 h
    obtain ⟨s, hs, hl⟩ := hids id hid
    have hsrc : g.sourceOf? m = some s :=
      ht.sourceOf?_iff_tree.2 ⟨id, (ht.persistent_iff s id).2 hl, htree⟩
    rw [hm] at hsrc
    exact hT (Option.some.inj hsrc ▸ hs)
  · have hl := hk.implicit m h
    rcases sourceOf?_eq_some_iff.1 hm with h | ⟨o, h, -⟩ <;> simp [hl] at h

theorem Founded.persistentNodes (hf : Founded .implicit g h package)
    (t : SourceId) : h.persistentNodes t = g.persistentNodes t := by
  induction hf with
  | refl => rfl
  | step _ _ ih =>
    rw [persistentNodes_congr (frame_found _ _ _ _ _), persistentNodes_seat, if_neg (by simp), ih]

theorem Move.persistentNodes (h : Move K T g g') (ht : g.Tidy K) (hT : ¬ T t) :
    g'.persistentNodes t = g.persistentNodes t := by
  cases h with
  | step _ h => exact h.persistentNodes ht t
  | @element _ _ s _ _ hs he _ =>
    obtain ⟨h, parent, hf, -, -, -, rfl⟩ := he.founded
    have hne : Lifetime.persistent s ≠ .persistent t := by
      rintro ⟨⟩
      exact hT hs
    rw [persistentNodes_congr (frame_found _ _ _ _ _), persistentNodes_seat, if_neg hne]
    exact hf.persistentNodes t
  | part => rw [persistentNodes_seat, if_neg (by simp)]
  | write => exact persistentNodes_congr (frame_link _ _ _ _) t
  | remove hids ho hk _ =>
    rw [hk.persistent, List.filter_eq_self]
    intro x hx
    exact decide_eq_true (ht.not_mem_gone hids ho hk
      (sourceOf?_persistent ((ht.persistent_iff t x).1 hx)) hT)

variable (ht : g.Tidy K) (hK : CoversMetamodel K)
include ht hK

theorem Trace.persistentNodes (h : Trace K T g g') (hT : ¬ T t) :
    g'.persistentNodes t = g.persistentNodes t := by
  induction h with
  | refl => rfl
  | tail hw hs ih => rw [hs.persistentNodes (Trace.tidy hK hw ht) hT, ih]

theorem Trace.backReferences (h : Trace K T g g') : g'.backReferences = g.backReferences :=
  (Trace.tidy hK h ht).backReferences.trans ht.backReferences.symm

theorem Move.sourceOf? (h : Move K T g g') (hm : g.sourceOf? m = some t) (hT : ¬ T t) :
    g'.sourceOf? m = some t := by
  have ht' := h.tidy hK ht
  obtain ⟨r, hr, hmem⟩ := ht.sourceOf?_iff_tree.1 hm
  have hr' : r ∈ g'.persistentNodes t := by rwa [h.persistentNodes ht hT]
  have hlr := (ht.persistent_iff t r).1 hr
  have hu : Untouched g g' r := by
    refine h.untouched (fun s hs => ?_) ht hK (contains_of_lifetime? hlr)
      (ht'.persistent_live hr')
    rw [sourceOf?_persistent hlr] at hs
    exact Option.some.inj hs ▸ hT
  refine ht'.sourceOf?_iff_tree.2 ⟨r, hr', ?_⟩
  rwa [tree, hu.owned]

theorem Trace.sourceOf? (h : Trace K T g g') (hm : g.sourceOf? m = some t) (hT : ¬ T t) :
    g'.sourceOf? m = some t := by
  induction h with
  | refl => exact hm
  | tail hw hs ih => exact hs.sourceOf? (Trace.tidy hK hw ht) hK ih hT

/-- A node that each change leaves in its place, and that belongs to none of the sources in whose
name the changes are made. -/
theorem Trace.untouched_of (h : Trace K T g g')
    (hm : ∀ h, Trace K T g h → h.contains m = true ∧ ∀ s, h.sourceOf? m = some s → ¬ T s) :
    Untouched g g' m := by
  induction h with
  | refl => exact .refl g m
  | tail hw hs ih =>
    refine ih.trans (hs.untouched (hm _ hw).2 (Trace.tidy hK hw ht) hK (hm _ hw).1
      (hm _ (hw.tail hs)).1) (Trace.backReferences ht hK hw)

theorem Trace.untouched (h : Trace K T g g') (hm : g.sourceOf? m = some t) (hT : ¬ T t) :
    Untouched g g' m :=
  Trace.untouched_of ht hK h fun h hw => by
    have hsrc := Trace.sourceOf? ht hK hw hm hT
    exact ⟨contains_of_sourceOf? hsrc, fun s hs => Option.some.inj (hsrc.symm.trans hs) ▸ hT⟩

theorem Trace.untouched_initial (h : Trace K T g g') (hm : initial.contains m = true) :
    Untouched g g' m :=
  Trace.untouched_of ht hK h fun h hw => by
    have hr := (Trace.tidy hK hw ht).toRooted
    exact ⟨hr.contains hm, fun s hs => by simp [hr.sourceOf? hm] at hs⟩

end Sources

section Metamodel

variable {K R : NodeId → Prop} {T : SourceId → Prop} {g g' : Graph}

theorem Rooted.not_initial (hr : g.Rooted) {m : NodeId} (h : Among T (g.sourceOf? m)) :
    initial.contains m = false := by
  obtain ⟨s, hs, -⟩ := h
  by_contra hm
  simp [hr.sourceOf? (by simpa using hm)] at hs

theorem Rooted.fresh_not_initial (hr : g.Rooted) (hi : g.Indexed) :
    initial.contains g.fresh = false := by
  by_contra hm
  exact hi.ne_fresh (hr.contains (by simpa using hm)) rfl

theorem Rooted.author_not_initial (hr : g.Rooted) (hR : g.Within R T) {q : String}
    (ha : Among R (g.author? j q v)) : initial.contains j = false ∨ initial.contains v = false := by
  by_cases hq : g.isBackReference q = true
  · rw [author?_of_back hq] at ha
    exact .inr (hr.not_initial (hR.sourceOf? ha))
  · rw [author?_of_forward (by simpa using hq)] at ha
    exact .inl (hr.not_initial (hR.sourceOf? ha))

theorem Step.excerpt (h : Step K R g g') (ht : g.Tidy K) (hR : g.Within R T) :
    g'.excerpt initial.contains = g.excerpt initial.contains := by
  have hm := ht.toMirrored
  cases h with
  | link _ _ hj _ _ ha => exact excerpt_link hm hj (ht.author_not_initial hR ha)
  | type => exact excerpt_seat ht.toIndexed _ _ _ (ht.fresh_not_initial ht.toIndexed)
  | fill hty ha _ _ _ =>
    obtain ⟨o, hp⟩ := hty
    exact excerpt_link hm (contains_of_lifetime? hp.lifetime)
      (.inl (ht.not_initial (hR.sourceOf? ha)))
  | unlink hv _ ha =>
    refine excerpt_unlink hm (contains_of_mem_values hv) ?_
    rcases ha with ha | ha
    · exact .inl (ht.not_initial (hR.sourceOf? ha))
    · exact ht.author_not_initial hR ha
  | purge _ _ ha => exact excerpt_purge hm (ht.not_initial (hR.sourceOf? ha))
  | drop htypes ho hk _ =>
    refine hk.excerpt _ fun j hj => ?_
    rw [List.append_nil, ho.mem_types ht.toRegular fun t h => (htypes t h).1] at hj
    exact ht.not_initial (hR.sourceOf? (htypes j hj).2)

theorem Founded.excerpt (hf : Founded .implicit g h package)
    (hr : g.Regular K) (hK : CoversMetamodel K) :
    h.excerpt initial.contains = g.excerpt initial.contains := by
  induction hf with
  | refl => rfl
  | step hf _ ih =>
    have hh := hf.regular hr hK
    rw [excerpt_found hh.toCoherent (hh.isPackage_live hf.isPackage)
      (hh.fresh_not_initial hh.toIndexed), ih]

variable (hK : CoversMetamodel K)
include hK

theorem Move.excerpt (h : Move K T g g') (ht : g.Tidy K) :
    g'.excerpt initial.contains = g.excerpt initial.contains := by
  cases h with
  | step hR h => exact h.excerpt ht hR
  | element _ he _ =>
    obtain ⟨h, parent, hf, -, -, -, rfl⟩ := he.founded
    have hh := hf.regular ht.toRegular hK
    rw [excerpt_found hh.toCoherent (hh.isPackage_live hf.isPackage)
      (hh.fresh_not_initial hh.toIndexed), hf.excerpt ht.toRegular hK]
  | part => exact excerpt_seat ht.toIndexed _ _ _ (ht.fresh_not_initial ht.toIndexed)
  | write ha => exact excerpt_link ht.toMirrored ha.contains (.inl (ht.not_initial ha))
  | remove hids ho hk _ =>
    refine hk.excerpt _ fun j hj => ?_
    by_contra hb
    have hboot := ht.toRooted.lifetime? (by simpa using hb)
    rcases List.mem_append.1 hj with h | h
    · obtain ⟨l, hl, hne⟩ := ho.live ht.toIndexed h
      exact hne (Option.some.inj (hl.symm.trans hboot))
    · simp [hk.implicit j h] at hboot

theorem Trace.excerpt (h : Trace K T g g') (ht : g.Tidy K) :
    g'.excerpt initial.contains = g.excerpt initial.contains := by
  induction h with
  | refl => rfl
  | tail hw hs ih => rw [hs.excerpt hK (Trace.tidy hK hw ht), ih]

end Metamodel

end ModelCompiler.Graph
