import ModelCompiler.Proofs.Untouched
import ModelCompiler.Proofs.Drafting.Parts

/-!
What lasts while handlers work. Handlers make and remove types of functions only: every other node
stays, with all that was drafted of it.
-/
namespace ModelCompiler.Graph

variable {K R : NodeId → Prop} {T : SourceId → Prop} {g g' : Graph} {j m v : NodeId} {q : String}

section Lasting

structure Lasting (g : Graph) (m : NodeId) : Prop where
  live : g.contains m = true
  not_isType : ¬ g.IsType m

theorem Lasting.agree (h : g.Lasting m) (a : Agree g g' m) : g'.Lasting m :=
  ⟨a.contains.trans h.live, fun ht => h.not_isType (ht.agree a.symm)⟩

theorem lasting_congr (e : g'.frame = g.frame) : g'.Lasting m ↔ g.Lasting m :=
  ⟨fun h => h.agree (agree_of_frame e m).symm, fun h => h.agree (agree_of_frame e m)⟩

theorem Regular.isType_seat (hr : g.Regular K) {spec : NodeSpec} {o k : NodeId}
    (hk : spec.classifier = some k) (hkind : g.path? k = some Metamodel.functionType) :
    (g.seat spec (.ephemeral o) false).IsType g.fresh := by
  have hi := hr.toIndexed
  refine ⟨o, by rw [lifetime?_seat _ _ _ hi, if_pos rfl], ?_⟩
  rw [classifierPath?, classifier?_seat _ _ _ hi, if_pos rfl, hk]
  exact (hr.agree_seat _ _ _ (contains_of_path? hkind)).path.trans hkind

theorem Step.lasting_iff (h : Step K R g g') (ht : g.Tidy K) : g'.Lasting m ↔ g.Lasting m := by
  cases h with
  | link | fill => exact lasting_congr (frame_link _ _ _ _)
  | unlink => exact lasting_congr (frame_unlink _ _ _ _)
  | purge => exact lasting_congr (frame_purge _ _ _)
  | type _ _ _ hk hkind _ =>
    refine ⟨fun h => ?_, fun h => h.agree (ht.agree_seat _ _ _ h.live)⟩
    have hne : m ≠ g.fresh := by
      rintro rfl
      exact h.not_isType (ht.isType_seat hk hkind)
    have hlive := h.live
    simp only [contains_seat _ _ _ ht.toIndexed, hne, decide_false, Bool.false_or] at hlive
    exact h.agree (ht.agree_seat _ _ _ hlive).symm
  | drop htypes ho hk hc =>
    have hagree (hm : g'.contains m = true) := Regular.agree_removed hk hc.toClosed hm
    refine ⟨fun h => h.agree (hagree h.live).symm, fun h => h.agree (hagree ?_)⟩
    rw [hk.contains, h.live, Bool.and_true, decide_eq_true_eq, List.append_nil,
      ho.mem_types ht.toRegular fun t h => (htypes t h).1]
    exact fun hmem => h.not_isType (htypes m hmem).1

theorem Step.bare (h : Step K R g g') (ht : g.Tidy K) (hm : g.Lasting m) :
    (g'.node? m).map Node.bare = (g.node? m).map Node.bare := by
  have hm' := (h.lasting_iff ht).2 hm
  have hframe (e : g'.frame = g.frame) :
      (g'.node? m).map Node.bare = (g.node? m).map Node.bare := by
    rw [← node?_frame, e, node?_frame]
  cases h with
  | link | fill => exact hframe (frame_link _ _ _ _)
  | unlink => exact hframe (frame_unlink _ _ _ _)
  | purge => exact hframe (frame_purge _ _ _)
  | type => exact ht.toIndexed.bare_seat _ _ _ hm.live
  | drop _ _ hk _ => exact hk.bare_of_contains hm'.live

theorem Step.plain (h : Step K R g g') (ht : g.Tidy K) (hm : g.Lasting m)
    (hq : q ∉ Metamodel.derived) : g'.values m q = g.values m q := by
  have hm' := (h.lasting_iff ht).2 hm
  cases h with
  | link hder _ hj =>
    rw [values_link hj, if_neg]
    rintro ⟨-, rfl⟩
    exact hq hder
  | type => exact values_seat _ _ _ ht.toIndexed m q
  | fill hty =>
    obtain ⟨o, hp⟩ := id hty
    rw [values_link (contains_of_lifetime? hp.lifetime), if_neg]
    rintro ⟨rfl, -⟩
    exact hm.not_isType hty
  | unlink hv hder =>
    rw [values_unlink (contains_of_mem_values hv), if_neg]
    rintro ⟨rfl, rfl⟩
    rcases hder with hder | hty
    · exact hq hder
    · exact hm.not_isType hty
  | purge hder =>
    rw [values_purge, if_neg]
    rintro ⟨-, rfl⟩
    exact hq hder
  | drop htypes ho hk _ =>
    rw [hk.values, if_neg (hk.not_mem_of_contains hm'.live)]
    split
    · rw [List.filter_eq_self]
      intro v hv
      rw [decide_eq_true_eq, List.append_nil, ho.mem_types ht.toRegular fun t h => (htypes t h).1]
      intro hgone
      have := (ht.fits m _ v hv).type (htypes v hgone).1
      simp_all
    · rfl

theorem Works.lasting_iff (h : Works K R g g') (ht : g.Tidy K) : g'.Lasting m ↔ g.Lasting m := by
  induction h with
  | refl => exact .rfl
  | tail hw hs ih => exact (hs.lasting_iff (Works.tidy hw ht)).trans ih

theorem Works.bare (h : Works K R g g') (ht : g.Tidy K) (hm : g.Lasting m) :
    (g'.node? m).map Node.bare = (g.node? m).map Node.bare := by
  induction h with
  | refl => rfl
  | tail hw hs ih =>
    exact (hs.bare (Works.tidy hw ht) ((Works.lasting_iff hw ht).2 hm)).trans ih

theorem Works.plain (h : Works K R g g') (ht : g.Tidy K) (hm : g.Lasting m)
    (hq : q ∉ Metamodel.derived) : g'.values m q = g.values m q := by
  induction h with
  | refl => rfl
  | tail hw hs ih =>
    exact (hs.plain (Works.tidy hw ht) ((Works.lasting_iff hw ht).2 hm) hq).trans ih

theorem Regular.lasting_value (hr : g.Regular K) (hv : v ∈ g.values m q) (hq : q ≠ "functionType") :
    g.Lasting v :=
  ⟨hr.value_live m q v hv, fun ht => hq ((hr.fits m q v hv).type ht)⟩

theorem Regular.lasting_of_properties (hr : g.Regular K) (h : g.values m "properties" ≠ []) :
    g.Lasting m := by
  obtain ⟨p, hp⟩ := List.exists_mem_of_ne_nil _ h
  obtain ⟨hpart, -⟩ := (hr.fits m _ p hp).property rfl
  obtain ⟨s, hs⟩ := hr.owner p m hpart.lifetime
  refine ⟨contains_of_mem_values hp, fun ⟨o, ht⟩ => ?_⟩
  exact absurd (ht.lifetime.symm.trans hs) (by simp)

def Whole (g : Graph) : Prop :=
  ∀ x, g.Complete (fun _ => False) x

theorem Whole.of_values (h : g.Whole) (hv : ∀ x, g'.values x "properties" ≠ [] →
    g'.values x "properties" = g.values x "properties" ∧ ∀ p ∈ g'.values x "properties",
      g'.values p "genericType" = g.values p "genericType") : g'.Whole := by
  intro x
  by_cases hx : g'.values x "properties" = []
  · exact complete_of_nil hx
  · obtain ⟨hsame, htypes⟩ := hv x hx
    refine (h x).of_values hsame fun p hp => ?_
    rw [htypes p (hsame ▸ hp)]
    exact fun hne => hne

theorem Works.whole (h : Works K R g g') (ht : g.Tidy K) (hw : g.Whole) : g'.Whole := by
  have ht' := Works.tidy h ht
  have hplain {m : NodeId} {q : String} (hm : g'.Lasting m) (hq : q ∉ Metamodel.derived) :=
    Works.plain h ht ((Works.lasting_iff h ht).1 hm) hq
  refine hw.of_values fun x hx => ⟨?_, fun p hp => ?_⟩
  · exact hplain (ht'.lasting_of_properties hx) (by decide)
  · exact hplain (ht'.lasting_value hp (by decide)) (by decide)

theorem Removed.whole {order pruned : List NodeId} (hk : Removed g g' order pruned)
    (hc : g'.Coherent) (hw : g.Whole) : g'.Whole := by
  refine hw.of_values fun x hx => ⟨?_, fun p hp => ?_⟩
  · obtain ⟨p, hp⟩ := List.exists_mem_of_ne_nil _ hx
    exact hk.values_of_contains (contains_of_mem_values hp) (by decide)
  · exact hk.values_of_contains (hc.value_live x _ p hp) (by decide)

end Lasting

section Held

variable {P : NodeId → Bool}

theorem filter_erase_of_not {l : List NodeId} (hv : P v = false) :
    (l.erase v).filter P = l.filter P := by
  induction l with
  | nil => rfl
  | cons a l ih =>
    rw [List.erase_cons]
    split
    · obtain rfl : a = v := by simpa using ‹(a == v) = true›
      rw [List.filter_cons_of_neg (by simp [hv])]
    · rw [List.filter_cons, List.filter_cons, ih]

/-- Of what `j` keeps under `q`, the part that `P` selects can have become less, and is the same if
`j` is still there and not one of those in whose name something was done. -/
structure Keeps (P : NodeId → Bool) (spared : Prop) (g g' : Graph) (j : NodeId) (q : String) :
    Prop where
  sublist : ((g'.values j q).filter P).Sublist ((g.values j q).filter P)
  eq : spared → g'.contains j = true → (g'.values j q).filter P = (g.values j q).filter P

variable {spared : Prop}

theorem keeps_of_values (e : g'.values j q = g.values j q) : Keeps P spared g g' j q := by
  constructor
  · rw [e]
  · exact fun _ _ => by rw [e]

theorem Removed.keeps {order pruned : List NodeId} (hk : Removed g g' order pruned)
    (hc : q ≠ "children") : Keeps P spared g g' j q := by
  by_cases hj : g'.contains j = true
  · exact keeps_of_values (hk.values_of_contains hj hc)
  · refine ⟨?_, fun _ h => absurd h hj⟩
    rw [List.eq_nil_iff_forall_not_mem.2 fun v hv => hj (contains_of_mem_values hv)]
    exact List.nil_sublist _

theorem Step.keeps (h : Step K R g g') (ht : g.Tidy K) (hb : g.isBackReference q = true)
    (hc : q ≠ "children") (hP : ∀ v, P v = true → ¬ Among R (g.ownerRoot? v)) :
    Keeps P (¬ Among R (g.ownerRoot? j)) g g' j q := by
  have hauthor {v : NodeId} (ha : Among R (g.author? j q v)) : P v = false := by
    rw [author?_of_back hb] at ha
    by_contra hv
    exact hP v (by simpa using hv) ha
  cases h with
  | @link i v p _ _ hi _ _ ha =>
    by_cases hjq : j = i ∧ q = p
    · obtain ⟨rfl, rfl⟩ := hjq
      have : ((g.link j q v).values j q).filter P = (g.values j q).filter P := by
        rw [values_link hi, if_pos ⟨rfl, rfl⟩, List.filter_append]
        simp [hauthor ha]
      exact ⟨this ▸ .refl _, fun _ _ => this⟩
    · exact keeps_of_values (by rw [values_link hi, if_neg hjq])
  | type => exact keeps_of_values (values_seat _ _ _ ht.toIndexed j q)
  | fill hty _ hp =>
    obtain ⟨o, hpart⟩ := hty
    refine keeps_of_values ?_
    rw [values_link (contains_of_lifetime? hpart.lifetime), if_neg]
    rintro ⟨-, rfl⟩
    rw [ht.isBackReference_iff] at hb
    simp only [List.mem_cons, List.not_mem_nil, or_false] at hp
    rcases hp with rfl | rfl <;> simp at hb
  | @unlink i v p hv _ ha =>
    have hi := contains_of_mem_values hv
    by_cases hjq : j = i ∧ q = p
    · obtain ⟨rfl, rfl⟩ := hjq
      have hval : (g.unlink j q v).values j q = (g.values j q).erase v := by
        rw [values_unlink hi, if_pos ⟨rfl, rfl⟩]
      constructor
      · rw [hval]
        exact List.erase_sublist.filter P
      · intro hn _
        rw [hval, filter_erase_of_not (hauthor (ha.resolve_left hn))]
    · exact keeps_of_values (by rw [values_unlink hi, if_neg hjq])
  | purge _ hf =>
    refine keeps_of_values ?_
    rw [values_purge, if_neg]
    rintro ⟨-, rfl⟩
    simp [hb] at hf
  | drop _ _ hk _ => exact hk.keeps hc

theorem Works.keeps (h : Works K R g g') (ht : g.Tidy K) (hb : g.isBackReference q = true)
    (hc : q ≠ "children") (hP : ∀ v, P v = true → ∃ x, g.ownerRoot? v = some x ∧ ¬ R x)
    {x : NodeId} (hj : g.ownerRoot? j = some x) (hx : ¬ R x) :
    (g'.values j q).filter P = (g.values j q).filter P := by
  induction h with
  | refl => rfl
  | @tail h k hw hs ih =>
    have hh := Works.tidy hw ht
    have hnot {v y : NodeId} (hv : g.ownerRoot? v = some y) (hy : ¬ R y) :
        ¬ Among R (h.ownerRoot? v) := by
      rintro ⟨z, hz, hR⟩
      rw [(Works.untouched hw ht hv hy).1] at hz
      exact hy (Option.some.inj hz ▸ hR)
    have hkeeps : Keeps P (¬ Among R (h.ownerRoot? j)) h k j q := by
      refine hs.keeps hh ?_ hc fun v hv => ?_
      · rwa [isBackReference, hh.backReferences, ← ht.backReferences]
      · obtain ⟨y, hv, hy⟩ := hP v hv
        exact hnot hv hy
    have hstay : h.contains j = true := by
      have hroot := (Works.untouched hw ht hj hx).1
      obtain ⟨l, hl, -⟩ := Option.map_eq_some_iff.1 ((ownerRoot?_eq h j).symm.trans hroot)
      exact contains_of_lifetime? hl
    rw [hkeeps.eq (hnot hj hx) (hs.stays hh (hnot hj hx) hstay), ih]

theorem Move.keeps (h : Move K T g g') (ht : g.Tidy K) (hb : g.isBackReference q = true)
    (hc : q ≠ "children") (hP : ∀ v, P v = true → ∀ s, g.sourceOf? v = some s → ¬ T s) :
    Keeps P (∀ s, g.sourceOf? j = some s → ¬ T s) g g' j q := by
  have hq : q ∈ Metamodel.derived ∧ q ≠ "package" := by
    have hq := ((ht.isBackReference_iff q).1 hb).resolve_left hc
    rcases hq with rfl | rfl <;> decide
  cases h with
  | step hR h =>
    have hnot {v : NodeId} (hv : ∀ s, g.sourceOf? v = some s → ¬ T s) :
        ¬ Among _ (g.ownerRoot? v) := fun ha => by
      obtain ⟨s, hs, hT⟩ := hR.sourceOf? ha
      exact hv s hs hT
    have hkeeps := h.keeps (j := j) ht hb hc fun v hv => hnot (hP v hv)
    exact ⟨hkeeps.sublist, fun hj => hkeeps.eq (hnot hj)⟩
  | element _ he _ => exact keeps_of_values (he.values ht.toSound hc hq.2 j)
  | part => exact keeps_of_values (values_seat _ _ _ ht.toIndexed j q)
  | write ha _ _ hder _ _ =>
    refine keeps_of_values ?_
    rw [values_link ha.contains, if_neg]
    rintro ⟨-, rfl⟩
    exact hder hq.1
  | remove _ _ hk _ => exact hk.keeps hc

variable (ht : g.Tidy K) (hK : CoversMetamodel K)
include ht hK

theorem Trace.keeps_step {h k : Graph} (hw : Trace K T g h) (hs : Move K T h k)
    (hb : g.isBackReference q = true) (hc : q ≠ "children")
    (hP : ∀ v, P v = true → ∃ s, g.sourceOf? v = some s ∧ ¬ T s) :
    Keeps P (∀ s, h.sourceOf? j = some s → ¬ T s) h k j q := by
  refine hs.keeps (Trace.tidy hK hw ht) ?_ hc fun v hv s hs => ?_
  · rwa [isBackReference, Trace.backReferences ht hK hw]
  · obtain ⟨t, hv, hT⟩ := hP v hv
    rw [Trace.sourceOf? ht hK hw hv hT] at hs
    exact Option.some.inj hs ▸ hT

theorem Trace.kept_sublist (h : Trace K T g g') (hb : g.isBackReference q = true)
    (hc : q ≠ "children") (hP : ∀ v, P v = true → ∃ s, g.sourceOf? v = some s ∧ ¬ T s) :
    ((g'.values j q).filter P).Sublist ((g.values j q).filter P) := by
  induction h with
  | refl => exact .refl _
  | tail hw hs ih => exact (Trace.keeps_step ht hK hw hs hb hc hP).sublist.trans ih

theorem Trace.kept_eq (h : Trace K T g g') (hb : g.isBackReference q = true)
    (hc : q ≠ "children") (hP : ∀ v, P v = true → ∃ s, g.sourceOf? v = some s ∧ ¬ T s)
    (hj : ∀ h, Trace K T g h → h.contains j = true ∧ ∀ s, h.sourceOf? j = some s → ¬ T s) :
    (g'.values j q).filter P = (g.values j q).filter P := by
  induction h with
  | refl => rfl
  | tail hw hs ih =>
    rw [(Trace.keeps_step ht hK hw hs hb hc hP).eq (hj _ hw).2 (hj _ (hw.tail hs)).1, ih]

end Held

end ModelCompiler.Graph
