import ModelCompiler.Proofs.Store.Breaches
import ModelCompiler.Proofs.Store.Enduring

/-!
A removal is exact.
-/
namespace ModelCompiler.Graph

variable {g g' h k : Graph} {ids order pruned gone : List NodeId} {m : NodeId}

section Once

structure Depleted (g g' : Graph) (gone : List NodeId) : Prop where
  nodup : gone.Nodup
  taken : ∀ m ∈ gone, g.contains m = true ∧ g'.contains m = false
  kept : ∀ m, g'.contains m = true → g.contains m = true

namespace Depleted

theorem refl (g : Graph) : Depleted g g [] :=
  ⟨List.nodup_nil, by simp, fun _ hm => hm⟩

theorem trans {a b : List NodeId} (p : Depleted g h a) (q : Depleted h k b) :
    Depleted g k (a ++ b) where
  nodup := by
    refine p.nodup.append q.nodup fun m ha hb => ?_
    have := (p.taken m ha).2
    simp [(q.taken m hb).1] at this
  taken m hm := by
    rcases List.mem_append.1 hm with ha | hb
    · refine ⟨(p.taken m ha).1, ?_⟩
      by_contra hk
      have := q.kept m (by simpa using hk)
      simp [(p.taken m ha).2] at this
    · exact ⟨p.kept m (q.taken m hb).1, (q.taken m hb).2⟩
  kept m hm := p.kept m (q.kept m hm)

theorem evict (hc : g.contains m = true) : Depleted g (g.evict m) [m] where
  nodup := List.nodup_singleton m
  taken j hj := by
    obtain rfl := List.mem_singleton.1 hj
    exact ⟨hc, by simp [contains, node?_evict]⟩
  kept j hj := by
    simp only [contains, node?_evict] at hj
    split at hj
    · simp at hj
    · exact hj

theorem of_frame (e : g'.frame = g.frame) : Depleted g g' [] :=
  ⟨List.nodup_nil, by simp, fun m hm => by rwa [← contains_congr e]⟩

end Depleted

theorem pruneAll_depletes (packages : List NodeId) (hrun : pruneAll g packages = .ok (gone, g')) :
    Depleted g g' gone := by
  refine pruneAll_keeps (I := fun done k => Depleted g k done) (l := [])
    (fun done k P id _ _ hk => ?_)
    (fun done k P hl hk => hk.trans (.evict (contains_of_lifetime? hl)))
    packages (.refl g) hrun
  simpa using hk.trans (.of_frame (frame_unlink k P id _))

theorem contains_foldl_evict (order : List NodeId) (g : Graph) (m : NodeId) :
    (order.foldl evict g).contains m = (g.contains m && decide (m ∉ order)) := by
  induction order generalizing g with
  | nil => simp
  | cons i order ih =>
    rw [List.foldl_cons, ih]
    by_cases hmi : m = i <;> simp [contains, node?_evict, hmi]

/-- What is extracted is listed without repetition: the packages that are pruned still live when the
nodes of the order have gone. -/
theorem nodup_of_extract (ho : order.Nodup) (hrun : extract order g = .ok (gone, g')) :
    gone.Nodup := by
  obtain ⟨packages, h, pruned, -, hp, -, rfl⟩ := extract_cases hrun
  have hd := pruneAll_depletes _ hp
  refine ho.append hd.nodup fun m hm hm' => ?_
  have := (hd.taken m hm').1
  simp [contains_foldl_evict, hm] at this

end Once

section Descendants

def Under (g : Graph) (P m : NodeId) : Prop :=
  Relation.TransGen (fun P m => m ∈ g.children P) P m

theorem Goes.children (hh : g.Housed) (hu : g.Unheld ids) {P : NodeId}
    (hg : Goes g (g.InTrees ids) P) {c : NodeId} (hc : c ∈ g.children P) :
    Goes g (g.InTrees ids) c := by
  cases hg with
  | base hb =>
    by_contra hn
    have hmember : P ∈ g.values c "package" := by simp [hh.package_of_child P c hc]
    exact absurd (hu.user c "package" P hmember hb fun ht => hn (.base ht)).1 (by decide)
  | package _ hall => exact hall c hc

theorem Goes.under (hh : g.Housed) (hu : g.Unheld ids) {P : NodeId}
    (hg : Goes g (g.InTrees ids) P) (hm : g.Under P m) : Goes g (g.InTrees ids) m := by
  induction hm with
  | single hc => exact hg.children hh hu hc
  | tail _ hc ih => exact ih.children hh hu hc

theorem goes_iff (hh : g.Housed) (hf : g.Filled) (hu : g.Unheld ids) :
    Goes g (g.InTrees ids) m ↔ g.InTrees ids m ∨ g.lifetime? m = some .implicit ∧
      (∃ d, g.Under m d ∧ Goes g (g.InTrees ids) d) ∧
      ∀ d, g.Under m d → Goes g (g.InTrees ids) d := by
  constructor
  · intro hg
    by_cases ht : g.InTrees ids m
    · exact .inl ht
    · cases hg with
      | base hb => exact absurd hb ht
      | package hl hall =>
        obtain ⟨c, hc⟩ := List.exists_mem_of_ne_nil _ (hf m hl)
        exact .inr ⟨hl, ⟨c, .single hc, hall c hc⟩,
          fun d hd => (Goes.package hl hall).under hh hu hd⟩
  · rintro (ht | ⟨hl, -, hall⟩)
    · exact .base ht
    · exact .package hl fun c hc => hall c (.single hc)

end Descendants

theorem Indexed.inTrees_iff_owned (hi : g.Indexed) (hp : ∀ id ∈ ids, g.contains id = true) :
    g.InTrees ids m ↔ m ∈ ids ∨ ∃ id ∈ ids, g.lifetime? m = some (.ephemeral id) := by
  constructor
  · rintro ⟨id, hid, hm⟩
    rcases List.mem_cons.1 hm with rfl | hm
    · exact .inl hid
    · exact .inr ⟨id, hid, ((hi.owned_iff id m).1 hm).1⟩
  · rintro (hm | ⟨id, hid, hl⟩)
    · exact ⟨m, hm, List.mem_cons_self⟩
    · exact ⟨id, hid, List.mem_cons_of_mem _ ((hi.owned_iff id m).2 ⟨hl, hp id hid⟩)⟩

/-- A removal that succeeds takes away each of the requested nodes, their parts, and the implicit
packages of which something and at last everything has gone, once each. All other nodes stay, and of
what they hold only the lists of children lose the nodes that went. -/
theorem removeNodes_exact (hg : Reachable g) (hrun : removeNodes ids g = .ok (.ok gone, g')) :
    gone.Nodup ∧
    (∀ m, m ∈ gone ↔ m ∈ ids ∨ (∃ id ∈ ids, g.lifetime? m = some (.ephemeral id)) ∨
      g.lifetime? m = some .implicit ∧ (∃ d, g.Under m d ∧ d ∈ gone) ∧
        ∀ d, g.Under m d → d ∈ gone) ∧
    (∀ m, g'.contains m = true ↔ g.contains m = true ∧ m ∉ gone) ∧
    ∀ m n, g'.node? m = some n → ∃ n₀, g.node? m = some n₀ ∧ n.name = n₀.name ∧ n.path = n₀.path ∧
      n.classifier = n₀.classifier ∧ n.lifetime = n₀.lifetime ∧ n.span = n₀.span ∧
      n.stamp = n₀.stamp ∧ (∀ q, q ≠ "children" → n.values q = n₀.values q) ∧
      n.values "children" = (n₀.values "children").filter (· ∉ gone) := by
  have hs := hg.stocked
  have hu : g.Unheld ids := by
    by_contra hn
    obtain ⟨e, he⟩ := removeNodes_of_not_unheld hs.toCoherent hn
    simp [hrun] at he
  obtain ⟨order, pruned, k, ho, -, hk, hends⟩ :=
    removeNodes_of_unheld hs.toCoherent hs.toHoused hu
  obtain ⟨rfl, rfl⟩ : gone = order ++ pruned ∧ g' = k := by
    rw [hrun] at hends
    split at hends
    · simp at hends
    · obtain ⟨hr, rfl⟩ := ok_mk_inj hends
      exact ⟨Except.ok.inj hr, rfl⟩
  have hmem := hk.mem_iff ho hs.filled
  have hpresent (id : NodeId) (hid : id ∈ ids) : g.contains id = true := by
    obtain ⟨l, hl, -⟩ := hu.present id hid
    exact contains_of_lifetime? hl
  refine ⟨?_, fun m => ?_, fun m => ?_, fun m n hn => ?_⟩
  · obtain ⟨e, he, -⟩ | ⟨order', gone, hord, he, hex⟩ := removeNodes_cases hrun
    · simp at he
    · rw [Except.ok.inj he]
      exact nodup_of_extract (ordered_of_removalOrder hord).nodup hex
  · simp only [hmem]
    rw [goes_iff hs.toHoused hs.filled hu, hs.toIndexed.inTrees_iff_owned hpresent, or_assoc]
  · rw [hk.contains]
    simp [and_comm]
  · have hm : m ∉ order ++ pruned := hk.not_mem_of_contains (contains_iff.2 ⟨n, hn⟩)
    have hbare := hk.bare m
    rw [if_neg hm, hn] at hbare
    obtain ⟨n₀, hn₀, hb⟩ := Option.map_eq_some_iff.1 hbare.symm
    have hstamp := hk.stamp hg.attained.children_back m hm
    have hvalues (q : String) := hk.values m q
    simp only [if_neg hm, Graph.values, hn, hn₀] at hvalues
    simp only [stamp?, hn, hn₀, Option.map_some, Option.some.injEq] at hstamp
    simp only [Node.bare, Node.mk.injEq] at hb
    obtain ⟨hname, hpath, hclass, hlife, hspan, -⟩ := hb
    exact ⟨n₀, hn₀, hname.symm, hpath.symm, hclass.symm, hlife.symm, hspan.symm, hstamp,
      fun q hq => by simpa [hq] using hvalues q, by simpa using hvalues "children"⟩

def terraced : List Request :=
  [.createPersistent "s" { path := some (.ofValid "hill::dell::Elm".toList (by decide)) },
    .createPersistent "s" { path := some (.ofValid "hill::dell::brook::Fern".toList (by decide)) },
    .createPersistent "t" { path := some (.ofValid "hill::Oak".toList (by decide)) },
    .createEphemeral 42 {}, .addValue 46 "likes" 42]

/-- Packages that are asked for, and one that is emptied, go with their elements. -/
theorem removeNodes_exact_terraced : ∃ g g', Request.runAll initial terraced = .ok g ∧
    Reachable g ∧ removeNodes [44, 42, 43, 44] g = .ok (.ok [44, 42, 46, 43, 41], g') ∧
    (∀ m, g'.contains m = true ↔ g.contains m = true ∧ m ∉ [44, 42, 46, 43, 41]) ∧
    g.children 40 = [41, 45] ∧ g'.children 40 = [45] := by
  obtain ⟨g, hg, hkids, hrun⟩ := exists_run terraced
    (P := fun g => g.children 40 = [41, 45] ∧
      ((removeNodes [44, 42, 43, 44] g).toOption.any fun r =>
      decide (r.1.toOption = some [44, 42, 46, 43, 41])) = true) (by decide +kernel)
  obtain ⟨⟨r, g'⟩, hrun, hr⟩ := exists_ok_of_any hrun
  obtain rfl : r = .ok [44, 42, 46, 43, 41] := eq_ok_of_toOption hr
  have hreach : Reachable g := Reachable.initial.runAll (by
    simp [terraced, Request.Mindful, Request.property?]) hg
  obtain ⟨-, -, hlive, hnode⟩ := removeNodes_exact hreach hrun
  have h40 : g.contains 40 = true := contains_of_mem_values (p := "children") (v := 41) (by
    rw [show g.values 40 "children" = [41, 45] from hkids]
    simp)
  obtain ⟨n, hn⟩ := contains_iff.1 ((hlive 40).2 ⟨h40, by decide⟩)
  obtain ⟨n₀, hn₀, -, -, -, -, -, -, -, hc⟩ := hnode 40 n hn
  refine ⟨g, g', hg, hreach, hrun, hlive, hkids, ?_⟩
  simp only [children, Graph.values, hn₀] at hkids
  simp [children, Graph.values, hn, hc, hkids]

end ModelCompiler.Graph
