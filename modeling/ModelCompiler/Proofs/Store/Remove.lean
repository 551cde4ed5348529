import ModelCompiler.Proofs.Store.Tabled

/-!
Removing nodes. What is left is the graph without the nodes that went: those of the removal order
and the implicit packages that were left empty.
-/
open ModelCompiler.Action

namespace ModelCompiler.Graph

variable {g g' h k : Graph} {lifetime : Lifetime} {a b done gone ids l order pruned : List NodeId}
  {P Q id m : NodeId}

theorem filter_not_mem_append (l a b : List NodeId) :
    (l.filter (· ∉ a)).filter (· ∉ b) = l.filter (· ∉ a ++ b) := by
  rw [List.filter_filter]
  congr 1
  funext j
  by_cases ha : j ∈ a <;> simp [ha]

theorem filter_unless_append (o : NodeId) :
    (if o ∈ b then [] else (if o ∈ a then [] else l.filter (· ∉ a)).filter (· ∉ b)) =
      if o ∈ a ++ b then [] else l.filter (· ∉ a ++ b) := by
  rw [← filter_not_mem_append]
  by_cases ha : o ∈ a <;> by_cases hb : o ∈ b <;> simp [ha, hb]

theorem filter_not_mem_singleton (h : id ∉ l) :
    l.filter (· ∉ [id]) = l := by
  rw [List.filter_eq_self]
  intro m hm
  have : m ≠ id := fun e => h (e ▸ hm)
  simpa using this

/-- What taking nodes away does not change: the stamps of the others, every excerpt without those
nodes, and what the indexes keep. -/
structure Spares (g g' : Graph) (gone : List NodeId) : Prop where
  stamp : g.isBackReference "children" = true → ∀ j, j ∉ gone → g'.stamp? j = g.stamp? j
  excerpt : ∀ p : NodeId → Bool, (∀ j ∈ gone, p j = false) → g'.excerpt p = g.excerpt p
  tabled : g.Tabled → g'.Tabled
  sources : g'.sources.Sublist g.sources

namespace Spares

variable {g h k : Graph} {a b : List NodeId}

theorem refl (g : Graph) (gone : List NodeId) : Spares g g gone :=
  ⟨fun _ _ _ => rfl, fun _ _ => rfl, fun h => h, .refl _⟩

theorem trans (s : Spares g h a) (t : Spares h k b) (e : h.backReferences = g.backReferences) :
    Spares g k (a ++ b) where
  stamp hb j hj := by
    rw [List.mem_append, not_or] at hj
    have hb' : h.isBackReference "children" = true := by rwa [isBackReference, e]
    rw [t.stamp hb' j hj.2, s.stamp hb j hj.1]
  excerpt p hp := by
    rw [t.excerpt p fun j hj => hp j (List.mem_append_right _ hj),
      s.excerpt p fun j hj => hp j (List.mem_append_left _ hj)]
  tabled h := t.tabled (s.tabled h)
  sources := t.sources.trans s.sources

theorem mono (s : Spares g h a) (hab : ∀ j ∈ a, j ∈ b) : Spares g h b where
  stamp hb j hj := s.stamp hb j fun h => hj (hab j h)
  excerpt p hp := s.excerpt p fun j hj => hp j (hab j hj)
  tabled := s.tabled
  sources := s.sources

theorem unlink (hm : g.Mirrored) {P id : NodeId} (hP : g.contains P = true) :
    Spares g (g.unlink P "children" id) [id] where
  stamp hb _ _ := stamp?_unlink id (.inl hb)
  excerpt _ hp := excerpt_unlink hm hP (.inr (hp id List.mem_cons_self))
  tabled h := h.congr (frame_unlink _ _ _ _)
  sources := by rw [sources_congr (frame_unlink g P id _)]

theorem evict (hi : g.Indexed) (hm : g.Mirrored) (id : NodeId) : Spares g (g.evict id) [id] where
  stamp _ j hj := by
    rw [stamp?, node?_evict, if_neg (by simpa using hj)]
    rfl
  excerpt p hp := excerpt_evict hi hm (hp id List.mem_cons_self)
  tabled h := h.evict hi id
  sources := sources_evict_sublist g id

end Spares

/-- The indexes of `g'` are those of `g` without the nodes in `gone`. -/
structure IndexesWithout (g g' : Graph) (gone : List NodeId) : Prop extends Spares g g' gone where
  usages : g'.usages.Sublist g.usages
  persistent : ∀ s, g'.persistentNodes s = (g.persistentNodes s).filter (· ∉ gone)
  owned : ∀ o, g'.ownedBy o = if o ∈ gone then [] else (g.ownedBy o).filter (· ∉ gone)
  package : ∀ j, g'.isPackage j = (g.isPackage j && decide (j ∉ gone))
  backReferences : g'.backReferences = g.backReferences
  packageClassifier : g'.packageClassifier = g.packageClassifier
  stamps : Restamps g g'

theorem IndexesWithout.refl (g : Graph) : IndexesWithout g g [] where
  toSpares := .refl g []
  usages := .refl _
  persistent s := by simp
  owned o := by simp
  package j := by simp
  backReferences := rfl
  packageClassifier := rfl
  stamps := .refl g

theorem IndexesWithout.trans {g h k : Graph} {a b : List NodeId} (w : IndexesWithout g h a)
    (v : IndexesWithout h k b) :
    IndexesWithout g k (a ++ b) where
  toSpares := w.toSpares.trans v.toSpares w.backReferences
  usages := v.usages.trans w.usages
  persistent s := by rw [v.persistent, w.persistent, filter_not_mem_append]
  owned o := by rw [v.owned, w.owned, filter_unless_append]
  package j := by
    rw [v.package, w.package]
    by_cases ha : j ∈ a <;> simp [ha]
  backReferences := v.backReferences.trans w.backReferences
  packageClassifier := v.packageClassifier.trans w.packageClassifier
  stamps := w.stamps.trans v.stamps

/-- `g'` is `g` without the nodes in `gone`, which are taken out of the children of packages. -/
structure Without (g g' : Graph) (gone : List NodeId) : Prop extends IndexesWithout g g' gone where
  bare : ∀ j, (g'.node? j).map Node.bare = if j ∈ gone then none else (g.node? j).map Node.bare
  values : ∀ j q, g'.values j q = if j ∈ gone then []
    else if q = "children" then (g.values j q).filter (· ∉ gone) else g.values j q

namespace Without

variable {g g' : Graph} {gone : List NodeId} {j : NodeId}

theorem refl (g : Graph) : Without g g [] where
  toIndexesWithout := .refl g
  bare j := by simp
  values j q := by simp

theorem trans {h k : Graph} {a b : List NodeId} (w : Without g h a) (v : Without h k b) :
    Without g k (a ++ b) where
  toIndexesWithout := w.toIndexesWithout.trans v.toIndexesWithout
  bare j := by
    rw [v.bare, w.bare]
    by_cases ha : j ∈ a <;> by_cases hb : j ∈ b <;> simp [ha, hb]
  values j q := by
    rw [v.values, w.values]
    by_cases ha : j ∈ a
    · simp [ha]
    · by_cases hb : j ∈ b
      · simp [hb]
      · by_cases hq : q = "children"
        · rw [if_neg hb, if_pos hq, if_neg ha, if_pos hq, if_neg (by simp [ha, hb]), if_pos hq,
            filter_not_mem_append]
        · simp [ha, hb, hq]

variable (w : Without g g' gone)
include w

theorem contains (j : NodeId) : g'.contains j = (decide (j ∉ gone) && g.contains j) := by
  have := congrArg Option.isSome (w.bare j)
  rw [Option.isSome_map] at this
  rw [Graph.contains, this]
  by_cases hj : j ∈ gone <;> simp [hj, Graph.contains]

theorem not_mem_of_contains (h : g'.contains j = true) : j ∉ gone := by
  rw [w.contains, Bool.and_eq_true, decide_eq_true_eq] at h
  exact h.1

theorem lifetime? (j : NodeId) : g'.lifetime? j = if j ∈ gone then none else g.lifetime? j := by
  have := congrArg (Option.map (·.lifetime)) (w.bare j)
  rw [Option.map_map] at this
  rw [Graph.lifetime?, show (fun n : Node => n.lifetime) = (·.lifetime) ∘ Node.bare from rfl, this]
  by_cases hj : j ∈ gone
  · simp [hj]
  · simp only [hj, if_false, Option.map_map]
    rfl

theorem path? (j : NodeId) : g'.path? j = if j ∈ gone then none else g.path? j := by
  have := congrArg (Option.bind · (·.path)) (w.bare j)
  simp only [Option.bind_map] at this
  rw [Graph.path?, Graph.path?]
  refine Eq.trans this ?_
  by_cases hj : j ∈ gone
  · simp [hj]
  · simp only [hj, if_false, Option.bind_map]
    rfl

theorem classifier? (j : NodeId) :
    g'.classifier? j = if j ∈ gone then none else g.classifier? j := by
  have := congrArg (Option.bind · (·.classifier)) (w.bare j)
  simp only [Option.bind_map] at this
  rw [Graph.classifier?, Graph.classifier?]
  refine Eq.trans this ?_
  by_cases hj : j ∈ gone
  · simp [hj]
  · simp only [hj, if_false, Option.bind_map]
    rfl

theorem lifetime?_eq_some {l : Lifetime} (h : g'.lifetime? j = some l) :
    j ∉ gone ∧ g.lifetime? j = some l := by
  rw [w.lifetime?] at h
  split at h
  · simp at h
  · exact ⟨‹_›, h⟩

theorem mem_values {v : NodeId} {q : String} (h : v ∈ g'.values j q) :
    j ∉ gone ∧ v ∈ g.values j q ∧ (q = "children" → v ∉ gone) := by
  rw [w.values] at h
  split at h
  · simp at h
  · rename_i hj
    split at h
    · rw [List.mem_filter, decide_eq_true_eq] at h
      exact ⟨hj, h.1, fun _ => h.2⟩
    · exact ⟨hj, h, fun hq => absurd hq ‹_›⟩

end Without

section EvictAll

structure Evicted (g g' : Graph) (gone : List NodeId) : Prop extends IndexesWithout g g' gone where
  node : ∀ j, g'.node? j = if j ∈ gone then none else g.node? j

theorem evicted_evict (hi : g.Indexed) (hm : g.Mirrored) (id : NodeId) :
    Evicted g (g.evict id) [id] where
  toSpares := .evict hi hm id
  usages := sublist_usages_evict hm
  persistent s := by simp [hi.persistentNodes_evict]
  owned o := by simp [hi.ownedBy_evict]
  package j := by simp [isPackage_evict hi]
  backReferences := backReferences_evict g id
  packageClassifier := packageClassifier_evict g id
  stamps := restamps_evict g id
  node j := by simp [node?_evict]

theorem Evicted.trans (v : Evicted g h a) (w : Evicted h k b) :
    Evicted g k (a ++ b) where
  toIndexesWithout := v.toIndexesWithout.trans w.toIndexesWithout
  node j := by
    rw [w.node, v.node]
    by_cases ha : j ∈ a <;> by_cases hb : j ∈ b <;> simp [ha, hb]

theorem foldl_evict : ∀ (order : List NodeId) {g : Graph}, g.Indexed → g.Mirrored →
    Evicted g (order.foldl evict g) order ∧ (order.foldl evict g).Indexed ∧
      (order.foldl evict g).Mirrored
  | [], g, hi, hm => ⟨⟨.refl g, by simp⟩, hi, hm⟩
  | id :: order, g, hi, hm => by
    obtain ⟨v, hi', hm'⟩ := foldl_evict order (hi.evict id) (hm.evict id)
    exact ⟨(evicted_evict hi hm id).trans v, hi', hm'⟩

theorem Evicted.values (v : Evicted g g' gone) (j : NodeId)
    (q : String) : g'.values j q = if j ∈ gone then [] else g.values j q := by
  unfold Graph.values
  rw [v.node]
  split <;> simp_all

/-- Nodes that were taken out of the children of packages before they are evicted. -/
theorem Evicted.without (v : Evicted h g' gone) (e : h.frame = g.frame)
    (hu : h.usages.Sublist g.usages) (hs : Restamps g h) (hsp : Spares g h gone)
    (hv : ∀ j q, j ∉ gone → h.values j q =
      if q = "children" then (g.values j q).filter (· ∉ gone) else g.values j q) :
    Without g g' gone where
  toSpares := (hsp.trans v.toSpares (backReferences_congr e)).mono (by simp)
  bare j := by
    rw [v.node, ← node?_frame g, ← e, node?_frame]
    split <;> rfl
  values j q := by
    rw [v.values]
    split
    · rfl
    · exact hv j q ‹_›
  usages := v.usages.trans hu
  persistent s := by rw [v.persistent, persistentNodes_congr e]
  owned o := by rw [v.owned, ownedBy_congr e]
  package j := by rw [v.package, isPackage_congr e]
  backReferences := by rw [v.backReferences, backReferences_congr e]
  packageClassifier := by rw [v.packageClassifier, packageClassifier_congr e]
  stamps := hs.trans v.stamps

end EvictAll

section Order

variable {g : Graph}

theorem mem_foldl_insert (l order : List NodeId) (m : NodeId) :
    m ∈ l.foldl (fun o m => if m ∈ o then o else o ++ [m]) order ↔ m ∈ order ∨ m ∈ l := by
  induction l generalizing order with
  | nil => simp
  | cons a l ih =>
    rw [List.foldl_cons, ih, List.mem_cons]
    split
    · constructor
      · tauto
      · rintro (h | rfl | h)
        · exact .inl h
        · exact .inl ‹_›
        · exact .inr h
    · simp only [List.mem_append, List.mem_singleton]
      tauto

theorem nodup_foldl_insert (l : List NodeId) (h : order.Nodup) :
    (l.foldl (fun o m => if m ∈ o then o else o ++ [m]) order).Nodup := by
  induction l generalizing order with
  | nil => exact h
  | cons a l ih =>
    rw [List.foldl_cons]
    apply ih
    split
    · exact h
    · exact h.append (List.nodup_singleton a) (by simpa)

structure Ordered (g : Graph) (ids order : List NodeId) : Prop where
  nodup : order.Nodup
  mem_iff : ∀ m, m ∈ order ↔ ∃ id ∈ ids, m ∈ g.tree id
  removable : ∀ id ∈ ids, ∃ l, g.lifetime? id = some l ∧ l ≠ .bootstrap

theorem removalOrder_of_ok : ∀ {acc order : List NodeId}, acc.Nodup →
    g.removalOrder acc ids = .ok order → order.Nodup ∧
      (∀ m, m ∈ order ↔ m ∈ acc ∨ ∃ id ∈ ids, m ∈ g.tree id) ∧
      ∀ id ∈ ids, ∃ l, g.lifetime? id = some l ∧ l ≠ .bootstrap := by
  induction ids with
  | nil =>
    intro acc order hacc h
    obtain rfl := Except.ok.inj h
    simp [hacc]
  | cons id ids ih =>
    intro acc order hacc h
    unfold removalOrder at h
    split at h
    · simp at h
    · rename_i n hn
      split at h
      · simp at h
      · rename_i hb
        obtain ⟨hnodup, hmem, hrem⟩ := ih (nodup_foldl_insert _ hacc) h
        refine ⟨hnodup, fun m => ?_, ?_⟩
        · simp only [hmem, mem_foldl_insert, List.mem_cons, exists_eq_or_imp, or_assoc]
        · rintro i (- | ⟨-, hi⟩)
          · exact ⟨_, lifetime?_of_node? hn, hb⟩
          · exact hrem i hi

theorem ordered_of_removalOrder (h : g.removalOrder [] ids = .ok order) :
    Ordered g ids order := by
  obtain ⟨h1, h2, h3⟩ := removalOrder_of_ok List.nodup_nil h
  exact ⟨h1, by simpa using h2, h3⟩

theorem removalOrder_ok (acc : List NodeId)
    (h : ∀ id ∈ ids, ∃ l, g.lifetime? id = some l ∧ l ≠ .bootstrap) :
    ∃ order, g.removalOrder acc ids = .ok order := by
  induction ids generalizing acc with
  | nil => exact ⟨acc, rfl⟩
  | cons id ids ih =>
    obtain ⟨l, hl, hb⟩ := h id List.mem_cons_self
    obtain ⟨n, hn, rfl⟩ := Option.map_eq_some_iff.1 hl
    unfold removalOrder
    simp only [hn, hb, if_false]
    exact ih _ fun i hi => h i (List.mem_cons_of_mem _ hi)

end Order

section Detach

variable {g : Graph} {order : List NodeId}

/-- The nodes in `done` have been taken out of the children of the packages that stay. -/
structure Detached (order done : List NodeId) (g h : Graph) : Prop where
  frame : h.frame = g.frame
  usages : h.usages.Sublist g.usages
  values : ∀ j q, h.values j q =
    if q = "children" ∧ j ∉ order then (g.values j q).filter (· ∉ done) else g.values j q
  coherent : h.Coherent
  stamps : Restamps g h
  spares : Spares g h done

theorem filter_not_mem_concat (h : id ∈ l → id ∈ done) :
    l.filter (· ∉ done ++ [id]) = l.filter (· ∉ done) := by
  apply List.filter_congr
  intro m hm
  have : m ∉ done → m ≠ id := by
    rintro hmd rfl
    exact hmd (h hm)
  by_cases hmd : m ∈ done
  · simp [hmd]
  · simp [hmd, this hmd]

theorem Detached.skip (d : Detached order done g h)
    (hid : ∀ j, j ∉ order → id ∈ g.children j → id ∈ done) : Detached order (done ++ [id]) g h where
  frame := d.frame
  usages := d.usages
  values j q := by
    rw [d.values]
    split
    · rename_i hj
      rw [filter_not_mem_concat fun hm => hid j hj.2 (by rwa [hj.1] at hm)]
    · rfl
  coherent := d.coherent
  stamps := d.stamps
  spares := d.spares.mono fun j hj => List.mem_append_left _ hj

theorem detach_detached (hh : g.Housed) (d : Detached order done g h) (id : NodeId) :
    ∃ package h', detach order h id = .ok (package, h') ∧ Detached order (done ++ [id]) g h' ∧
      ∀ P, id ∈ g.children P → P ∉ order → package = some P := by
  have hpackage : h.values id "package" = g.values id "package" := by
    rw [d.values, if_neg (by simp)]
  have hvalue (P j : NodeId) (hP : g.values id "package" = [P]) (hj : id ∈ g.children j) :
      j = P := by
    have := hh.package_of_child j id hj
    rw [hP] at this
    exact (List.cons.inj this).1.symm
  unfold detach
  rw [packageOf?, value?, hpackage]
  cases hP : (g.values id "package").head? with
  | none =>
    have hnone (j : NodeId) (hj : id ∈ g.children j) : False := by
      simp [hh.package_of_child j id hj] at hP
    exact ⟨none, h, rfl, d.skip fun j _ hj => (hnone j hj).elim, fun j hj => (hnone j hj).elim⟩
  | some P =>
    have hchild := hh.child_of_package id P (List.mem_of_head? hP)
    have hsingle := hh.package_of_child P id hchild
    by_cases hord : P ∈ order
    · have hstay (j : NodeId) (hj : j ∉ order) (hm : id ∈ g.children j) : False :=
        hj (hvalue P j hsingle hm ▸ hord)
      exact ⟨none, h, by simp [hord], d.skip fun j hj hm => (hstay j hj hm).elim,
        fun j hm hj => (hstay j hj hm).elim⟩
    · have hlive : h.contains P = true := by
        rw [contains_congr d.frame]
        exact contains_of_mem_values hchild
      have hkids : h.values P "children" = (g.values P "children").filter (· ∉ done) := by
        rw [d.values, if_pos ⟨rfl, hord⟩]
      have hsome (j : NodeId) (hm : id ∈ g.children j) (_ : j ∉ order) : some P = some j := by
        rw [hvalue P j hsingle hm]
      by_cases hmem : id ∈ h.values P "children"
      · refine ⟨some P, h.unlink P "children" id, ?_, ⟨?_, ?_, fun j q => ?_, ?_, ?_, ?_⟩, hsome⟩
        · simp [hord, removeValue_eq hlive, hmem, bind, Except.bind, pure, Except.pure]
        · rw [frame_unlink, d.frame]
        · exact (trims_unlink hlive).usages.trans d.usages
        · rw [values_unlink hlive]
          by_cases hj : j = P ∧ q = "children"
          · obtain ⟨rfl, rfl⟩ := hj
            have hn : (g.values j "children").Nodup := hh.children_nodup j
            rw [if_pos ⟨rfl, rfl⟩, if_pos ⟨rfl, hord⟩, hkids, (hn.filter _).erase_eq_filter,
              ← filter_not_mem_append]
            congr 1
            funext m
            simp [bne, beq_eq_decide]
          · rw [if_neg hj, d.values]
            split
            · rename_i hj'
              rw [filter_not_mem_concat fun hm => ?_]
              rw [hj'.1] at hm
              exact absurd ⟨hvalue P j hsingle hm, hj'.1⟩ hj
            · rfl
        · exact d.coherent.unlink hmem
        · exact d.stamps.trans (restamps_unlink _ _ _ _)
        · exact d.spares.trans (.unlink d.coherent.toMirrored hlive) (backReferences_congr d.frame)
      · refine ⟨some P, h, ?_, d.skip fun j _ hm => ?_, hsome⟩
        · simp [hord, removeValue_eq hlive, hmem, bind, Except.bind, pure, Except.pure]
        · obtain rfl := hvalue P j hsingle hm
          by_contra hd
          apply hmem
          rw [hkids, List.mem_filter, decide_eq_true_eq]
          exact ⟨hm, hd⟩

theorem detachAll_detached (hh : g.Housed) : ∀ (ids : List NodeId) {done : List NodeId} {h : Graph},
    Detached order done g h → ∃ packages h', detachAll order h ids = .ok (packages, h') ∧
      Detached order (done ++ ids) g h' ∧
      ∀ id ∈ ids, ∀ P, id ∈ g.children P → P ∉ order → P ∈ packages
  | [], done, h, d => ⟨[], h, rfl, by simpa using d, by simp⟩
  | id :: ids, done, h, d => by
    obtain ⟨package, h₁, he, d₁, hid⟩ := detach_detached hh d id
    obtain ⟨packages, h₂, he', d₂, hids⟩ := detachAll_detached hh ids d₁
    refine ⟨package.toList ++ packages, h₂, ?_, by simpa using d₂, fun m hm P hP ho => ?_⟩
    · simp [detachAll, he, he', bind, Except.bind, pure, Except.pure]
    · rcases List.mem_cons.1 hm with rfl | hm
      · simp [hid P hP ho]
      · exact List.mem_append_right _ (hids m hm P hP ho)

theorem detachAll_without (hc : g.Coherent) (hh : g.Housed) (order : List NodeId) :
    ∃ packages h, detachAll order g order = .ok (packages, h) ∧
      Without g (order.foldl evict h) order ∧ (order.foldl evict h).Indexed ∧
      (order.foldl evict h).Mirrored ∧
      ∀ id ∈ order, ∀ P, id ∈ g.children P → P ∉ order → P ∈ packages := by
  have d₀ : Detached order [] g g := ⟨rfl, .refl _, fun j q => by simp, hc, .refl g, .refl g _⟩
  obtain ⟨packages, h, he, d, hpack⟩ := detachAll_detached hh order d₀
  rw [List.nil_append] at d
  obtain ⟨v, hi, hm⟩ := foldl_evict order d.coherent.toIndexed d.coherent.toMirrored
  refine ⟨packages, h, he, v.without d.frame d.usages d.stamps d.spares fun j q hj => ?_, hi, hm,
    hpack⟩
  rw [d.values]
  simp [hj]

end Detach

/-- Packages stay as they are if nothing of the metamodel goes and no member outlives its
package. -/
theorem Housed.without (hh : g.Housed) (w : Without g g' gone)
    (hboot : ∀ j ∈ gone, g.lifetime? j ≠ some .bootstrap)
    (hpack : ∀ m P, m ∉ gone → P ∈ g.values m "package" → P ∉ gone) : g'.Housed := by
  have hkids {P m : NodeId} (hm : m ∈ g'.children P) : P ∉ gone ∧ m ∈ g.children P ∧ m ∉ gone := by
    obtain ⟨hP, hm, hgone⟩ := w.mem_values hm
    exact ⟨hP, hm, hgone rfl⟩
  have hboots {c : NodeId} (hc : g.lifetime? c = some .bootstrap) :
      g'.lifetime? c = some .bootstrap := by
    rw [w.lifetime?, if_neg fun h => hboot c h hc, hc]
  refine ⟨fun P m hm => ?_, fun m P hP => ?_, fun P => ?_, fun P m hm => ?_, fun P m hm => ?_, ?_,
    hboots hh.root_bootstrap, fun c hc => ?_⟩
  · obtain ⟨-, hm, hmg⟩ := hkids hm
    rw [w.values, if_neg hmg, if_neg (by decide)]
    exact hh.package_of_child P m hm
  · obtain ⟨hmg, hP, -⟩ := w.mem_values hP
    have hm := hh.child_of_package m P hP
    rw [children, w.values, if_neg (hpack m P hmg hP), if_pos rfl, List.mem_filter,
      decide_eq_true_eq]
    exact ⟨hm, hmg⟩
  · rw [children, w.values]
    split
    · exact List.nodup_nil
    · rw [if_pos rfl]
      exact (hh.children_nodup P).filter _
  · obtain ⟨hP, hm, -⟩ := hkids hm
    simp [w.package, hP, hh.parent_isPackage P m hm]
  · obtain ⟨-, hm, hmg⟩ := hkids hm
    rw [w.path?, if_neg hmg]
    exact hh.child_path P m hm
  · have : root ∉ gone := fun h => hboot root h hh.root_bootstrap
    simp [w.package, this, hh.root_isPackage]
  · rw [w.packageClassifier] at hc
    exact hboots (hh.classifier_bootstrap c hc)

/-- What goes along with some nodes: the nodes themselves, and the implicit packages all of whose
children go. -/
inductive Goes (g : Graph) (base : NodeId → Prop) : NodeId → Prop
  | base {id : NodeId} : base id → Goes g base id
  | package {P : NodeId} : g.lifetime? P = some .implicit → (∀ c ∈ g.children P, Goes g base c) →
      Goes g base P

theorem Goes.mono {a b : NodeId → Prop} (h : ∀ id, a id → b id)
    (hg : Goes g a id) : Goes g b id := by
  induction hg with
  | base ha => exact .base (h _ ha)
  | package hl _ ih => exact .package hl ih

section Prune

/-- Implicit packages without other members have gone, and the laws of the store are kept. -/
structure Pruned (g g' : Graph) (gone : List NodeId) : Prop extends Without g g' gone where
  indexed : g'.Indexed
  mirrored : g'.Mirrored
  housed : g'.Housed
  implicit : ∀ m ∈ gone, g.lifetime? m = some .implicit
  emptied : ∀ m ∈ gone, ∀ c ∈ g.children m, c ∈ gone
  goes : ∀ m ∈ gone, Goes g (fun _ => False) m

variable {g : Graph}

theorem Pruned.refl (hi : g.Indexed) (hm : g.Mirrored) (hh : g.Housed) : Pruned g g [] :=
  { Without.refl g with
    indexed := hi
    mirrored := hm
    housed := hh
    implicit := by simp
    emptied := by simp
    goes := by simp }

theorem Without.goes (w : Without g g' gone)
    {base : NodeId → Prop} (hg : ∀ m ∈ gone, Goes g base m) (h : Goes g' base m) :
    Goes g base m := by
  induction h with
  | base hb => exact .base hb
  | @package P hl _ ih =>
    obtain ⟨hP, hl⟩ := w.lifetime?_eq_some hl
    refine .package hl fun c hc => ?_
    by_cases hcg : c ∈ gone
    · exact hg c hcg
    · refine ih c ?_
      rw [children, w.values, if_neg hP, if_pos rfl, List.mem_filter, decide_eq_true_eq]
      exact ⟨hc, hcg⟩

theorem Pruned.trans (p : Pruned g h a) (q : Pruned h k b) :
    Pruned g k (a ++ b) :=
  { p.toWithout.trans q.toWithout with
    indexed := q.indexed
    mirrored := q.mirrored
    housed := q.housed
    implicit := fun m hm => by
      rcases List.mem_append.1 hm with hm | hm
      · exact p.implicit m hm
      · exact (p.lifetime?_eq_some (q.implicit m hm)).2
    emptied := fun m hm c hc => by
      rw [List.mem_append]
      rcases List.mem_append.1 hm with hm | hm
      · exact .inl (p.emptied m hm c hc)
      · by_cases hca : c ∈ a
        · exact .inl hca
        · refine .inr (q.emptied m hm c ?_)
          have hma := (p.lifetime?_eq_some (q.implicit m hm)).1
          rw [children, p.values, if_neg hma, if_pos rfl, List.mem_filter, decide_eq_true_eq]
          exact ⟨hc, hca⟩
    goes := fun m hm => by
      rcases List.mem_append.1 hm with hm | hm
      · exact p.goes m hm
      · exact p.toWithout.goes p.goes (q.goes m hm) }

theorem pruned_evict (hh : g.Housed) (e : h.frame = g.frame)
    (hi : h.Indexed) (hm : h.Mirrored) (hu : h.usages.Sublist g.usages) (hs : Restamps g h)
    (hsp : Spares g h [P]) (hv : ∀ j q, j ≠ P → h.values j q =
      if q = "children" then (g.values j q).filter (· ∉ [P]) else g.values j q)
    (hl : g.lifetime? P = some .implicit) (hempty : g.children P = []) :
    Pruned g (h.evict P) [P] := by
  have w : Without g (h.evict P) [P] :=
    (evicted_evict hi hm P).without e hu hs hsp fun j q hj => hv j q (by simpa using hj)
  refine { w with
    indexed := hi.evict P
    mirrored := hm.evict P
    housed := hh.without w ?_ ?_
    implicit := ?_
    emptied := ?_
    goes := ?_ }
  · intro j hj
    rw [List.mem_singleton.1 hj, hl]
    simp
  · intro m Q _ hQ hQP
    have := hh.child_of_package m Q hQ
    rw [List.mem_singleton.1 hQP, hempty] at this
    simp at this
  · intro m hm
    rw [List.mem_singleton.1 hm, hl]
  · intro m hm c hc
    rw [List.mem_singleton.1 hm, hempty] at hc
    simp at hc
  · intro m hm
    rw [List.mem_singleton.1 hm]
    exact .package hl (by simp [hempty])

theorem pruned_top (hi : g.Indexed) (hm : g.Mirrored) (hh : g.Housed)
    (hl : g.lifetime? P = some .implicit) (hempty : g.children P = [])
    (htop : g.packageOf? P = none) : Pruned g (g.evict P) [P] := by
  refine pruned_evict hh rfl hi hm (.refl _) (.refl g) (.refl g _) (fun j q _ => ?_) hl hempty
  split
  · rename_i hq
    subst hq
    have : P ∉ g.children j := fun hP => by
      simp [packageOf?, value?, hh.package_of_child j P hP] at htop
    exact (filter_not_mem_singleton this).symm
  · rfl

theorem pruned_child (hi : g.Indexed) (hm : g.Mirrored) (hh : g.Housed)
    (hl : g.lifetime? P = some .implicit) (hempty : g.children P = [])
    (hchild : P ∈ g.children Q) : Pruned g ((g.unlink Q "children" P).evict P) [P] := by
  have hQlive : g.contains Q = true := contains_of_mem_values hchild
  refine pruned_evict hh (frame_unlink _ _ _ _) (hi.congr (frame_unlink _ _ _ _))
    (hm.unlink (contains_of_lifetime? hl) hchild) (trims_unlink hQlive).usages
    (restamps_unlink _ _ _ _) (.unlink hm hQlive) (fun j q _ => ?_) hl hempty
  rw [values_unlink hQlive]
  by_cases hjq : j = Q ∧ q = "children"
  · obtain ⟨rfl, rfl⟩ := hjq
    have hnd : (g.values j "children").Nodup := hh.children_nodup j
    rw [if_pos ⟨rfl, rfl⟩, if_pos rfl, hnd.erase_eq_filter]
    congr 1
    funext m
    simp [bne, beq_eq_decide]
  · rw [if_neg hjq]
    split
    · rename_i hq
      subst hq
      have : P ∉ g.children j := fun hP => by
        have h1 := hh.package_of_child j P hP
        rw [hh.package_of_child Q P hchild] at h1
        exact hjq ⟨(List.cons.inj h1).1.symm, rfl⟩
      exact (filter_not_mem_singleton this).symm
    · rfl

def FilledBut (g : Graph) (packages : List NodeId) : Prop :=
  ∀ P, g.lifetime? P = some .implicit → g.children P = [] → P ∈ packages

def Filled (g : Graph) : Prop :=
  ∀ P, g.lifetime? P = some .implicit → g.children P ≠ []

theorem Pruned.filledBut (p : Pruned g g' [P]) {packages : List NodeId}
    (hQ : ∀ R, P ∈ g.children R → R = Q) (hf : g.FilledBut (P :: packages)) :
    g'.FilledBut (Q :: packages) := by
  intro R hR hempty
  obtain ⟨hRP, hR⟩ := p.lifetime?_eq_some hR
  by_cases hPR : P ∈ g.children R
  · exact hQ R hPR ▸ List.mem_cons_self
  · have hkids : g'.children R = g.children R := by
      rw [children, p.values, if_neg hRP, if_pos rfl]
      exact filter_not_mem_singleton hPR
    rw [hkids] at hempty
    rcases List.mem_cons.1 (hf R hR hempty) with rfl | h
    · simp at hRP
    · exact List.mem_cons_of_mem _ h

theorem size_lt_of_contains (hP : g.contains P = true) (hs : g'.slots.size = g.slots.size)
    (hc : ∀ j, g'.contains j = (decide (j ≠ P) && g.contains j)) : g'.size < g.size := by
  have hids : g'.ids = g.ids.filter (· ≠ P) := by
    rw [ids, ids, hs, List.filter_filter]
    exact List.filter_congr fun j _ => hc j
  rw [size, size, hids]
  exact List.length_filter_lt_length_iff_exists.2 ⟨P, mem_ids_iff.2 hP, by simp⟩

/-- Pruning a package takes it away if it is empty, and then its own package in the same way. Fuel
for all nodes suffices to leave no empty package behind. -/
theorem prune_pruned : ∀ (fuel : Nat) {g : Graph}, g.Indexed → g.Mirrored → g.Housed →
    ∀ P, ∃ gone g', prune fuel g P = .ok (gone, g') ∧ Pruned g g' gone ∧
      (g.size ≤ fuel → ∀ packages, g.FilledBut (P :: packages) → g'.FilledBut packages)
  | 0, g, hi, hm, hh, P => by
    refine ⟨[], g, rfl, .refl hi hm hh, fun hsize packages _ R hR _ => ?_⟩
    have hmem : R ∈ g.ids := by
      rw [ids, List.mem_filter, List.mem_range]
      have := contains_of_lifetime? hR
      exact ⟨lt_size_of_contains this, this⟩
    rw [size, Nat.le_zero, List.length_eq_zero_iff] at hsize
    simp [hsize] at hmem
  | fuel + 1, g, hi, hm, hh, P => by
    cases hn : g.node? P with
    | none =>
      refine ⟨[], g, by simp [prune, hn], .refl hi hm hh, fun _ packages hf R hR he => ?_⟩
      rcases List.mem_cons.1 (hf R hR he) with rfl | h
      · simp [lifetime?, hn] at hR
      · exact h
    | some n =>
      by_cases hstay : n.lifetime ≠ .implicit ∨ g.children P ≠ []
      · refine ⟨[], g, ?_, .refl hi hm hh, fun _ packages hf R hR he => ?_⟩
        · have : (decide (n.lifetime ≠ .implicit) || !(g.children P).isEmpty) = true := by
            simpa [List.isEmpty_iff] using hstay
          simp only [prune, hn, this, if_true]
        · rcases List.mem_cons.1 (hf R hR he) with rfl | h
          · rw [lifetime?_of_node? hn] at hR
            rcases hstay with h | h
            · exact absurd (Option.some.inj hR) h
            · exact absurd he h
          · exact h
      · rw [not_or, not_not, not_not] at hstay
        obtain ⟨hl, hempty⟩ := hstay
        have hlife : g.lifetime? P = some .implicit := by rw [lifetime?_of_node? hn, hl]
        have hlive : g.contains P = true := contains_of_lifetime? hlife
        have hgo : (decide (n.lifetime ≠ .implicit) || !(g.children P).isEmpty) = false := by
          simp [hl, hempty]
        cases hQ : g.packageOf? P with
        | none =>
          have hone := pruned_top hi hm hh hlife hempty hQ
          refine ⟨[P], g.evict P, by simp only [prune, hn, hgo, hQ, Bool.false_eq_true, if_false],
            hone, fun _ packages hf R hR he => ?_⟩
          -- the package itself stands in for the one that it does not have
          rcases List.mem_cons.1 (hone.filledBut (Q := P) (fun S hS => by
            simp [packageOf?, value?, hh.package_of_child S P hS] at hQ) hf R hR he) with rfl | h
          · exact absurd List.mem_cons_self (hone.lifetime?_eq_some hR).1
          · exact h
        | some Q =>
          have hchild := hh.child_of_package P Q (List.mem_of_head? hQ)
          have hQlive : g.contains Q = true := contains_of_mem_values hchild
          have hone := pruned_child hi hm hh hlife hempty hchild
          obtain ⟨more, g', he, hp, hfill⟩ :=
            prune_pruned fuel hone.indexed hone.mirrored hone.housed Q
          refine ⟨P :: more, g', ?_, hone.trans hp, fun hsize packages hf => hfill ?_ packages
            (hone.filledBut (fun R hR => ?_) hf)⟩
          · have hmem : P ∈ g.values Q "children" := hchild
            simp only [prune, hn, hgo, hQ, removeValue_eq hQlive, hmem, if_true, bind, Except.bind,
              pure, Except.pure, he, Bool.false_eq_true, if_false]
          · have hlt : ((g.unlink Q "children" P).evict P).size < g.size :=
              size_lt_of_contains hlive (by
                rw [size_slots_evict, size_slots_congr (frame_unlink _ _ _ _)]) fun j => by
                simpa using hone.contains j
            omega
          · have h1 := hh.package_of_child R P hR
            rw [hh.package_of_child Q P hchild] at h1
            exact (List.cons.inj h1).1.symm

theorem pruneAll_pruned : ∀ (packages : List NodeId) {g : Graph}, g.Indexed → g.Mirrored →
    g.Housed → ∃ gone g', pruneAll g packages = .ok (gone, g') ∧ Pruned g g' gone ∧
      (g.FilledBut packages → g'.Filled)
  | [], g, hi, hm, hh => by
    refine ⟨[], g, rfl, .refl hi hm hh, fun hf P hP he => ?_⟩
    simpa using hf P hP he
  | P :: packages, g, hi, hm, hh => by
    obtain ⟨a, h, he, p, hp⟩ := prune_pruned g.slots.size hi hm hh P
    obtain ⟨b, k, he', q, hq⟩ := pruneAll_pruned packages p.indexed p.mirrored p.housed
    refine ⟨a ++ b, k, by simp [pruneAll, he, he', bind, Except.bind, pure, Except.pure],
      p.trans q, fun hf => hq (hp ?_ packages hf)⟩
    simpa [size, ids] using List.length_filter_le g.contains (List.range g.slots.size)

end Prune

section Filled

variable {g g' h : Graph} {package : NodeId}

theorem Filled.of_children (hf : g.Filled)
    (hl : ∀ P, g'.lifetime? P = some .implicit → g.lifetime? P = some .implicit)
    (hc : ∀ P, g'.children P = g.children P) : g'.Filled := fun P hP => by
  rw [hc]
  exact hf P (hl P hP)

theorem filledBut_found (hi : g.Indexed) {spec : NodeSpec}
    {b : Bool} {parent : NodeId} (hp : g.contains parent = true) (hf : g.FilledBut [parent])
    (hl : (g.found spec lifetime b parent).lifetime? P = some .implicit)
    (hempty : (g.found spec lifetime b parent).children P = []) :
    P = g.fresh ∧ lifetime = .implicit := by
  rw [lifetime?_congr (frame_found _ _ _ _ _), lifetime?_seat _ _ _ hi] at hl
  rw [children, values_found hi hp] at hempty
  split at hl
  · exact ⟨‹_›, Option.some.inj hl⟩
  · split at hempty
    · simp at hempty
    · rename_i hne
      rw [if_neg (by simp)] at hempty
      exact absurd ⟨List.mem_singleton.1 (hf P hl hempty), rfl⟩ hne

theorem Founded.filledBut (hf : Founded lifetime g h package)
    (hl : lifetime.isShared = true) (hs : g.Sound) (hfill : g.Filled) : h.FilledBut [package] := by
  induction hf with
  | refl => exact fun P hl hempty => absurd hempty (hfill P hl)
  | step hf hpath ih =>
    have hs' := hf.sound hl hs
    intro P hP hempty
    exact List.mem_singleton.2 (filledBut_found hs'.toIndexed
      (hs'.isPackage_live hf.isPackage) ih hP hempty).1

theorem Established.filled {spec : NodeSpec} {path : Path}
    (he : Established g spec path lifetime id g') (hl : lifetime ≠ .implicit) (hs : g.Sound)
    (hfill : g.Filled) : g'.Filled := by
  obtain ⟨h, parent, hf, -, -, -, rfl⟩ := he.founded
  have hs' := hf.sound (isShared_around lifetime) hs
  have hfill' := hf.filledBut (isShared_around lifetime) hs hfill
  intro P hP hempty
  exact hl (filledBut_found hs'.toIndexed (hs'.isPackage_live hf.isPackage) hfill' hP hempty).2

end Filled

section RemoveNodes

variable {g : Graph} {ids order : List NodeId}

/-- Nothing outside refers to a node of the order, as a value or as a classifier. -/
structure Released (g : Graph) (order : List NodeId) : Prop where
  user : ∀ u ∈ g.usages, u.target ∈ order → u.user ∉ order →
    u.property = "children" ∧ g.isPackage u.user = true
  member : ∀ i c, c ∈ order → g.classifier? i = some c → i ∈ order

/-- What is left after the nodes of an order and the packages emptied by that have gone. -/
structure Removed (g g' : Graph) (order pruned : List NodeId) : Prop
    extends Without g g' (order ++ pruned) where
  indexed : g'.Indexed
  mirrored : g'.Mirrored
  housed : g'.Housed
  implicit : ∀ m ∈ pruned, g.lifetime? m = some .implicit
  emptied : ∀ m ∈ pruned, ∀ c ∈ g.children m, c ∈ order ++ pruned
  goes : ∀ m ∈ order ++ pruned, Goes g (· ∈ order) m
  filled : g.Filled → g'.Filled

theorem Ordered.live (ho : Ordered g ids order) (hi : g.Indexed) (hm : m ∈ order) :
    ∃ l, g.lifetime? m = some l ∧ l ≠ .bootstrap := by
  obtain ⟨id, hid, hmt⟩ := (ho.mem_iff m).1 hm
  rcases List.mem_cons.1 hmt with rfl | hmo
  · exact ho.removable _ hid
  · exact ⟨_, ((hi.owned_iff id m).1 hmo).1, by simp⟩

theorem findSome?_holder?_eq_none_iff (hi : g.Indexed) (ho : Ordered g ids order) :
    order.findSome? (g.holder? order) = none ↔ Released g order := by
  have hholder (t : NodeId) (ht : t ∈ order) : g.holder? order t = none ↔
      (∀ u ∈ g.usages, u.target = t → u.user ∉ order →
        u.property = "children" ∧ g.isPackage u.user = true) ∧
      ∀ i, g.classifier? i = some t → i ∈ order := by
    have hlive : g.contains t = true := by
      obtain ⟨l, hl, -⟩ := ho.live hi ht
      exact contains_of_lifetime? hl
    have husers : (g.usagesOf t).find? (g.holds order) = none ↔
        ∀ u ∈ g.usages, u.target = t → u.user ∉ order →
          u.property = "children" ∧ g.isPackage u.user = true := by
      simp only [usagesOf, hlive, if_true, List.find?_eq_none, List.mem_filter, decide_eq_true_eq,
        holds, Bool.and_eq_true, Bool.not_eq_true', not_and, Bool.not_eq_false, and_imp]
    have hmembers : (g.instancesOf t).find? (· ∉ order) = none ↔
        ∀ i, g.classifier? i = some t → i ∈ order := by
      simp only [List.find?_eq_none, hi.instance_iff, hlive, and_true, decide_eq_true_eq, not_not]
    rw [← husers, ← hmembers]
    unfold holder?
    cases (g.usagesOf t).find? (g.holds order) <;> simp
  rw [List.findSome?_eq_none_iff]
  constructor
  · intro h
    exact ⟨fun u hu ht => ((hholder _ ht).1 (h _ ht)).1 u hu rfl,
      fun i c hc hi => ((hholder _ hc).1 (h _ hc)).2 i hi⟩
  · intro h t ht
    exact (hholder t ht).2 ⟨fun u hu e => h.user u hu (e ▸ ht), fun i hi => h.member i t ht hi⟩

/-- Removal ends in the graph without what goes, or in the breach that the audit of it makes. -/
theorem extract_eq (hc : g.Coherent) (hh : g.Housed) (ho : Ordered g ids order)
    (hr : Released g order) : ∃ pruned g', Removed g g' order pruned ∧
      extract order g = match g'.audit with
        | .error e => .error (.audit e)
        | .ok () => .ok (order ++ pruned, g') := by
  obtain ⟨packages, h, he, w, hi, hm, hlost⟩ := detachAll_without hc hh order
  have hboot (j : NodeId) (hj : j ∈ order) : g.lifetime? j ≠ some .bootstrap := by
    obtain ⟨l, hl, hb⟩ := ho.live hc.toIndexed hj
    rw [hl]
    exact fun e => hb (Option.some.inj e)
  have hh' := hh.without w hboot fun m P hmo hP hPo => by
    obtain ⟨b, hb⟩ := hc.mem_values_iff.1 hP
    simpa using (hr.user _ hb hPo hmo).1
  obtain ⟨pruned, g', he', p, hfill⟩ := pruneAll_pruned packages.reverse hi hm hh'
  have hgoes (m : NodeId) (hmo : m ∈ order) : Goes g (· ∈ order) m := .base hmo
  refine ⟨pruned, g', { w.trans p.toWithout with
    indexed := p.indexed
    mirrored := p.mirrored
    housed := p.housed
    implicit := fun m hmp => (w.lifetime?_eq_some (p.implicit m hmp)).2
    emptied := fun m hmp c hcm => ?_
    goes := fun m hmg => ?_
    filled := fun hf => hfill fun P hP hempty => ?_ }, ?_⟩
  · rw [List.mem_append]
    by_cases hco : c ∈ order
    · exact .inl hco
    · refine .inr (p.emptied m hmp c ?_)
      rw [children, w.values, if_neg (w.lifetime?_eq_some (p.implicit m hmp)).1, if_pos rfl,
        List.mem_filter, decide_eq_true_eq]
      exact ⟨hcm, hco⟩
  · rcases List.mem_append.1 hmg with hmo | hmp
    · exact hgoes m hmo
    · exact w.goes hgoes ((p.goes m hmp).mono fun _ h => h.elim)
  · -- an empty package has lost a child, and that one was in the order
    obtain ⟨hPo, hP⟩ := w.lifetime?_eq_some hP
    obtain ⟨c, hcP⟩ := List.exists_mem_of_ne_nil _ (hf P hP)
    rw [children, w.values, if_neg hPo, if_pos rfl, List.filter_eq_nil_iff] at hempty
    have hco : c ∈ order := by simpa using hempty c hcP
    exact List.mem_reverse.2 (hlost c hco P hcP hPo)
  · unfold extract
    cases ha : g'.audit <;> simp only [he, he', ha, bind, Except.bind, pure, Except.pure]

theorem removeNodes_eq (g : Graph) (ids : List NodeId) : removeNodes ids g =
    match g.removalOrder [] ids with
    | .error e => .ok (.error e, g)
    | .ok order =>
      match order.findSome? (g.holder? order) with
      | some e => .ok (.error e, g)
      | none => Action.write (extract order) g := by
  unfold removeNodes
  rw [run_bind]
  show (match g.removalOrder [] ids with
    | .error e => throw e
    | .ok order => match order.findSome? (g.holder? order) with
      | some e => throw e
      | none => Action.write (extract order)) g = _
  cases g.removalOrder [] ids with
  | error e => rfl
  | ok order =>
    simp only
    cases order.findSome? (g.holder? order) <;> rfl

theorem removeNodes_runs (hc : g.Coherent) (hh : g.Housed) (ids : List NodeId) :
    Runs True (removeNodes ids) g
      (fun _ g' => ∃ order pruned, Ordered g ids order ∧ Removed g g' order pruned ∧ g'.Coherent)
      fun _ g' => g' = g := by
  simp only [Runs, Ensures, removeNodes_eq]
  cases hord : g.removalOrder [] ids with
  | error e => exact .inl (.inr ⟨e, g, rfl, rfl⟩)
  | ok order =>
    have ho := ordered_of_removalOrder hord
    cases hf : order.findSome? (g.holder? order) with
    | some e => exact .inl (.inr ⟨e, g, by simp only [hf], rfl⟩)
    | none =>
      have hr := (findSome?_holder?_eq_none_iff hc.toIndexed ho).1 hf
      obtain ⟨pruned, k, hk, he⟩ := extract_eq hc hh ho hr
      simp only [hf, Action.write, he]
      cases ha : k.audit with
      | error e => exact .inr ⟨trivial, _, rfl⟩
      | ok u =>
        exact .inl (.inl ⟨_, k, rfl, order, pruned, ho, hk, { hk.indexed, hk.mirrored,
          Closed.of_audit hk.indexed hk.mirrored ha with }⟩)

def InTrees (g : Graph) (ids : List NodeId) (m : NodeId) : Prop :=
  ∃ id ∈ ids, m ∈ g.tree id

/-- What a caller owes to the store for a removal to succeed. -/
structure Removable (g : Graph) (ids : List NodeId) : Prop where
  present : ∀ id ∈ ids, ∃ l, g.lifetime? id = some l ∧ l ≠ .bootstrap
  user : ∀ u ∈ g.usages, g.InTrees ids u.target → ¬ g.InTrees ids u.user →
    u.property = "children" ∧ g.isPackage u.user = true
  member : ∀ i c, g.classifier? i = some c → Goes g (g.InTrees ids) c → g.InTrees ids i
  implicit_user : ∀ u ∈ g.usages, g.lifetime? u.target = some .implicit →
    Goes g (g.InTrees ids) u.target → u.property = "package" ∨ u.property = "children"
  implicit_owner : ∀ e P, g.lifetime? e = some (.ephemeral P) → g.lifetime? P ≠ some .implicit

/-- One node cannot be without the other: it refers to it other than as a member of a package, is an
instance of it or a part of it. -/
def Relies (g : Graph) (m P : NodeId) : Prop :=
  (∃ q, q ≠ "package" ∧ q ≠ "children" ∧ P ∈ g.values m q) ∨ g.classifier? m = some P ∨
    g.lifetime? m = some (.ephemeral P)

theorem Removed.not_relies (hk : Removed g g' order pruned)
    (hcl : g'.Closed) (hP : P ∈ order ++ pruned) (hm : m ∉ order ++ pruned) :
    ¬ Relies g m P := by
  rintro (⟨q, -, hq, hv⟩ | hcls | hown)
  · refine hk.not_mem_of_contains (hcl.value_live m q P ?_) hP
    rwa [hk.values, if_neg hm, if_neg hq]
  · refine hk.not_mem_of_contains (hcl.classifier_live m P ?_) hP
    rwa [hk.classifier?, if_neg hm]
  · refine hk.not_mem_of_contains (hcl.owner_live m P ?_) hP
    rwa [hk.lifetime?, if_neg hm]

/-- What is left is closed if nothing in it relies on a package that has gone. -/
theorem Removed.closed_iff (hk : Removed g g' order pruned)
    (hc : g.Coherent) (hh : g.Housed) (ho : Ordered g ids order) (hr : Released g order) :
    g'.Closed ↔ ∀ P ∈ pruned, ∀ m, m ∉ order ++ pruned → ¬ Relies g m P := by
  constructor
  · exact fun hcl P hP m hm => hk.not_relies hcl (List.mem_append_right _ hP) hm
  · intro hno
    have hlive {m : NodeId} (hm : m ∉ order ++ pruned) (hmc : g.contains m = true) :
        g'.contains m = true := by
      simp only [hk.contains, hm, not_false_eq_true, decide_true, hmc, Bool.and_true]
    refine ⟨fun j q v hv => ?_, fun i c hi => ?_, fun e o he => ?_⟩
    · obtain ⟨hj, hv, hkids⟩ := hk.mem_values hv
      refine hlive (fun hgone => ?_) (hc.value_live j q v hv)
      rcases List.mem_append.1 hgone with hvo | hvp
      · obtain ⟨b, hb⟩ := hc.mem_values_iff.1 hv
        have := hr.user _ hb hvo fun h => hj (List.mem_append_left _ h)
        exact hkids this.1 hgone
      · by_cases hq : q = "package"
        · -- a member that leads to the package is one of its children
          subst hq
          exact hj (hk.emptied v hvp j (hh.child_of_package j v hv))
        · by_cases hq' : q = "children"
          · exact hkids hq' hgone
          · exact hno v hvp j hj (.inl ⟨q, hq, hq', hv⟩)
    · rw [hk.classifier?] at hi
      split at hi
      · simp at hi
      · rename_i hig
        refine hlive (fun hgone => ?_) (hc.classifier_live i c hi)
        rcases List.mem_append.1 hgone with hco | hcp
        · exact hig (List.mem_append_left _ (hr.member i c hco hi))
        · exact hno c hcp i hig (.inr (.inl hi))
    · obtain ⟨heg, he⟩ := hk.lifetime?_eq_some he
      refine hlive (fun hgone => ?_) (hc.owner_live e o he)
      rcases List.mem_append.1 hgone with hoo | hop
      · obtain ⟨id, hid, hot⟩ := (ho.mem_iff o).1 hoo
        rcases List.mem_cons.1 hot with rfl | hot
        · refine heg (List.mem_append_left _ ((ho.mem_iff e).2 ⟨o, hid, List.mem_cons_of_mem _ ?_⟩))
          exact (hc.owned_iff o e).2 ⟨he, hc.owner_live e o he⟩
        · have hot' := ((hc.owned_iff id o).1 hot).1
          have := hc.owner_plain e o he _ hot'
          simp [Lifetime.isEphemeral] at this
      · exact hno o hop e heg (.inr (.inr he))

theorem Removable.released (hr : Removable g ids) (ho : Ordered g ids order) : Released g order :=
  ⟨fun u hu ht hnu => hr.user u hu ((ho.mem_iff _).1 ht) fun h => hnu ((ho.mem_iff _).2 h),
    fun i c hco hi => (ho.mem_iff i).2 (hr.member i c hi (.base ((ho.mem_iff c).1 hco)))⟩

theorem Removed.closed (hk : Removed g g' order pruned)
    (hc : g.Coherent) (hh : g.Housed) (ho : Ordered g ids order) (hr : Removable g ids) :
    g'.Closed := by
  refine (hk.closed_iff hc hh ho (hr.released ho)).2 fun P hP m hm hrel => ?_
  have hgoes : Goes g (g.InTrees ids) P :=
    (hk.goes P (List.mem_append_right _ hP)).mono fun i hi => (ho.mem_iff i).1 hi
  have hl := hk.implicit P hP
  rcases hrel with ⟨q, hq, hq', hv⟩ | hcls | hown
  · obtain ⟨b, hb⟩ := hc.mem_values_iff.1 hv
    rcases hr.implicit_user _ hb hl hgoes with h | h
    · exact hq h
    · exact hq' h
  · exact hm (List.mem_append_left _ ((ho.mem_iff m).2 (hr.member m P hcls hgoes)))
  · exact hr.implicit_owner m P hown hl

theorem removeNodes_ensures (hc : g.Coherent) (hh : g.Housed) (hr : Removable g ids) :
    Ensures (removeNodes ids) g
      (fun gone g' => ∃ order pruned, gone = order ++ pruned ∧ Ordered g ids order ∧
        Removed g g' order pruned ∧ g'.Coherent)
      fun _ _ => False := by
  obtain ⟨order, hord⟩ := removalOrder_ok [] hr.present
  have ho := ordered_of_removalOrder hord
  have hrel := hr.released ho
  have hf := (findSome?_holder?_eq_none_iff hc.toIndexed ho).2 hrel
  obtain ⟨pruned, g', hk, he⟩ := extract_eq hc hh ho hrel
  have hc' : g'.Coherent :=
    { hk.indexed, hk.mirrored, hk.closed hc hh ho hr with }
  refine ensures_of_eq (a := order ++ pruned) (t := g') ?_ ⟨order, pruned, rfl, ho, hk, hc'⟩
  simp only [removeNodes_eq, hord, hf, Action.write, he, hc'.audit_eq_ok, Except.map]

end RemoveNodes

end ModelCompiler.Graph
