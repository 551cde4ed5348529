import ModelCompiler.Proofs.Store.Remove

/-!
What a removal leaves, whatever callers have written to `package` and `children`.
-/
namespace ModelCompiler

namespace Graph

/-- Nodes may have gone, none of the metamodel among them, and members may have been taken out of
packages; all else is as before. -/
structure Remains (g g' : Graph) : Prop where
  bare : ∀ j, g'.contains j = true → (g'.node? j).map Node.bare = (g.node? j).map Node.bare
  values : ∀ j q, g'.contains j = true → q ≠ "children" → g'.values j q = g.values j q
  bootstrap : ∀ j, g.lifetime? j = some .bootstrap → g'.lifetime? j = some .bootstrap
  package : ∀ j, g'.contains j = true → g'.isPackage j = g.isPackage j
  backReferences : g'.backReferences = g.backReferences
  packageClassifier : g'.packageClassifier = g.packageClassifier
  stamps : Restamps g g'

namespace Remains

variable {g g' h k : Graph} {id : NodeId}

theorem refl (g : Graph) : Remains g g :=
  ⟨fun _ _ => rfl, fun _ _ _ _ => rfl, fun _ h => h, fun _ _ => rfl, rfl, rfl, .refl g⟩

theorem contains (r : Remains g g') (hid : g'.contains id = true) : g.contains id = true := by
  rw [← contains_of_bare (r.bare id hid)]
  exact hid

theorem trans (r : Remains g h) (s : Remains h k) : Remains g k where
  bare j hj := (s.bare j hj).trans (r.bare j (s.contains hj))
  values j q hj hq := (s.values j q hj hq).trans (r.values j q (s.contains hj) hq)
  bootstrap j hj := s.bootstrap j (r.bootstrap j hj)
  package j hj := (s.package j hj).trans (r.package j (s.contains hj))
  backReferences := s.backReferences.trans r.backReferences
  packageClassifier := s.packageClassifier.trans r.packageClassifier
  stamps := r.stamps.trans s.stamps

theorem unlink {package : NodeId} (hp : g.contains package = true) (id : NodeId) :
    Remains g (g.unlink package "children" id) := by
  have e := frame_unlink g package id "children"
  refine ⟨fun j _ => ?_, fun j q _ hq => ?_, fun j hj => ?_, fun j _ => isPackage_congr e j,
    backReferences_congr e, packageClassifier_congr e, restamps_unlink _ _ _ _⟩
  · rw [← node?_frame, e, node?_frame]
  · rw [values_unlink hp, if_neg fun h => hq h.2]
  · rw [lifetime?_congr e]
    exact hj

theorem evict (hi : g.Indexed) (hid : g.lifetime? id ≠ some .bootstrap) :
    Remains g (g.evict id) := by
  have hne {j : NodeId} (hj : (g.evict id).contains j = true) : j ≠ id := by
    rw [contains_evict, Bool.and_eq_true, decide_eq_true_eq] at hj
    exact hj.1
  refine ⟨fun j hj => ?_, fun j q hj _ => ?_, fun j hj => ?_, fun j hj => ?_,
    backReferences_evict g id, packageClassifier_evict g id, restamps_evict g id⟩
  · rw [node?_evict, if_neg (hne hj)]
  · rw [values_evict, if_neg (hne hj)]
  · have hne : j ≠ id := by
      rintro rfl
      exact hid hj
    rw [lifetime?_evict, if_neg hne]
    exact hj
  · simp [isPackage_evict hi, hne hj]

end Remains

section Rules

variable {g' : Graph} {order : List NodeId}

theorem detachAll_keeps {I : Graph → Prop}
    (hunlink : ∀ h P id, id ∈ h.values P "children" → I h → I (h.unlink P "children" id))
    (ids : List NodeId) : ∀ {g : Graph} {packages : List NodeId}, I g →
      detachAll order g ids = .ok (packages, g') → I g' := by
  induction ids with
  | nil =>
    intro g packages hg h
    exact (ok_mk_inj h).2 ▸ hg
  | cons id ids ih =>
    intro g packages hg h
    unfold detachAll at h
    obtain ⟨⟨out, g₁⟩, hd, h⟩ := exists_of_bind_ok h
    obtain ⟨⟨rest, g₂⟩, hds, h⟩ := exists_of_bind_ok h
    obtain ⟨-, rfl⟩ := ok_mk_inj h
    refine ih ?_ hds
    unfold detach at hd
    split at hd
    · split at hd
      · exact (ok_mk_inj hd).2 ▸ hg
      · obtain ⟨⟨b, g₃⟩, hr, hd⟩ := exists_of_bind_ok hd
        obtain ⟨-, rfl⟩ := ok_mk_inj hd
        obtain ⟨-, rfl | ⟨hmem, rfl⟩⟩ := removeValue_cases hr
        · exact hg
        · exact hunlink g _ id hmem hg
    · exact (ok_mk_inj hd).2 ▸ hg

variable {I : List NodeId → Graph → Prop}
  (hunlink : ∀ done h P id, id ∈ h.values P "children" → h.contains id = true → I done h →
    I done (h.unlink P "children" id))
  (hevict : ∀ done h P, h.lifetime? P = some .implicit → I done h → I (done ++ [P]) (h.evict P))
include hunlink hevict

/-- Pruning takes packages out of the children of their packages and evicts them, one after the
other. -/
theorem prune_keeps (fuel : Nat) : ∀ {g : Graph} {P : NodeId} {done pruned : List NodeId},
    I done g → prune fuel g P = .ok (pruned, g') → I (done ++ pruned) g' := by
  induction fuel with
  | zero =>
    intro g P done pruned hg h
    obtain ⟨rfl, rfl⟩ := ok_mk_inj h
    rwa [List.append_nil]
  | succ fuel ih =>
    intro g P done pruned hg h
    unfold prune at h
    split at h
    · obtain ⟨rfl, rfl⟩ := ok_mk_inj h
      rwa [List.append_nil]
    · rename_i n hn
      split at h
      · obtain ⟨rfl, rfl⟩ := ok_mk_inj h
        rwa [List.append_nil]
      · rename_i hgo
        have hl : g.lifetime? P = some .implicit := by
          rw [lifetime?_of_node? hn]
          by_contra hne
          simp_all
        split at h
        · obtain ⟨rfl, rfl⟩ := ok_mk_inj h
          exact hevict done g P hl hg
        · obtain ⟨⟨b, g₁⟩, hr, h⟩ := exists_of_bind_ok h
          obtain ⟨⟨more, g₂⟩, hrest, h⟩ := exists_of_bind_ok h
          obtain ⟨rfl, rfl⟩ := ok_mk_inj h
          rw [← List.singleton_append, ← List.append_assoc]
          refine ih ?_ hrest
          obtain ⟨-, rfl | ⟨hmem, rfl⟩⟩ := removeValue_cases hr
          · exact hevict done _ P hl hg
          · refine hevict done _ P ?_ (hunlink done g _ P hmem (contains_of_lifetime? hl) hg)
            rwa [lifetime?_congr (frame_unlink _ _ _ _)]

theorem pruneAll_keeps (packages : List NodeId) : ∀ {g : Graph} {l pruned : List NodeId},
    I l g → pruneAll g packages = .ok (pruned, g') → I (l ++ pruned) g' := by
  induction packages with
  | nil =>
    intro g l pruned hg h
    obtain ⟨rfl, rfl⟩ := ok_mk_inj h
    rwa [List.append_nil]
  | cons P packages ih =>
    intro g l pruned hg h
    unfold pruneAll at h
    obtain ⟨⟨gone, g₁⟩, hp, h⟩ := exists_of_bind_ok h
    obtain ⟨⟨more, g₂⟩, hps, h⟩ := exists_of_bind_ok h
    obtain ⟨rfl, rfl⟩ := ok_mk_inj h
    rw [← List.append_assoc]
    exact ih (prune_keeps hunlink hevict _ hg hp) hps

omit hunlink hevict

theorem extract_cases {g : Graph} {gone : List NodeId} (h : extract order g = .ok (gone, g')) :
    ∃ packages g₁ pruned, detachAll order g order = .ok (packages, g₁) ∧
      pruneAll (order.foldl evict g₁) packages.reverse = .ok (pruned, g') ∧ g'.audit = .ok () ∧
      gone = order ++ pruned := by
  unfold extract at h
  obtain ⟨⟨packages, g₁⟩, hd, h⟩ := exists_of_bind_ok h
  obtain ⟨⟨pruned, g₂⟩, hp, h⟩ := exists_of_bind_ok h
  dsimp only at h
  split at h
  · simp at h
  · obtain ⟨rfl, rfl⟩ := ok_mk_inj h
    exact ⟨packages, g₁, pruned, hd, hp, ‹_›, rfl⟩

/-- A removal that ends without a breach was refused, or is that of an order. -/
theorem removeNodes_cases {g : Graph} {ids : List NodeId} {r : Except GraphError (List NodeId)}
    (h : removeNodes ids g = .ok (r, g')) : (∃ e, r = .error e ∧ g' = g) ∨
      ∃ order gone, g.removalOrder [] ids = .ok order ∧ r = .ok gone ∧
        extract order g = .ok (gone, g') := by
  rw [removeNodes_eq] at h
  split at h
  · obtain ⟨rfl, rfl⟩ := ok_mk_inj h
    exact .inl ⟨_, rfl, rfl⟩
  · rename_i order hord
    split at h
    · obtain ⟨rfl, rfl⟩ := ok_mk_inj h
      exact .inl ⟨_, rfl, rfl⟩
    · unfold Action.write at h
      cases hx : extract order g with
      | error b => simp [hx, Except.map] at h
      | ok out =>
        simp only [hx, Except.map, Except.ok.injEq, Prod.mk.injEq] at h
        obtain ⟨rfl, rfl⟩ := h
        exact .inr ⟨order, out.1, hord, rfl, hx⟩

end Rules

section RemoveNodes

variable {g g' : Graph} {order : List NodeId}

theorem detachAll_remains (ids : List NodeId) {packages : List NodeId} (hc : g.Coherent)
    (h : detachAll order g ids = .ok (packages, g')) : g'.Coherent ∧ Remains g g' := by
  refine detachAll_keeps (I := fun k => k.Coherent ∧ Remains g k) (fun k P id hmem hk => ?_) ids
    ⟨hc, .refl g⟩ h
  exact ⟨hk.1.unlink hmem, hk.2.trans (.unlink (contains_of_mem_values hmem) id)⟩

theorem foldl_evict_remains (order : List NodeId) : ∀ {g : Graph}, g.Indexed → g.Mirrored →
    (∀ j ∈ order, g.lifetime? j ≠ some .bootstrap) → (order.foldl evict g).Indexed ∧
      (order.foldl evict g).Mirrored ∧ Remains g (order.foldl evict g) := by
  induction order with
  | nil => exact fun {g} hi hm _ => ⟨hi, hm, .refl g⟩
  | cons id order ih =>
    intro g hi hm hb
    obtain ⟨hi', hm', hr⟩ := ih (hi.evict id) (hm.evict id) fun j hj hl => by
      rw [lifetime?_evict] at hl
      split at hl
      · simp at hl
      · exact hb j (List.mem_cons_of_mem _ hj) hl
    exact ⟨hi', hm', (Remains.evict hi (hb id List.mem_cons_self)).trans hr⟩

theorem pruneAll_remains (packages : List NodeId) {pruned : List NodeId} (hi : g.Indexed)
    (hm : g.Mirrored) (h : pruneAll g packages = .ok (pruned, g')) :
    g'.Indexed ∧ g'.Mirrored ∧ Remains g g' := by
  refine pruneAll_keeps (I := fun _ k => k.Indexed ∧ k.Mirrored ∧ Remains g k) (l := [])
    (fun _ k P id hmem hid hk => ?_) (fun _ k P hl hk => ?_) packages ⟨hi, hm, .refl g⟩ h
  · obtain ⟨hi, hm, hr⟩ := hk
    exact ⟨hi.congr (frame_unlink _ _ _ _), hm.unlink hid hmem,
      hr.trans (.unlink (contains_of_mem_values hmem) id)⟩
  · obtain ⟨hi, hm, hr⟩ := hk
    exact ⟨hi.evict P, hm.evict P, hr.trans (.evict hi (by simp [hl]))⟩

/-- A removal that ends without a breach leaves a coherent graph: the audit at its end finds every
value that leads nowhere. -/
theorem extract_remains (hc : g.Coherent) {gone : List NodeId}
    (hb : ∀ j ∈ order, g.lifetime? j ≠ some .bootstrap)
    (h : extract order g = .ok (gone, g')) : g'.Coherent ∧ Remains g g' := by
  obtain ⟨packages, g₁, pruned, hd, hp, haudit, -⟩ := extract_cases h
  obtain ⟨hc₁, hr₁⟩ := detachAll_remains order hc hd
  obtain ⟨hi₂, hm₂, hr₂⟩ := foldl_evict_remains order hc₁.toIndexed hc₁.toMirrored fun j hj hl =>
    hb j hj ((lifetime?_of_bare (hr₁.bare j (contains_of_lifetime? hl))).symm.trans hl)
  obtain ⟨hi₃, hm₃, hr₃⟩ := pruneAll_remains _ hi₂ hm₂ hp
  exact ⟨{ hi₃, hm₃, Closed.of_audit hi₃ hm₃ haudit with }, hr₁.trans (hr₂.trans hr₃)⟩

theorem removeNodes_remains (hc : g.Coherent) {ids : List NodeId}
    {r : Except GraphError (List NodeId)} (h : removeNodes ids g = .ok (r, g')) :
    g'.Coherent ∧ Remains g g' := by
  obtain ⟨e, -, rfl⟩ | ⟨order, gone, hord, -, hx⟩ := removeNodes_cases h
  · exact ⟨hc, .refl _⟩
  · refine extract_remains hc (fun j hj hl => ?_) hx
    obtain ⟨l, hl', hne⟩ := (ordered_of_removalOrder hord).live hc.toIndexed hj
    exact hne (Option.some.inj (hl'.symm.trans hl))

end RemoveNodes

end Graph

end ModelCompiler
