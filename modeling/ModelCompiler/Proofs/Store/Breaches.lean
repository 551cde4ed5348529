import ModelCompiler.Proofs.Store.Upheld

/-!
How a removal can end. It is refused if a node outside refers to what is to go, and then nothing has
changed.
-/
namespace ModelCompiler.Graph

variable {g g' : Graph} {ids order pruned : List NodeId}

/-- Nothing keeps the nodes from being removed: they live, none is of the metamodel, and from
outside nothing but the packages that hold them refers to their trees. -/
structure Unheld (g : Graph) (ids : List NodeId) : Prop where
  present : ∀ id ∈ ids, ∃ l, g.lifetime? id = some l ∧ l ≠ .bootstrap
  user : ∀ m q v, v ∈ g.values m q → g.InTrees ids v → ¬ g.InTrees ids m →
    q = "children" ∧ g.isPackage m = true
  member : ∀ i c, g.classifier? i = some c → g.InTrees ids c → g.InTrees ids i

theorem Ordered.released_iff (ho : Ordered g ids order) (hc : g.Coherent) :
    Released g order ↔ g.Unheld ids := by
  have hmem (m : NodeId) : m ∈ order ↔ g.InTrees ids m := ho.mem_iff m
  constructor
  · intro hr
    refine ⟨ho.removable, fun m q v hv ht hm => ?_, fun i c hi ht => ?_⟩
    · obtain ⟨b, hb⟩ := hc.mem_values_iff.1 hv
      exact hr.user _ hb ((hmem v).2 ht) fun h => hm ((hmem m).1 h)
    · exact (hmem i).1 (hr.member i c ((hmem c).2 ht) hi)
  · intro hu
    refine ⟨fun u hmemu ht hn => ?_, fun i c ht hi => ?_⟩
    · exact hu.user _ _ _ (hc.target_mem_values hmemu) ((hmem _).1 ht) fun h => hn ((hmem _).2 h)
    · exact (hmem i).2 (hu.member i c hi ((hmem c).1 ht))

theorem Removed.mem_iff (hk : Removed g g' order pruned) (ho : Ordered g ids order)
    (hf : g.Filled) (m : NodeId) : m ∈ order ++ pruned ↔ Goes g (g.InTrees ids) m := by
  constructor
  · intro hm
    exact (hk.goes m hm).mono fun i hi => (ho.mem_iff i).1 hi
  · intro hm
    induction hm with
    | base hb => exact List.mem_append_left _ ((ho.mem_iff _).2 hb)
    | @package P hl _ ih =>
      by_contra hP
      -- a package that stays has a child that stays
      have hlife : g'.lifetime? P = some .implicit := by rw [hk.lifetime?, if_neg hP, hl]
      apply hk.filled hf P hlife
      rw [children, hk.values, if_neg hP, if_pos rfl, List.filter_eq_nil_iff]
      intro c hc
      rw [decide_eq_true_eq, not_not]
      exact ih c hc

theorem removeNodes_of_not_unheld (hc : g.Coherent) (h : ¬ g.Unheld ids) :
    ∃ e, removeNodes ids g = .ok (.error e, g) := by
  rw [removeNodes_eq]
  cases hord : g.removalOrder [] ids with
  | error e => exact ⟨e, rfl⟩
  | ok order =>
    have ho := ordered_of_removalOrder hord
    cases hf : order.findSome? (g.holder? order) with
    | some e => exact ⟨e, by simp only [hf]⟩
    | none =>
      have hr := (findSome?_holder?_eq_none_iff hc.toIndexed ho).1 hf
      exact absurd ((ho.released_iff hc).1 hr) h

theorem removeNodes_of_unheld (hc : g.Coherent) (hh : g.Housed) (h : g.Unheld ids) :
    ∃ order pruned k, Ordered g ids order ∧ Released g order ∧ Removed g k order pruned ∧
      removeNodes ids g = match k.audit with
        | .error e => .error (.audit e)
        | .ok () => .ok (.ok (order ++ pruned), k) := by
  obtain ⟨order, hord⟩ := removalOrder_ok [] h.present
  have ho := ordered_of_removalOrder hord
  have hr := (ho.released_iff hc).2 h
  have hf := (findSome?_holder?_eq_none_iff hc.toIndexed ho).2 hr
  obtain ⟨pruned, k, hk, he⟩ := extract_eq hc hh ho hr
  refine ⟨order, pruned, k, ho, hr, hk, ?_⟩
  simp only [removeNodes_eq, hord, hf, Action.write, he]
  cases k.audit <;> rfl

/-- A removal is refused and changes nothing, or takes away what is known beforehand and leaves a
graph that passes the audit, unless something that stays relies on a package that is emptied: then,
and only then, it breaches. -/
theorem removeNodes_ends (h : Reachable g) (ids : List NodeId) :
    (¬ g.Unheld ids → ∃ e, removeNodes ids g = .ok (.error e, g)) ∧
    (g.Unheld ids →
      ((∃ b, removeNodes ids g = .error b) ↔ ∃ P m, g.lifetime? P = some .implicit ∧
        Goes g (g.InTrees ids) P ∧ ¬ Goes g (g.InTrees ids) m ∧ Relies g m P) ∧
      ∀ r g', removeNodes ids g = .ok (r, g') → g'.audit = .ok () ∧
        ∃ gone, r = .ok gone ∧ ∀ m, m ∈ gone ↔ Goes g (g.InTrees ids) m) := by
  have hs := h.stocked
  refine ⟨removeNodes_of_not_unheld hs.toCoherent, fun hu => ?_⟩
  obtain ⟨order, pruned, k, ho, hr, hk, he⟩ :=
    removeNodes_of_unheld hs.toCoherent hs.toHoused hu
  have hgone := hk.mem_iff ho hs.filled
  constructor
  · constructor
    · rintro ⟨b, hb⟩
      by_contra hno
      have hcl : k.Closed := (hk.closed_iff hs.toCoherent hs.toHoused ho hr).2
        fun P hP m hm hrel => hno ⟨P, m, hk.implicit P hP,
          (hgone P).1 (List.mem_append_right _ hP), fun hgo => hm ((hgone m).2 hgo), hrel⟩
      have hc : k.Coherent := { hk.indexed, hk.mirrored, hcl with }
      simp [he, hc.audit_eq_ok] at hb
    · rintro ⟨P, m, hl, hP, hm, hrel⟩
      cases ha : k.audit with
      | error e => exact ⟨_, by rw [he, ha]⟩
      | ok u =>
        have hcl := Closed.of_audit hk.indexed hk.mirrored ha
        exact absurd hrel (hk.not_relies hcl ((hgone P).2 hP) fun hmo => hm ((hgone m).1 hmo))
  · intro r g' hrun
    cases ha : k.audit with
    | error e => simp [he, ha] at hrun
    | ok u =>
      rw [he, ha] at hrun
      obtain ⟨rfl, rfl⟩ := ok_mk_inj hrun
      exact ⟨ha, _, rfl, hgone⟩

def nested : List Request :=
  [.createPersistent "s" { path := some (.ofValid "k::l::X".toList (by decide)) },
    .createPersistent "t" { path := some (.ofValid "k::Y".toList (by decide)) },
    .createEphemeral 42 {}, .addValue 44 "likes" 42]

theorem removeNodes_ends_nested : ∃ g g', Request.runAll initial nested = .ok g ∧ Reachable g ∧
    g.Unheld [42] ∧ removeNodes [42] g = .ok (.ok [42, 44, 41], g') ∧ g'.audit = .ok () ∧
    ∀ m, m ∈ [42, 44, 41] ↔ Goes g (g.InTrees [42]) m := by
  obtain ⟨g, hg, hrun⟩ := exists_run nested
    (P := fun g => ((removeNodes [42] g).toOption.any fun r =>
      decide (r.1.toOption = some [42, 44, 41])) = true) (by decide +kernel)
  obtain ⟨⟨r, g'⟩, hrun, hr⟩ := exists_ok_of_any hrun
  obtain rfl : r = .ok [42, 44, 41] := eq_ok_of_toOption hr
  have hreach : Reachable g := Reachable.initial.runAll (by
    simp [nested, Request.Mindful, Request.property?]) hg
  obtain ⟨hrefused, haccepted⟩ := removeNodes_ends hreach [42]
  have hu : g.Unheld [42] := by
    by_contra hn
    obtain ⟨e, he⟩ := hrefused hn
    simp [hrun] at he
  obtain ⟨haudit, gone, hgone, hmem⟩ := (haccepted hu).2 _ _ hrun
  obtain rfl := Except.ok.inj hgone
  exact ⟨g, g', hg, hreach, hu, hrun, haudit, hmem⟩

def leanedOn : List Request :=
  [.createPersistent "s" { path := some (.ofValid "h::X".toList (by decide)) },
    .addValue 29 "likes" 40]

def stray : List Request :=
  [.createPersistent "s" { path := some (.ofValid "n::X".toList (by decide)) },
    .clearProperty 41 "package"]

/-- Removals that are not refused can breach: by a reference to a package that is emptied, and by
membership that is kept on one side only. -/
theorem removeNodes_breaches_unrefused :
    (∃ g, Request.runAll initial leanedOn = .ok g ∧ Reachable g ∧
      ∃ b, removeNodes [41] g = .error b) ∧
    ∃ g, Request.runAll initial stray = .ok g ∧ Attained g ∧ ∃ b,
      removeNodes [41] g = .error b := by
  have hbreach {g : Graph} (h : (removeNodes [41] g).toOption.isNone = true) :
      ∃ b, removeNodes [41] g = .error b := by
    cases hr : removeNodes [41] g with
    | error b => exact ⟨b, rfl⟩
    | ok r => simp [hr, Except.toOption] at h
  constructor
  · obtain ⟨g, hg, hnone⟩ := exists_run leanedOn
      (P := fun g => (removeNodes [41] g).toOption.isNone = true) (by decide +kernel)
    exact ⟨g, hg, Reachable.initial.runAll (by
      simp [leanedOn, Request.Mindful, Request.property?]) hg, hbreach hnone⟩
  · obtain ⟨g, hg, hnone⟩ := exists_run stray
      (P := fun g => (removeNodes [41] g).toOption.isNone = true) (by decide +kernel)
    exact ⟨g, hg, Attained.initial.runAll hg, hbreach hnone⟩

end ModelCompiler.Graph
