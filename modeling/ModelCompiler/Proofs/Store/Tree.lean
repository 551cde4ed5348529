import ModelCompiler.Proofs.Store.Edits

/-!
The tree of packages follows the paths: the package of an element stands at what precedes the last
segment of its path, and the packages around it lead to the root.
-/
open ModelCompiler.Action

namespace ModelCompiler

namespace Graph

variable {g g' h : Graph} {id value parent : NodeId} {p : String}

def Placed (g : Graph) : Prop :=
  ∀ id path, g.path? id = some path → id ≠ root →
    ∃ P, g.home? path = some P ∧ g.values id "package" = [P]

theorem home?_congr (e : g.frame = h.frame) (path : Path) : g.home? path = h.home? path := by
  unfold home?
  cases path.package with
  | none => rfl
  | some q => exact lookup_congr e q

namespace Placed

theorem congr (hp : g.Placed) (e : g'.frame = g.frame)
    (hv : ∀ j, g'.values j "package" = g.values j "package") : g'.Placed := by
  intro id path hpath hid
  rw [path?_congr e] at hpath
  rw [home?_congr e, hv]
  exact hp id path hpath hid

theorem link (hp : g.Placed) (hid : g.contains id = true) (hpk : p ≠ "package") :
    (g.link id p value).Placed :=
  hp.congr (frame_link g id value p) fun j => by
    rw [values_link hid, if_neg fun h => hpk h.2.symm]

theorem unlink (hp : g.Placed) (hid : g.contains id = true) (hpk : p ≠ "package") :
    (g.unlink id p value).Placed :=
  hp.congr (frame_unlink g id value p) fun j => by
    rw [values_unlink hid, if_neg fun h => hpk h.2.symm]

theorem purge (hp : g.Placed) (id : NodeId) (hpk : p ≠ "package") : (g.purge id p).Placed :=
  hp.congr (frame_purge g id p) fun j => by
    rw [values_purge, if_neg fun h => hpk h.2.symm]

theorem home?_seat {spec : NodeSpec} (hfree : ∀ q, spec.path = some q → g.lookup q = none)
    (lifetime : Lifetime) (package : Bool) {path : Path} {P : NodeId} (hP : g.home? path = some P) :
    (g.seat spec lifetime package).home? path = some P := by
  unfold home? at hP ⊢
  cases hq : path.package with
  | none => simpa [hq] using hP
  | some q =>
    simp only [hq, Option.elim_some] at hP ⊢
    have hne : spec.path ≠ some q := fun e => by simp [hfree q e] at hP
    rw [lookup_seat, if_neg hne]
    exact hP

theorem seat (hp : g.Placed) (hi : g.Indexed) {spec : NodeSpec} (hpath : spec.path = none)
    (lifetime : Lifetime) : (g.seat spec lifetime false).Placed := by
  intro id path hid hroot
  rw [path?_seat _ _ _ hi] at hid
  split at hid
  · simp [hpath] at hid
  · obtain ⟨P, hP, hv⟩ := hp id path hid hroot
    refine ⟨P, home?_seat (by simp [hpath]) _ _ hP, ?_⟩
    rw [values_seat _ _ _ hi]
    exact hv

theorem found (hp : g.Placed) (hi : g.Indexed) {spec : NodeSpec} {path : Path}
    (hpath : spec.path = some path) (hfree : g.lookup path = none)
    (hhome : g.home? path = some parent)
    (hlive : g.contains parent = true) (lifetime : Lifetime) (package : Bool) :
    (g.found spec lifetime package parent).Placed := by
  have e := frame_found g spec lifetime package parent
  have hfree' (q : Path) (hq : spec.path = some q) : g.lookup q = none := by
    obtain rfl : path = q := Option.some.inj (hpath.symm.trans hq)
    exact hfree
  have hne : ¬("package" = "children") := by decide
  intro id q hid hroot
  rw [path?_congr e, path?_seat _ _ _ hi] at hid
  rw [home?_congr e, values_found hi hlive, if_neg fun h => hne h.2]
  split at hid
  · rename_i hnew
    obtain rfl : path = q := Option.some.inj (hpath.symm.trans hid)
    exact ⟨parent, home?_seat hfree' _ _ hhome, if_pos ⟨hnew, rfl⟩⟩
  · rename_i hold
    obtain ⟨P, hP, hv⟩ := hp id q hid hroot
    exact ⟨P, home?_seat hfree' _ _ hP, by rw [if_neg fun h => hold h.1, hv]⟩

theorem remains (hp : g.Placed) (hi : g.Indexed) (hc : g'.Coherent) (hr : Remains g g') :
    g'.Placed := by
  intro id path hid hroot
  have hlive := contains_of_path? hid
  rw [path?_of_bare (hr.bare id hlive)] at hid
  obtain ⟨P, hP, hv⟩ := hp id path hid hroot
  have hv' : g'.values id "package" = [P] := by
    rw [hr.values id "package" hlive (by decide), hv]
  have hPlive : g'.contains P = true := hc.value_live id "package" P (by simp [hv'])
  refine ⟨P, ?_, hv'⟩
  unfold home? at hP ⊢
  cases hq : path.package with
  | none => simpa [hq] using hP
  | some q =>
    simp only [hq, Option.elim_some] at hP ⊢
    rw [hc.lookup_iff, path?_of_bare (hr.bare P hPlive)]
    exact (hi.lookup_iff q P).1 hP

end Placed

theorem Edit.placed (hu : g.Upheld)
    (h : Edit (fun p => p ≠ "package" ∧ p ≠ "children") g g') (hp : g.Placed) : g'.Placed := by
  cases h with
  | declare p =>
    unfold Graph.declareBackReference
    split <;> exact hp
  | link hW hid _ => exact hp.link hid hW.1
  | unlink hW hmem => exact hp.unlink (contains_of_mem_values hmem) hW.1
  | purge hW => exact hp.purge _ hW.1
  | seat hpath _ => exact hp.seat hu.toIndexed hpath _
  | found _ _ hpath hfree hhome hparent =>
    exact hp.found hu.toIndexed hpath hfree hhome (hu.isPackage_live hparent) _ _
  | remove hc hr => exact hp.remains hu.toIndexed hc hr

def isPlaced (g : Graph) : Bool :=
  g.ids.all fun id => id == root ||
    (g.path? id).all fun path => (g.home? path).any fun P => g.values id "package" == [P]

theorem placed_initial : initial.Placed := by
  have hall : initial.isPlaced = true := by
    rw [spelledOut.2]
    decide +kernel
  intro id path hpath hroot
  have hid : id ∈ initial.ids := by
    have hlive := contains_of_path? hpath
    exact List.mem_filter.2 ⟨List.mem_range.2 (lt_size_of_contains hlive), hlive⟩
  have := List.all_eq_true.1 hall id hid
  simp only [Bool.or_eq_true, beq_iff_eq, hroot, false_or, hpath, Option.all_some] at this
  obtain ⟨P, hP, hv⟩ := (Option.any_eq_true _ _).1 this
  exact ⟨P, hP, by simpa using hv⟩

end Graph

theorem Reachable.placed {g : Graph} (h : Reachable g) : g.Placed := by
  induction h with
  | initial => exact Graph.placed_initial
  | step r hg hm hr ih =>
    exact (Request.edits hg.attained.upheld hm (fun _ _ _ => by decide) hr).keeps
      (fun _ _ hu he => he.placed hu) ih

namespace Graph

/-- The packages form a tree along the paths. -/
structure PackageTree (g : Graph) : Prop where
  package_eq : ∀ id path, g.path? id = some path → id ≠ root →
    ∃ P, g.values id "package" = [P] ∧ g.isPackage P = true ∧ g.home? path = some P ∧
      (g.children P).count id = 1
  package_of_child : ∀ P m, m ∈ g.children P → g.values m "package" = [P]
  implicit_filled : ∀ P, g.lifetime? P = some .implicit → g.children P ≠ []
  leads_to_root : ∀ id path, g.path? id = some path →
    Relation.ReflTransGen (fun a b => g.packageOf? a = some b) id root

theorem Placed.leads_to_root {g : Graph} (hp : g.Placed) (hi : g.Indexed)
    {id : NodeId} {path : Path} (hpath : g.path? id = some path) :
    Relation.ReflTransGen (fun a b => g.packageOf? a = some b) id root := by
  induction hn : path.chars.length using Nat.strong_induction_on generalizing id path with
  | _ n ih =>
    by_cases hroot : id = root
    · exact hroot ▸ .refl
    · obtain ⟨P, hP, hv⟩ := hp id path hpath hroot
      have hstep : g.packageOf? id = some P := by simp [packageOf?, value?, hv]
      unfold home? at hP
      cases hq : path.package with
      | none =>
        simp only [hq, Option.elim_none, Option.some.injEq] at hP
        exact hP ▸ .single hstep
      | some q =>
        simp only [hq, Option.elim_some] at hP
        exact .head hstep (ih _ (hn ▸ Path.length_package hq) ((hi.lookup_iff q P).1 hP) rfl)

/-- If callers leave `package` and `children` to the store, the packages form a tree along the
paths after every row of requests. -/
theorem packageTree_of_reachable {g : Graph} (h : Reachable g) : g.PackageTree := by
  have hs := h.stocked
  refine ⟨fun id path hpath hroot => ?_, hs.package_of_child, fun P hP => ?_,
    fun id path hpath => h.placed.leads_to_root hs.toIndexed hpath⟩
  · obtain ⟨P, hP, hv⟩ := h.placed id path hpath hroot
    have hchild : id ∈ g.children P := hs.child_of_package id P (by simp [hv])
    exact ⟨P, hv, hs.parent_isPackage P id hchild, hP,
      List.count_eq_one_of_mem (hs.children_nodup P) hchild⟩
  · exact hs.filled P hP

def sharedPackages : List Request :=
  [.createPersistent "s" { path := some (.ofValid "a::b::X".toList (by decide)) },
    .createPersistent "t" { path := some (.ofValid "a::Y".toList (by decide)) }, .removeNodes [42],
    .createPersistent "t" { path := some (.ofValid "a::b::c::Z".toList (by decide)) }]

theorem packageTree_of_sharedPackages : ∃ g, Request.runAll initial sharedPackages = .ok g ∧
    Reachable g ∧ g.PackageTree ∧ g.children 40 = [43, 41] ∧ g.children 41 = [42] ∧
      g.children 42 = [44] := by
  obtain ⟨g, hg, hkids⟩ := exists_run sharedPackages
    (P := fun g => g.children 40 = [43, 41] ∧ g.children 41 = [42] ∧ g.children 42 = [44])
    (by decide +kernel)
  have hreach : Reachable g := Reachable.initial.runAll (by decide) hg
  exact ⟨g, hg, hreach, packageTree_of_reachable hreach, hkids⟩

end Graph

end ModelCompiler
