import ModelCompiler.Proofs.Store.Remains
import ModelCompiler.Proofs.Store.Requests
import ModelCompiler.Proofs.Stripping

/-!
Removing sources.
-/
open ModelCompiler.Action

namespace ModelCompiler.Graph

open Handler

/-- The sources that are reached from `base` by following forward references backwards. -/
inductive Dependent (g : Graph) (base : SourceId → Prop) : SourceId → Prop
  | base {s : SourceId} : base s → Dependent g base s
  | user {s t : SourceId} {r u : NodeId} : Dependent g base t → r ∈ g.persistentNodes t →
      u ∈ users g r → g.sourceOf? u = some s → Dependent g base s

/-- How references are used: classifiers are predefined, nodes without a source do not refer to
those of a source, and nodes of a source refer to implicit packages as members only. -/
structure Disciplined (g : Graph) : Prop where
  classifier : ∀ id c, g.classifier? id = some c → g.lifetime? c = some .bootstrap
  sourceless : ∀ u ∈ g.usages, u.isForward = true → g.sourceOf? u.user = none →
    g.sourceOf? u.target = none
  implicit : ∀ u ∈ g.usages, (g.sourceOf? u.user).isSome = true →
    g.lifetime? u.target = some .implicit → u.property = "package"
  owner : ∀ id P, g.lifetime? id = some (.ephemeral P) → g.lifetime? P ≠ some .implicit

section Users

theorem mem_ascending {ids : List NodeId} {id : NodeId} : id ∈ ascending ids ↔ id ∈ ids := by
  simp [ascending]

theorem mem_users_iff {g : Graph} {r u : NodeId} : u ∈ users g r ↔
    u ∉ g.tree r ∧ ∃ e ∈ g.usages, e.isForward = true ∧ e.user = u ∧ e.target ∈ g.tree r ∧
      g.contains e.target = true := by
  simp only [users, mem_ascending, List.mem_map, List.mem_filter, List.mem_flatMap, usagesOf,
    Bool.and_eq_true, decide_eq_true_eq]
  constructor
  · rintro ⟨e, ⟨⟨m, hm, he⟩, hf, hu⟩, rfl⟩
    split at he
    · rename_i hlive
      simp only [List.mem_filter, decide_eq_true_eq] at he
      obtain ⟨he, rfl⟩ := he
      exact ⟨hu, e, he, hf, rfl, hm, hlive⟩
    · simp at he
  · rintro ⟨hu, e, he, hf, rfl, ht, hlive⟩
    exact ⟨e, ⟨⟨e.target, ht, by simp [hlive, he]⟩, hf, hu⟩, rfl⟩

end Users

variable {g g' : Graph}

theorem Sound.strip_all {nodes : List NodeId} : ∀ {g : Graph}, g.Sound →
    (∀ x ∈ nodes, ∃ s, g.lifetime? x = some (.persistent s)) →
    ∃ h, nodes.foldlM stripReferences g = .ok h ∧ Trims g h ∧ h.Sound ∧
      (∀ P, h.children P = g.children P) ∧ ∀ x ∈ nodes, Stripped h x := by
  induction nodes with
  | nil => exact fun {g} hs _ => ⟨g, rfl, .refl g, hs, fun _ => rfl, by simp⟩
  | cons x nodes ih =>
    intro g hs hx
    obtain ⟨s, hxs⟩ := hx x List.mem_cons_self
    obtain ⟨t, hc⟩ := hs.toCoherent.strip x
    have hs' : (g.strip x).Sound := { hc, hs.toHoused.strip hs.toCoherent hxs,
      hs.toFlagged.of_sublist t.usages (backReferences_congr t.frame) with }
    obtain ⟨h, hh, t', hsound, hkids, hrest⟩ := ih hs' fun y hy => by
      rw [lifetime?_congr t.frame]
      exact hx y (List.mem_cons_of_mem _ hy)
    refine ⟨h, ?_, t.trans t', hsound, fun P => ?_, fun y hy => ?_⟩
    · rw [List.foldlM_cons, stripReferences_eq hs.toCoherent (contains_of_lifetime? hxs)]
      exact hh
    · rw [hkids, children, (hs.toHoused.membership_strip hs.toCoherent hxs).2, children]
    · rcases List.mem_cons.1 hy with rfl | hy
      · exact (stripped_strip hs.toCoherent hs.toFlagged y).of_trims t'
      · exact hrest y hy

theorem Disciplined.of_trims (hd : g.Disciplined) (t : Trims g g') : g'.Disciplined where
  classifier id c h := by
    rw [lifetime?_congr t.frame]
    exact hd.classifier id c (classifier?_congr t.frame id ▸ h)
  sourceless u hu hf hn := by
    rw [sourceOf?_congr t.frame] at hn ⊢
    exact hd.sourceless u (t.usages.subset hu) hf hn
  implicit u hu hs hl := by
    rw [lifetime?_congr t.frame] at hl
    rw [sourceOf?_congr t.frame] at hs
    exact hd.implicit u (t.usages.subset hu) hs hl
  owner id P h := by
    rw [lifetime?_congr t.frame] at h ⊢
    exact hd.owner id P h

theorem Goes.congr {owned : NodeId → Prop} (e : g'.frame = g.frame)
    (hkids : ∀ P, g'.children P = g.children P) {m : NodeId} (h : Goes g' owned m) :
    Goes g owned m := by
  induction h with
  | base hb => exact .base hb
  | package hl _ ih => exact .package (lifetime?_congr e _ ▸ hl) fun c hc => ih c (hkids _ ▸ hc)

theorem Trims.users (t : Trims g g') {r u : NodeId} (h : u ∈ Handler.users g' r) :
    u ∈ Handler.users g r := by
  obtain ⟨hn, e, he, hf, hu, ht, hlive⟩ := mem_users_iff.1 h
  rw [tree_congr t.frame] at hn ht
  rw [contains_congr t.frame] at hlive
  exact mem_users_iff.2 ⟨hn, e, t.usages.subset he, hf, hu, ht, hlive⟩

section Detached

variable {base : SourceId → Prop} {ids : List NodeId}
  (hids : ∀ id, id ∈ ids ↔ ∃ s, base s ∧ id ∈ g.persistentNodes s)
include hids

theorem Indexed.inTrees_iff (hi : g.Indexed) {m : NodeId} :
    g.InTrees ids m ↔ ∃ s, base s ∧ g.sourceOf? m = some s := by
  constructor
  · rintro ⟨id, hid, hm⟩
    obtain ⟨s, hs, hp⟩ := (hids id).1 hid
    exact ⟨s, hs, hi.sourceOf?_iff_tree.2 ⟨id, hp, hm⟩⟩
  · rintro ⟨s, hs, hm⟩
    obtain ⟨id, hp, hm⟩ := hi.sourceOf?_iff_tree.1 hm
    exact ⟨id, (hids id).2 ⟨s, hs, hp⟩, hm⟩

theorem Indexed.goes_iff (hi : g.Indexed) {m : NodeId} :
    Goes g (g.InTrees ids) m ↔ Goes g (fun id => ∃ s, base s ∧ g.sourceOf? id = some s) m :=
  ⟨.mono fun _ => (hi.inTrees_iff hids).1, .mono fun _ => (hi.inTrees_iff hids).2⟩

theorem Indexed.not_goes_bootstrap (hi : g.Indexed) {c : NodeId}
    (hc : g.lifetime? c = some .bootstrap) : ¬ Goes g (g.InTrees ids) c := by
  intro h
  cases h with
  | base hb =>
    obtain ⟨s, -, hs⟩ := (hi.inTrees_iff hids).1 hb
    rcases sourceOf?_eq_some_iff.1 hs with h | ⟨o, h, -⟩ <;> simp [hc] at h
  | package hl => simp [hc] at hl

/-- If the nodes of the base are stripped, and so are those of all sources that refer to them, then
only packages refer to the nodes of the base. -/
theorem Sound.holder_of_stripped (hs : g.Sound)
    (hsourceless : ∀ u ∈ g.usages, u.isForward = true → g.sourceOf? u.user = none →
      g.sourceOf? u.target = none)
    (hbase : ∀ s, base s → ∀ x ∈ g.persistentNodes s, Stripped g x)
    (huser : ∀ s, base s → ∀ r ∈ g.persistentNodes s, ∀ u ∈ users g r, ∀ v,
      g.sourceOf? u = some v → ∀ x ∈ g.persistentNodes v, Stripped g x)
    {u : Usage} (hu : u ∈ g.usages) (ht : g.InTrees ids u.target) (hn : ¬ g.InTrees ids u.user) :
    u.property = "children" ∧ g.isPackage u.user = true := by
  by_cases hp : u.property = "children"
  · exact ⟨hp, hs.parent_isPackage u.user u.target
      (by simpa [children, hp] using hs.toCoherent.target_mem_values hu)⟩
  refine absurd ?_ hn
  obtain ⟨r, hr, htree⟩ := ht
  obtain ⟨s, hsb, hrs⟩ := (hids r).1 hr
  by_cases hback : u.back = true
  · exact ⟨r, hr, (hbase s hsb r hrs).back u hu hback hp htree⟩
  -- the user of a forward reference belongs to a source, and that one is stripped
  have hfwd : u.isForward = true := by simp [Usage.isForward, hback]
  have htgt : g.sourceOf? u.target = some s := hs.toIndexed.sourceOf?_iff_tree.2 ⟨r, hrs, htree⟩
  cases hsrc : g.sourceOf? u.user with
  | none => simp [hsourceless u hu hfwd hsrc] at htgt
  | some v =>
    by_cases hv : base v
    · exact (hs.toIndexed.inTrees_iff hids).2 ⟨v, hv, hsrc⟩
    have hvs : s ≠ v := fun h => hv (h ▸ hsb)
    obtain ⟨x, hx, hux⟩ := hs.toIndexed.sourceOf?_iff_tree.1 hsrc
    have hmem : u.user ∈ users g r := by
      refine mem_users_iff.2 ⟨fun h => hvs ?_, u, hu, hfwd, rfl, htree, hs.target_live u hu⟩
      have := hs.toIndexed.sourceOf?_iff_tree.2 ⟨r, hrs, h⟩
      rw [hsrc] at this
      exact (Option.some.inj this).symm
    have hxs : g.sourceOf? x = some v :=
      hs.toIndexed.sourceOf?_iff_tree.2 ⟨x, hx, List.mem_cons_self⟩
    have hnx : u.target ∉ g.tree x := fun h => by
      have := hs.toIndexed.sourceOf?_iff_tree.2 ⟨x, hx, h⟩
      rw [htgt] at this
      exact hvs (Option.some.inj this)
    have := (huser s hsb r hrs _ hmem v hsrc x hx).foreign u hu hux hnx
    simp [isForeign, htgt, hxs, hvs] at this

theorem Sound.removable_of_stripped (hs : g.Sound) (hd : g.Disciplined)
    (hempty : ∀ u ∈ g.usages, g.sourceOf? u.user = none → g.lifetime? u.target = some .implicit →
      Goes g (fun id => ∃ s, base s ∧ g.sourceOf? id = some s) u.target →
      u.property = "package" ∨ u.property = "children")
    (hbase : ∀ s, base s → ∀ x ∈ g.persistentNodes s, Stripped g x)
    (huser : ∀ s, base s → ∀ r ∈ g.persistentNodes s, ∀ u ∈ users g r, ∀ v,
      g.sourceOf? u = some v → ∀ x ∈ g.persistentNodes v, Stripped g x) : Removable g ids := by
  refine ⟨fun id hid => ?_, fun u hu ht hn =>
    hs.holder_of_stripped hids hd.sourceless hbase huser hu ht hn, fun i c hc hgoes => ?_,
    fun u hu hl hgoes => ?_, hd.owner⟩
  · obtain ⟨s, -, hp⟩ := (hids id).1 hid
    exact ⟨_, (hs.persistent_iff s id).1 hp, by simp⟩
  · exact absurd hgoes (hs.toIndexed.not_goes_bootstrap hids (hd.classifier i c hc))
  · cases hsrc : g.sourceOf? u.user with
    | some v => exact .inl (hd.implicit u hu (by simp [hsrc]) hl)
    | none => exact hempty u hu hsrc hl ((hs.toIndexed.goes_iff hids).1 hgoes)

end Detached

theorem Removed.persistentNodes {order pruned ids : List NodeId} {base : SourceId → Prop}
    (hk : Removed g g' order pruned) (ho : Ordered g ids order) (hi : g.Indexed)
    (hids : ∀ id, id ∈ ids ↔ ∃ s, base s ∧ id ∈ g.persistentNodes s) (s : SourceId) :
    (base s → g'.persistentNodes s = []) ∧
      (¬ base s → g'.persistentNodes s = g.persistentNodes s) := by
  rw [hk.persistent]
  constructor
  · intro hs
    simp only [List.filter_eq_nil_iff, decide_eq_true_eq, not_not]
    intro id hid
    exact List.mem_append_left _ ((ho.mem_iff id).2
      ⟨id, (hids id).2 ⟨s, hs, hid⟩, List.mem_cons_self⟩)
  · intro hs
    simp only [List.filter_eq_self, decide_eq_true_eq, List.mem_append]
    rintro id hid (hgone | hgone)
    · obtain ⟨t, ht, hst⟩ := (hi.inTrees_iff hids).1 ((ho.mem_iff id).1 hgone)
      rw [hi.sourceOf?_iff_tree.2 ⟨id, hid, List.mem_cons_self⟩] at hst
      exact hs (Option.some.inj hst ▸ ht)
    · have := hk.implicit id hgone
      simp [(hi.persistent_iff s id).1 hid] at this

section Instances

instance (g : Graph) : Decidable g.Disciplined :=
  decidable_of_iff
    ((∀ id ∈ List.range g.slots.size, ∀ c ∈ g.classifier? id, g.lifetime? c = some .bootstrap) ∧
      (∀ u ∈ g.usages, u.isForward = true → g.sourceOf? u.user = none →
        g.sourceOf? u.target = none) ∧
      (∀ u ∈ g.usages, (g.sourceOf? u.user).isSome = true →
        g.lifetime? u.target = some .implicit → u.property = "package") ∧
      ∀ id ∈ List.range g.slots.size, ∀ n ∈ g.node? id, ∀ P ∈ n.owner,
        g.lifetime? P ≠ some .implicit)
    { mp := fun ⟨hc, hs, hi, ho⟩ =>
        { classifier := fun id c h =>
            hc id (List.mem_range.2 (lt_size_of_contains (contains_of_classifier? h))) c h
          sourceless := hs
          implicit := hi
          owner := fun id P h => by
            obtain ⟨n, hn, hl⟩ := Option.map_eq_some_iff.1 h
            exact ho id (List.mem_range.2 (lt_size_of_contains (contains_of_lifetime? h))) n hn P
              (by simp [Node.owner, hl]) }
      mpr := fun h => ⟨fun id _ c hc => h.classifier id c hc, h.sourceless, h.implicit,
        fun id _ n hn P hP => h.owner id P (by
          rw [Graph.lifetime?, Option.mem_def.1 hn]
          cases hl : n.lifetime <;> simp_all [Node.owner])⟩ }

theorem Dependent.mem_of_closed {base : SourceId → Prop} {S : List SourceId}
    (hbase : ∀ s, base s → s ∈ S)
    (hclosed : ∀ t ∈ S, ∀ r ∈ g.persistentNodes t, ∀ u ∈ users g r, ∀ s ∈ g.sourceOf? u,
      s ∈ S) {s : SourceId} (h : Dependent g base s) : s ∈ S := by
  induction h with
  | base hb => exact hbase _ hb
  | user _ hr hu hs ih => exact hclosed _ ih _ hr _ hu _ hs

end Instances

/-- Once every node of the sources that depend on some sources is stripped, in any order, those
sources are removed without a dangling reference and with a clean audit. A package that is left
empty must not be known to a predefined node otherwise than by membership. -/
theorem removeNodes_after_strip_dependents (hg : Reachable g) (hd : g.Disciplined)
    (base : SourceId → Prop) (nodes ids : List NodeId)
    (hempty : ∀ u ∈ g.usages, g.sourceOf? u.user = none → g.lifetime? u.target = some .implicit →
      Goes g (fun id => ∃ s, base s ∧ g.sourceOf? id = some s) u.target →
      u.property = "package" ∨ u.property = "children")
    (hnodes : ∀ id, id ∈ nodes ↔ ∃ s, Dependent g base s ∧ id ∈ g.persistentNodes s)
    (hids : ∀ id, id ∈ ids ↔ ∃ s, base s ∧ id ∈ g.persistentNodes s) :
    ∃ h gone g', nodes.foldlM stripReferences g = .ok h ∧
      removeNodes ids h = .ok (.ok gone, g') ∧
      ∀ s, (base s → g'.persistentNodes s = []) ∧
        (¬ base s → g'.persistentNodes s = g.persistentNodes s) := by
  have hs := hg.sound
  obtain ⟨h, hstrip, t, hs', hkids, hall⟩ := hs.strip_all fun x hx => by
    obtain ⟨s, -, hp⟩ := (hnodes x).1 hx
    exact ⟨s, (hs.persistent_iff s x).1 hp⟩
  have hids' (id : NodeId) : id ∈ ids ↔ ∃ s, base s ∧ id ∈ h.persistentNodes s := by
    simp only [hids, persistentNodes_congr t.frame]
  have hstripped (s : SourceId) (hdep : Dependent g base s) :
      ∀ x ∈ h.persistentNodes s, Stripped h x := fun x hx =>
    hall x ((hnodes x).2 ⟨s, hdep, by rwa [persistentNodes_congr t.frame] at hx⟩)
  have hr : Removable h ids := by
    refine hs'.removable_of_stripped hids' (hd.of_trims t) (fun u hu hn hl hgoes => ?_)
      (fun s hb => hstripped s (.base hb)) fun s hb r hr u hu v huv => hstripped v ?_
    · rw [sourceOf?_congr t.frame] at hn
      rw [lifetime?_congr t.frame] at hl
      have hgoes' := hgoes.congr t.frame hkids
      simp only [sourceOf?_congr t.frame] at hgoes'
      exact hempty u (t.usages.subset hu) hn hl hgoes'
    · rw [persistentNodes_congr t.frame] at hr
      rw [sourceOf?_congr t.frame] at huv
      exact .user (.base hb) hr (t.users hu) huv
  rcases removeNodes_ensures hs'.toCoherent hs'.toHoused hr with ⟨gone, g', he, order, pruned, rfl,
    ho, hk, -⟩ | ⟨_, _, _, hf⟩
  · refine ⟨h, _, g', hstrip, he, fun s => ?_⟩
    rw [← persistentNodes_congr t.frame]
    exact hk.persistentNodes ho hs'.toIndexed hids' s
  · exact hf.elim

def rowOfSources : List Request :=
  [.declareBackReference "fans",
    .createPersistent "one" { path := some (.ofValid "a::X".toList (by decide)) },
    .createPersistent "two" { path := some (.ofValid "b::Y".toList (by decide)) },
    .createEphemeral 43 { name := some "part" },
    .createPersistent "three" { path := some (.ofValid "c::Z".toList (by decide)) },
    .addValue 44 "likes" 41, .addValue 41 "fans" 44, .addValue 46 "likes" 43]

theorem mindful_rowOfSources : ∀ r ∈ rowOfSources, r.Mindful := by
  simp [rowOfSources, Request.Mindful, Request.property?]

theorem removeNodes_first_of_row : ∃ g h gone g', Request.runAll initial rowOfSources = .ok g ∧
    g.Disciplined ∧ Dependent g (· = "one") "three" ∧
    [46, 41, 43].foldlM stripReferences g = .ok h ∧ removeNodes [41] h = .ok (.ok gone, g') ∧
    g'.persistentNodes "one" = [] ∧ g'.persistentNodes "two" = [43] := by
  obtain ⟨g, hg, hd, hone, htwo, hthree, hu₁, hu₂, hu₃, hs₁, hs₂, hempty⟩ :=
    exists_run rowOfSources
      (P := fun g => g.Disciplined ∧ g.persistentNodes "one" = [41] ∧
        g.persistentNodes "two" = [43] ∧ g.persistentNodes "three" = [46] ∧
        users g 41 = [44] ∧ users g 43 = [46] ∧ users g 46 = [] ∧
        g.sourceOf? 44 = some "two" ∧ g.sourceOf? 46 = some "three" ∧
        ∀ u ∈ g.usages, g.sourceOf? u.user = none → g.lifetime? u.target = some .implicit →
          u.property = "package" ∨ u.property = "children")
      (by decide +kernel)
  have hdep₂ : Dependent g (· = "one") "two" :=
    .user (r := 41) (.base rfl) (by simp [hone]) (by simp [hu₁]) hs₁
  have hdep₃ : Dependent g (· = "one") "three" :=
    .user (r := 43) hdep₂ (by simp [htwo]) (by simp [hu₂]) hs₂
  have hdep (s : SourceId) : Dependent g (· = "one") s ↔ s = "one" ∨ s = "two" ∨ s = "three" := by
    refine ⟨fun h => ?_, ?_⟩
    · have := h.mem_of_closed (S := ["one", "two", "three"]) (by simp)
        (by simp [hone, htwo, hthree, hu₁, hu₂, hu₃, hs₁, hs₂])
      simpa using this
    · rintro (rfl | rfl | rfl)
      exacts [.base rfl, hdep₂, hdep₃]
  have hnodes (id : NodeId) : id ∈ [46, 41, 43] ↔
      ∃ s, Dependent g (· = "one") s ∧ id ∈ g.persistentNodes s := by
    constructor
    · simp only [List.mem_cons, List.not_mem_nil, or_false]
      rintro (rfl | rfl | rfl)
      exacts [⟨_, hdep₃, by simp [hthree]⟩, ⟨_, .base rfl, by simp [hone]⟩,
        ⟨_, hdep₂, by simp [htwo]⟩]
    · rintro ⟨s, hs, hid⟩
      rcases (hdep s).1 hs with rfl | rfl | rfl
      · simp [List.mem_singleton.1 (hone ▸ hid)]
      · simp [List.mem_singleton.1 (htwo ▸ hid)]
      · simp [List.mem_singleton.1 (hthree ▸ hid)]
  obtain ⟨h, gone, g', hstrip, hrem, hleft⟩ := removeNodes_after_strip_dependents
    (Reachable.initial.runAll mindful_rowOfSources hg) hd (· = "one") [46, 41, 43] [41]
    (fun u hu hn hl _ => hempty u hu hn hl)
    hnodes (fun id => by simp [hone])
  exact ⟨g, h, gone, g', hg, hd, hdep₃, hstrip, hrem, (hleft "one").1 rfl,
    ((hleft "two").2 (by decide)).trans htwo⟩

def likedPackage : List Request :=
  [.createPersistent "s" { path := some (.ofValid "a::X".toList (by decide)) },
    .addValue 29 "likes" 40]

theorem mindful_likedPackage : ∀ r ∈ likedPackage, r.Mindful := by
  simp [likedPackage, Request.Mindful, Request.property?]

/-- The liked package is left empty and goes, the reference to it stays, and the audit fails. -/
theorem removeNodes_breaks_with_predefined_user : ∃ g h,
    Request.runAll initial likedPackage = .ok g ∧ Reachable g ∧ g.Disciplined ∧
    (∀ id, id ∈ [41] ↔ ∃ s, Dependent g (· = "s") s ∧ id ∈ g.persistentNodes s) ∧
    (∀ id, id ∈ [41] ↔ ∃ s, s = "s" ∧ id ∈ g.persistentNodes s) ∧
    [41].foldlM stripReferences g = .ok h ∧ ∃ e, removeNodes [41] h = .error e := by
  obtain ⟨g, hg, hd, hs, hu, hbreak⟩ := exists_run likedPackage
    (P := fun g => g.Disciplined ∧ g.persistentNodes "s" = [41] ∧ users g 41 = [] ∧
      (([41].foldlM stripReferences g).toOption.any fun h =>
        decide ((removeNodes [41] h).toOption.isNone = true)) = true)
    (by decide +kernel)
  obtain ⟨h, hstrip, hnone⟩ := exists_ok_of_any hbreak
  have hdep (s : SourceId) : Dependent g (· = "s") s ↔ s = "s" := by
    refine ⟨fun h => ?_, fun h => .base h⟩
    simpa using h.mem_of_closed (S := ["s"]) (by simp) (by simp [hs, hu])
  refine ⟨g, h, hg, Reachable.initial.runAll mindful_likedPackage hg,
    hd, by simp [hdep, hs], by simp [hs], hstrip, ?_⟩
  cases hr : removeNodes [41] h with
  | error e => exact ⟨e, rfl⟩
  | ok a => simp [hr, Except.toOption] at hnone

end ModelCompiler.Graph
