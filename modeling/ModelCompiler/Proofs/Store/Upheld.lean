import ModelCompiler.Proofs.Predefined
import ModelCompiler.Proofs.Store.Remains
import ModelCompiler.Proofs.Store.Requests

/-!
What every request keeps, also one that writes to `package` or `children`: the graph stays coherent,
its root stays in place, and stamps are given out once.
-/
open ModelCompiler.Action ModelCompiler.Graph

namespace ModelCompiler

namespace Graph

/-- The laws of the store that do not depend on what callers write. -/
structure Upheld (g : Graph) : Prop extends Coherent g where
  root_isPackage : g.isPackage root = true
  root_bootstrap : g.lifetime? root = some .bootstrap
  classifier_bootstrap : ∀ c, g.packageClassifier = some c → g.lifetime? c = some .bootstrap
  issued : g.Issued

structure Follows (g g' : Graph) : Prop where
  upheld : g'.Upheld
  ages : g.Tracked → g'.Tracked → Ages g g'

variable {g g' h k : Graph} {id value : NodeId} {p : String}

namespace Upheld

theorem refl_follows (hu : g.Upheld) : Follows g g :=
  ⟨hu, fun _ _ => .refl g⟩

theorem of_frame (hu : g.Upheld) (e : g'.frame = g.frame) (hc : g'.Coherent)
    (hs : Restamps g g') : g'.Upheld :=
  { hc with
    root_isPackage := by
      rw [isPackage_congr e]
      exact hu.root_isPackage
    root_bootstrap := by
      rw [lifetime?_congr e]
      exact hu.root_bootstrap
    classifier_bootstrap := fun c hcl => by
      rw [lifetime?_congr e]
      exact hu.classifier_bootstrap c (packageClassifier_congr e ▸ hcl)
    issued := hs.issued hu.issued }

theorem unlink (hu : g.Upheld) (hmem : value ∈ g.values id p) : Follows g (g.unlink id p value) :=
  ⟨hu.of_frame (frame_unlink g id value p) (hu.toCoherent.unlink hmem) (restamps_unlink _ _ _ _),
    fun ht _ => ht.ages_unlink id value p⟩

theorem purge (hu : g.Upheld) (id : NodeId) (p : String) : Follows g (g.purge id p) :=
  ⟨hu.of_frame (frame_purge g id p) (hu.toCoherent.purge id p) (restamps_purge _ _ _),
    fun ht _ => ht.ages_purge id p⟩

theorem declareBackReference (hu : g.Upheld) (p : String) :
    Follows g (g.declareBackReference p) := by
  unfold Graph.declareBackReference
  split
  · exact hu.refl_follows
  · exact ⟨{ hu with issued := hu.issued }, fun _ _ =>
      ⟨.of_eq rfl fun _ => rfl, fun _ _ _ _ => rfl⟩⟩

theorem removeNodes (hu : g.Upheld) {ids : List NodeId} {r : Except GraphError (List NodeId)}
    (h : Graph.removeNodes ids g = .ok (r, g')) : Follows g g' := by
  obtain ⟨hc, hr⟩ := removeNodes_remains hu.toCoherent h
  have hroot := hr.bootstrap root hu.root_bootstrap
  refine ⟨{ hc with
    root_isPackage := ?_
    root_bootstrap := hroot
    classifier_bootstrap := fun c hcl => ?_
    issued := hr.stamps.issued hu.issued }, fun _ _ => hr.stamps.ages hc.toClosed hr.bare hr.values⟩
  · rw [hr.package root (contains_of_lifetime? hroot)]
    exact hu.root_isPackage
  · exact hr.bootstrap c (hu.classifier_bootstrap c (hr.packageClassifier ▸ hcl))

end Upheld

structure Extended (g g' : Graph) : Prop where
  upheld : g'.Upheld
  frame : g'.frame = g.frame
  values : ∀ j q, ∀ v ∈ g.values j q, v ∈ g'.values j q
  ages : g'.Tracked → Ages g g'

namespace Extended

theorem refl (hu : g.Upheld) : Extended g g :=
  ⟨hu, rfl, fun _ _ _ h => h, fun _ => .refl g⟩

theorem tracked (e : Extended g h) (ht : h.Tracked) : g.Tracked :=
  ht.congr e.frame.symm fun j v hv => e.values j _ v hv

theorem trans (a : Extended g h) (b : Extended h k) : Extended g k where
  upheld := b.upheld
  frame := b.frame.trans a.frame
  values j q v hv := b.values j q v (a.values j q v hv)
  ages ht := (a.ages (b.tracked ht)).trans (b.ages ht)

theorem link (hu : g.Upheld) (hid : g.contains id = true) (hv : g.contains value = true) :
    Extended g (g.link id p value) := by
  have hmem (j : NodeId) (q : String) (v : NodeId) (h : v ∈ g.values j q) :
      v ∈ (g.link id p value).values j q := (mem_values_link hid).2 (.inl h)
  have e := frame_link g id value p
  refine ⟨hu.of_frame e (hu.toCoherent.link hid hv) (restamps_link _ _ _ _), e, hmem, fun ht => ?_⟩
  have hg : g.Tracked := ht.congr e.symm fun j v h => hmem j _ v h
  exact hg.ages_link id value p

theorem addValue (hu : g.Upheld) (h : g.addValue id p value = .ok g') : Extended g g' := by
  obtain ⟨hid, hv, rfl⟩ := addValue_cases h
  exact link hu hid hv

end Extended

theorem Upheld.setValues (hu : g.Upheld) {values : List NodeId}
    (h : g.setValues id p values = .ok g') : Follows g g' := by
  have h₁ := hu.purge id p
  have h₂ : Extended (g.purge id p) g' := setValues_keeps (.refl h₁.upheld)
    (fun _ _ hk hid hv => hk.trans (.link hk.upheld hid hv)) h
  exact ⟨h₂.upheld, fun ht ht' => (h₁.ages ht (h₂.tracked ht')).trans (h₂.ages ht')⟩

structure Gains (g g' : Graph) : Prop where
  upheld : g'.Upheld
  contains : ∀ j, g.contains j = true → g'.contains j = true
  tracked : g.Tracked → g'.Tracked
  ages : g.Tracked → Ages g g'

namespace Gains

theorem refl (hu : g.Upheld) : Gains g g :=
  ⟨hu, fun _ h => h, fun ht => ht, fun _ => .refl g⟩

theorem trans (a : Gains g h) (b : Gains h k) : Gains g k where
  upheld := b.upheld
  contains j hj := b.contains j (a.contains j hj)
  tracked ht := b.tracked (a.tracked ht)
  ages ht := (a.ages ht).trans (b.ages (a.tracked ht))

theorem follows (a : Gains g g') : Follows g g' :=
  ⟨a.upheld, fun ht _ => a.ages ht⟩

variable {spec : NodeSpec} {lifetime : Lifetime} {package : Bool} {parent : NodeId}

theorem seat (hu : g.Upheld) (ha : g.Admissible spec lifetime package) :
    Gains g (g.seat spec lifetime package) := by
  have hi := hu.toIndexed
  have hlife {j : NodeId} {l : Lifetime} (hj : g.lifetime? j = some l) :
      (g.seat spec lifetime package).lifetime? j = some l := by
    rw [lifetime?_seat _ _ _ hi, if_neg (hi.ne_fresh (contains_of_lifetime? hj))]
    exact hj
  refine ⟨{ hu.toCoherent.seat ha with
    root_isPackage := ?_
    root_bootstrap := hlife hu.root_bootstrap
    classifier_bootstrap := fun c hcl => hlife (hu.classifier_bootstrap c hcl)
    issued := (restamps_seat hi spec lifetime package).issued hu.issued },
    fun j hj => contains_seat_of_contains _ _ _ hi hj, fun ht => ht.seat _ _ _ hu.toCoherent,
    fun _ => hu.toCoherent.ages_seat _ _ _⟩
  rw [isPackage_seat, hu.root_isPackage, Bool.or_true]

theorem found (hu : g.Upheld) (ha : g.Admissible spec lifetime package)
    (hp : g.contains parent = true) : Gains g (g.found spec lifetime package parent) := by
  have hs := seat hu ha
  have hnew : (g.seat spec lifetime package).contains g.fresh = true := by
    rw [contains_seat _ _ _ hu.toIndexed]
    simp
  have h₁ := Extended.link (p := "package") hs.upheld hnew (hs.contains parent hp)
  have h₂ := Extended.link (p := "children") h₁.upheld
    (by rw [contains_congr h₁.frame]; exact hs.contains parent hp)
    (by rw [contains_congr h₁.frame]; exact hnew)
  refine ⟨h₂.upheld, fun j hj => ?_, fun ht => ht.found _ _ _ hu.toCoherent hp, fun ht => ?_⟩
  · rw [contains_congr (frame_found _ _ _ _ _)]
    exact hs.contains j hj
  · exact ht.ages_found _ _ _ hu.toCoherent parent

end Gains

section Creation

variable {spec : NodeSpec} {lifetime : Lifetime}

theorem Founded.gains {package : NodeId} (hf : Founded lifetime g h package)
    (hl : lifetime.isShared = true) (hu : g.Upheld) : Gains g h := by
  induction hf with
  | refl => exact .refl hu
  | step hf hpath ih =>
    have hcl (c : NodeId) (hc : _ = some c) :=
      contains_of_lifetime? (ih.upheld.classifier_bootstrap c hc)
    exact ih.trans (.found ih.upheld (admissible_package hcl hl hpath)
      (ih.upheld.isPackage_live hf.isPackage))

theorem Established.gains {path : Path} (he : Established g spec path lifetime id g')
    (hu : g.Upheld) (hl : ∀ o, lifetime ≠ .ephemeral o) (hl' : lifetime ≠ .implicit) :
    Gains g g' ∧ g'.contains id = true := by
  obtain ⟨h, parent, hf, hfree, rfl, hcl, rfl⟩ := he.founded
  have hg := hf.gains (isShared_around lifetime) hu
  have hpath (p : Path) (hp : some path = some p) : h.lookup p = none :=
    Option.some.inj hp ▸ hfree
  have ha : h.Admissible { spec with path := some path } lifetime false :=
    ⟨hpath, fun c hc => hg.contains c (hcl c hc), fun o ho => absurd ho (hl o),
      fun o ho => absurd ho (hl o), by simp, fun e => absurd e hl'⟩
  refine ⟨hg.trans (.found hg.upheld ha (hg.upheld.isPackage_live hf.isPackage)), ?_⟩
  rw [contains_congr (frame_found _ _ _ _ _), contains_seat _ _ _ hg.upheld.toIndexed]
  simp

theorem Upheld.createBootstrap (hu : g.Upheld) (spec : NodeSpec) :
    Ensures (Graph.createBootstrap spec) g (fun id h => Gains g h ∧ h.contains id = true)
      fun _ h => h = g := by
  refine (createBootstrap_ensures hu.root_isPackage).mono (fun id h hk => ?_) fun _ _ he => he.1
  obtain ⟨path, -, he⟩ := hk
  exact he.gains hu (by simp) (by simp)

theorem Upheld.createPersistent (hu : g.Upheld) (source : SourceId) (spec : NodeSpec) :
    Ensures (Graph.createPersistent source spec) g (fun _ h => Gains g h) fun _ h => h = g := by
  refine (createPersistent_ensures hu.root_isPackage source).mono (fun id h hk => ?_)
    fun _ _ he => he.1
  rcases hk with ⟨path, -, he⟩ | ⟨hp, hcl, -, rfl⟩
  · exact (he.gains hu (by simp) (by simp)).1
  · exact .seat hu (admissible_pathless hp source hcl)

theorem Upheld.createEphemeral (hu : g.Upheld) (owner : NodeId) (spec : NodeSpec) :
    Ensures (Graph.createEphemeral owner spec) g (fun _ h => Gains g h) fun _ h => h = g := by
  refine (createEphemeral_ensures owner).mono (fun id h hk => ?_) fun _ _ he => he.1
  obtain ⟨root, hroot, hp, hcl, -, rfl⟩ := hk
  exact .seat hu (hu.toCoherent.admissible_part hroot hp hcl)

theorem Upheld.declareClassifier (hu : g.Upheld) (path : Path) (generals : List NodeId) :
    Ensures (Graph.declareClassifier path generals) g (fun _ h => Follows g h)
      fun _ h => h = g := by
  -- the links come after the element, and both can be tracked back
  refine (declareClassifier_ensures (I := fun _ t => ∃ k, Gains g k ∧ Extended k t)
    (E := fun _ h => h = g) hu.toIndexed (fun _ => rfl) (fun c _ => ?_) fun id t i _ ht hid hi =>
    ?_).imp fun _ t ht => ?_
  · exact (hu.createBootstrap _).imp fun id k hk =>
      ⟨⟨k, hk.1, .refl hk.1.upheld⟩, hk.2, hk.1.contains⟩
  · obtain ⟨k, hk, ht⟩ := ht
    exact ⟨k, hk, ht.trans (.link ht.upheld hid hi)⟩
  · obtain ⟨k, hk, ht⟩ := ht
    exact ⟨ht.upheld, fun hg ht' => (hk.ages hg).trans (ht.ages ht')⟩

end Creation

end Graph

theorem Request.follows {g g' : Graph} (hu : g.Upheld) {r : Request} (h : r.run g = .ok g') :
    Follows g g' := by
  have hsame {k : Graph} (hk : k = g) : Follows g k := hk ▸ hu.refl_follows
  cases r with
  | declareBackReference p => exact Except.ok.inj h ▸ hu.declareBackReference p
  | createBootstrap spec =>
    exact (hu.createBootstrap spec).ends (fun _ _ hq => hq.1.follows) (fun _ _ => hsame) h
  | createPersistent source spec =>
    exact (hu.createPersistent source spec).ends (fun _ _ hq => hq.follows) (fun _ _ => hsame) h
  | createEphemeral owner spec =>
    exact (hu.createEphemeral owner spec).ends (fun _ _ hq => hq.follows) (fun _ _ => hsame) h
  | declareClassifier path generals =>
    exact (hu.declareClassifier path generals).ends (fun _ _ hq => hq) (fun _ _ => hsame) h
  | addValue id p v =>
    have he := Extended.addValue hu h
    exact ⟨he.upheld, fun _ ht => he.ages ht⟩
  | setValues id p vs => exact hu.setValues h
  | removeValue id p v =>
    obtain ⟨b, hr⟩ := exists_of_map_snd_ok h
    obtain ⟨-, rfl | ⟨hmem, rfl⟩⟩ := removeValue_cases hr
    · exact hu.refl_follows
    · exact hu.unlink hmem
  | clearProperty id p =>
    obtain ⟨old, hr⟩ := exists_of_map_snd_ok h
    obtain rfl := eq_purge_of_clearProperty hr
    exact hu.purge id p
  | removeNodes ids =>
    obtain ⟨r, hr⟩ := exists_of_map_snd_ok h
    exact hu.removeNodes hr

/-- Graphs that requests of any kind lead to, starting from the metamodel. -/
inductive Attained : Graph → Prop
  | initial : Attained Graph.initial
  | step {g g' : Graph} (r : Request) : Attained g → r.run g = .ok g' → Attained g'

namespace Attained

theorem upheld {g : Graph} (h : Attained g) : g.Upheld := by
  induction h with
  | initial =>
    have hb := basal_initial
    exact { hb.toCoherent with
      root_isPackage := hb.root_isPackage
      root_bootstrap := hb.root_bootstrap
      classifier_bootstrap := hb.classifier_bootstrap
      issued := issued_of_isMetamodel isMetamodel_initial }
  | step r _ hr ih => exact (Request.follows ih hr).upheld

theorem runAll {requests : List Request} {g g' : Graph} (hg : Attained g)
    (h : Request.runAll g requests = .ok g') : Attained g' :=
  foldlM_keeps (fun r _ _ _ hk => .step r hk) hg h

end Attained

theorem Reachable.attained {g : Graph} (h : Reachable g) : Attained g := by
  induction h with
  | initial => exact .initial
  | step r _ _ hr ih => exact .step r ih hr

namespace Graph

theorem countP_usagesOf {g : Graph} {t : NodeId} (ht : g.contains t = true) (u : NodeId)
    (p : String) :
    (g.usagesOf t).countP (fun x => x.user = u && x.property = p) = g.tally u p t := by
  rw [usagesOf, if_pos ht, tally, List.countP_filter]

/-- Whatever is written, a node has as many usages under a property as the property has occurrences
of it, and the audit finds nothing. -/
theorem usages_mirror_values {g : Graph} (h : Attained g) : g.audit = .ok () ∧
    ∀ t, g.contains t = true → ∀ u p,
      (g.usagesOf t).countP (fun x => x.user = u && x.property = p) = (g.values u p).count t := by
  have hu := h.upheld
  refine ⟨hu.toCoherent.audit_eq_ok, fun t ht u p => ?_⟩
  rw [countP_usagesOf ht, hu.tally_eq u p t ht]

def entangled : List Request :=
  [.createPersistent "s" { path := some (.ofValid "m::A".toList (by decide)) },
    .createPersistent "s" { path := some (.ofValid "m::B".toList (by decide)) },
    .addValue 41 "likes" 41, .addValue 41 "likes" 42, .addValue 41 "likes" 41,
    .setValues 29 "children" [41, 41, 41], .removeValue 29 "children" 41,
    .removeValue 41 "likes" 42, .removeNodes [42], .createEphemeral 41 {}, .addValue 42 "likes" 41]

theorem usages_mirror_values_entangled : ∃ g, Request.runAll initial entangled = .ok g ∧
    Attained g ∧ g.audit = .ok () ∧ g.contains 41 = true ∧
    (g.usagesOf 41).countP (fun x => x.user = 41 && x.property = "likes") = 2 ∧
    (g.usagesOf 41).countP (fun x => x.user = 29 && x.property = "children") = 2 := by
  obtain ⟨g, hg, hlive, hlikes, hkids⟩ := exists_run entangled
    (P := fun g => g.contains 41 = true ∧ g.values 41 "likes" = [41, 41] ∧
      g.values 29 "children" = [41, 41]) (by decide +kernel)
  have ha : Attained g := Attained.initial.runAll hg
  have hm := usages_mirror_values ha
  refine ⟨g, hg, ha, hm.1, hlive, ?_, ?_⟩
  · rw [hm.2 41 hlive, hlikes]
    rfl
  · rw [hm.2 41 hlive, hkids]
    rfl

end Graph

end ModelCompiler
