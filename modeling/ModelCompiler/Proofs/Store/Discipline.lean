import ModelCompiler.Proofs.Store.Exact

/-!
What a stamp tells. No request both creates nodes and removes them, and whatever writes to a forward
property of a node or of one of its parts renews the stamp of the node. Main statement: a node that
has the same stamp at two moments of a run was there all the time, with the same forward properties,
and so were those of its parts that lived on.
-/
open ModelCompiler.Action ModelCompiler.Graph

namespace ModelCompiler

namespace Graph

variable {g g' h k : Graph} {id value : NodeId} {p : String}

/-- What a step leaves to the nodes that live before and after it: they are the same nodes, and
under an old stamp of their own or of their owner they have the same forward values. -/
structure Sustains (g g' : Graph) : Prop where
  backReferences : g'.backReferences = g.backReferences
  bare : ∀ j, g.contains j = true → g'.contains j = true →
    (g'.node? j).map Node.bare = (g.node? j).map Node.bare
  forward : ∀ j s, g'.stamp? j = some s → s < g.nextStamp → ∀ e, g.Touches e j →
    g.contains e = true → g'.contains e = true → ∀ q, g.isBackReference q = false →
    g'.values e q = g.values e q
  stamps : Restamps g g'

/-- A step that removes nothing. -/
structure Augments (g g' : Graph) : Prop extends Sustains g g' where
  contains : ∀ j, g.contains j = true → g'.contains j = true

theorem contains_of_stamp? {s : ℕ} (hs : g.stamp? id = some s) : g.contains id = true := by
  obtain ⟨n, hn, -⟩ := Option.map_eq_some_iff.1 hs
  exact contains_iff.2 ⟨n, hn⟩

theorem touches_congr (hl : g'.lifetime? id = g.lifetime? id) (j : NodeId) :
    g'.Touches id j ↔ g.Touches id j := by
  rw [Touches, Touches, hl]

namespace Augments

theorem refl (g : Graph) : Augments g g :=
  ⟨⟨rfl, fun _ _ _ => rfl, fun _ _ _ _ _ _ _ _ _ _ => rfl, .refl g⟩, fun _ hj => hj⟩

theorem trans (a : Augments g h) (b : Augments h k) : Augments g k where
  backReferences := b.backReferences.trans a.backReferences
  contains j hj := b.contains j (a.contains j hj)
  bare j hj hj' := (b.bare j (a.contains j hj) hj').trans (a.bare j hj (a.contains j hj))
  stamps := a.stamps.trans b.stamps
  forward j s hs hlt e ht he he' q hq := by
    have hlt' := hlt.trans_le a.stamps.next
    have hmid := a.contains e he
    have ht' := (touches_congr (lifetime?_of_bare (a.bare e he hmid)) j).2 ht
    have hq' : h.isBackReference q = false := by rwa [isBackReference, a.backReferences]
    rw [b.forward j s hs hlt' e ht' hmid he' q hq']
    exact a.forward j s (b.stamps.still j s hs hlt') hlt e ht he hmid q hq

/-- A write to one property. If it is a forward one, what the write touches has a new stamp. -/
theorem of_write (id : NodeId) (p : String) (e : g'.frame = g.frame) (hs : Restamps g g')
    (hvalues : ∀ j q, ¬ (j = id ∧ q = p) → g'.values j q = g.values j q)
    (htouch : g.isBackReference p = false → ∀ j s, g'.stamp? j = some s → s < g.nextStamp →
      ¬ g.Touches id j) : Augments g g' where
  backReferences := backReferences_congr e
  contains j hj := by rwa [contains_congr e]
  bare j _ _ := by rw [← node?_frame, e, node?_frame]
  stamps := hs
  forward j s hj hlt m ht _ _ q hq := by
    refine hvalues m q ?_
    rintro ⟨rfl, rfl⟩
    exact htouch hq j s hj hlt ht

theorem not_touches_written {f : Node → Node} (hb : ∀ n, (f n).bare = n.bare) {usages : List Usage}
    (hp : g.isBackReference p = false) (j : NodeId) (s : Nat)
    (hs : (g.written id p f usages).stamp? j = some s) (hlt : s < g.nextStamp) :
    ¬ g.Touches id j := by
  have e : ({ g.modifyNode id f with usages := usages } : Graph).frame = g.frame :=
    frame_modifyNode g id f hb
  rw [← touches_congr (lifetime?_congr e id) j]
  exact not_touches_of_stamp? _ id p ((isBackReference_congr e p).trans hp) hs hlt

theorem link (hid : g.contains id = true) (p : String) (value : NodeId) :
    Augments g (g.link id p value) :=
  .of_write id p (frame_link _ _ _ _) (restamps_link _ _ _ _)
    (fun j q hne => by rw [values_link hid, if_neg hne])
    fun hp => by
      rw [link_eq_written]
      refine not_touches_written ?_ hp
      exact fun _ => rfl

theorem unlink (hid : g.contains id = true) : Augments g (g.unlink id p value) :=
  .of_write id p (frame_unlink _ _ _ _) (restamps_unlink _ _ _ _)
    (fun j q hne => by rw [values_unlink hid, if_neg hne])
    fun hp => by
      rw [unlink_eq_written]
      refine not_touches_written ?_ hp
      exact fun _ => rfl

theorem purge (g : Graph) (id : NodeId) (p : String) : Augments g (g.purge id p) := by
  by_cases hc : (g.propertiesOf id).contains p = true
  · exact .of_write id p (frame_purge _ _ _) (restamps_purge _ _ _)
      (fun j q hne => by rw [values_purge, if_neg hne])
      fun hp => by
        rw [purge_eq_written _ _ _ hc]
        refine not_touches_written ?_ hp
        exact fun _ => rfl
  · rw [Graph.purge, if_neg hc]
    exact .refl g

variable {spec : NodeSpec} {lifetime : Lifetime} {package : Bool} {parent : NodeId}

theorem seat (hi : g.Indexed) : Augments g (g.seat spec lifetime package) where
  backReferences := rfl
  contains j hj := contains_seat_of_contains _ _ _ hi hj
  bare j hj _ := by rw [node?_seat _ _ _ hi, if_neg (hi.ne_fresh hj)]
  stamps := restamps_seat hi _ _ _
  forward _ _ _ _ e _ _ _ q _ := values_seat _ _ _ hi e q

theorem found (hi : g.Indexed) (hp : g.contains parent = true) :
    Augments g (g.found spec lifetime package parent) := by
  have hnew : (g.seat spec lifetime package).contains g.fresh = true := by
    simp [contains_seat _ _ _ hi]
  refine ((seat hi).trans (link hnew "package" parent)).trans (link ?_ "children" g.fresh)
  rw [contains_congr (frame_link _ _ _ _)]
  exact contains_seat_of_contains _ _ _ hi hp

theorem founded {package : NodeId} (hu : g.Upheld) (hl : lifetime.isShared = true)
    (hf : Founded lifetime g h package) : Augments g h := by
  induction hf with
  | refl => exact .refl g
  | step hf _ ih =>
    have hk := (hf.gains hl hu).upheld
    exact ih.trans (.found hk.toIndexed (hk.isPackage_live hf.isPackage))

theorem established {path : Path} (hu : g.Upheld)
    (he : Established g spec path lifetime id g') : Augments g g' := by
  obtain ⟨k, parent, hf, -, -, -, rfl⟩ := he.founded
  have hshared := isShared_around lifetime
  have hk := (hf.gains hshared hu).upheld
  exact (founded hu hshared hf).trans (.found hk.toIndexed (hk.isPackage_live hf.isPackage))

theorem createBootstrap (hu : g.Upheld) (spec : NodeSpec) :
    Ensures (createBootstrap spec) g (fun id h => Augments g h ∧ h.contains id = true)
      fun _ h => h = g := by
  have hgains := (hu.createBootstrap spec).and (createBootstrap_ensures hu.root_isPackage)
  refine hgains.mono (fun id h hh => ?_) fun _ _ he => he.1
  obtain ⟨⟨-, hid⟩, path, -, he⟩ := hh
  exact ⟨.established hu he, hid⟩

theorem declareClassifier (hu : g.Upheld) (path : Path) (generals : List NodeId) :
    Ensures (declareClassifier path generals) g (fun _ h => Augments g h) fun _ h => h = g :=
  declareClassifier_ensures hu.toIndexed (fun _ => rfl)
    (fun _ _ => (createBootstrap hu _).imp fun _ _ hk => ⟨hk.1, hk.2, hk.1.contains⟩)
    fun _ _ i _ ht hid _ => ht.trans (.link hid _ i)

end Augments

theorem Remains.sustains (hr : Remains g g') (hb : g.isBackReference "children" = true) :
    Sustains g g' where
  backReferences := hr.backReferences
  bare j _ hj := hr.bare j hj
  stamps := hr.stamps
  forward _ _ _ _ e _ _ he q hq := hr.values e q he fun hchildren => by simp_all

theorem not_contains_of_removeNodes {ids gone : List NodeId} {m : NodeId}
    (h : removeNodes ids g = .ok (.ok gone, g')) (hm : m ∈ gone) : g'.contains m = false := by
  obtain ⟨e, he, -⟩ | ⟨order, gone, -, he, hx⟩ := removeNodes_cases h
  · simp at he
  · obtain rfl := Except.ok.inj he
    obtain ⟨packages, k, pruned, -, hp, -, rfl⟩ := extract_cases hx
    have hd := pruneAll_depletes _ hp
    rcases List.mem_append.1 hm with hm | hm
    · by_contra hlive
      have := hd.kept m (by simpa using hlive)
      simp [contains_foldl_evict, hm] at this
    · exact (hd.taken m hm).2

end Graph

theorem Request.augments_or_remains {g g' : Graph} (hu : g.Upheld) {r : Request}
    (h : r.run g = .ok g') :
    (∃ p, r = .declareBackReference p) ∨ Augments g g' ∨ Remains g g' := by
  have hsame {k : Graph} (hk : k = g) : Augments g k := hk ▸ .refl g
  cases r with
  | declareBackReference p => exact .inl ⟨p, rfl⟩
  | createBootstrap spec =>
    exact .inr (.inl ((Augments.createBootstrap hu spec).ends (fun _ _ hq => hq.1)
      (fun _ _ => hsame) h))
  | createPersistent source spec =>
    refine .inr (.inl ((createPersistent_ensures hu.root_isPackage source).ends
      (fun id k hk => ?_) (fun _ _ he => hsame he.1) h))
    rcases hk with ⟨path, -, he⟩ | ⟨-, -, -, rfl⟩
    · exact .established hu he
    · exact .seat hu.toIndexed
  | createEphemeral owner spec =>
    refine .inr (.inl ((createEphemeral_ensures owner).ends (fun id k hk => ?_)
      (fun _ _ he => hsame he.1) h))
    obtain ⟨_, -, -, -, -, rfl⟩ := hk
    exact .seat hu.toIndexed
  | declareClassifier path generals =>
    exact .inr (.inl ((Augments.declareClassifier hu path generals).ends (fun _ _ hq => hq)
      (fun _ _ => hsame) h))
  | addValue id p v =>
    obtain ⟨hid, -, rfl⟩ := addValue_cases h
    exact .inr (.inl (.link hid p v))
  | setValues id p vs =>
    exact .inr (.inl (setValues_keeps (Augments.purge g id p)
      (fun _ v hk hid _ => hk.trans (.link hid p v)) h))
  | removeValue id p v =>
    obtain ⟨b, hr⟩ := exists_of_map_snd_ok h
    obtain ⟨hid, rfl | ⟨-, rfl⟩⟩ := removeValue_cases hr
    · exact .inr (.inl (.refl g'))
    · exact .inr (.inl (.unlink hid))
  | clearProperty id p =>
    obtain ⟨old, hc⟩ := exists_of_map_snd_ok h
    obtain rfl := eq_purge_of_clearProperty hc
    exact .inr (.inl (.purge g id p))
  | removeNodes ids =>
    obtain ⟨out, hr⟩ := exists_of_map_snd_ok h
    exact .inr (.inr (removeNodes_remains hu.toCoherent hr).2)

theorem Request.backReferences_eq {g g' : Graph} (hu : g.Upheld) {r : Request}
    (hr : ∀ p, r ≠ .declareBackReference p) (h : r.run g = .ok g') :
    g'.backReferences = g.backReferences := by
  obtain ⟨p, rfl⟩ | hg | hg := augments_or_remains hu h
  · exact absurd rfl (hr p)
  · exact hg.backReferences
  · exact hg.backReferences

theorem Request.sustains {g g' : Graph} (hg : Attained g) {r : Request} (h : r.run g = .ok g')
    (hb : g'.backReferences = g.backReferences) : Sustains g g' := by
  obtain ⟨p, rfl⟩ | haugments | hremains := augments_or_remains hg.upheld h
  · obtain rfl := Except.ok.inj h
    unfold Graph.declareBackReference at hb ⊢
    split at hb
    · rename_i hp
      rw [if_pos hp]
      exact (Augments.refl g).1
    · simp at hb
  · exact haugments.1
  · exact hremains.sustains hg.children_back

/-- A run of `n` requests: the graphs before and after each of them. The back-references are the
same all the time. -/
structure Run (n : ℕ) (state : ℕ → Graph) : Prop where
  start : Attained (state 0)
  step : ∀ i < n, ∃ r : Request, r.run (state i) = .ok (state (i + 1))
  fixed : ∀ i < n, (state (i + 1)).backReferences = (state i).backReferences

def Graph.SameForward (g k : Graph) (id : NodeId) : Prop :=
  ∀ p, g.isBackReference p = false → (k.propertiesOf id).find? p = (g.propertiesOf id).find? p

theorem Graph.SameForward.of_values {g k : Graph} (hg : g.Mirrored) (hk : k.Mirrored) {id : NodeId}
    (h : ∀ p, g.isBackReference p = false → k.values id p = g.values id p) :
    SameForward g k id := by
  intro p hp
  have hvalues := h p hp
  rw [values_eq, values_eq, Table.values, Table.values] at hvalues
  cases hkp : (k.propertiesOf id).find? p with
  | none =>
    cases hgp : (g.propertiesOf id).find? p with
    | none => rfl
    | some vs => exact absurd (by simpa [hkp, hgp] using hvalues.symm) (hg.ne_nil id p vs hgp)
  | some ws =>
    cases hgp : (g.propertiesOf id).find? p with
    | none => exact absurd (by simpa [hkp, hgp] using hvalues) (hk.ne_nil id p ws hkp)
    | some vs => simpa [hkp, hgp] using hvalues

namespace Run

variable {n i j m s : ℕ} {state : ℕ → Graph} {id e : NodeId} (hrun : Run n state)
include hrun

theorem attained (hi : i ≤ n) : Attained (state i) := by
  induction i with
  | zero => exact hrun.start
  | succ i ih =>
    obtain ⟨r, hr⟩ := hrun.step i hi
    exact .step r (ih (Nat.le_of_succ_le hi)) hr

theorem sustains (hi : i < n) : Sustains (state i) (state (i + 1)) := by
  obtain ⟨r, hr⟩ := hrun.step i hi
  exact Request.sustains (hrun.attained hi.le) hr (hrun.fixed i hi)

theorem restamps (hij : i ≤ j) (hj : j ≤ n) : Restamps (state i) (state j) := by
  induction j, hij using Nat.le_induction with
  | base => exact .refl _
  | succ j _ ih => exact (ih (Nat.le_of_succ_le hj)).trans (hrun.sustains hj).stamps

/-- A stamp that is there at the end and was given out before the beginning was there all the
time. -/
theorem stamp?_between (hi : (state i).stamp? id = some s) (hs : (state j).stamp? id = some s)
    (him : i ≤ m) (hmj : m ≤ j) (hj : j ≤ n) : (state m).stamp? id = some s := by
  have hissued := (hrun.attained ((him.trans hmj).trans hj)).upheld.issued id s hi
  have hnext := (hrun.restamps him (hmj.trans hj)).next
  exact (hrun.restamps hmj hj).still id s hs (hissued.trans_le hnext)

theorem values_between (hij : i ≤ j) (hj : j ≤ n)
    (hs : ∀ m, i ≤ m → m ≤ j → (state m).stamp? id = some s)
    (hlive : ∀ m, i ≤ m → m ≤ j → (state m).contains e = true) (ht : (state i).Touches e id) :
    (state j).backReferences = (state i).backReferences ∧
    (state j).lifetime? e = (state i).lifetime? e ∧
    ∀ p, (state i).isBackReference p = false → (state j).values e p = (state i).values e p := by
  induction j, hij using Nat.le_induction with
  | base => exact ⟨rfl, rfl, fun _ _ => rfl⟩
  | succ j hij ih =>
    obtain ⟨hback, hlife, hvalues⟩ := ih (Nat.le_of_succ_le hj)
      (fun m him hmj => hs m him (Nat.le_succ_of_le hmj))
      fun m him hmj => hlive m him (Nat.le_succ_of_le hmj)
    have hstep := hrun.sustains hj
    have hbefore := hlive j hij (Nat.le_succ j)
    have hafter := hlive (j + 1) (Nat.le_succ_of_le hij) le_rfl
    have hissued := (hrun.attained (Nat.le_of_succ_le hj)).upheld.issued id s
      (hs j hij (Nat.le_succ j))
    refine ⟨hstep.backReferences.trans hback,
      (lifetime?_of_bare (hstep.bare e hbefore hafter)).trans hlife, fun p hp => ?_⟩
    rw [hstep.forward id s (hs (j + 1) (Nat.le_succ_of_le hij) le_rfl) hissued e
      ((touches_congr hlife id).2 ht) hbefore hafter p (by rwa [isBackReference, hback])]
    exact hvalues p hp

theorem sameForward (hij : i ≤ j) (hj : j ≤ n)
    (hs : ∀ m, i ≤ m → m ≤ j → (state m).stamp? id = some s)
    (hlive : ∀ m, i ≤ m → m ≤ j → (state m).contains e = true) (ht : (state i).Touches e id) :
    SameForward (state i) (state j) e :=
  .of_values (hrun.attained (hij.trans hj)).upheld.toMirrored (hrun.attained hj).upheld.toMirrored
    (hrun.values_between hij hj hs hlive ht).2.2

/-- All stamps were given out. A node with the same stamp at two moments had it all the time in
between, no removal took it, and its forward properties are the same; so are those of each of its
parts that lived all the time. -/
theorem unchanged_of_same_stamp : (∀ i ≤ n, (state i).Issued) ∧
    ∀ i j id s, i ≤ j → j ≤ n → (state i).stamp? id = some s → (state j).stamp? id = some s →
      (∀ m, i ≤ m → m ≤ j → (state m).stamp? id = some s) ∧
      (∀ m, i ≤ m → m < j → ∀ ids gone,
        removeNodes ids (state m) = .ok (.ok gone, state (m + 1)) → id ∉ gone) ∧
      SameForward (state i) (state j) id ∧
      ∀ e, (state i).lifetime? e = some (.ephemeral id) →
        (∀ m, i ≤ m → m ≤ j → (state m).contains e = true) → SameForward (state i) (state j) e := by
  refine ⟨fun i hi => (hrun.attained hi).upheld.issued, fun i j id s hij hj hfirst hlast => ?_⟩
  have hs (m : ℕ) (him : i ≤ m) (hmj : m ≤ j) : (state m).stamp? id = some s :=
    hrun.stamp?_between hfirst hlast him hmj hj
  have hlive (m : ℕ) (him : i ≤ m) (hmj : m ≤ j) : (state m).contains id = true :=
    contains_of_stamp? (hs m him hmj)
  refine ⟨hs, fun m him hmj ids gone hgone hid => ?_, hrun.sameForward hij hj hs hlive (.inl rfl),
    fun e hl hlive' => hrun.sameForward hij hj hs hlive' (.inr hl)⟩
  have := not_contains_of_removeNodes hgone hid
  simp [hlive (m + 1) (Nat.le_succ_of_le him) hmj] at this

end Run

theorem Run.of_runAll {requests : List Request} {g k : Graph} (hg : Attained g)
    (hk : Request.runAll g requests = .ok k)
    (hplain : ∀ r ∈ requests, ∀ p, r ≠ .declareBackReference p) :
    ∃ state, Run requests.length state ∧ state 0 = g ∧ state requests.length = k := by
  have hstate (i : ℕ) : ∃ h, Request.runAll g (requests.take i) = .ok h := by
    rw [← List.take_append_drop i requests, Request.runAll, List.foldlM_append] at hk
    obtain ⟨h, hh, -⟩ := exists_of_bind_ok hk
    exact ⟨h, hh⟩
  choose state hstate using hstate
  have hzero : state 0 = g := (Except.ok.inj (hstate 0)).symm
  have hstep (i : ℕ) (hi : i < requests.length) :
      requests[i].run (state i) = .ok (state (i + 1)) := by
    have hnext := hstate (i + 1)
    rw [List.take_add_one, List.getElem?_eq_getElem hi, Request.runAll,
      List.foldlM_append] at hnext
    obtain ⟨h, hh, hlast⟩ := exists_of_bind_ok hnext
    obtain rfl := Except.ok.inj ((hstate i).symm.trans hh)
    simpa using hlast
  have hattained (i : ℕ) : Attained (state i) := hg.runAll (hstate i)
  refine ⟨state, ⟨hattained 0, fun i hi => ⟨_, hstep i hi⟩, fun i hi => ?_⟩, hzero, ?_⟩
  · exact Request.backReferences_eq (hattained i).upheld (hplain _ (List.getElem_mem hi))
      (hstep i hi)
  · have hlast := hstate requests.length
    rw [List.take_length, hk] at hlast
    exact (Except.ok.inj hlast).symm

def opening : List Request :=
  [.createPersistent "s" { path := some (.ofValid "deck::A".toList (by decide)) },
    .createPersistent "s" { path := some (.ofValid "deck::B".toList (by decide)) },
    .createEphemeral 41 {}, .addValue 43 "likes" 42]

def interlude : List Request :=
  [.addValue 42 "likes" 41, .createEphemeral 42 {}, .addValue 41 "children" 42, .removeNodes [44],
    .createEphemeral 42 {}, .addValue 44 "likes" 42]

theorem unchanged_of_same_stamp_interlude : ∃ state : ℕ → Graph, Run 6 state ∧
    Request.runAll initial opening = .ok (state 0) ∧
    Request.runAll (state 0) interlude = .ok (state 6) ∧
    (state 0).stamp? 41 = some 108 ∧ (state 6).stamp? 41 = some 108 ∧
    (state 0).lifetime? 43 = some (.ephemeral 41) ∧
    SameForward (state 0) (state 6) 41 ∧ SameForward (state 0) (state 6) 43 := by
  obtain ⟨g, hg, hs, hpart, hlife, hend⟩ := exists_run opening
    (P := fun g => g.stamp? 41 = some 108 ∧ g.stamp? 43 = some 108 ∧
      g.lifetime? 43 = some (.ephemeral 41) ∧ ((Request.runAll g interlude).toOption.any fun k =>
        decide (k.stamp? 41 = some 108 ∧ k.stamp? 43 = some 108)) = true) (by decide +kernel)
  obtain ⟨k, hk, hs', hpart'⟩ := exists_ok_of_any hend
  obtain ⟨state, hrun, rfl, rfl⟩ := Run.of_runAll (Attained.initial.runAll hg) hk
    (by simp [interlude])
  have h := hrun.unchanged_of_same_stamp.2
  obtain ⟨-, -, hsame, hparts⟩ := h 0 6 41 108 (by decide) le_rfl hs hs'
  obtain ⟨hlive, -⟩ := h 0 6 43 108 (by decide) le_rfl hpart hpart'
  exact ⟨state, hrun, hg, hk, hs, hs', hlife, hsame,
    hparts 43 hlife fun m h₀ h₆ => contains_of_stamp? (hlive m h₀ h₆)⟩

end ModelCompiler
