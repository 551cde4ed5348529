import ModelCompiler.Proofs.Store.Upheld

/-!
The indexes against a log of the store.
-/
open ModelCompiler.Action ModelCompiler.Graph

namespace ModelCompiler

namespace Graph

variable {g g' h : Graph} {id : NodeId}

/-- Members are taken out of packages and nodes are evicted: what a removal is made of. -/
inductive Shrinks (g : Graph) : Graph → Prop
  | refl : Shrinks g g
  | unlink {h : Graph} (P id : NodeId) : Shrinks g h → Shrinks g (h.unlink P "children" id)
  | evict {h : Graph} (id : NodeId) : Shrinks g h → Shrinks g (h.evict id)

section Shrinking

variable {k : Graph} {order packages pruned : List NodeId}

theorem Shrinks.evictAll (order : List NodeId) : ∀ {h : Graph}, Shrinks g h →
    Shrinks g (order.foldl Graph.evict h) := by
  induction order with
  | nil => exact fun s => s
  | cons id order ih => exact fun s => ih (s.evict id)

theorem extract_shrinks {gone : List NodeId} (hx : extract order g = .ok (gone, g')) :
    Shrinks g g' := by
  obtain ⟨packages, g₁, pruned, hd, hp, -, -⟩ := extract_cases hx
  have hdetached : Shrinks g g₁ :=
    detachAll_keeps (fun _ P id _ s => .unlink P id s) order .refl hd
  exact pruneAll_keeps (I := fun _ k => Shrinks g k) (l := [])
    (fun _ _ P id _ _ s => .unlink P id s) (fun _ _ P _ s => .evict P s) _
    (hdetached.evictAll order) hp

theorem removeNodes_shrinks {ids : List NodeId} {r : Except GraphError (List NodeId)}
    (hr : removeNodes ids g = .ok (r, g')) : Shrinks g g' := by
  obtain ⟨e, -, rfl⟩ | ⟨order, gone, -, -, hx⟩ := removeNodes_cases hr
  · exact .refl
  · exact extract_shrinks hx

end Shrinking

structure Thinned (g g' : Graph) (gone : List NodeId) : Prop where
  bare : ∀ j, (g'.node? j).map Node.bare = if j ∈ gone then none else (g.node? j).map Node.bare
  package : ∀ j, g'.isPackage j = (g.isPackage j && decide (j ∉ gone))
  persistent : ∀ s, g'.persistentNodes s = (g.persistentNodes s).filter (· ∉ gone)
  owned : ∀ o, g'.ownedBy o = if o ∈ gone then [] else (g.ownedBy o).filter (· ∉ gone)
  named : ∀ name, g'.elementsNamed name = (g.elementsNamed name).filter (· ∉ gone)

theorem Shrinks.thinned (s : Shrinks g g') (hi : g.Indexed) (ht : g.Tabled) :
    g'.Indexed ∧ g'.Tabled ∧ ∃ gone, Thinned g g' gone := by
  induction s with
  | refl => exact ⟨hi, ht, [], by constructor <;> simp⟩
  | @unlink h P id s ih =>
    obtain ⟨hi', ht', gone, hg⟩ := ih
    have e := frame_unlink h P id "children"
    refine ⟨hi'.congr e, ht'.congr e, gone, fun j => ?_, fun j => ?_, fun s => ?_, fun o => ?_,
      fun name => ?_⟩
    · rw [← node?_frame, e, node?_frame, hg.bare]
    · rw [isPackage_congr e, hg.package]
    · rw [persistentNodes_congr e, hg.persistent]
    · rw [ownedBy_congr e, hg.owned]
    · rw [elementsNamed_congr e, hg.named]
  | @evict h id s ih =>
    obtain ⟨hi', ht', gone, hg⟩ := ih
    have hboth (l : List NodeId) :
        (l.filter (· ∉ gone)).filter (· ≠ id) = l.filter (· ∉ gone ++ [id]) := by
      rw [List.filter_filter]
      congr 1
      funext j
      by_cases hj : j = id <;> simp [hj]
    refine ⟨hi'.evict id, ht'.evict hi' id, gone ++ [id], fun j => ?_, fun j => ?_, fun s => ?_,
      fun o => ?_, fun name => ?_⟩
    · rw [node?_evict]
      by_cases hj : j = id
      · simp [hj]
      · rw [if_neg hj, hg.bare]
        simp [hj]
    · rw [isPackage_evict hi', hg.package]
      by_cases hj : j = id <;> simp [hj]
    · rw [hi'.persistentNodes_evict, hg.persistent, hboth]
    · rw [hi'.ownedBy_evict, hg.owned]
      by_cases ho : o = id
      · simp [ho]
      · by_cases hgo : o ∈ gone
        · simp [ho, hgo]
        · rw [if_neg ho, if_neg hgo, if_neg (by simp [ho, hgo]), hboth]
    · rw [ht'.elementsNamed_eq, hg.named, hboth]

theorem Thinned.contains {gone : List NodeId} (t : Thinned g g' gone) (j : NodeId) :
    g'.contains j = (g.contains j && decide (j ∉ gone)) := by
  have hbare := congrArg Option.isSome (t.bare j)
  rw [Option.isSome_map] at hbare
  rw [Graph.contains, hbare]
  by_cases hj : j ∈ gone
  · simp [hj]
  · simp [hj, Graph.contains]

/-- The lists of the store are those of the log. -/
structure Logged (g : Graph) (log : List NodeId) : Prop extends Tabled g where
  nodup : log.Nodup
  mem_iff : ∀ id, id ∈ log ↔ g.contains id = true ∧ g.isPackage id = false
  persistent : ∀ s, g.persistentNodes s =
    log.filter fun id => g.lifetime? id = some (.persistent s)
  owned : ∀ o, g.ownedBy o = log.filter fun id => g.lifetime? id = some (.ephemeral o)
  named_eq : ∀ name, g.elementsNamed name = log.filter fun id => g.title? id = some name

namespace Logged

variable {log log' : List NodeId}

theorem congr (hl : g.Logged log) (e : g'.frame = g.frame) : g'.Logged log where
  toTabled := hl.toTabled.congr e
  nodup := hl.nodup
  mem_iff id := by rw [contains_congr e, isPackage_congr e, hl.mem_iff]
  persistent s := by
    rw [persistentNodes_congr e, hl.persistent]
    simp only [lifetime?_congr e]
  owned o := by
    rw [ownedBy_congr e, hl.owned]
    simp only [lifetime?_congr e]
  named_eq name := by
    rw [elementsNamed_congr e, hl.named_eq]
    simp only [title?_congr e]

theorem filter_seat {α : Type} [DecidableEq α] (hl : g.Logged log) (hi : g.Indexed)
    {f f' : NodeId → Option α} {b : Option α} (h : ∀ j, f' j = if j = g.fresh then b else f j)
    (a : α) : (log.filter fun id => f' id = some a) = log.filter fun id => f id = some a :=
  List.filter_congr fun j hj => by rw [h, if_neg (hi.ne_fresh ((hl.mem_iff j).1 hj).1)]

theorem filter_append_seat {α : Type} [DecidableEq α] (hl : g.Logged log) (hi : g.Indexed)
    {f f' : NodeId → Option α} {b : Option α} (h : ∀ j, f' j = if j = g.fresh then b else f j)
    (a : α) : ((log ++ [g.fresh]).filter fun id => f' id = some a) =
      (log.filter fun id => f id = some a) ++ if b = some a then [g.fresh] else [] := by
  rw [List.filter_append, hl.filter_seat hi h, List.filter_singleton, h, if_pos rfl]
  split <;> simp [*]

theorem seat (hl : g.Logged log) (hi : g.Indexed) (spec : NodeSpec) (lifetime : Lifetime) :
    (g.seat spec lifetime false).Logged (log ++ [g.fresh]) where
  toTabled := hl.toTabled.seat hi spec lifetime false
  nodup := by
    refine hl.nodup.append (List.nodup_singleton _) ?_
    rw [List.disjoint_singleton]
    intro hmem
    exact hi.ne_fresh ((hl.mem_iff _).1 hmem).1 rfl
  mem_iff id := by
    rw [List.mem_append, hl.mem_iff, contains_seat _ _ _ hi, isPackage_seat, List.mem_singleton]
    by_cases hid : id = g.fresh
    · have hno : g.isPackage g.fresh = false := by
        by_contra hpk
        exact hi.ne_fresh (hi.isPackage_live (by simpa using hpk)) rfl
      simp [hid, hno]
    · simp [hid]
  persistent s := by
    rw [persistentNodes_seat, hl.filter_append_seat hi (lifetime?_seat _ _ _ hi), hl.persistent]
    split <;> simp [*]
  owned o := by
    rw [ownedBy_seat, hl.filter_append_seat hi (lifetime?_seat _ _ _ hi), hl.owned]
    split <;> simp [*]
  named_eq name := by
    rw [elementsNamed_seat, hl.filter_append_seat hi (title?_seat hi _ _ _), hl.named_eq]
    split <;> simp_all

theorem seatPackage (hl : g.Logged log) (hi : g.Indexed) (spec : NodeSpec) {lifetime : Lifetime}
    (hshared : lifetime.isShared = true) : (g.seat spec lifetime true).Logged log where
  toTabled := hl.toTabled.seat hi spec lifetime true
  nodup := hl.nodup
  mem_iff id := by
    rw [hl.mem_iff, contains_seat _ _ _ hi, isPackage_seat]
    by_cases hid : id = g.fresh
    · simp [hid, hi.contains_fresh]
    · simp [hid]
  persistent s := by
    have hne : lifetime ≠ .persistent s := by
      rintro rfl
      simp [Lifetime.isShared] at hshared
    rw [persistentNodes_seat, if_neg hne, hl.persistent]
    exact (hl.filter_seat hi (lifetime?_seat _ _ _ hi) _).symm
  owned o := by
    have hne : lifetime ≠ .ephemeral o := by
      rintro rfl
      simp [Lifetime.isShared] at hshared
    rw [ownedBy_seat, if_neg hne, hl.owned]
    exact (hl.filter_seat hi (lifetime?_seat _ _ _ hi) _).symm
  named_eq name := by
    rw [elementsNamed_seat, if_neg (by simp), hl.named_eq]
    exact (hl.filter_seat hi (title?_seat hi _ _ _) name).symm

theorem founded (hl : g.Logged log) (hu : g.Upheld) {lifetime : Lifetime} {P : NodeId}
    (hf : Founded lifetime g h P) (hshared : lifetime.isShared = true) : h.Logged log := by
  induction hf with
  | refl => exact hl
  | step hf hpath ih =>
    exact (ih.seatPackage (hf.gains hshared hu).upheld.toIndexed _ hshared).congr
      (frame_found _ _ _ _ _)

theorem established (hl : g.Logged log) (hu : g.Upheld) {spec : NodeSpec} {path : Path}
    {lifetime : Lifetime} (he : Established g spec path lifetime id g') :
    g'.Logged (log ++ [id]) := by
  obtain ⟨h, parent, hf, -, rfl, -, rfl⟩ := he.founded
  have hshared := isShared_around lifetime
  exact ((hl.founded hu hf hshared).seat (hf.gains hshared hu).upheld.toIndexed _ _).congr
    (frame_found _ _ _ _ _)

theorem thinned (hl : g.Logged log) {gone : List NodeId} (t : Thinned g g' gone)
    (htabled : g'.Tabled) (hc : g'.Closed) : g'.Logged (log.filter (g'.contains ·)) := by
  have hlife {j : NodeId} (hj : j ∉ gone) : g'.lifetime? j = g.lifetime? j :=
    lifetime?_of_bare (by rw [t.bare, if_neg hj])
  have htitle {j : NodeId} (hj : j ∉ gone) : g'.title? j = g.title? j := by
    have hbare : (g'.node? j).map Node.bare = (g.node? j).map Node.bare := by
      rw [t.bare, if_neg hj]
    rw [title?, path?_of_bare hbare, title?]
  have hlog : log.filter (g'.contains ·) = log.filter (· ∉ gone) := by
    refine List.filter_congr fun j hj => ?_
    rw [t.contains, ((hl.mem_iff j).1 hj).1, Bool.true_and]
  have hpart {α : Type} [DecidableEq α] {f f' : NodeId → α}
      (h : ∀ j, j ∉ gone → f' j = f j) (a : α) :
      ((log.filter fun id => f id = a).filter (· ∉ gone)) =
        (log.filter (· ∉ gone)).filter fun id => f' id = a := by
    rw [List.filter_filter, List.filter_filter]
    refine List.filter_congr fun j _ => ?_
    by_cases hj : j ∈ gone
    · simp [hj]
    · simp [hj, h j hj]
  rw [hlog]
  refine ⟨htabled, hl.nodup.filter _, fun id => ?_, fun s => ?_, fun o => ?_, fun name => ?_⟩
  · rw [List.mem_filter, hl.mem_iff, t.contains, t.package]
    by_cases hid : id ∈ gone <;> simp [hid]
  · rw [t.persistent, hl.persistent, hpart fun j hj => hlife hj]
  · rw [t.owned, hl.owned]
    split
    · -- no part of a node that has gone is left
      rename_i ho
      rw [eq_comm, List.filter_eq_nil_iff]
      intro j _ hj
      have hlive := hc.owner_live j o (by simpa using hj)
      simp [t.contains, ho] at hlive
    · exact hpart (fun j hj => hlife hj) _
  · rw [t.named, hl.named_eq, hpart fun j hj => htitle hj]

theorem filter_contains (hl : g.Logged log) (hsub : log' ⊆ log) :
    log'.filter (g.contains ·) = log' := by
  rw [List.filter_eq_self]
  intro j hj
  exact ((hl.mem_iff j).1 (hsub hj)).1

theorem createBootstrap (hl : g.Logged log) (hu : g.Upheld) (spec : NodeSpec) :
    Ensures (Graph.createBootstrap spec) g (fun id h => h.Logged (log ++ [id])) fun _ h =>
      h = g := by
  refine (createBootstrap_ensures hu.root_isPackage).mono (fun id h hk => ?_) fun _ _ he => he.1
  obtain ⟨path, -, he⟩ := hk
  exact hl.established hu he

theorem createPersistent (hl : g.Logged log) (hu : g.Upheld) (source : SourceId) (spec : NodeSpec) :
    Ensures (Graph.createPersistent source spec) g (fun id h => h.Logged (log ++ [id]))
      fun _ h => h = g := by
  refine (createPersistent_ensures hu.root_isPackage source).mono (fun id h hk => ?_)
    fun _ _ he => he.1
  rcases hk with ⟨path, -, he⟩ | ⟨-, -, rfl, rfl⟩
  · exact hl.established hu he
  · exact hl.seat hu.toIndexed spec _

theorem createEphemeral (hl : g.Logged log) (hu : g.Upheld) (owner : NodeId) (spec : NodeSpec) :
    Ensures (Graph.createEphemeral owner spec) g (fun id h => h.Logged (log ++ [id]))
      fun _ h => h = g := by
  refine (createEphemeral_ensures owner).mono (fun id h hk => ?_) fun _ _ he => he.1
  obtain ⟨_, -, -, -, rfl, rfl⟩ := hk
  exact hl.seat hu.toIndexed spec _

theorem declareClassifier (hl : g.Logged log) (hu : g.Upheld) (path : Path)
    (generals : List NodeId) :
    Ensures (Graph.declareClassifier path generals) g (fun id h => h.Logged (log ++ [id]))
      fun _ h => h = g := by
  refine declareClassifier_ensures hu.toIndexed (fun _ => rfl) (fun c _ => ?_)
    fun id k i _ hk _ _ => hk.congr (frame_link k id i _)
  exact ((hu.createBootstrap _).and (hl.createBootstrap hu _)).mono
    (fun id k hk => ⟨hk.2, hk.1.2, hk.1.1.contains⟩) fun _ _ he => he.1

end Logged

end Graph

namespace Request

def answer? {α : Type} : Except Breach (Except GraphError α × Graph) → Option α
  | .ok (.ok a, _) => some a
  | _ => none

def created? (g : Graph) : Request → Option NodeId
  | .createBootstrap spec => answer? (Graph.createBootstrap spec g)
  | .createPersistent source spec => answer? (Graph.createPersistent source spec g)
  | .createEphemeral owner spec => answer? (Graph.createEphemeral owner spec g)
  | .declareClassifier path generals => answer? (Graph.declareClassifier path generals g)
  | _ => none

/-- What a request does to the log: what it has removed is struck, and what it has created comes
last. -/
def logged (g g' : Graph) (r : Request) (log : List NodeId) : List NodeId :=
  log.filter (g'.contains ·) ++ (r.created? g).toList

theorem keeps_logged {g g' : Graph} {log : List NodeId} (hl : g.Logged log) (hu : g.Upheld)
    {r : Request} (h : r.run g = .ok g') : g'.Logged (r.logged g g' log) := by
  have hact {act : Action Graph GraphError NodeId}
      (he : Ensures act g (fun id h => h.Logged (log ++ [id])) fun _ h => h = g)
      (h : (act g).map (·.2) = .ok g') :
      g'.Logged (log.filter (g'.contains ·) ++ (answer? (act g)).toList) := by
    rcases he with ⟨id, t, ht, hq⟩ | ⟨e, t, ht, rfl⟩
    · rw [ht] at h ⊢
      obtain rfl := Except.ok.inj h
      rw [hq.filter_contains (List.subset_append_left _ _)]
      exact hq
    · rw [ht] at h ⊢
      obtain rfl := Except.ok.inj h
      rw [hl.filter_contains (List.Subset.refl _)]
      simpa [answer?] using hl
  have hkeep (hnone : r.created? g = none) (hl' : g'.Logged log) :
      g'.Logged (r.logged g g' log) := by
    rw [logged, hnone, hl'.filter_contains (List.Subset.refl _)]
    simpa using hl'
  cases r with
  | declareBackReference p =>
    refine hkeep rfl ?_
    obtain rfl := Except.ok.inj h
    unfold Graph.declareBackReference
    split
    · exact hl
    · exact { hl with }
  | createBootstrap spec => exact hact (hl.createBootstrap hu spec) h
  | createPersistent source spec => exact hact (hl.createPersistent hu source spec) h
  | createEphemeral owner spec => exact hact (hl.createEphemeral hu owner spec) h
  | declareClassifier path generals => exact hact (hl.declareClassifier hu path generals) h
  | addValue id p v => exact hkeep rfl (hl.congr (Graph.Extended.addValue hu h).frame)
  | setValues id p vs => exact hkeep rfl (hl.congr (frame_setValues h))
  | removeValue id p v =>
    obtain ⟨b, hr⟩ := exists_of_map_snd_ok h
    obtain ⟨-, rfl | ⟨-, rfl⟩⟩ := removeValue_cases hr
    · exact hkeep rfl hl
    · exact hkeep rfl (hl.congr (frame_unlink g id v p))
  | clearProperty id p =>
    obtain ⟨old, hr⟩ := exists_of_map_snd_ok h
    obtain rfl := Graph.eq_purge_of_clearProperty hr
    exact hkeep rfl (hl.congr (frame_purge g id p))
  | removeNodes ids =>
    obtain ⟨out, hr⟩ := exists_of_map_snd_ok h
    obtain ⟨-, htabled, gone, ht⟩ := (removeNodes_shrinks hr).thinned hu.toIndexed hl.toTabled
    have hgone := hl.thinned ht htabled (hu.removeNodes hr).upheld.toClosed
    simpa [logged, created?] using hgone

end Request

namespace Graph

variable {g : Graph} {id : NodeId}

def isCatalogued (g : Graph) : Bool :=
  g.bySource == ∅ && g.owned == ∅ &&
    g.ids.all (fun id => (g.lifetime? id).all (· == .bootstrap)) &&
    g.instances.keys.all (fun c => decide (g.instancesOf c).Nodup) &&
    decide g.byName.keys.Nodup &&
    g.byName.entries.map (·.2) == (g.ids.filter (!g.isPackage ·)).map ([·]) &&
    g.byName.entries.all fun e => e.2.all fun id => g.title? id == some e.1

theorem lookup_eq_filter (f : NodeId → Option String) (name : String) :
    ∀ {es : List (String × List NodeId)} {log : List NodeId}, (es.map (·.1)).Nodup →
      es.map (·.2) = log.map ([·]) → (∀ e ∈ es, ∀ id ∈ e.2, f id = some e.1) →
      (es.lookup name).getD [] = log.filter fun id => f id = some name := by
  intro es
  induction es with
  | nil =>
    intro log _ hlog _
    simp [List.map_eq_nil_iff.1 hlog.symm]
  | cons e es ih =>
    intro log hnodup hlog hf
    obtain _ | ⟨i, log⟩ := log
    · simp at hlog
    · obtain ⟨k, ids⟩ := e
      simp only [List.map_cons, List.cons.injEq] at hlog
      obtain ⟨rfl, hlog⟩ := hlog
      rw [List.map_cons, List.nodup_cons] at hnodup
      have hi : f i = some k := hf _ List.mem_cons_self i (List.mem_singleton_self i)
      have hrest := fun e he => hf e (List.mem_cons_of_mem _ he)
      have hih := ih hnodup.2 hlog hrest
      by_cases hk : name = k
      · -- no other entry has this name, so no other node has it
        subst hk
        have hnone : es.lookup name = none := by
          rw [List.lookup_eq_none_iff]
          intro e he
          simpa using fun h : name = e.1 => hnodup.1 (List.mem_map.2 ⟨e, he, h.symm⟩)
        rw [hnone, Option.getD_none] at hih
        simp [hi, ← hih]
      · rw [Table.lookup_cons_of_ne hk, hih, List.filter_cons_of_neg]
        simpa [hi] using Ne.symm hk

theorem logged_of_isCatalogued (h : g.isCatalogued = true) :
    g.Logged (g.ids.filter (!g.isPackage ·)) := by
  simp only [isCatalogued, Bool.and_eq_true, beq_iff_eq, List.all_eq_true,
    decide_eq_true_eq] at h
  obtain ⟨⟨⟨⟨⟨⟨hsource, howned⟩, hlife⟩, hinst⟩, hkeys⟩, hlists⟩, htitle⟩ := h
  have hbootstrap {id : NodeId} {l : Lifetime} (hid : g.lifetime? id = some l) :
      l = .bootstrap := by
    simpa [hid] using hlife id (mem_ids_iff.2 (contains_of_lifetime? hid))
  have hnamed (name : String) : g.elementsNamed name =
      (g.ids.filter (!g.isPackage ·)).filter fun id => g.title? id = some name :=
    lookup_eq_filter g.title? name hkeys hlists htitle
  refine ⟨⟨fun name id hid => ?_, fun c => ?_, ?_⟩, ?_, fun id => ?_, fun s => ?_,
    fun o => ?_, hnamed⟩
  · rw [hnamed] at hid
    exact of_decide_eq_true (List.mem_filter.1 hid).2
  · by_cases hk : c ∈ g.instances.keys
    · exact hinst c hk
    · have hno : g.instances.contains c = false := by
        simpa using (Table.contains_iff_mem_keys _ _).not.2 hk
      rw [instancesOf, Table.values_eq_nil_of_find? (by simpa [Table.contains] using hno)]
      exact List.nodup_nil
  · rw [hsource]
    intro k hk
    simp at hk
  · exact (List.nodup_range.filter _).filter _
  · rw [List.mem_filter, mem_ids_iff, Bool.not_eq_true']
  · rw [persistentNodes, hsource, eq_comm]
    refine List.filter_eq_nil_iff.2 fun id _ hid => ?_
    simpa using hbootstrap (of_decide_eq_true hid)
  · rw [ownedBy, howned, eq_comm]
    refine List.filter_eq_nil_iff.2 fun id _ hid => ?_
    simpa using hbootstrap (of_decide_eq_true hid)

theorem isCatalogued_initial : initial.isCatalogued = true := by
  rw [spelledOut.2]
  decide +kernel

end Graph

/-- A graph that requests of any kind lead to, with the log of the nodes that they have created and
not removed. The slots of the metamodel ascend in the order of its creation. -/
inductive Chronicle : Graph → List NodeId → Prop
  | initial : Chronicle Graph.initial (Graph.initial.ids.filter (!Graph.initial.isPackage ·))
  | step {g g' : Graph} {log : List NodeId} (r : Request) : Chronicle g log → r.run g = .ok g' →
      Chronicle g' (r.logged g g' log)

namespace Chronicle

variable {g : Graph} {log : List NodeId}

theorem attained (h : Chronicle g log) : Attained g := by
  induction h with
  | initial => exact .initial
  | step r _ hr ih => exact .step r ih hr

theorem logged (h : Chronicle g log) : g.Logged log := by
  induction h with
  | initial => exact logged_of_isCatalogued isCatalogued_initial
  | step r hc hr ih => exact Request.keeps_logged ih hc.attained.upheld hr

theorem runAll {requests : List Request} : ∀ {g g' : Graph} {log : List NodeId}, Chronicle g log →
    Request.runAll g requests = .ok g' → ∃ log', Chronicle g' log' := by
  induction requests with
  | nil =>
    intro g g' log hg h
    exact ⟨log, Except.ok.inj h ▸ hg⟩
  | cons r requests ih =>
    intro g g' log hg h
    rw [Request.runAll, List.foldlM_cons] at h
    obtain ⟨k, hr, h⟩ := exists_of_bind_ok h
    exact ih (.step r hg hr) h

end Chronicle

namespace Graph

/-- Every index lists what the nodes say, once and in the order of the log. -/
structure Accurate (g : Graph) (log : List NodeId) : Prop where
  log_nodup : log.Nodup
  mem_log_iff : ∀ id, id ∈ log ↔ g.contains id = true ∧ g.isPackage id = false
  lookup_iff : ∀ p id, g.lookup p = some id ↔ g.path? id = some p
  persistentNodes_eq : ∀ s, g.persistentNodes s =
    log.filter fun id => g.lifetime? id = some (.persistent s)
  mem_persistentNodes_iff : ∀ s id,
    id ∈ g.persistentNodes s ↔ g.lifetime? id = some (.persistent s)
  mem_sources_iff : ∀ s, s ∈ g.sources ↔ ∃ id, g.sourceOf? id = some s
  sources_nodup : g.sources.Nodup
  ownedBy_eq : ∀ o, g.ownedBy o = log.filter fun id => g.lifetime? id = some (.ephemeral o)
  mem_ownedBy_iff : ∀ o id, id ∈ g.ownedBy o ↔ g.lifetime? id = some (.ephemeral o)
  owner_plain : ∀ id o, g.lifetime? id = some (.ephemeral o) →
    ∃ l, g.lifetime? o = some l ∧ l.isEphemeral = false
  mem_instancesOf_iff : ∀ c id, id ∈ g.instancesOf c ↔ g.classifier? id = some c
  instancesOf_nodup : ∀ c, (g.instancesOf c).Nodup
  elementsNamed_eq : ∀ name, g.elementsNamed name =
    log.filter fun id => g.title? id = some name
  mem_elementsNamed_iff : ∀ name id,
    id ∈ g.elementsNamed name ↔ g.title? id = some name ∧ g.isPackage id = false

/-- However slots are used again and packages come and go, the indexes list what the nodes say. -/
theorem accurate_of_chronicle {g : Graph} {log : List NodeId} (h : Chronicle g log) :
    g.Accurate log := by
  have hl := h.logged
  have hu := h.attained.upheld
  refine ⟨hl.nodup, hl.mem_iff, hu.lookup_iff, hl.persistent, hu.persistent_iff, fun s => ?_,
    hu.source_keys, hl.owned, fun o id => ?_, fun id o ho => ?_, fun c id => ?_,
    hl.instances_nodup, hl.named_eq, fun name id => ?_⟩
  · rw [sources, hl.sources_full.mem_keys_iff, Ne, List.eq_nil_iff_forall_not_mem, not_forall]
    constructor
    · rintro ⟨id, hid⟩
      exact ⟨id, sourceOf?_eq_some_iff.2 (.inl ((hu.persistent_iff s id).1 (not_not.1 hid)))⟩
    · rintro ⟨id, hid⟩
      obtain ⟨r, hr, -⟩ := hu.toIndexed.sourceOf?_iff_tree.1 hid
      exact ⟨r, not_not.2 hr⟩
  · rw [hu.owned_iff]
    exact and_iff_left_of_imp fun ho => hu.owner_live id o ho
  · obtain ⟨l, hl⟩ := exists_lifetime? (hu.owner_live id o ho)
    exact ⟨l, hl, hu.owner_plain id o ho l hl⟩
  · rw [hu.instance_iff]
    exact and_iff_left_of_imp fun hc => hu.classifier_live id c hc
  · rw [hl.named_eq, List.mem_filter, hl.mem_iff, decide_eq_true_eq]
    constructor
    · rintro ⟨⟨-, hpk⟩, ht⟩
      exact ⟨ht, hpk⟩
    · rintro ⟨ht, hpk⟩
      exact ⟨⟨title?_live ht, hpk⟩, ht⟩

def recycled : List Request :=
  [.createPersistent "s" { path := some (.ofValid "sales::Order".toList (by decide)) },
    .createPersistent "s"
      { path := some (.ofValid "sales::tax::Rate".toList (by decide)), classifier := some 41 },
    .createEphemeral 43 {},
    .createPersistent "t" { path := some (.ofValid "stock::Rate".toList (by decide)) },
    .removeNodes [43],
    .createPersistent "s" { path := some (.ofValid "stock::Item".toList (by decide)) },
    .createPersistent "s"
      { path := some (.ofValid "sales::Rate".toList (by decide)), classifier := some 41 },
    .createEphemeral 46 {}]

theorem accurate_of_recycled : ∃ g log, Request.runAll initial recycled = .ok g ∧
    Chronicle g log ∧ g.Accurate log ∧
    (log.filter fun id => g.title? id = some "Rate") = [46, 44] ∧ g.classifier? 44 = some 41 := by
  obtain ⟨g, hg, hB, hA⟩ := exists_run recycled
    (P := fun g => g.elementsNamed "Rate" = [46, 44] ∧ g.instancesOf 41 = [44]) (by decide +kernel)
  obtain ⟨log, hc⟩ := Chronicle.initial.runAll hg
  have hm := accurate_of_chronicle hc
  refine ⟨g, log, hg, hc, hm, ?_, ?_⟩
  · rw [← hm.elementsNamed_eq, hB]
  · rw [← hm.mem_instancesOf_iff, hA]
    exact List.mem_singleton_self 44

end Graph

end ModelCompiler
