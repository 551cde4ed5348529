import ModelCompiler.Proofs.Lineage.Charted
import ModelCompiler.Proofs.Lineage.Derived
import ModelCompiler.Proofs.Lineage.Hierarchy
import ModelCompiler.Proofs.Maintaining
import ModelCompiler.Proofs.Store.Edits

/-!
A metamodel in the graph of a compiler.
-/
open ModelCompiler.Action ModelCompiler.Graph

namespace ModelCompiler

namespace Graph

variable {m g g' : Graph} {id : NodeId}

/-- The nodes of the metamodel `m` are in the graph, with their generalizations in `m`. -/
structure Bears (m g : Graph) : Prop where
  node : ∀ id, m.contains id = true → (g.node? id).map Node.bare = (m.node? id).map Node.bare
  generalizations : ∀ id, m.contains id = true →
    g.values id "generalizations" = m.values id "generalizations"

/-- A graph that bears the metamodel and keeps the laws of the store; all else in it comes from
sources. -/
structure Hosts (m g : Graph) : Prop extends Upheld g, Bears m g where
  bootstrap : ∀ id, g.lifetime? id = some .bootstrap → m.contains id = true

theorem Charted.hosts (hm : m.Charted) : Hosts m m :=
  { hm.upheld with
    node := fun _ _ => rfl
    generalizations := fun _ _ => rfl
    bootstrap := fun _ => contains_of_lifetime? }

theorem Charted.general_live (hm : m.Charted) {gs : List NodeId} (h : m.generals id = gs.map some)
    {x : NodeId} (hx : x ∈ gs) : m.contains x = true := by
  have hmem : some x ∈ m.generals id := by
    rw [h]
    exact List.mem_map_of_mem hx
  exact Lineage.general_live hm.toClosed hmem

namespace Bears

theorem contains (hb : Bears m g) (h : m.contains id = true) : g.contains id = true := by
  rw [contains_of_bare (hb.node id h)]
  exact h

theorem lifetime? (hb : Bears m g) (hm : m.Charted) (h : m.contains id = true) :
    g.lifetime? id = some .bootstrap := by
  rw [lifetime?_of_bare (hb.node id h)]
  exact hm.lifetime? h

theorem not_contains_of_lifetime? (hb : Bears m g) (hm : m.Charted) {l : Lifetime}
    (h : g.lifetime? id = some l) (hl : l ≠ .bootstrap) : m.contains id = false := by
  by_contra hid
  rw [hb.lifetime? hm (by simpa using hid)] at h
  exact hl (Option.some.inj h).symm

theorem not_importStub (hb : Bears m g) (hm : m.Charted) (h : m.contains id = true) :
    g.isImportStub id = false := by
  rw [isImportStub, classifierPath?_of_bare (hb.node id h) fun c hc =>
    path?_of_bare (hb.node c (hm.classifier_live id c hc))]
  exact hm.not_importStub id h

theorem generals (hb : Bears m g) (hm : m.Charted) (h : m.contains id = true) :
    g.generals id = m.generals id := by
  rw [hm.generals, ← hb.generalizations id h]
  refine List.map_congr_left fun v hv => ?_
  rw [hb.generalizations id h] at hv
  simp [referenced?, hb.not_importStub hm (hm.value_live id _ v hv)]

theorem lineal (hb : Bears m g) (hm : m.Charted) {as : List NodeId} (h : m.Lineal id as)
    (hid : m.contains id = true) : g.Lineal id as := by
  induction h with
  | @intro ty gs ls hgs hls ih =>
    exact .intro gs ls ((hb.generals hm hid).trans hgs) fun x hx => ih x hx (hm.general_live hgs hx)

theorem of_frame (hb : Bears m g) (e : g'.frame = g.frame) (hv : ∀ j, m.contains j = true →
    g'.values j "generalizations" = g.values j "generalizations") : Bears m g' where
  node j hj := by
    rw [← node?_frame, e, node?_frame]
    exact hb.node j hj
  generalizations j hj := (hv j hj).trans (hb.generalizations j hj)

end Bears

theorem Edit.bears (he : Edit (· ≠ "generalizations") g g') (hu : g.Upheld) (hm : m.Charted)
    (hb : Bears m g) : Bears m g' := by
  have hi := hu.toIndexed
  cases he with
  | declare p =>
    unfold declareBackReference
    split
    · exact hb
    · exact ⟨hb.node, hb.generalizations⟩
  | link hp hid _ =>
    refine hb.of_frame (frame_link _ _ _ _) fun j _ => ?_
    rw [values_link hid, if_neg fun e => hp e.2.symm]
  | unlink hp hmem =>
    refine hb.of_frame (frame_unlink _ _ _ _) fun j _ => ?_
    rw [values_unlink (contains_of_mem_values hmem), if_neg fun e => hp e.2.symm]
  | purge hp =>
    refine hb.of_frame (frame_purge _ _ _) fun j _ => ?_
    rw [values_purge, if_neg fun e => hp e.2.symm]
  | seat =>
    refine ⟨fun j hj => ?_, fun j hj => ?_⟩
    · exact (hi.bare_seat _ _ _ (hb.contains hj)).trans (hb.node j hj)
    · exact (values_seat _ _ _ hi j _).trans (hb.generalizations j hj)
  | @found spec _ parent lifetime package _ _ _ hparent =>
    have e := frame_found g spec lifetime package parent
    refine ⟨fun j hj => ?_, fun j hj => ?_⟩
    · rw [← node?_frame, e, node?_frame, hi.bare_seat _ _ _ (hb.contains hj)]
      exact hb.node j hj
    · rw [values_found hi (hu.isPackage_live hparent), if_neg (by simp), if_neg (by simp)]
      exact hb.generalizations j hj
  | remove _ hr =>
    have hlive {j : NodeId} (hj : m.contains j = true) : g'.contains j = true :=
      contains_of_lifetime? (hr.bootstrap j (hb.lifetime? hm hj))
    refine ⟨fun j hj => ?_, fun j hj => ?_⟩
    · exact (hr.bare j (hlive hj)).trans (hb.node j hj)
    · exact (hr.values j _ (hlive hj) (by decide)).trans (hb.generalizations j hj)

end Graph

/-- A request in the name of a source, which does not write to the generalizations of the metamodel;
what it takes out of a list of generalizations may be anything else. -/
def Request.Respects (m : Graph) : Request → Prop
  | .createPersistent .. | .createEphemeral .. | .removeNodes _ => True
  | .addValue id p _ => p ≠ "generalizations" ∨ m.contains id = false
  | .removeValue _ p v => p ≠ "generalizations" ∨ m.contains v = false
  | .setValues _ p _ | .clearProperty _ p => p ≠ "generalizations"
  | .declareBackReference _ | .createBootstrap _ | .declareClassifier .. => False

section Bootstrap

variable {m g g' : Graph} {id : NodeId}

theorem Graph.Founded.bootstrap {lifetime : Lifetime} {package : NodeId}
    (hf : Founded lifetime g g' package) (hl : lifetime.isShared = true)
    (hne : lifetime ≠ .bootstrap)
    (hu : g.Upheld) (h : g'.lifetime? id = some .bootstrap) : g.lifetime? id = some .bootstrap := by
  induction hf with
  | refl => exact h
  | step hf _ ih =>
    rw [lifetime?_congr (frame_found _ _ _ _ _),
      lifetime?_seat _ _ _ (hf.gains hl hu).upheld.toIndexed] at h
    split at h
    · exact absurd (Option.some.inj h) hne
    · exact ih h

theorem Request.bootstrap {r : Request} (hu : g.Upheld) (hr : r.Respects m) (h : r.run g = .ok g')
    (hid : g'.lifetime? id = some .bootstrap) : g.lifetime? id = some .bootstrap := by
  have hframe (e : g'.frame = g.frame) : g.lifetime? id = some .bootstrap :=
    (lifetime?_congr e id).symm.trans hid
  cases r with
  | createPersistent source spec =>
    obtain ⟨answer, hrun⟩ := exists_of_map_snd_ok h
    have hensures : Ensures (Graph.createPersistent source spec) g _ _ :=
      createPersistent_ensures hu.root_isPackage source
    cases answer with
    | error e => exact (hensures.error hrun).1 ▸ hid
    | ok new =>
      rcases hensures.result hrun with ⟨path, -, he⟩ | ⟨-, -, -, rfl⟩
      · obtain ⟨k, parent, hf, -, -, -, rfl⟩ := he.founded
        rw [lifetime?_congr (frame_found _ _ _ _ _), lifetime?_seat _ _ _
          (hf.gains (isShared_around _) hu).upheld.toIndexed] at hid
        split at hid
        · simp at hid
        · exact hf.bootstrap (isShared_around _) (by simp [around]) hu hid
      · rw [lifetime?_seat _ _ _ hu.toIndexed] at hid
        split at hid
        · simp at hid
        · exact hid
  | createEphemeral owner spec =>
    obtain ⟨answer, hrun⟩ := exists_of_map_snd_ok h
    have hensures : Ensures (Graph.createEphemeral owner spec) g _ _ :=
      createEphemeral_ensures owner
    cases answer with
    | error e => exact (hensures.error hrun).1 ▸ hid
    | ok new =>
      obtain ⟨root, -, -, -, -, rfl⟩ := hensures.result hrun
      rw [lifetime?_seat _ _ _ hu.toIndexed] at hid
      split at hid
      · simp at hid
      · exact hid
  | addValue id p v => exact hframe (Extended.addValue hu h).frame
  | setValues id p vs => exact hframe (frame_setValues h)
  | removeValue id p v =>
    obtain ⟨b, hremove⟩ := exists_of_map_snd_ok h
    obtain ⟨-, rfl | ⟨-, rfl⟩⟩ := removeValue_cases hremove
    · exact hid
    · exact hframe (frame_unlink _ _ _ _)
  | clearProperty id p =>
    obtain ⟨old, hc⟩ := exists_of_map_snd_ok h
    obtain rfl := eq_purge_of_clearProperty hc
    exact hframe (frame_purge _ _ _)
  | removeNodes ids =>
    obtain ⟨out, hrun⟩ := exists_of_map_snd_ok h
    obtain ⟨-, hrem⟩ := removeNodes_remains hu.toCoherent hrun
    rw [← lifetime?_of_bare (hrem.bare id (contains_of_lifetime? hid))]
    exact hid
  | declareBackReference | createBootstrap | declareClassifier => exact hr.elim

end Bootstrap

theorem Request.hosts {m g g' : Graph} (hm : m.Charted) (hg : Hosts m g) {r : Request}
    (hr : r.Respects m) (h : r.run g = .ok g') : Hosts m g' := by
  have hu := (Request.follows hg.toUpheld h).upheld
  have hboot (id : NodeId) (hid : g'.lifetime? id = some .bootstrap) : m.contains id = true :=
    hg.bootstrap id (Request.bootstrap hg.toUpheld hr h hid)
  by_cases hp : ∀ p ∈ r.property?, p ≠ "generalizations"
  · have hedits := Request.edits hg.toUpheld hp (fun _ _ he => by simp [he, Respects] at hr) h
    exact { hu, hedits.keeps (fun _ _ hu he hb => he.bears hu hm hb) hg.toBears with
      bootstrap := hboot }
  · -- a generalization is added to another node, or another value is taken away
    cases r with
    | addValue id p v =>
      obtain rfl : p = "generalizations" := by simpa [property?] using hp
      have hid := hr.resolve_left fun hne => hne rfl
      obtain ⟨hlive, -, rfl⟩ := addValue_cases h
      refine { hu, hg.toBears.of_frame (frame_link _ _ _ _) fun j hj => ?_ with
        bootstrap := hboot }
      rw [values_link hlive, if_neg]
      rintro ⟨rfl, -⟩
      simp [hid] at hj
    | removeValue id p v =>
      obtain rfl : p = "generalizations" := by simpa [property?] using hp
      have hv := hr.resolve_left fun hne => hne rfl
      obtain ⟨b, hremove⟩ := exists_of_map_snd_ok h
      obtain ⟨hid, rfl | ⟨hmem, rfl⟩⟩ := removeValue_cases hremove
      · exact hg
      · refine { hu, hg.toBears.of_frame (frame_unlink _ _ _ _) fun j hj => ?_ with
          bootstrap := hboot }
        rw [values_unlink hid, if_neg]
        rintro ⟨rfl, -⟩
        rw [hg.generalizations j hj] at hmem
        simp [hm.value_live j _ v hmem] at hv
    | setValues | clearProperty => exact absurd (fun p hp' => by simp_all [property?, Respects]) hp
    | declareBackReference | createBootstrap | createPersistent | createEphemeral
    | declareClassifier | removeNodes => exact absurd (by simp [property?]) hp

section Actions

variable {m : Graph} (hm : m.Charted)
include hm

theorem Graph.maintains_request {α : Type} {act : Action Graph GraphError α} (r : Request)
    (hr : r.Respects m) (hrun : ∀ g, r.run g = (act g).map (·.2)) : Maintains (Hosts m) act := by
  intro g answer g' hg hact
  exact ⟨Request.hosts hm hg hr (by rw [hrun, hact]; rfl), fun _ _ => trivial⟩

theorem Graph.maintains_removeNodes (ids : List NodeId) : Maintains (Hosts m) (removeNodes ids) :=
  maintains_request hm (.removeNodes ids) trivial fun _ => rfl

theorem Graph.maintains_createEphemeral (owner : NodeId) (spec : NodeSpec) :
    Maintains (Hosts m) (createEphemeral owner spec) :=
  maintains_request hm (.createEphemeral owner spec) trivial fun _ => rfl

theorem Graph.maintains_createPersistent (source : SourceId) (spec : NodeSpec) :
    Maintains (Hosts m) (createPersistent source spec) fun id => m.contains id = false := by
  intro g r g' hg hrun
  refine ⟨(maintains_request hm (.createPersistent source spec) trivial (fun _ => rfl) g r g' hg
    hrun).1, fun id hid => ?_⟩
  subst hid
  by_contra hin
  have hlive := hg.toBears.contains (by simpa using hin)
  rcases (createPersistent_ensures hg.root_isPackage source).result hrun with
    ⟨path, -, he⟩ | ⟨-, -, rfl, -⟩
  · obtain ⟨h, parent, hf, -, rfl, -⟩ := he.founded
    have hgains := hf.gains (isShared_around _) hg.toUpheld
    exact hgains.upheld.toIndexed.ne_fresh (hgains.contains _ hlive) rfl
  · exact hg.toUpheld.toIndexed.ne_fresh hlive rfl

end Actions

namespace Lineage

variable {m g : Graph} {l : Lineage} {ty : NodeId} {as : List NodeId}

/-- What is remembered of the types of the metamodel is right, be it out of date or not. -/
def Recollects (m : Graph) (l : Lineage) : Prop :=
  ∀ e ∈ l.entries, m.contains e.1 = true → m.Lineal e.1 e.2.ancestors

theorem recollects_empty (m : Graph) : Recollects m ∅ := by
  intro e he
  exact absurd he List.not_mem_nil

theorem Recollects.retainFresh (hl : Recollects m l) (g : Graph) :
    Recollects m (l.retainFresh g) :=
  fun e he => hl e (List.mem_filter.1 he).1

theorem Recollects.erase (hl : Recollects m l) (id : NodeId) : Recollects m (l.erase id) :=
  fun e he => hl e (List.mem_filter.1 he).1

theorem Recollects.insert (hl : Recollects m l) {a : Ancestry}
    (ha : m.contains ty = true → m.Lineal ty a.ancestors) : Recollects m (Table.insert l ty a) :=
  Table.forall_entries_insert hl ha

theorem Recollects.lineal (hl : Recollects m l) {a : Ancestry} (ha : l.fresh? g ty = some a)
    (hty : m.contains ty = true) : m.Lineal ty a.ancestors :=
  hl (ty, a) (Table.mem_entries_of_find? (Option.filter_eq_some_iff.1 ha).1) hty

theorem Gives.and {α : Type} {q : Query α} {Q R : α → Lineage → Prop}
    {E F : CompileError → Lineage → Prop} (h : Gives q l Q E) (h' : Gives q l R F) :
    Gives q l (fun a l' => Q a l' ∧ R a l') fun e l' => E e l' ∧ F e l' := by
  unfold Gives Recalls at h h' ⊢
  revert h h'
  cases (q.run.run l).1 <;> exact fun h h' => ⟨h, h'⟩

section Search

variable (hm : m.Charted) (hb : Bears m g)
include hm hb

/-- Whatever type is asked for, the memory stays right of the metamodel. -/
theorem search_recollects : ∀ {fuel : Nat} {way : List NodeId} {ty : NodeId} {l : Lineage},
    Recollects m l → Gives (search g fuel way ty) l
      (fun a l' => (m.contains ty = true → m.Lineal ty a.ancestors) ∧ Recollects m l')
      fun _ l' => Recollects m l'
  | 0, _, _, _, hl => gives_throw hl
  | fuel + 1, way, ty, l, hl => by
    rw [search]
    refine gives_bind (gives_get ?_)
    split
    · rename_i a ha
      exact gives_pure ⟨hl.lineal ha, hl⟩
    · split
      · exact gives_throw hl
      · refine gives_bind (gives_of_except ?_)
        cases hgs : direct g ty with
        | error e => exact hl
        | ok gs =>
          refine gives_bind ((gives_mapM (I := Recollects m)
            (R := fun (p : NodeId × NodeId) (a : Ancestry) =>
              m.contains p.2 = true → m.Lineal p.2 a.ancestors) hl
            fun p _ l' hl' => gives_tryCatch ((search_recollects hl').mono (fun _ _ h => h)
              fun _ _ h => gives_throw h)).imp fun inherited l' h => ?_)
          obtain ⟨hlen, hlive⟩ := zip_direct hgs
          have hfound (hty : m.contains ty = true) :
              m.Lineal ty (merge g ty gs inherited).ancestors := by
            have hmap : m.generals ty = gs.map some := by
              rw [← hb.generals hm hty]
              rcases direct_cases hlive with ⟨gs', hgs', hmap⟩ | ⟨e, he, -⟩
              · rwa [Except.ok.inj (hgs.symm.trans hgs')]
              · simp [hgs] at he
            have hin (x : NodeId) (hx : x ∈ gs) : m.contains x = true := hm.general_live hmap hx
            have hall : List.Forall₂ (fun x (a : Ancestry) => m.contains x = true →
                m.Lineal x a.ancestors) gs inherited := forall₂_of_snd_zip hlen h.1
            obtain ⟨ls, hls, hflat⟩ := exists_lineages (P := m.Lineal) (fun _ _ _ a b => a.unique b)
              (((List.forall₂_and_left _ _).2 ⟨hin, hall⟩).imp fun _ _ h => h.2 h.1)
            rw [merge, hflat]
            exact .intro gs ls hmap hls
          exact gives_bind (gives_modify (gives_pure ⟨hfound, h.2.insert hfound⟩))

theorem ancestors_recollects (hl : Recollects m l) (ty : NodeId) :
    Gives (ancestors g ty) l (fun _ l' => Recollects m l') fun _ l' => Recollects m l' :=
  gives_bind ((search_recollects hm hb hl).imp fun _ _ h => gives_pure h.2)

theorem derived_of_lineal (hl : Recollects m l) (h : m.Lineal ty as) (hty : m.contains ty = true) :
    Derived g l ty as := by
  induction h with
  | @intro ty gs ls hgs hls ih =>
    cases hf : l.fresh? g ty with
    | some a =>
      rw [← (hl.lineal hf hty).unique (.intro gs ls hgs hls)]
      exact .known hf
    | none =>
      exact .made gs ls hf (direct_of_generals (hb.contains hty) ((hb.generals hm hty).trans hgs))
        fun x hx => ih x hx (hm.general_live hgs hx)

theorem ancestors_of_lineal (hl : Recollects m l) (h : m.Lineal ty as)
    (hty : m.contains ty = true) :
    Gives (ancestors g ty) l (fun bs l' => bs = as ∧ Recollects m l') fun _ _ => False := by
  have hd := derived_of_lineal hm hb hl h hty
  exact gives_bind (((search_repeats hd (.start g) (by simp) (.refl g l)).and
    (search_recollects hm hb hl)).mono (fun _ _ h => gives_pure ⟨h.1.1, h.2.2⟩) fun _ _ h => h.1)

end Search

/-- With what is remembered, `as` is the answer for a type: all names in its hierarchy are bound,
and nothing in it extends itself. -/
structure Settles (g : Graph) (l : Lineage) (ty : NodeId) (as : List NodeId) : Prop where
  answer : ((ancestors g ty).run.run l).1 = .ok as
  bound : ∀ x, g.InHierarchy ty x → ¬ g.Unbound x
  acyclic : ∀ x, g.InHierarchy ty x → ¬ Relation.TransGen g.Extends x x

theorem settles_of_lineal (hm : m.Charted) (hb : Bears m g) (hl : Recollects m l)
    (h : m.Lineal ty as) (hty : m.contains ty = true) : Settles g l ty as := by
  have hlineal := hb.lineal hm h hty
  refine ⟨?_, fun x hx => ?_, fun x hx => ?_⟩
  · have hgives := ancestors_of_lineal hm hb hl h hty
    unfold Gives Recalls at hgives
    revert hgives
    cases ((ancestors g ty).run.run l).1 with
    | error e => exact False.elim
    | ok bs => exact fun h => congrArg _ h.1
  · obtain ⟨xs, hxs⟩ := hlineal.of_inHierarchy hx
    exact hxs.not_unbound
  · obtain ⟨xs, hxs⟩ := hlineal.of_inHierarchy hx
    exact hxs.not_extends_self

end Lineage

namespace Dispatch

open Lineage

variable {η : Type} {d : Dispatch} {m g : Graph} {l : Lineage} {id c : NodeId}

section Rules

variable {table : Table Path η} {I : Lineage → Prop} {E : CompileError → Lineage → Prop}

theorem find_gives_of (hl : I l) (hancestors : ∀ c, g.classifier? id = some c →
    Gives (Lineage.ancestors g c) l (fun _ => I) E) : Gives (find table g id) l
      (fun r l' => (∀ h, r.1 = some h → ∃ p, table.find? p = some h) ∧ I l') E := by
  have hat {x : NodeId} {h h' : η} {path : Path} (hx : handlerAt? table g x = some (h, path))
      (he : some h = some h') : ∃ p, table.find? p = some h' :=
    ⟨path, Option.some.inj he ▸ (handlerAt?_eq_some_iff.1 hx).2⟩
  unfold find
  split
  · exact gives_pure ⟨by simp, hl⟩
  · rename_i c hcl
    split
    · exact gives_pure ⟨by simp, hl⟩
    · split
      · rename_i hx
        exact gives_pure ⟨fun _ => hat hx, hl⟩
      · refine gives_bind ((hancestors c hcl).imp fun as l' hl' => ?_)
        split
        · rename_i hx
          obtain ⟨a, -, hx⟩ := List.exists_of_findSome?_eq_some hx
          exact gives_pure ⟨fun _ => hat hx, hl'⟩
        · exact gives_pure ⟨by simp, hl'⟩

theorem orDemand_gives_of {phase : Phase} {default : η} {r : Option η × Origin} (hl : I l) :
    Gives (orDemand phase default g id r) l
      (fun h l' => (h.1 = default ∨ r.1 = some h.1) ∧ I l')
      fun e l' => e = unrecognized g phase id ∧ I l' := by
  obtain ⟨_ | h, origin⟩ := r
  · simp only [orDemand]
    split
    · split
      · exact gives_throw ⟨rfl, hl⟩
      · exact gives_pure ⟨.inl rfl, hl⟩
    · exact gives_pure ⟨.inl rfl, hl⟩
  · exact gives_pure ⟨.inr rfl, hl⟩

end Rules

/-- The look-ups for a node come to an end in every phase; only a handler that an element of a
source needs may be missing. -/
structure Decides (d : Dispatch) (g : Graph) (l : Lineage) (id : NodeId) : Prop where
  bind : ∀ e, ((d.binder g id).run.run l).1 = .error e → e = unrecognized g .bind id
  process : ∀ e, ((d.processor g id).run.run l).1 = .error e → e = unrecognized g .process id
  validate : ∃ r, ((d.validator g id).run.run l).1 = .ok r
  unbind : ∃ r, ((d.unbinder g id).run.run l).1 = .ok r
  walk : ∃ r, ((d.walker g id).run.run l).1 = .ok r

theorem eq_of_gives {α : Type} {q : Query α} {e e' : CompileError}
    (h : Gives q l (fun _ _ => True) fun e _ => e = e') (he : (q.run.run l).1 = .error e) :
    e = e' := by
  unfold Gives Recalls at h
  rwa [he] at h

theorem exists_of_gives {α : Type} {q : Query α}
    (h : Gives q l (fun _ _ => True) fun _ _ => False) : ∃ r, (q.run.run l).1 = .ok r := by
  unfold Gives Recalls at h
  revert h
  cases (q.run.run l).1 with
  | error e => exact False.elim
  | ok r => exact fun _ => ⟨r, rfl⟩

theorem decides (hm : m.Charted) (hb : Bears m g) (hl : Recollects m l)
    (hcl : g.classifier? id = some c) (hc : m.contains c = true) (d : Dispatch) :
    d.Decides g l id := by
  have hfind {η : Type} (table : Table Path η) :
      Gives (find table g id) l (fun _ _ => True) fun _ _ => False := by
    refine (find_gives_of (I := fun _ => True) trivial fun c' hcl' => ?_).imp
      (fun _ _ _ => trivial)
    obtain rfl := Option.some.inj (hcl.symm.trans hcl')
    obtain ⟨as, has⟩ := hm.lineal c hc
    exact (ancestors_of_lineal hm hb hl has hc).imp (fun _ _ _ => trivial)
  have hdemand {η : Type} (table : Table Path η) (phase : Phase) (default : η) :
      Gives (find table g id >>= orDemand phase default g id) l (fun _ _ => True)
        fun e _ => e = unrecognized g phase id :=
    gives_bind ((hfind table).mono
      (fun _ _ _ => (orDemand_gives_of (I := fun _ => True) trivial).mono
      (fun _ _ _ => trivial) fun _ _ h => h.1) fun _ _ h => h.elim)
  have hdefault {η : Type} (table : Table Path η) (default : η) :
      Gives (find table g id >>= fun r => pure (orDefault default r)) l (fun _ _ => True)
        fun _ _ => False :=
    gives_bind ((hfind table).imp fun _ _ _ => gives_pure trivial)
  exact ⟨fun _ => eq_of_gives (hdemand _ _ _), fun _ => eq_of_gives (hdemand _ _ _),
    exists_of_gives (hdefault _ _), exists_of_gives (hdefault _ _), exists_of_gives (hdefault _ _)⟩

end Dispatch

end ModelCompiler
