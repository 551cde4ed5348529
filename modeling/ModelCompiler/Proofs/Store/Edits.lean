import ModelCompiler.Proofs.Store.Upheld

/-!
Requests taken apart into edits, each with what is known when it is made. A law of the store that
every edit keeps is kept by every request.
-/
open ModelCompiler.Action ModelCompiler.Graph

namespace ModelCompiler

namespace Path

theorem beginnings_cons {c : Char} {cs : List Char} (h : ∀ ds, c = ':' → cs = ':' :: ds → False) :
    beginnings (c :: cs) = (beginnings cs).map (c :: ·) := by
  rw [beginnings]
  exact h

theorem beginnings_of_cutLast_eq_none {cs : List Char} (h : cutLast cs = none) :
    beginnings cs = [] := by
  fun_induction cutLast cs with
  | case1 => rfl
  | case2 | case3 => simp at h
  | case4 c cs hne ih => rw [beginnings_cons hne, ih (by simpa using h), List.map_nil]

theorem beginnings_of_cutLast {cs a b : List Char} (h : cutLast cs = some (a, b)) :
    beginnings cs = beginnings a ++ [a] := by
  fun_induction cutLast cs generalizing a b with
  | case1 => simp at h
  | case2 cs a' b' hc ih =>
    obtain ⟨rfl, rfl⟩ := Prod.mk.inj (Option.some.inj h)
    simp [beginnings, ih hc]
  | case3 cs hc ih =>
    obtain ⟨rfl, rfl⟩ := Prod.mk.inj (Option.some.inj h)
    simp [beginnings, beginnings_of_cutLast_eq_none hc]
  | case4 c cs hne ih =>
    obtain ⟨⟨a', b'⟩, hc, he⟩ := Option.map_eq_some_iff.1 h
    obtain ⟨rfl, rfl⟩ := Prod.mk.inj he
    have hcs := eq_append_of_cutLast hc
    rw [beginnings_cons hne, ih hc, beginnings_cons]
    · simp
    · rintro ds rfl rfl
      exact hne _ rfl (by rw [hcs]; rfl)

theorem ofChars_chars (p : Path) : (ofChars p.chars).toOption = some p := by
  unfold ofChars
  split
  · exact congrArg some (ext rfl)
  · rename_i f hf
    simp [p.valid] at hf

theorem packages_eq (p : Path) : p.packages = p.package.elim [] fun q => q :: q.packages := by
  unfold package
  split
  · rename_i a b hcut
    have hvalid := ofChars_chars (ofValid a (by
      rw [fault?_eq_none_iff]
      intro s hs
      apply fault?_eq_none_iff.1 p.valid
      rw [split_of_cutLast hcut]
      exact List.mem_append_left _ hs))
    rw [packages, beginnings_of_cutLast hcut, List.reverse_append, List.reverse_singleton,
      List.singleton_append]
    exact List.filterMap_cons_some hvalid
  · rename_i hcut
    rw [packages, beginnings_of_cutLast_eq_none hcut]
    rfl

theorem length_package {p q : Path} (h : p.package = some q) : q.chars.length < p.chars.length :=
  length_packages (by rw [packages_eq, h]; exact List.mem_cons_self)

end Path

namespace Graph

variable {W : String → Prop} {g g' : Graph} {id value : NodeId} {p : String}

def home? (g : Graph) (path : Path) : Option NodeId :=
  path.package.elim (some root) g.lookup

/-- One edit of a graph. Only properties of which `W` holds are written, membership in packages
apart. -/
inductive Edit (W : String → Prop) (g : Graph) : Graph → Prop
  | declare (p : String) : Edit W g (g.declareBackReference p)
  | link {id value : NodeId} {p : String} : W p → g.contains id = true → g.contains value = true →
      Edit W g (g.link id p value)
  | unlink {id value : NodeId} {p : String} : W p → value ∈ g.values id p →
      Edit W g (g.unlink id p value)
  | purge {id : NodeId} {p : String} : W p → Edit W g (g.purge id p)
  | seat {spec : NodeSpec} {lifetime : Lifetime} : spec.path = none → lifetime.isShared = false →
      Edit W g (g.seat spec lifetime false)
  | found {spec : NodeSpec} {path : Path} {parent : NodeId} (lifetime : Lifetime) (package : Bool) :
      spec.path = some path → g.lookup path = none → g.home? path = some parent →
      g.isPackage parent = true → Edit W g (g.found spec lifetime package parent)
  | remove {g' : Graph} : g'.Coherent → Remains g g' → Edit W g g'

abbrev Edits (W : String → Prop) : Graph → Graph → Prop :=
  Relation.ReflTransGen fun g g' => g.Upheld ∧ Edit W g g'

theorem Edits.keeps {I : Graph → Prop} (hI : ∀ g g', g.Upheld → Edit W g g' → I g → I g')
    (h : Edits W g g') (hg : I g) : I g' := by
  induction h with
  | refl => exact hg
  | tail _ hs ih => exact hI _ _ hs.1 hs.2 ih

section Creation

variable {spec : NodeSpec} {lifetime : Lifetime}

theorem ensurePackage_edits (hl : lifetime.isShared = true) (hu : g.Upheld) (path : Path) :
    Ensures (ensurePackage lifetime path.packages) g
      (fun id h => Edits W g h ∧ h.home? path = some id) fun _ _ => True := by
  rw [Path.packages_eq]
  unfold home?
  cases hq : path.package with
  | none => exact ensures_pure ⟨.refl, rfl⟩
  | some q =>
    simp only [Option.elim_some]
    unfold ensurePackage
    refine ensures_get_bind ?_
    cases hfound : g.lookup q with
    | some id =>
      dsimp only
      split
      · exact ensures_pure ⟨.refl, hfound⟩
      · exact ensures_throw trivial
    | none =>
      have hrow := Path.nodup_packages q
      rw [List.nodup_cons] at hrow
      have houter := (ensurePackage_ensures hl hrow.2 hu.root_isPackage).and
        (ensurePackage_edits hl hu q)
      refine ensures_bind (houter.mono (fun parent h hh => ?_) fun _ _ _ => trivial)
      obtain ⟨⟨hf, hkeep⟩, hh, hhome⟩ := hh
      have hfree : h.lookup q = none := by rw [hkeep q hrow.1, hfound]
      refine ensures_get_bind (ensures_bind (ensures_of_eq (insertNode_eq _ _ _) ?_))
      refine ensures_modify_bind (ensures_pure ?_)
      rw [insert_package hl _ rfl]
      refine ⟨hh.tail ⟨(hf.gains hl hu).upheld,
        .found _ true rfl hfree hhome hf.isPackage⟩, ?_⟩
      rw [lookup_congr (frame_attach _ _ _), lookup_seat, if_pos rfl]
termination_by path.chars.length
decreasing_by exact Path.length_package hq

theorem createElement_edits (hu : g.Upheld) (path : Path) (hl : ∀ o, lifetime ≠ .ephemeral o) :
    Ensures (createElement spec path lifetime) g (fun id h => Edits W g (h.enroll lifetime id))
      fun _ h => h = g := by
  unfold createElement
  refine ensures_get_bind ?_
  dsimp only
  by_cases hfree : (g.lookup path).isSome = true
  · rw [if_pos hfree]
    exact ensures_bind (ensures_throw rfl)
  · rw [if_neg hfree]
    have hrow := Path.nodup_packages path
    rw [List.nodup_cons] at hrow
    have hshared := isShared_around lifetime
    refine ensures_bind ((checkClassifier_ensures spec.classifier).mono (fun _ h hcl => ?_)
      fun _ _ he => he.1)
    obtain ⟨rfl, -⟩ := hcl
    have hpackages := (ensurePackage_ensures hshared hrow.2 hu.root_isPackage).and
      (ensurePackage_edits (W := W) hshared hu path)
    refine ensures_bind (hpackages.mono (fun parent k hk => ?_) fun _ _ he => he.1.1)
    obtain ⟨⟨hf, hkeep⟩, hk, hhome⟩ := hk
    refine ensures_bind (ensures_of_eq (insertNode_eq _ _ _) ?_)
    refine ensures_modify_bind (ensures_pure ?_)
    rw [enroll_attach, insert_element hl _ rfl]
    refine hk.tail ⟨(hf.gains hshared hu).upheld,
      .found _ false rfl ?_ hhome hf.isPackage⟩
    rw [hkeep path hrow.1]
    simpa using hfree

theorem createBootstrap_edits (hu : g.Upheld) (spec : NodeSpec) :
    Ensures (createBootstrap spec) g (fun _ h => Edits W g h) fun _ h => h = g := by
  unfold createBootstrap
  cases spec.path with
  | none => exact ensures_throw rfl
  | some path => exact createElement_edits hu path (by simp)

theorem createPersistent_edits (hu : g.Upheld) (source : SourceId) (spec : NodeSpec) :
    Ensures (createPersistent source spec) g (fun _ h => Edits W g h) fun _ h => h = g := by
  cases hpath : spec.path with
  | some path =>
    unfold createPersistent
    rw [hpath]
    refine ensures_bind ((createElement_edits (W := W) hu path (by simp)).imp fun id h hh => ?_)
    exact ensures_modify_bind (ensures_pure hh)
  | none =>
    refine (createPersistent_ensures hu.root_isPackage source).mono (fun id h hh => ?_)
      fun _ _ he => he.1
    rcases hh with ⟨path, hsome, -⟩ | ⟨-, -, -, rfl⟩
    · simp [hpath] at hsome
    · exact .single ⟨hu, .seat hpath rfl⟩

theorem createEphemeral_edits (hu : g.Upheld) (owner : NodeId) (spec : NodeSpec) :
    Ensures (createEphemeral owner spec) g (fun _ h => Edits W g h) fun _ h => h = g := by
  refine (createEphemeral_ensures owner).mono (fun id h hh => ?_) fun _ _ he => he.1
  obtain ⟨_, -, hpath, -, -, rfl⟩ := hh
  exact .single ⟨hu, .seat hpath rfl⟩

theorem declareClassifier_edits (hW : W "generalizations") (hu : g.Upheld) (path : Path)
    (generals : List NodeId) :
    Ensures (declareClassifier path generals) g (fun _ h => Edits W g h) fun _ h => h = g := by
  refine (declareClassifier_ensures (I := fun _ t => t.Upheld ∧ Edits W g t)
    (E := fun _ h => h = g) hu.toIndexed (fun _ => rfl) (fun c _ => ?_)
    fun id t i _ ht hid hi => ?_).imp fun _ _ ht => ht.2
  · exact ((hu.createBootstrap _).and (createBootstrap_edits hu _)).mono
      (fun id k hk => ⟨⟨hk.1.1.upheld, hk.2⟩, hk.1.2, hk.1.1.contains⟩) fun _ _ he => he.1
  · exact ⟨(Extended.link ht.1 hid hi).upheld, ht.2.tail ⟨ht.1, .link hW hid hi⟩⟩

end Creation

end Graph

theorem Request.edits {W : String → Prop} {g g' : Graph} (hu : g.Upheld) {r : Request}
    (hW : ∀ p ∈ r.property?, W p)
    (hg : ∀ path generals, r = .declareClassifier path generals → W "generalizations")
    (h : r.run g = .ok g') :
    Edits W g g' := by
  have hsame {k : Graph} (hk : k = g) : Edits W g k := hk ▸ .refl
  cases r with
  | declareBackReference p => exact Except.ok.inj h ▸ .single ⟨hu, .declare p⟩
  | createBootstrap spec =>
    exact (createBootstrap_edits hu spec).ends (fun _ _ hq => hq) (fun _ _ => hsame) h
  | createPersistent source spec =>
    exact (createPersistent_edits hu source spec).ends (fun _ _ hq => hq) (fun _ _ => hsame) h
  | createEphemeral owner spec =>
    exact (createEphemeral_edits hu owner spec).ends (fun _ _ hq => hq) (fun _ _ => hsame) h
  | declareClassifier path generals =>
    exact (declareClassifier_edits (hg path generals rfl) hu path generals).ends
      (fun _ _ hq => hq) (fun _ _ => hsame) h
  | addValue id p v =>
    obtain ⟨hid, hv, rfl⟩ := addValue_cases h
    exact .single ⟨hu, .link (hW p rfl) hid hv⟩
  | setValues id p vs =>
    have hpurge : Edits W g (g.purge id p) := .single ⟨hu, .purge (hW p rfl)⟩
    refine (setValues_keeps (I := fun k => k.Upheld ∧ Edits W g k) ⟨(hu.purge id p).upheld, hpurge⟩
      (fun k v hk hid hv => ?_) h).2
    exact ⟨(Extended.link hk.1 hid hv).upheld, hk.2.tail ⟨hk.1, .link (hW p rfl) hid hv⟩⟩
  | removeValue id p v =>
    obtain ⟨b, hr⟩ := exists_of_map_snd_ok h
    obtain ⟨-, rfl | ⟨hmem, rfl⟩⟩ := removeValue_cases hr
    · exact .refl
    · exact .single ⟨hu, .unlink (hW p rfl) hmem⟩
  | clearProperty id p =>
    obtain ⟨old, hc⟩ := exists_of_map_snd_ok h
    obtain rfl := eq_purge_of_clearProperty hc
    exact .single ⟨hu, .purge (hW p rfl)⟩
  | removeNodes ids =>
    obtain ⟨out, hr⟩ := exists_of_map_snd_ok h
    obtain ⟨hc, hrem⟩ := removeNodes_remains hu.toCoherent hr
    exact .single ⟨hu, .remove hc hrem⟩

end ModelCompiler
