import ModelCompiler.Proofs.Store.Create

/-!
Packages and their children. A node with a path is a child of exactly one package, and leads to it
under `package`.
-/
open ModelCompiler.Action

namespace ModelCompiler

namespace Path

theorem length_beginnings (cs : List Char) : ∀ b ∈ beginnings cs, b.length < cs.length := by
  fun_induction beginnings cs with
  | case1 => simp
  | case2 cs ih =>
    simp only [List.mem_cons, List.mem_map, List.length_cons]
    rintro b (rfl | ⟨b, hb, rfl⟩)
    · simp
    · have := ih b hb
      simp only [List.length_cons]
      omega
  | case3 c cs hne ih =>
    simp only [List.mem_map, List.length_cons]
    rintro b ⟨b, hb, rfl⟩
    have := ih b hb
    simp only [List.length_cons]
    omega

theorem pairwise_beginnings (cs : List Char) :
    (beginnings cs).Pairwise fun a b => a.length < b.length := by
  fun_induction beginnings cs with
  | case1 => simp
  | case2 cs ih =>
    rw [List.pairwise_cons, List.pairwise_map]
    exact ⟨by simp, ih.imp (by simp)⟩
  | case3 c cs hne ih =>
    rw [List.pairwise_map]
    exact ih.imp (by simp)

theorem chars_of_ofChars {cs : List Char} {p : Path} (h : (ofChars cs).toOption = some p) :
    p.chars = cs := by
  unfold ofChars at h
  split at h
  · obtain rfl := Option.some.inj h
    rfl
  · simp [Except.toOption] at h

theorem length_packages {p q : Path} (h : q ∈ p.packages) : q.chars.length < p.chars.length := by
  obtain ⟨b, hb, hq⟩ := List.mem_filterMap.1 h
  rw [chars_of_ofChars hq]
  exact length_beginnings _ b (List.mem_reverse.1 hb)

theorem pairwise_packages (p : Path) :
    p.packages.Pairwise fun q r => r.chars.length < q.chars.length := by
  rw [packages, List.pairwise_filterMap, List.pairwise_reverse]
  refine (pairwise_beginnings p.chars).imp fun {a b} hab q hq r hr => ?_
  rw [chars_of_ofChars hq, chars_of_ofChars hr]
  exact hab

theorem nodup_packages (p : Path) : (p :: p.packages).Nodup := by
  refine List.Pairwise.imp (fun hab he => ?_) (List.pairwise_cons.2
    ⟨fun q hq => length_packages hq, pairwise_packages p⟩)
  rw [he] at hab
  exact Nat.lt_irrefl _ hab

end Path

namespace Graph

variable {id : NodeId} {path : Path}

/-- Membership in packages is kept on both sides, and the root package is always there. -/
structure Housed (g : Graph) : Prop where
  package_of_child : ∀ P m, m ∈ g.children P → g.values m "package" = [P]
  child_of_package : ∀ m P, P ∈ g.values m "package" → m ∈ g.children P
  children_nodup : ∀ P, (g.children P).Nodup
  parent_isPackage : ∀ P m, m ∈ g.children P → g.isPackage P = true
  child_path : ∀ P m, m ∈ g.children P → ∃ p, g.path? m = some p
  root_isPackage : g.isPackage root = true
  root_bootstrap : g.lifetime? root = some .bootstrap
  classifier_bootstrap : ∀ c, g.packageClassifier = some c → g.lifetime? c = some .bootstrap

theorem Housed.congr {g h : Graph} (hh : h.Housed) (e : g.frame = h.frame)
    (hp : ∀ id, g.values id "package" = h.values id "package")
    (hc : ∀ id, g.values id "children" = h.values id "children") : g.Housed where
  package_of_child P m hm := by
    rw [hp]
    exact hh.package_of_child P m (by simpa [children, hc] using hm)
  child_of_package m P hm := by
    have := hh.child_of_package m P (by rwa [hp] at hm)
    simpa [children, hc] using this
  children_nodup P := by
    have := hh.children_nodup P
    simpa [children, hc] using this
  parent_isPackage P m hm := by
    rw [isPackage_congr e]
    exact hh.parent_isPackage P m (by simpa [children, hc] using hm)
  child_path P m hm := by
    rw [path?_congr e]
    exact hh.child_path P m (by simpa [children, hc] using hm)
  root_isPackage := by
    rw [isPackage_congr e]
    exact hh.root_isPackage
  root_bootstrap := by
    rw [lifetime?_congr e]
    exact hh.root_bootstrap
  classifier_bootstrap c hcl := by
    rw [lifetime?_congr e]
    exact hh.classifier_bootstrap c (packageClassifier_congr e ▸ hcl)

section Attach

variable {g : Graph} {id parent : NodeId}

@[simp]
theorem frame_attach (g : Graph) (id parent : NodeId) : (g.attach id parent).frame = g.frame := by
  simp [attach]

theorem usages_attach (g : Graph) (id parent : NodeId) : (g.attach id parent).usages =
    ⟨parent, "children", id, g.isBackReference "children"⟩ ::
      ⟨id, "package", parent, g.isBackReference "package"⟩ :: g.usages := by
  rw [attach, usages_link, usages_link, isBackReference_congr (frame_link g id parent "package")]

theorem values_attach (hid : g.contains id = true) (hp : g.contains parent = true)
    (j : NodeId) (q : String) : (g.attach id parent).values j q =
      if j = parent ∧ q = "children" then g.children parent ++ [id]
      else if j = id ∧ q = "package" then g.values id "package" ++ [parent]
      else g.values j q := by
  rw [attach, values_link (by rwa [contains_congr (frame_link _ _ _ _)]), values_link hid,
    values_link hid]
  by_cases hj : j = parent ∧ q = "children"
  · have : ¬("children" = "package") := by decide
    simp [hj, this, children]
  · simp [hj]

theorem Coherent.attach (hc : g.Coherent) (hid : g.contains id = true)
    (hp : g.contains parent = true) : (g.attach id parent).Coherent := by
  have h : (g.link id "package" parent).Coherent := hc.link hid hp
  have e := frame_link g id parent "package"
  exact h.link (by rwa [contains_congr e]) (by rwa [contains_congr e])

theorem Flagged.attach (hf : g.Flagged) (id parent : NodeId) : (g.attach id parent).Flagged :=
  (hf.link id parent "package").link parent id "children"

end Attach

def found (g : Graph) (spec : NodeSpec) (lifetime : Lifetime) (package : Bool) (parent : NodeId) :
    Graph :=
  (g.seat spec lifetime package).attach g.fresh parent

section Found

variable {g : Graph} {spec : NodeSpec} {lifetime : Lifetime} {package : Bool} {parent : NodeId}

@[simp]
theorem frame_found (g : Graph) (spec : NodeSpec) (lifetime : Lifetime) (package : Bool)
    (parent : NodeId) : (g.found spec lifetime package parent).frame =
      (g.seat spec lifetime package).frame := by
  simp [found]

theorem usages_found (g : Graph) (spec : NodeSpec) (lifetime : Lifetime) (package : Bool)
    (parent : NodeId) : (g.found spec lifetime package parent).usages =
      ⟨parent, "children", g.fresh, g.isBackReference "children"⟩ ::
        ⟨g.fresh, "package", parent, g.isBackReference "package"⟩ :: g.usages := by
  rw [found, usages_attach]
  rfl

theorem values_found (hi : g.Indexed) (hp : g.contains parent = true) (j : NodeId) (q : String) :
    (g.found spec lifetime package parent).values j q =
      if j = parent ∧ q = "children" then g.children parent ++ [g.fresh]
      else if j = g.fresh ∧ q = "package" then [parent]
      else g.values j q := by
  have hfresh : g.values g.fresh "package" = [] := by
    rw [values_eq, propertiesOf_of_not_contains hi.contains_fresh, Table.values_empty]
  rw [found, values_attach (by simp [contains_seat _ _ _ hi])
    (contains_seat_of_contains _ _ _ hi hp)]
  simp only [children, values_seat _ _ _ hi, hfresh, List.nil_append]

theorem Coherent.found (hc : g.Coherent) (ha : g.Admissible spec lifetime package)
    (hp : g.contains parent = true) : (g.found spec lifetime package parent).Coherent :=
  (hc.seat ha).attach (by simp [contains_seat _ _ _ hc.toIndexed])
    (contains_seat_of_contains _ _ _ hc.toIndexed hp)

theorem Housed.found (hh : g.Housed) (hc : g.Coherent) (hpath : spec.path = some path)
    (hp : g.isPackage parent = true) : (g.found spec lifetime package parent).Housed := by
  have hi := hc.toIndexed
  have hlive := hi.isPackage_live hp
  have hne : parent ≠ g.fresh := hi.ne_fresh hlive
  have e := frame_found g spec lifetime package parent
  have hold {P m : NodeId} (h : m ∈ g.children P) : m ≠ g.fresh :=
    hc.toClosed.ne_fresh_of_mem hi h
  have hchildren (P : NodeId) : (g.found spec lifetime package parent).children P =
      if P = parent then g.children parent ++ [g.fresh] else g.children P := by
    rw [children, values_found hi hlive]
    have : ¬("children" = "package") := by decide
    by_cases hP : P = parent <;> simp [hP, this, children]
  have hpackage (m : NodeId) : (g.found spec lifetime package parent).values m "package" =
      if m = g.fresh then [parent] else g.values m "package" := by
    rw [values_found hi hlive]
    have : ¬("package" = "children") := by decide
    simp [this]
  have hpath? (m : NodeId) : (g.found spec lifetime package parent).path? m =
      if m = g.fresh then spec.path else g.path? m := by
    rw [path?_congr e, path?_seat _ _ _ hi]
  have hmem {P m : NodeId} (h : m ∈ (g.found spec lifetime package parent).children P) :
      (P = parent ∧ m = g.fresh) ∨ (m ≠ g.fresh ∧ m ∈ g.children P) := by
    rw [hchildren] at h
    split at h
    · rename_i hP
      rcases List.mem_append.1 h with h | h
      · exact .inr ⟨hold h, hP ▸ h⟩
      · exact .inl ⟨hP, List.mem_singleton.1 h⟩
    · exact .inr ⟨hold h, h⟩
  refine ⟨fun P m hm => ?_, fun m P hm => ?_, fun P => ?_, fun P m hm => ?_, fun P m hm => ?_, ?_,
    ?_, fun c hcl => ?_⟩
  · rcases hmem hm with ⟨rfl, rfl⟩ | ⟨hne, hm⟩
    · simp [hpackage]
    · rw [hpackage, if_neg hne]
      exact hh.package_of_child P m hm
  · rw [hpackage] at hm
    rw [hchildren]
    split at hm
    · rename_i hmf
      simp [List.mem_singleton.1 hm, hmf]
    · have := hh.child_of_package m P hm
      split
      · rename_i hP
        exact List.mem_append_left _ (hP ▸ this)
      · exact this
  · rw [hchildren]
    split
    · exact (hh.children_nodup parent).append (List.nodup_singleton _)
        (by simpa using fun h => hold h rfl)
    · exact hh.children_nodup P
  · rw [isPackage_congr e, isPackage_seat, Bool.or_eq_true]
    rcases hmem hm with ⟨rfl, -⟩ | ⟨-, hm⟩
    · exact .inr hp
    · exact .inr (hh.parent_isPackage P m hm)
  · rw [hpath?]
    rcases hmem hm with ⟨-, rfl⟩ | ⟨hne, hm⟩
    · exact ⟨path, by simp [hpath]⟩
    · rw [if_neg hne]
      exact hh.child_path P m hm
  · rw [isPackage_congr e, isPackage_seat, hh.root_isPackage, Bool.or_true]
  · rw [lifetime?_congr e, lifetime?_seat _ _ _ hi,
      if_neg (hi.ne_fresh (contains_of_lifetime? hh.root_bootstrap))]
    exact hh.root_bootstrap
  · rw [packageClassifier_congr e, packageClassifier_seat] at hcl
    have hb := hh.classifier_bootstrap c hcl
    rw [lifetime?_congr e, lifetime?_seat _ _ _ hi, if_neg (hi.ne_fresh (contains_of_lifetime? hb))]
    exact hb

theorem Flagged.found (hf : g.Flagged) (spec : NodeSpec) (lifetime : Lifetime) (package : Bool)
    (parent : NodeId) : (g.found spec lifetime package parent).Flagged :=
  (hf.seat spec lifetime package).attach g.fresh parent

end Found

structure Sound (g : Graph) : Prop extends Coherent g, Housed g, Flagged g

namespace Sound

variable {g : Graph} (hs : g.Sound) {id value : NodeId} {p : String}
include hs

theorem link (hid : g.contains id = true) (hv : g.contains value = true) (hp : p ≠ "package")
    (hc : p ≠ "children") : (g.link id p value).Sound :=
  { hs.toCoherent.link hid hv, hs.toFlagged.link id value p,
    hs.toHoused.congr (frame_link g id value p)
      (fun j => by rw [values_link hid, if_neg fun h => hp h.2.symm])
      (fun j => by rw [values_link hid, if_neg fun h => hc h.2.symm]) with }

theorem of_trims {g' : Graph} (t : Trims g g') (hc : g'.Coherent)
    (hp : ∀ j, g'.values j "package" = g.values j "package")
    (hk : ∀ j, g'.values j "children" = g.values j "children") : g'.Sound :=
  { hc, hs.toHoused.congr t.frame hp hk,
    hs.toFlagged.of_sublist t.usages (backReferences_congr t.frame) with }

theorem unlink (hmem : value ∈ g.values id p) (hp : p ≠ "package") (hc : p ≠ "children") :
    (g.unlink id p value).Sound :=
  have hid := contains_of_mem_values hmem
  hs.of_trims (trims_unlink hid) (hs.toCoherent.unlink hmem)
    (fun j => by rw [values_unlink hid, if_neg fun h => hp h.2.symm])
    (fun j => by rw [values_unlink hid, if_neg fun h => hc h.2.symm])

theorem purge (id : NodeId) (hp : p ≠ "package") (hc : p ≠ "children") : (g.purge id p).Sound :=
  hs.of_trims (trims_purge hs.toMirrored id p) (hs.toCoherent.purge id p)
    (fun j => by rw [values_purge, if_neg fun h => hp h.2.symm])
    (fun j => by rw [values_purge, if_neg fun h => hc h.2.symm])

end Sound

/-- A row of packages founded one in the other, the outermost in a package that was there. The last
of them is the one asked for. -/
inductive Founded (lifetime : Lifetime) (g : Graph) : Graph → NodeId → Prop
  | refl {id : NodeId} : g.isPackage id = true → Founded lifetime g g id
  | step {h : Graph} {path : Path} {parent : NodeId} : Founded lifetime g h parent →
      h.lookup path = none →
      Founded lifetime g
        (h.found { classifier := h.packageClassifier, path := some path } lifetime true parent)
        h.fresh

section Founded

variable {g h : Graph} {lifetime : Lifetime} {package : NodeId}

theorem Founded.isPackage (hf : Founded lifetime g h package) : h.isPackage package = true := by
  cases hf with
  | refl hp => exact hp
  | step =>
    rw [isPackage_congr (frame_found _ _ _ _ _), isPackage_seat]
    simp

theorem admissible_package (hcl : ∀ c, g.packageClassifier = some c → g.contains c = true)
    (hl : lifetime.isShared = true) (hpath : g.lookup path = none) :
    g.Admissible { classifier := g.packageClassifier, path := some path } lifetime true where
  path_free p hp := by
    obtain rfl := Option.some.inj hp
    exact hpath
  classifier_live c hc := hcl c hc
  owner_plain o ho := by simp [ho, Lifetime.isShared] at hl
  ephemeral_path o ho := by simp [ho, Lifetime.isShared] at hl
  package_shared _ := hl
  implicit_package _ := rfl

theorem Founded.sound (hf : Founded lifetime g h package) (hl : lifetime.isShared = true)
    (hs : g.Sound) : h.Sound := by
  induction hf with
  | refl => exact hs
  | step hf hpath ih =>
    have hcl (c : NodeId) (hc : _ = some c) := contains_of_lifetime? (ih.classifier_bootstrap c hc)
    exact { ih.toCoherent.found (admissible_package hcl hl hpath) (ih.isPackage_live hf.isPackage),
      ih.toHoused.found ih.toCoherent rfl hf.isPackage, ih.toFlagged.found _ _ _ _ with }

theorem Founded.contains (hf : Founded lifetime g h package) (hl : lifetime.isShared = true)
    (hs : g.Sound) (hid : g.contains id = true) : h.contains id = true := by
  induction hf with
  | refl => exact hid
  | step hf hpath ih =>
    rw [contains_congr (frame_found _ _ _ _ _)]
    exact contains_seat_of_contains _ _ _ (hf.sound hl hs).toIndexed ih

theorem insertNode_eq (g : Graph) (spec : NodeSpec) (lifetime : Lifetime) :
    insertNode spec lifetime g = .ok (.ok g.fresh, (g.insert spec lifetime).2) := by
  rw [← insert_fst spec lifetime g]
  rfl

theorem insert_package (hl : lifetime.isShared = true) (spec : NodeSpec)
    (hp : spec.path = some path) (g : Graph) :
    { (g.insert spec lifetime).2 with packages := g.fresh :: (g.insert spec lifetime).2.packages } =
      g.seat spec lifetime true := by
  obtain ⟨c, n, p, s⟩ := spec
  obtain rfl : p = some path := hp
  cases lifetime with
  | bootstrap | implicit => rfl
  | persistent s | ephemeral o => simp [Lifetime.isShared] at hl

theorem ensurePackage_ensures (hl : lifetime.isShared = true) :
    ∀ {paths : List Path}, paths.Nodup → ∀ {g : Graph}, g.isPackage root = true →
      Ensures (ensurePackage lifetime paths) g
        (fun id h => Founded lifetime g h id ∧ ∀ p ∉ paths, h.lookup p = g.lookup p)
        fun e h => h = g ∧ ∃ path reason, e = .invalidPath path reason
  | [], _, g, hroot => ensures_pure ⟨.refl hroot, fun _ _ => rfl⟩
  | path :: outer, hn, g, hroot => by
    rw [List.nodup_cons] at hn
    unfold ensurePackage
    refine ensures_get_bind ?_
    cases hp : g.lookup path with
    | some id =>
      simp only
      split
      · rename_i hpkg
        exact ensures_pure ⟨.refl hpkg, fun _ _ => rfl⟩
      · exact ensures_throw ⟨rfl, _, _, rfl⟩
    | none =>
      refine ensures_bind ((ensurePackage_ensures hl hn.2 hroot).imp fun parent h hp' => ?_)
      obtain ⟨hf, hkeep⟩ := hp'
      have hfree : h.lookup path = none := by rw [hkeep path hn.1, hp]
      refine ensures_get_bind ?_
      refine ensures_bind (ensures_of_eq (insertNode_eq _ _ _) ?_)
      refine ensures_modify_bind (ensures_pure ?_)
      rw [insert_package hl _ rfl]
      refine ⟨hf.step hfree, fun p hp => ?_⟩
      rw [lookup_congr (frame_attach _ _ _), lookup_seat]
      have hne : path ≠ p := fun e => hp (e ▸ List.mem_cons_self)
      simp only [Option.some.injEq, hne, if_false]
      exact hkeep p fun h => hp (List.mem_cons_of_mem _ h)

end Founded

section Elements

variable {g : Graph} {spec : NodeSpec} {lifetime : Lifetime}

def enroll (g : Graph) (lifetime : Lifetime) (id : NodeId) : Graph :=
  match lifetime with
  | .persistent source => { g with bySource := g.bySource.push source id }
  | _ => g

theorem enroll_touch (g : Graph) (lifetime : Lifetime) (id a : NodeId) :
    (g.touch a).enroll lifetime id = (g.enroll lifetime id).touch a := by
  cases lifetime with
  | persistent s =>
    have hnode : (g.enroll (.persistent s) id).node? a = g.node? a := rfl
    simp only [touch, hnode]
    cases g.node? a >>= (·.owner) <;> rfl
  | bootstrap | implicit | ephemeral o => rfl

theorem enroll_link (g : Graph) (lifetime : Lifetime) (id a v : NodeId) (p : String) :
    (g.link a p v).enroll lifetime id = (g.enroll lifetime id).link a p v := by
  cases lifetime with
  | persistent s =>
    by_cases hb : p ∈ g.backReferences
    · simp [link, touchUnlessBack, isBackReference, enroll, modifyNode, hb]
    · simp only [link, touchUnlessBack, isBackReference, modifyNode, hb, decide_false,
        Bool.false_eq_true, if_false, enroll_touch]
      simp [enroll, hb]
  | bootstrap | implicit | ephemeral o => rfl

theorem enroll_attach (g : Graph) (lifetime : Lifetime) (id parent : NodeId) :
    (g.attach id parent).enroll lifetime id = (g.enroll lifetime id).attach id parent := by
  rw [attach, enroll_link, enroll_link, attach]

theorem insert_element (hl : ∀ o, lifetime ≠ .ephemeral o) (spec : NodeSpec)
    (hp : spec.path = some path) (g : Graph) :
    Graph.enroll { (g.insert spec lifetime).2 with
      byName := (g.insert spec lifetime).2.byName.push path.name g.fresh } lifetime g.fresh =
      g.seat spec lifetime false := by
  obtain ⟨c, n, p, s⟩ := spec
  obtain rfl : p = some path := hp
  cases lifetime with
  | bootstrap | implicit | persistent s => rfl
  | ephemeral o => exact absurd rfl (hl o)

theorem checkClassifier_ensures (classifier : Option NodeId) :
    Ensures (checkClassifier classifier) g
      (fun _ h => h = g ∧ ∀ c, classifier = some c → g.contains c = true)
      fun e h => h = g ∧ ∃ c, classifier = some c ∧ g.contains c = false ∧ e = .nodeNotFound c := by
  unfold checkClassifier
  cases classifier with
  | none => exact ensures_pure ⟨rfl, by simp⟩
  | some c =>
    refine ensures_get_bind ?_
    cases hc : g.contains c with
    | true =>
      simp only [Bool.not_true, Bool.false_eq_true, if_false]
      exact ensures_pure ⟨rfl, by simp [hc]⟩
    | false =>
      simp only [Bool.not_false, if_true]
      exact ensures_throw ⟨rfl, c, rfl, hc, rfl⟩

inductive Refusal (g : Graph) (spec : NodeSpec) : GraphError → Prop
  | duplicate (path : String) : Refusal g spec (.duplicatePath path)
  | invalid (path reason : String) : Refusal g spec (.invalidPath path reason)
  | classifier {c : NodeId} : spec.classifier = some c → g.contains c = false →
      Refusal g spec (.nodeNotFound c)

def around (lifetime : Lifetime) : Lifetime :=
  if lifetime = .bootstrap then .bootstrap else .implicit

theorem isShared_around (lifetime : Lifetime) : (around lifetime).isShared = true := by
  unfold around
  split <;> rfl

/-- What the creation of an element at a path comes to: packages are founded, then the element. -/
structure Established (g : Graph) (spec : NodeSpec) (path : Path) (lifetime : Lifetime)
    (id : NodeId) (g' : Graph) : Prop where
  intro ::
  founded : ∃ h parent, Founded (around lifetime) g h parent ∧ h.lookup path = none ∧
    id = h.fresh ∧
    (∀ c, spec.classifier = some c → g.contains c = true) ∧
    g' = h.found { spec with path := some path } lifetime false parent

theorem createElement_ensures (hroot : g.isPackage root = true) (path : Path)
    (hl : ∀ o, lifetime ≠ .ephemeral o) :
    Ensures (createElement spec path lifetime) g
      (fun id h => Established g spec path lifetime id (h.enroll lifetime id))
      fun e h => h = g ∧ Refusal g spec e := by
  unfold createElement
  refine ensures_get_bind ?_
  dsimp only
  by_cases hfree : (g.lookup path).isSome = true
  · rw [if_pos hfree]
    exact ensures_bind (ensures_throw ⟨rfl, .duplicate _⟩)
  · rw [if_neg hfree]
    refine ensures_bind ((checkClassifier_ensures spec.classifier).mono (fun _ h hcl => ?_) ?_)
    · obtain ⟨rfl, hcl⟩ := hcl
      refine ensures_bind ((ensurePackage_ensures (isShared_around lifetime)
        (List.nodup_cons.1 (Path.nodup_packages path)).2 hroot).mono (fun parent g' hp => ?_) ?_)
      · obtain ⟨hf, hkeep⟩ := hp
        refine ensures_bind (ensures_of_eq (insertNode_eq _ _ _) ?_)
        refine ensures_modify_bind (ensures_pure ⟨g', parent, hf, ?_, rfl, hcl, ?_⟩)
        · rw [hkeep path (List.nodup_cons.1 (Path.nodup_packages path)).1]
          simpa using hfree
        · rw [enroll_attach, insert_element hl _ rfl]
          rfl
      · rintro e g' ⟨rfl, path, reason, rfl⟩
        exact ⟨rfl, .invalid path reason⟩
    · rintro e h ⟨rfl, c, hcs, hcd, rfl⟩
      exact ⟨rfl, .classifier hcs hcd⟩

theorem Established.sound {g' : Graph} (he : Established g spec path lifetime id g') (hs : g.Sound)
    (hl : ∀ o, lifetime ≠ .ephemeral o) (hl' : lifetime ≠ .implicit) : g'.Sound := by
  obtain ⟨h, parent, hf, hfree, -, hcl, rfl⟩ := he.founded
  have hparent := hf.isPackage
  have hs' := hf.sound (isShared_around lifetime) hs
  have hlive (c : NodeId) (hcs : spec.classifier = some c) : h.contains c = true :=
    hf.contains (isShared_around lifetime) hs (hcl c hcs)
  have hpath (p : Path) (hp : some path = some p) : h.lookup p = none := by
    obtain rfl := Option.some.inj hp
    exact hfree
  have ha : h.Admissible { spec with path := some path } lifetime false :=
    ⟨hpath, hlive, fun o ho => absurd ho (hl o), fun o ho => absurd ho (hl o), by simp,
      fun h => absurd h hl'⟩
  exact { hs'.toCoherent.found ha (hs'.isPackage_live hparent),
    hs'.toHoused.found hs'.toCoherent rfl hparent, hs'.toFlagged.found _ _ _ _ with }

theorem createBootstrap_ensures (hroot : g.isPackage root = true) :
    Ensures (createBootstrap spec) g
      (fun id h => ∃ path, spec.path = some path ∧ Established g spec path .bootstrap id h)
      fun e h => h = g ∧ Refusal g spec e := by
  unfold createBootstrap
  cases hp : spec.path with
  | none => exact ensures_throw ⟨rfl, .invalid _ _⟩
  | some path =>
    exact (createElement_ensures hroot path (by simp)).imp fun id h he => ⟨path, rfl, he⟩

theorem createPersistent_ensures (hroot : g.isPackage root = true) (source : SourceId) :
    Ensures (createPersistent source spec) g
      (fun id h => (∃ path, spec.path = some path ∧
          Established g spec path (.persistent source) id h) ∨
        (spec.path = none ∧ (∀ c, spec.classifier = some c → g.contains c = true) ∧
          id = g.fresh ∧ h = g.seat spec (.persistent source) false))
      fun e h => h = g ∧ Refusal g spec e := by
  unfold createPersistent
  cases hp : spec.path with
  | some path =>
    refine ensures_bind ((createElement_ensures hroot path (by simp)).imp fun id h he => ?_)
    exact ensures_modify_bind (ensures_pure (.inl ⟨path, rfl, he⟩))
  | none =>
    refine ensures_bind ((checkClassifier_ensures spec.classifier).mono (fun _ h hcl => ?_) ?_)
    · obtain ⟨rfl, hcl⟩ := hcl
      refine ensures_bind (ensures_of_eq (insertNode_eq _ _ _) ?_)
      refine ensures_modify_bind (ensures_pure (.inr ⟨rfl, hcl, rfl, ?_⟩))
      obtain ⟨c, n, p, s⟩ := spec
      obtain rfl : p = none := hp
      rfl
    · rintro e h ⟨rfl, c, hcs, hcd, rfl⟩
      exact ⟨rfl, .classifier hcs hcd⟩

theorem createEphemeral_ensures (owner : NodeId) :
    Ensures (createEphemeral owner spec) g
      (fun id h => ∃ root, g.ownerRoot? owner = some root ∧ spec.path = none ∧
        (∀ c, spec.classifier = some c → g.contains c = true) ∧
        id = g.fresh ∧ h = g.seat spec (.ephemeral root) false)
      fun _ h => h = g ∧ (spec.path ≠ none ∨
        (∃ c, spec.classifier = some c ∧ g.contains c = false) ∨ g.contains owner = false) := by
  unfold createEphemeral
  cases hp : spec.path with
  | some path => exact ensures_bind (ensures_throw ⟨rfl, .inl (by simp)⟩)
  | none =>
    refine ensures_bind ((checkClassifier_ensures spec.classifier).mono (fun _ h hcl => ?_) ?_)
    · obtain ⟨rfl, hcl⟩ := hcl
      refine ensures_get_bind ?_
      cases ho : h.ownerRoot? owner with
      | none =>
        refine ensures_throw ⟨rfl, .inr (.inr ?_)⟩
        simpa [ownerRoot?, contains] using ho
      | some root =>
        refine ensures_bind (ensures_of_eq (insertNode_eq _ _ _) ?_)
        refine ensures_modify_bind (ensures_pure ⟨root, rfl, rfl, hcl, rfl, ?_⟩)
        obtain ⟨c, n, p, s⟩ := spec
        obtain rfl : p = none := hp
        rfl
    · rintro e h ⟨rfl, c, hcs, hcd, -⟩
      exact ⟨rfl, .inr (.inl ⟨c, hcs, hcd⟩)⟩

theorem Coherent.ownerRoot?_plain (hc : g.Coherent) {owner root : NodeId}
    (h : g.ownerRoot? owner = some root) :
    ∃ l, g.lifetime? root = some l ∧ l.isEphemeral = false := by
  rw [ownerRoot?_eq] at h
  obtain ⟨l, hl, hr⟩ := Option.map_eq_some_iff.1 h
  cases l with
  | ephemeral o =>
    obtain rfl : o = root := hr
    obtain ⟨l, hl'⟩ := exists_lifetime? (hc.owner_live owner o hl)
    exact ⟨l, hl', hc.owner_plain owner o hl l hl'⟩
  | bootstrap | implicit | persistent s =>
    obtain rfl : owner = root := hr
    exact ⟨_, hl, rfl⟩

theorem Coherent.admissible_part (hc : g.Coherent) {owner root : NodeId}
    (h : g.ownerRoot? owner = some root) (hp : spec.path = none)
    (hcl : ∀ c, spec.classifier = some c → g.contains c = true) :
    g.Admissible spec (.ephemeral root) false where
  path_free p hp' := by simp [hp] at hp'
  classifier_live := hcl
  owner_plain o ho := by
    obtain rfl := Lifetime.ephemeral.inj ho
    exact hc.ownerRoot?_plain h
  ephemeral_path _ _ := hp
  package_shared h := by simp at h
  implicit_package h := by simp at h

theorem admissible_pathless (hp : spec.path = none) (source : SourceId)
    (hcl : ∀ c, spec.classifier = some c → g.contains c = true) :
    g.Admissible spec (.persistent source) false where
  path_free p hp' := by simp [hp] at hp'
  classifier_live := hcl
  owner_plain o ho := by simp at ho
  ephemeral_path o ho := by simp at ho
  package_shared h := by simp at h
  implicit_package h := by simp at h

theorem Housed.seat (hh : g.Housed) (hc : g.Coherent) :
    (g.seat spec lifetime false).Housed := by
  have hi := hc.toIndexed
  refine ⟨fun P m hm => ?_, fun m P hm => ?_, fun P => ?_, fun P m hm => ?_, fun P m hm => ?_, ?_,
    ?_, fun c hcl => ?_⟩
  · rw [children, values_seat _ _ _ hi] at hm
    rw [values_seat _ _ _ hi]
    exact hh.package_of_child P m hm
  · rw [values_seat _ _ _ hi] at hm
    rw [children, values_seat _ _ _ hi]
    exact hh.child_of_package m P hm
  · rw [children, values_seat _ _ _ hi]
    exact hh.children_nodup P
  · rw [children, values_seat _ _ _ hi] at hm
    simp [isPackage_seat, hh.parent_isPackage P m hm]
  · rw [children, values_seat _ _ _ hi] at hm
    rw [path?_seat _ _ _ hi, if_neg (hi.ne_fresh (hc.value_live _ _ _ hm))]
    exact hh.child_path P m hm
  · simp [isPackage_seat, hh.root_isPackage]
  · rw [lifetime?_seat _ _ _ hi, if_neg (hi.ne_fresh (contains_of_lifetime? hh.root_bootstrap))]
    exact hh.root_bootstrap
  · have hb := hh.classifier_bootstrap c hcl
    rw [lifetime?_seat _ _ _ hi, if_neg (hi.ne_fresh (contains_of_lifetime? hb))]
    exact hb

theorem Sound.seat (hs : g.Sound) (ha : g.Admissible spec lifetime false) :
    (g.seat spec lifetime false).Sound :=
  { hs.toCoherent.seat ha, hs.toHoused.seat hs.toCoherent with
    declared := hs.declared
    rising := hs.rising }

end Elements

end Graph

end ModelCompiler
