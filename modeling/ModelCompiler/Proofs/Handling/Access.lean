import ModelCompiler.Proofs.Resolving
import ModelCompiler.Proofs.Segments

/-!
Access levels and the tree of packages. Whether a reference is allowed is decided on paths. Around a
package stand those at the beginnings of its path, so on paths the packages around it are found, all
but the root package: the path of a package says nothing of it.
-/
open ModelCompiler.Graph

namespace ModelCompiler

theorem Graph.Edit.package_root {g g' : Graph} (hu : g.Upheld)
    (h : Edit (fun p => p ≠ "package" ∧ p ≠ "children") g g') :
    g'.values root "package" = g.values root "package" := by
  have hroot := contains_of_lifetime? hu.root_bootstrap
  cases h with
  | declare p =>
    unfold Graph.declareBackReference
    split <;> rfl
  | link hW hid _ => rw [values_link hid, if_neg fun h => hW.1 h.2.symm]
  | unlink hW hmem =>
    rw [values_unlink (contains_of_mem_values hmem), if_neg fun h => hW.1 h.2.symm]
  | purge hW => rw [values_purge, if_neg fun h => hW.1 h.2.symm]
  | seat => exact values_seat _ _ _ hu.toIndexed root "package"
  | found _ _ _ _ _ hparent =>
    rw [values_found hu.toIndexed (hu.isPackage_live hparent), if_neg fun h =>
      absurd h.2 (by decide), if_neg fun h => hu.toIndexed.ne_fresh hroot h.1]
  | remove hc hr =>
    exact hr.values root "package" (contains_of_lifetime? (hr.bootstrap root hu.root_bootstrap))
      (by decide)

theorem Reachable.package_root {g : Graph} (h : Reachable g) : g.values root "package" = [] := by
  induction h with
  | initial => exact Graph.initial_landmarks.2.2.1
  | step r hg hm hr ih =>
    exact (Request.edits hg.attained.upheld hm (fun _ _ _ => by decide) hr).keeps
      (fun _ _ hu he ht => (he.package_root hu).trans ht) ih

namespace Graph

variable {g : Graph} {P Q : NodeId} {p q : Path}

def Encloses (g : Graph) (Q P : NodeId) : Prop :=
  Relation.ReflTransGen (fun a b => g.packageOf? a = some b) P Q

theorem packageOf?_root (hg : Reachable g) : g.packageOf? root = none := by
  simp [packageOf?, value?, hg.package_root]

theorem packageOf?_cases (hg : Reachable g) (hP : g.path? P = some p) (hroot : P ≠ root) :
    p.package = none ∧ g.packageOf? P = some root ∨
      ∃ R r, p.package = some r ∧ g.packageOf? P = some R ∧ g.path? R = some r := by
  obtain ⟨R, hR, hv⟩ := hg.placed P p hP hroot
  have hpackage : g.packageOf? P = some R := by simp [packageOf?, value?, hv]
  unfold home? at hR
  cases hr : p.package with
  | none =>
    rw [hr, Option.elim_none, Option.some.injEq] at hR
    exact .inl ⟨rfl, hR ▸ hpackage⟩
  | some r =>
    rw [hr, Option.elim_some] at hR
    exact .inr ⟨R, r, rfl, hpackage, (hg.stocked.lookup_iff r R).1 hR⟩

theorem exists_package (hg : Reachable g) (hP : g.path? P = some p) (hroot : P ≠ root) :
    ∃ R r, g.packageOf? P = some R ∧ g.path? R = some r := by
  rcases packageOf?_cases hg hP hroot with ⟨-, h⟩ | ⟨R, r, -, h, hr⟩
  · exact ⟨root, _, h, hg.attained.path?_root⟩
  · exact ⟨R, r, h, hr⟩

theorem eq_of_path? (hg : Reachable g) (hP : g.path? P = some p) (hQ : g.path? Q = some p) :
    P = Q := by
  have hi := hg.stocked.toIndexed
  exact Option.some.inj (((hi.lookup_iff p P).2 hP).symm.trans ((hi.lookup_iff p Q).2 hQ))

theorem package_rootPackage : Metamodel.rootPackage.package = none := by
  decide +kernel

/-- Going from package to package takes segments off the end of the path, until the root package
comes, at which it ends. -/
theorem prefix_of_encloses (hg : Reachable g) (hP : g.path? P = some p) (hQ : g.path? Q = some q)
    (h : g.Encloses Q P) : q.segments <+: p.segments ∨ Q = root := by
  induction h using Relation.ReflTransGen.head_induction_on generalizing p with
  | refl =>
    obtain rfl : p = q := Option.some.inj (hP.symm.trans hQ)
    exact .inl List.prefix_rfl
  | @head P R hstep hrest ih =>
    have hroot : P ≠ root := by
      rintro rfl
      simp [packageOf?_root hg] at hstep
    rcases packageOf?_cases hg hP hroot with ⟨-, h⟩ | ⟨R', r, hr, h, hR⟩
    · -- the way ends here
      obtain rfl := Option.some.inj (h.symm.trans hstep)
      rcases hrest.cases_head with rfl | ⟨_, hnext, -⟩
      · exact .inr rfl
      · simp [packageOf?_root hg] at hnext
    · obtain rfl := Option.some.inj (h.symm.trans hstep)
      refine (ih hR).imp_left fun h => h.trans ?_
      rw [Path.segments_eq p, hr]
      exact List.prefix_append _ _

theorem encloses_of_segments (hg : Reachable g) (hP : g.path? P = some p) (hQ : g.path? Q = some q)
    (h : q.segments <+: p.segments) : g.Encloses Q P := by
  induction hn : p.segments.length using Nat.strong_induction_on generalizing P p with
  | _ n ih =>
    by_cases hpq : q = p
    · subst hpq
      exact eq_of_path? hg hP hQ ▸ .refl
    · rw [Path.segments_eq p, List.prefix_concat_iff] at h
      rcases h with h | h
      · exact absurd (Path.segments_inj (h.trans (Path.segments_eq p).symm)) hpq
      · have hroot : P ≠ root := by
          rintro rfl
          obtain rfl := Option.some.inj (hP.symm.trans hg.attained.path?_root)
          simp [package_rootPackage, Path.segments_ne_nil] at h
        rcases packageOf?_cases hg hP hroot with ⟨hr, -⟩ | ⟨R, r, hr, hstep, hR⟩
        · simp [hr, Path.segments_ne_nil] at h
        · have hlength : r.segments.length < n := by
            rw [← hn, Path.segments_eq p, hr]
            simp
          rw [hr] at h
          exact .head hstep (ih _ hlength hR h rfl)

theorem startsWith_iff_encloses (hg : Reachable g) (hP : g.path? P = some p)
    (hQ : g.path? Q = some q) (hroot : Q ≠ root) : p.startsWith q = true ↔ g.Encloses Q P := by
  rw [Path.startsWith_iff]
  exact ⟨encloses_of_segments hg hP hQ, fun h =>
    (prefix_of_encloses hg hP hQ h).resolve_right hroot⟩

def Carries (g : Graph) (id : NodeId) (stereotype : Path) : Prop :=
  ∃ s ∈ g.values id "stereotypes", g.path? s = some stereotype

end Graph

namespace Handler

variable {g : Graph} {n stub t P Q : NodeId} {p q : Path}

def notVisible (g : Graph) (n stub t : NodeId) : CompileError :=
  .constraintValidation (g.spanOf stub) s!"'{g.describe t}' is not visible from '{g.describe n}'"

def Access.stereotype : Access → Path
  | .package => Metamodel.privateAccess
  | .descendants => Metamodel.protectedAccess

theorem mem_accessLevels {level : Access} :
    level ∈ accessLevels g t ↔ g.Carries t level.stereotype := by
  have hne : Metamodel.protectedAccess ≠ Metamodel.privateAccess := by decide +kernel
  simp only [accessLevels, List.mem_filterMap, Carries]
  refine exists_congr fun s => and_congr_right fun _ => ?_
  cases level with
  | package => split_ifs with hprivate hprotected <;> simp [Access.stereotype, *]
  | descendants => split_ifs with hprivate hprotected <;> simp [Access.stereotype, hne.symm, *]

theorem seesTarget_eq_false_iff (hne : t ≠ n) (hq : g.packagePath? t = some q) :
    seesTarget g p n t = false ↔ g.Carries t Metamodel.privateAccess ∧ p ≠ q ∨
      g.Carries t Metamodel.protectedAccess ∧ p.startsWith q = false := by
  simp only [seesTarget, hne, decide_false, Bool.false_or, hq, List.all_eq_false, mem_accessLevels]
  constructor
  · rintro ⟨level, hlevel, hno⟩
    cases level with
    | package => exact .inl ⟨hlevel, by simpa [Access.allows] using hno⟩
    | descendants => exact .inr ⟨hlevel, by simpa [Access.allows] using hno⟩
  · rintro (⟨hlevel, hno⟩ | ⟨hlevel, hno⟩)
    · exact ⟨.package, hlevel, by simpa [Access.allows] using hno⟩
    · exact ⟨.descendants, hlevel, by simpa [Access.allows] using hno⟩

theorem describe_of_path? (h : g.path? t = some p) : g.describe t = p.text := by
  obtain ⟨node, hnode, hpath⟩ := Option.bind_eq_some_iff.1 h
  simp [describe, hnode, hpath]

theorem notVisible_inj (hg : Reachable g) {stub' t' : NodeId} (ht : g.path? t = some p)
    (hno : seesTarget g q n t' = false) (h : notVisible g n stub' t' = notVisible g n stub t) :
    t' = t := by
  have htext : g.describe t' = g.describe t := by
    have htoList := congrArg String.toList (CompileError.constraintValidation.inj h).2
    simp only [String.toList_append, List.append_cancel_left_eq,
      List.append_cancel_right_eq] at htoList
    exact String.toList_inj.1 htoList
  have hpath : ∃ p', g.path? t' = some p' := by
    cases hpackage : g.packageOf? t' with
    | none => simp [seesTarget, packagePath?, hpackage] at hno
    | some P =>
      have hs := hg.stocked
      exact hs.child_path P t' (hs.child_of_package t' P (List.mem_of_mem_head? hpackage))
  obtain ⟨p', hp'⟩ := hpath
  rw [describe_of_path? hp', describe_of_path? ht] at htext
  obtain rfl := Path.text_injective htext
  exact eq_of_path? hg hp' ht

theorem mem_accessErrors_iff (hg : Reachable g) (hn : g.packagePath? n = some q)
    (hstub : stub ∈ g.ownedBy n) (himport : g.isImportStub stub = true)
    (hbound : g.value? stub "resolvedNode" = some t) (ht : g.path? t = some p) :
    notVisible g n stub t ∈ accessErrors g n ↔ seesTarget g q n t = false := by
  have hlevels : notVisible g n stub t ≠ .constraintValidation (g.spanOf n)
      s!"only one access level can be specified on '{g.describe n}'" := by
    intro h
    have hfirst := congrArg (·.toList.head?) (CompileError.constraintValidation.inj h).2
    have hquote : (toString "'").toList.head? = some (Char.ofNat 39) := by decide
    have honly :
        (toString "only one access level can be specified on '").toList.head? = some 'o' := by
      decide
    simp only [String.toList_append, List.append_assoc, List.head?_append, hquote, honly,
      Option.some_or] at hfirst
    exact absurd hfirst (by decide)
  have hmem : notVisible g n stub t ∈ accessErrors g n ↔
      notVisible g n stub t ∈ (g.ownedBy n).filterMap (accessError? g q n) := by
    unfold accessErrors
    rw [hn]
    dsimp only
    split <;> simp [hlevels]
  rw [hmem, List.mem_filterMap]
  constructor
  · rintro ⟨stub', -, herror⟩
    unfold accessError? at herror
    split at herror
    · split at herror
      · rename_i t' _
        by_cases hsees : seesTarget g q n t' = true
        · simp [hsees] at herror
        · rw [if_neg hsees, Option.some.injEq] at herror
          rw [Bool.not_eq_true] at hsees
          exact notVisible_inj hg ht hsees herror ▸ hsees
      · simp at herror
    · simp at herror
  · intro hno
    exact ⟨stub, hstub, by simp [accessError?, himport, hbound, hno, notVisible]⟩

/-- Whether a reference is reported is read off the tree of packages: what is private is seen from
its own package, and what is protected from its own package and those within it. Only of the root
package the paths do not tell that it is around a package, unless they begin with its name. -/
theorem notVisible_by_packages {g : Graph} (hg : Reachable g) {n stub t : NodeId} {pn pt : Path}
    (hn : g.path? n = some pn) (hnroot : n ≠ root) (hstub : stub ∈ g.ownedBy n)
    (himport : g.isImportStub stub = true) (hbound : g.value? stub "resolvedNode" = some t)
    (ht : g.path? t = some pt) (htroot : t ≠ root) (hne : t ≠ n) :
    ∃ P Q p, g.packageOf? n = some P ∧ g.packageOf? t = some Q ∧ g.path? P = some p ∧
      (notVisible g n stub t ∈ accessErrors g n ↔
        g.Carries t Metamodel.privateAccess ∧ P ≠ Q ∨
        g.Carries t Metamodel.protectedAccess ∧ (¬ g.Encloses Q P ∨
          Q = root ∧ p.startsWith Metamodel.rootPackage = false)) := by
  obtain ⟨P, p, hP, hp⟩ := exists_package hg hn hnroot
  obtain ⟨Q, q, hQ, hq⟩ := exists_package hg ht htroot
  refine ⟨P, Q, p, hP, hQ, hp, ?_⟩
  rw [mem_accessErrors_iff hg (q := p) (by simp [packagePath?, hP, hp]) hstub himport hbound ht,
    seesTarget_eq_false_iff hne (q := q) (by simp [packagePath?, hQ, hq])]
  have hpq : p ≠ q ↔ P ≠ Q :=
    not_congr ⟨fun h => eq_of_path? hg hp (h ▸ hq), fun h =>
      Option.some.inj (hp.symm.trans (h ▸ hq))⟩
  have hwithin : p.startsWith q = false ↔
      ¬ g.Encloses Q P ∨ Q = root ∧ p.startsWith Metamodel.rootPackage = false := by
    by_cases hroot : Q = root
    · subst hroot
      obtain rfl := Option.some.inj (hq.symm.trans hg.attained.path?_root)
      simp [show g.Encloses root P from hg.placed.leads_to_root hg.stocked.toIndexed hp]
    · rw [← Bool.not_eq_true, startsWith_iff_encloses hg hp hq hroot]
      simp [hroot]
  rw [hpq, hwithin]

def veiled : List Request :=
  [.createPersistent "s" { path := some (.ofValid "T".toList (by decide)) },
    .createPersistent "s" { path := some (.ofValid "a::b::U".toList (by decide)) },
    .createPersistent "s" { path := some (.ofValid "a::bc::C".toList (by decide)) },
    .addValue 40 "stereotypes" 37, .addValue 43 "stereotypes" 37,
    .createEphemeral 45 { classifier := some 25 }, .addValue 46 "resolvedNode" 40,
    .createEphemeral 45 { classifier := some 25 }, .addValue 47 "resolvedNode" 43]

theorem veiled_runs : ∃ g, Request.runAll initial veiled = .ok g ∧ Reachable g ∧
    g.ownedBy 45 = [46, 47] ∧
    (g.isImportStub 46 = true ∧ g.isImportStub 47 = true) ∧
    (g.value? 46 "resolvedNode" = some 40 ∧ g.value? 47 "resolvedNode" = some 43) ∧
    (g.values 40 "stereotypes" = [37] ∧ g.values 43 "stereotypes" = [37]) ∧
    g.path? 37 = some Metamodel.protectedAccess ∧
    (g.packageOf? 40 = some root ∧ g.packageOf? 43 = some 42 ∧ g.packageOf? 45 = some 44) ∧
    ((g.path? 40).isSome ∧ (g.path? 43).isSome ∧ (g.path? 45).isSome) ∧
    (g.path? 42).map Path.segments = some ["a", "b"] ∧
    (g.path? 44).map Path.segments = some ["a", "bc"] :=
  (exists_run veiled (by decide +kernel)).imp fun _ h =>
    ⟨h.1, Reachable.initial.runAll (by decide) h.1, h.2⟩

/-- The package `a::b` is not around `a::bc`. -/
theorem veiled_by_packages : ∃ g, Request.runAll initial veiled = .ok g ∧ Reachable g ∧
    g.packageOf? 43 = some 42 ∧ g.packageOf? 45 = some 44 ∧ ¬ g.Encloses 42 44 ∧
    notVisible g 45 47 43 ∈ accessErrors g 45 := by
  obtain ⟨g, hg, hreach, howned, hstubs, hbound, hlevel, haccess, hpackages, hpaths, hsegments⟩ :=
    veiled_runs
  obtain ⟨b, hb, hb'⟩ := Option.map_eq_some_iff.1 hsegments.1
  obtain ⟨bc, hbc, hbc'⟩ := Option.map_eq_some_iff.1 hsegments.2
  have hapart : ¬ g.Encloses 42 44 := fun h => by
    have := prefix_of_encloses hreach hbc hb h
    rw [hb', hbc'] at this
    exact absurd this (by decide)
  obtain ⟨t, ht⟩ := Option.isSome_iff_exists.1 hpaths.2.1
  obtain ⟨n, hn⟩ := Option.isSome_iff_exists.1 hpaths.2.2
  obtain ⟨P, Q, p, hP, hQ, -, hiff⟩ := notVisible_by_packages hreach hn (by decide)
    (howned ▸ List.mem_cons_of_mem _ List.mem_cons_self) hstubs.2 hbound.2 ht
    (by decide) (by decide)
  obtain rfl := Option.some.inj (hP.symm.trans hpackages.2.2)
  obtain rfl := Option.some.inj (hQ.symm.trans hpackages.2.1)
  have hprotected : g.Carries 43 Metamodel.protectedAccess := ⟨37, by simp [hlevel.2], haccess⟩
  exact ⟨g, hg, hreach, hQ, hP, hapart, hiff.2 (.inr ⟨hprotected, .inl hapart⟩)⟩

/-- The root package is around `a::bc`, and still a protected element of it is not visible from
there. -/
theorem veiled_from_top : ∃ g, Request.runAll initial veiled = .ok g ∧ Reachable g ∧
    g.packageOf? 40 = some root ∧ g.packageOf? 45 = some 44 ∧ g.Encloses root 44 ∧
    notVisible g 45 46 40 ∈ accessErrors g 45 := by
  obtain ⟨g, hg, hreach, howned, hstubs, hbound, hlevel, haccess, hpackages, hpaths, hsegments⟩ :=
    veiled_runs
  obtain ⟨bc, hbc, hbc'⟩ := Option.map_eq_some_iff.1 hsegments.2
  have haround : g.Encloses root 44 := hreach.placed.leads_to_root hreach.stocked.toIndexed hbc
  obtain ⟨t, ht⟩ := Option.isSome_iff_exists.1 hpaths.1
  have hroot := hreach.attained.path?_root
  refine ⟨g, hg, hreach, hpackages.1, hpackages.2.2, haround, ?_⟩
  rw [mem_accessErrors_iff hreach (q := bc) (by simp [packagePath?, hpackages.2.2, hbc])
    (howned ▸ List.mem_cons_self) hstubs.1 hbound.1 ht,
    seesTarget_eq_false_iff (by decide) (q := Metamodel.rootPackage)
      (by simp [packagePath?, hpackages.1, hroot])]
  refine .inr ⟨⟨37, by simp [hlevel.1], haccess⟩, ?_⟩
  rw [← Bool.not_eq_true, Path.startsWith_iff, hbc']
  decide +kernel

end Handler

end ModelCompiler
