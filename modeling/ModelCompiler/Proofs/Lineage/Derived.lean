import ModelCompiler.Proofs.Dispatching
import ModelCompiler.Proofs.Lineage.Answers

/-!
Questions asked twice.
-/
open ModelCompiler.Graph

namespace ModelCompiler.Lineage

variable {g : Graph} {l m : Lineage} {ty : NodeId} {as : List NodeId}

inductive Derived (g : Graph) (l : Lineage) : NodeId → List NodeId → Prop
  | known {ty : NodeId} {a : Ancestry} : l.fresh? g ty = some a → Derived g l ty a.ancestors
  | made {ty : NodeId} (gs : List NodeId) (ls : NodeId → List NodeId) : l.fresh? g ty = none →
      direct g ty = .ok gs → (∀ x ∈ gs, Derived g l x (ls x)) →
      Derived g l ty (gs ++ gs.flatMap ls).eraseDups

def Proceeds (g : Graph) (l : Lineage) (a b : NodeId) : Prop :=
  l.fresh? g a = none ∧ ∃ gs, direct g a = .ok gs ∧ b ∈ gs

/-- A memory that has kept its fresh entries and gained what can be derived from them. -/
structure Enriched (g : Graph) (l m : Lineage) : Prop where
  kept : ∀ ty a, l.fresh? g ty = some a → m.fresh? g ty = some a
  derived : ∀ ty a, m.fresh? g ty = some a → Derived g l ty a.ancestors

namespace Derived

theorem unique {bs : List NodeId} (h : Derived g l ty as) (h' : Derived g l ty bs) : as = bs := by
  induction h generalizing bs with
  | known hf =>
    cases h' with
    | known hf' => rw [Option.some.inj (hf.symm.trans hf')]
    | made _ _ hf' => simp [hf] at hf'
  | made gs ls hf hgs _ ih =>
    cases h' with
    | known hf' => simp [hf] at hf'
    | made gs' ls' _ hgs' hls' =>
      obtain rfl : gs = gs' := Except.ok.inj (hgs.symm.trans hgs')
      rw [show gs.flatMap ls = gs.flatMap ls' from
        List.flatMap_congr fun x hx => ih x hx (hls' x hx)]

theorem not_proceeds_self (h : Derived g l ty as) : ¬ Relation.TransGen (Proceeds g l) ty ty := by
  induction h with
  | known hf =>
    intro hloop
    obtain ⟨b, hb, -⟩ := Relation.TransGen.head'_iff.1 hloop
    exact absurd hb.1 (by simp [hf])
  | made gs ls _ hgs _ ih =>
    intro hloop
    obtain ⟨b, hb, hback⟩ := Relation.TransGen.head'_iff.1 hloop
    have ⟨_, gs', hgs', hmem⟩ := hb
    rw [← Except.ok.inj (hgs.symm.trans hgs')] at hmem
    exact ih b hmem (.tail' hback hb)

end Derived

theorem fresh?_insert (l : Lineage) (ty x : NodeId) (a : Ancestry) : fresh? (l.insert ty a) g x =
    if x = ty then (some a).filter (·.isFresh g) else l.fresh? g x := by
  unfold fresh?
  rw [Table.find?_insert]
  split <;> rfl

namespace Enriched

theorem refl (g : Graph) (l : Lineage) : Enriched g l l :=
  ⟨fun _ _ h => h, fun _ _ h => .known h⟩

theorem insert (h : Enriched g l m) (hty : l.fresh? g ty = none) {a : Ancestry}
    (ha : Derived g l ty a.ancestors) : Enriched g l (Table.insert m ty a) where
  kept x b hb := by
    rw [fresh?_insert, if_neg, h.kept x b hb]
    rintro rfl
    simp [hb] at hty
  derived x b hb := by
    rw [fresh?_insert] at hb
    split at hb
    · rename_i hx
      rw [hx, ← Option.some.inj (Option.filter_eq_some_iff.1 hb).1]
      exact ha
    · exact h.derived x b hb

theorem fresh?_eq_none (h : Enriched g l m) (hty : m.fresh? g ty = none) :
    l.fresh? g ty = none := by
  cases hf : l.fresh? g ty with
  | none => rfl
  | some a => simp [h.kept ty a hf] at hty

end Enriched

section Search

theorem zip_direct {gs : List NodeId} (h : direct g ty = .ok gs) :
    (g.values ty "generalizations").length = gs.length ∧ g.contains ty = true := by
  by_cases hty : g.contains ty = true
  · refine ⟨?_, hty⟩
    rcases direct_cases hty with ⟨gs', hgs', hmap⟩ | ⟨e, he, -⟩
    · rw [← Except.ok.inj (hgs'.symm.trans h)]
      simpa [generals] using congrArg List.length hmap
    · rw [h] at he
      cases he
  · rw [direct, if_neg hty] at h
    cases h

theorem forall₂_of_snd_zip {β : Type} {R : NodeId → β → Prop} {vs gs : List NodeId} {bs : List β}
    (hlen : vs.length = gs.length)
    (h : List.Forall₂ (fun (p : NodeId × NodeId) b => R p.2 b) (vs.zip gs) bs) :
    List.Forall₂ R gs bs := by
  rw [← List.map_snd_zip (le_of_eq hlen.symm), List.forall₂_map_left_iff]
  exact h

theorem exists_lineages {P : NodeId → List NodeId → Prop} {gs : List NodeId}
    {inherited : List Ancestry} (hP : ∀ x as bs, P x as → P x bs → as = bs)
    (h : List.Forall₂ (fun x (a : Ancestry) => P x a.ancestors) gs inherited) :
    ∃ ls : NodeId → List NodeId, (∀ x ∈ gs, P x (ls x)) ∧
      inherited.flatMap (·.ancestors) = gs.flatMap ls := by
  have hex (x : NodeId) (hx : x ∈ gs) : ∃ as, P x as := by
    obtain ⟨a, -, ha⟩ := (exists_mem_of_forall₂ h).1 x hx
    exact ⟨_, ha⟩
  choose! ls hls using hex
  refine ⟨ls, hls, ?_⟩
  induction h with
  | nil => rfl
  | @cons x a gs inherited ha _ ih =>
    rw [List.flatMap_cons, List.flatMap_cons, ih fun y hy => hls y (List.mem_cons_of_mem _ hy),
      hP x _ _ ha (hls x List.mem_cons_self)]

theorem derived_merge {gs : List NodeId} {inherited : List Ancestry} (hty : l.fresh? g ty = none)
    (hgs : direct g ty = .ok gs)
    (h : List.Forall₂ (fun x (a : Ancestry) => Derived g l x a.ancestors) gs inherited) :
    Derived g l ty (merge g ty gs inherited).ancestors := by
  obtain ⟨ls, hls, hflat⟩ := exists_lineages (fun _ _ _ a b => a.unique b) h
  rw [merge, hflat]
  exact .made gs ls hty hgs hls

theorem search_derives : ∀ {fuel : Nat} {way : List NodeId} {ty : NodeId} {m : Lineage},
    Enriched g l m → Gives (search g fuel way ty) m
      (fun a m' => Derived g l ty a.ancestors ∧ Enriched g l m') fun _ m' => Enriched g l m'
  | 0, _, _, _, hm => gives_throw hm
  | fuel + 1, way, ty, m, hm => by
    rw [search]
    refine gives_bind (gives_get ?_)
    split
    · rename_i a ha
      exact gives_pure ⟨hm.derived ty a ha, hm⟩
    · rename_i hnone
      split
      · exact gives_throw hm
      · refine gives_bind (gives_of_except ?_)
        cases hgs : direct g ty with
        | error e => exact hm
        | ok gs =>
          refine gives_bind ((gives_mapM (I := Enriched g l)
            (R := fun (p : NodeId × NodeId) (a : Ancestry) => Derived g l p.2 a.ancestors) hm
            fun p _ m' hm' => gives_tryCatch ((search_derives hm').mono (fun _ _ h => h)
              fun _ _ h => gives_throw h)).imp fun inherited m' h => ?_)
          have hd := derived_merge (hm.fresh?_eq_none hnone) hgs
            (forall₂_of_snd_zip (zip_direct hgs).1 h.1)
          exact gives_bind (gives_modify (gives_pure ⟨hd, h.2.insert (hm.fresh?_eq_none hnone) hd⟩))

/-- Ancestors that follow from the memory at the start are found with every memory after it. -/
theorem search_repeats : ∀ {fuel : Nat} {way : List NodeId} {ty : NodeId} {as : List NodeId}
    {m : Lineage}, Derived g l ty as → Climbing g fuel way →
    (∀ x ∈ way, Relation.TransGen (Proceeds g l) x ty) → Enriched g l m →
    Gives (search g fuel way ty) m (fun a m' => a.ancestors = as ∧ Enriched g l m') fun _ _ => False
  | 0, _, _, _, _, _, hway, _, _ => absurd rfl hway.fuel_ne_zero
  | fuel + 1, way, ty, as, m, hd, hway, hbelow, hm => by
    rw [search]
    refine gives_bind (gives_get ?_)
    split
    · rename_i a ha
      exact gives_pure ⟨(hm.derived ty a ha).unique hd, hm⟩
    · rename_i hnone
      have hbase := hm.fresh?_eq_none hnone
      have hmem : ty ∉ way := fun h => hd.not_proceeds_self (hbelow ty h)
      rw [if_neg hmem]
      cases hd with
      | known hf => simp [hbase] at hf
      | made gs ls _ hgs hls =>
        obtain ⟨hlen, hlive⟩ := zip_direct hgs
        refine gives_bind (gives_of_except ?_)
        rw [hgs]
        refine gives_bind ((gives_mapM (I := Enriched g l)
          (R := fun (p : NodeId × NodeId) (a : Ancestry) => Derived g l p.2 a.ancestors)
          (E := fun _ _ => False) hm fun p hp m' hm' => ?_).imp fun inherited m' h => ?_)
        · have hgen := (List.of_mem_zip hp).2
          refine gives_tryCatch ((search_repeats (hls p.2 hgen) (hway.succ hmem hlive)
            (fun y hy => ?_) hm').mono (fun a m'' h => ⟨h.1 ▸ hls p.2 hgen, h.2⟩)
              fun _ _ h => h.elim)
          have hstep : Proceeds g l ty p.2 := ⟨hbase, gs, hgs, hgen⟩
          rcases List.mem_append.1 hy with hy | hy
          · exact (hbelow y hy).tail hstep
          · exact List.mem_singleton.1 hy ▸ .single hstep
        · have hd := derived_merge hbase hgs (forall₂_of_snd_zip hlen h.1)
          exact gives_bind (gives_modify (gives_pure
            ⟨hd.unique (.made gs ls hbase hgs hls), h.2.insert hbase hd⟩))

theorem ancestors_repeats (h : ((ancestors g ty).run.run l).1 = .ok as) (hm : Enriched g l m) :
    Gives (ancestors g ty) m (fun bs m' => bs = as ∧ Enriched g l m') fun _ _ => False := by
  have hd : Derived g l ty as := by
    have hgives : Gives (ancestors g ty) l (fun bs _ => Derived g l ty bs) fun _ _ => True :=
      gives_bind ((search_derives (.refl g l)).mono (fun _ _ h => gives_pure h.1)
        fun _ _ _ => trivial)
    unfold Gives Recalls at hgives
    rwa [h] at hgives
  exact gives_bind ((search_repeats hd (.start g) (by simp) hm).imp
    fun _ _ h => gives_pure h)

end Search

end ModelCompiler.Lineage

namespace ModelCompiler.Dispatch

open Lineage

variable {η : Type} {g : Graph} {l m : Lineage} {id : NodeId}

theorem find_repeats {table : Table Path η} {r : Option η × Origin}
    (h : ((find table g id).run.run l).1 = .ok r) (hm : Enriched g l m) :
    Gives (find table g id) m (fun r' m' => r' = r ∧ Enriched g l m') fun _ _ => False := by
  unfold find at h ⊢
  cases hcl : g.classifier? id with
  | none =>
    rw [hcl] at h
    exact gives_pure ⟨Except.ok.inj h, hm⟩
  | some c =>
    simp only [hcl] at h ⊢
    split
    · rename_i hempty
      rw [if_pos hempty] at h
      exact gives_pure ⟨Except.ok.inj h, hm⟩
    · rename_i hempty
      rw [if_neg hempty] at h
      cases hat : handlerAt? table g c with
      | some p =>
        rw [hat] at h
        exact gives_pure ⟨Except.ok.inj h, hm⟩
      | none =>
        simp only [hat] at h
        obtain ⟨as, has⟩ := run_ok_of_bind h
        refine gives_bind ((ancestors_repeats has hm).imp fun bs m' hbs => ?_)
        obtain ⟨rfl, hm'⟩ := hbs
        rw [run_bind_of_ok has] at h
        cases hfound : bs.findSome? (handlerAt? table g) with
        | some p | none =>
          rw [hfound] at h
          exact gives_pure ⟨Except.ok.inj h, hm'⟩

theorem walker_repeats {d : Dispatch} {r : Walker × Origin}
    (h : ((d.walker g id).run.run l).1 = .ok r) (hm : Enriched g l m) :
    Gives (d.walker g id) m (fun r' m' => r' = r ∧ Enriched g l m') fun _ _ => False := by
  obtain ⟨s, hs⟩ := run_ok_of_bind h
  refine gives_bind ((find_repeats hs hm).imp fun s' m' hs' => gives_pure ⟨?_, hs'.2⟩)
  unfold walker at h
  rw [run_bind_of_ok hs] at h
  rw [hs'.1]
  exact Except.ok.inj h

end ModelCompiler.Dispatch
