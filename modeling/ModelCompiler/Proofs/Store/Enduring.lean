import ModelCompiler.Proofs.Store.Edits

/-!
What lasts through every request, whatever is asked for: predefined nodes stay as they are, their
property values apart, a property that is declared as a back-reference remains one, and nodes that
no source owns have paths.
-/
open ModelCompiler.Action ModelCompiler.Graph

namespace ModelCompiler

namespace Graph

variable {g g' h k : Graph} {spec : NodeSpec} {lifetime : Lifetime} {id : NodeId}

structure Endures (g g' : Graph) : Prop where
  declared : ∀ p, g.isBackReference p = true → g'.isBackReference p = true
  predefined : ∀ id, g.lifetime? id = some .bootstrap →
    (g'.node? id).map Node.bare = (g.node? id).map Node.bare ∧ g'.isPackage id = g.isPackage id

namespace Endures

theorem refl (g : Graph) : Endures g g :=
  ⟨fun _ hp => hp, fun _ _ => ⟨rfl, rfl⟩⟩

theorem trans (a : Endures g h) (b : Endures h k) : Endures g k where
  declared p hp := b.declared p (a.declared p hp)
  predefined id hid := by
    obtain ⟨hbare, hpack⟩ := a.predefined id hid
    obtain ⟨hbare', hpack'⟩ := b.predefined id ((lifetime?_of_bare hbare).trans hid)
    exact ⟨hbare'.trans hbare, hpack'.trans hpack⟩

theorem of_frame (e : g'.frame = g.frame) : Endures g g' where
  declared p hp := by rwa [isBackReference_congr e]
  predefined id _ := by rw [← node?_frame, e, node?_frame, isPackage_congr e]; exact ⟨rfl, rfl⟩

theorem seat (hi : g.Indexed) (package : Bool) : Endures g (g.seat spec lifetime package) where
  declared p hp := hp
  predefined id hid := by
    have hne : id ≠ g.fresh := hi.ne_fresh (contains_of_lifetime? hid)
    rw [node?_seat _ _ _ hi, if_neg hne, isPackage_seat]
    exact ⟨rfl, by simp [hne]⟩

theorem found (hi : g.Indexed) (package : Bool) (parent : NodeId) :
    Endures g (g.found spec lifetime package parent) :=
  (seat hi package).trans (of_frame (frame_found _ _ _ _ _))

end Endures

def Titled (g : Graph) : Prop :=
  ∀ id l, g.lifetime? id = some l → l.isShared = true → g.path? id ≠ none

instance : Decidable g.Titled :=
  decidable_of_iff (∀ id ∈ g.ids, ∀ l ∈ g.lifetime? id, l.isShared = true → g.path? id ≠ none)
    ⟨fun h id l hl => h id (mem_ids_iff.2 (contains_of_lifetime? hl)) l hl,
      fun h id _ l hl => h id l hl⟩

namespace Titled

theorem congr (ht : g.Titled) (e : g'.frame = g.frame) : g'.Titled := by
  intro id l hl hs
  rw [path?_congr e]
  exact ht id l (lifetime?_congr e id ▸ hl) hs

theorem seat (ht : g.Titled) (hi : g.Indexed) (package : Bool)
    (hpath : lifetime.isShared = true → spec.path ≠ none) :
    (g.seat spec lifetime package).Titled := by
  intro id l hl hs
  rw [lifetime?_seat _ _ _ hi] at hl
  rw [path?_seat _ _ _ hi]
  split at hl
  · rename_i hid
    rw [if_pos hid]
    exact hpath (Option.some.inj hl ▸ hs)
  · rename_i hid
    rw [if_neg hid]
    exact ht id l hl hs

end Titled

end Graph

theorem Graph.Edit.endures {W : String → Prop} {g g' : Graph} (hu : g.Upheld) (h : Edit W g g') :
    Endures g g' := by
  cases h with
  | declare p =>
    unfold Graph.declareBackReference
    split
    · exact .refl g
    · exact ⟨fun q hq => by simp_all [isBackReference], fun _ _ => ⟨rfl, rfl⟩⟩
  | link => exact .of_frame (frame_link _ _ _ _)
  | unlink => exact .of_frame (frame_unlink _ _ _ _)
  | purge => exact .of_frame (frame_purge _ _ _)
  | seat => exact .seat hu.toIndexed false
  | found => exact .found hu.toIndexed _ _
  | remove _ hr =>
    refine ⟨fun p hp => by rwa [isBackReference, hr.backReferences], fun id hid => ?_⟩
    have hlive := contains_of_lifetime? (hr.bootstrap id hid)
    exact ⟨hr.bare id hlive, hr.package id hlive⟩

theorem Graph.Edit.titled {W : String → Prop} {g g' : Graph} (hu : g.Upheld) (h : Edit W g g')
    (ht : g.Titled) : g'.Titled := by
  cases h with
  | declare p =>
    unfold Graph.declareBackReference
    split <;> exact ht
  | link => exact ht.congr (frame_link _ _ _ _)
  | unlink => exact ht.congr (frame_unlink _ _ _ _)
  | purge => exact ht.congr (frame_purge _ _ _)
  | seat _ hl => exact ht.seat hu.toIndexed false fun h => by simp [hl] at h
  | found _ _ hpath =>
    exact (ht.seat hu.toIndexed _ fun _ => by simp [hpath]).congr (frame_found _ _ _ _ _)
  | remove _ hr =>
    intro id l hl hs
    have hbare := hr.bare id (contains_of_lifetime? hl)
    rw [path?_of_bare hbare]
    exact ht id l ((lifetime?_of_bare hbare).symm.trans hl) hs

theorem Request.endures {g g' : Graph} (hu : g.Upheld) {r : Request} (h : r.run g = .ok g') :
    Endures g g' :=
  (Request.edits (W := fun _ => True) hu (fun _ _ => trivial) (fun _ _ _ => trivial) h).keeps
    (fun _ _ hu he hg => hg.trans (he.endures hu)) (.refl g)

namespace Attained

variable {g : Graph}

theorem endures (h : Attained g) : Endures Graph.initial g := by
  induction h with
  | initial => exact .refl _
  | step r hg hr ih => exact ih.trans (Request.endures hg.upheld hr)

theorem children_back (h : Attained g) : g.isBackReference "children" = true := by
  refine h.endures.declared _ ?_
  simp [isBackReference, backReferences_of_isMetamodel isMetamodel_initial,
    Metamodel.backReferences]

theorem titled (h : Attained g) : g.Titled := by
  induction h with
  | initial =>
    intro id l hl _
    obtain ⟨path, hpath⟩ :=
      exists_path_of_isMetamodel isMetamodel_initial (contains_of_lifetime? hl)
    simp [hpath]
  | step r hg hr ih =>
    exact (Request.edits (W := fun _ => True) hg.upheld (fun _ _ => trivial)
      (fun _ _ _ => trivial) hr).keeps
      (fun _ _ hu he => he.titled hu) ih

end Attained

end ModelCompiler
