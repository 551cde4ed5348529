import ModelCompiler.Proofs.Store.Stamps

/-!
Excerpts of a graph: what stands between the nodes that satisfy a predicate.
-/
namespace ModelCompiler

namespace Table

variable {κ β : Type} [DecidableEq κ] {p : β → Bool} {t : Table κ (List β)} {k : κ}

def keep (p : β → Bool) (t : Table κ (List β)) : Table κ (List β) :=
  ⟨(t.entries.map fun e => (e.1, e.2.filter p)).filter fun e => !e.2.isEmpty⟩

theorem keep_modify {f : List β → List β}
    (h : ∀ bs, (k, bs) ∈ t.entries → (f bs).filter p = bs.filter p) :
    (t.modify k f).keep p = t.keep p := by
  unfold keep modify
  rw [List.map_map]
  congr 2
  apply List.map_congr_left
  rintro ⟨j, bs⟩ hj
  by_cases hjk : j = k
  · subst hjk
    simp [h bs hj]
  · simp [hjk]

theorem keep_erase (h : ∀ bs, (k, bs) ∈ t.entries → bs.filter p = []) :
    (t.erase k).keep p = t.keep p := by
  obtain ⟨es⟩ := t
  unfold keep erase
  congr 1
  induction es with
  | nil => rfl
  | cons e es ih =>
    have ih := ih fun bs hbs => h bs (List.mem_cons_of_mem _ hbs)
    by_cases he : e.1 = k
    · have hnil : e.2.filter p = [] := h e.2 (by rw [← he]; exact List.mem_cons_self)
      simpa [he, hnil] using ih
    · rw [List.filter_cons_of_pos (by simpa using he), List.map_cons, List.map_cons,
        List.filter_cons, List.filter_cons, ih]

theorem keep_insert (hn : t.keys.Nodup) {bs : List β}
    (h : bs.filter p = (t.values k).filter p) : (t.insert k bs).keep p = t.keep p := by
  unfold insert
  split
  · refine keep_modify fun cs hcs => ?_
    rw [h, values_eq_of_find? ((mem_entries_iff hn).1 hcs)]
  · rename_i hk
    have hnil : t.values k = [] := by
      apply values_eq_nil_of_find?
      rwa [contains_eq_isSome, Bool.not_eq_true, Option.isSome_eq_false_iff,
        Option.isNone_iff_eq_none] at hk
    rw [hnil] at h
    simp [keep, h]

theorem keep_push (hn : t.keys.Nodup) {b : β} (hb : p b = false) :
    (t.push k b).keep p = t.keep p :=
  keep_insert hn (by simp [hb])

variable [DecidableEq β]

end Table

structure Excerpt where
  properties : NodeId → Table String (List NodeId)
  usages : List Usage
  named : String → List NodeId
  instances : NodeId → List NodeId

namespace Graph

def excerpt (g : Graph) (p : NodeId → Bool) : Excerpt where
  properties j := if p j then (g.propertiesOf j).keep p else ∅
  usages := g.usages.filter fun u => p u.user && p u.target
  named name := (g.elementsNamed name).filter p
  instances c := if p c then (g.instancesOf c).filter p else []

variable {g g' : Graph} {p : NodeId → Bool} {id value : NodeId} {q : String}

theorem keep_withoutValue {t : Table String (List NodeId)} (hn : t.keys.Nodup)
    (hv : p value = false) : (withoutValue t q value).keep p = t.keep p := by
  have hfilter : ((t.values q).erase value).filter p = (t.values q).filter p := by
    rw [← List.erase_filter, List.erase_of_not_mem (by simp [hv])]
  unfold withoutValue
  split
  · rename_i he
    refine Table.keep_erase fun bs hbs => ?_
    rw [Table.values_eq_of_find? ((Table.mem_entries_iff hn).1 hbs)] at hfilter he
    rw [← hfilter, he]
    rfl
  · exact Table.keep_insert hn hfilter

theorem filter_eraseP {α : Type} {r s : α → Bool} (h : ∀ a, r a = true → s a = false) :
    ∀ l : List α, (l.eraseP r).filter s = l.filter s
  | [] => rfl
  | a :: l => by
    by_cases ha : r a = true
    · rw [List.eraseP_cons_of_pos ha, List.filter_cons_of_neg (by simp [h a ha])]
    · rw [List.eraseP_cons_of_neg ha, List.filter_cons, List.filter_cons, filter_eraseP h l]

theorem excerpt_of_frame (e : g'.frame = g.frame)
    (hp : ∀ j, p j = true → (g'.propertiesOf j).keep p = (g.propertiesOf j).keep p)
    (hu : (g'.usages.filter fun u => p u.user && p u.target) =
      g.usages.filter fun u => p u.user && p u.target) : g'.excerpt p = g.excerpt p := by
  unfold excerpt
  congr 1
  · funext j
    split
    · exact hp j ‹_›
    · rfl
  · funext name
    rw [elementsNamed_congr e]
  · funext c
    rw [instancesOf_congr e]

theorem excerpt_link (hm : g.Mirrored) (hid : g.contains id = true)
    (h : p id = false ∨ p value = false) : (g.link id q value).excerpt p = g.excerpt p := by
  refine excerpt_of_frame (frame_link g id value q) (fun j hj => ?_) ?_
  · rw [propertiesOf_link hid]
    split
    · rename_i hji
      subst hji
      exact Table.keep_push (hm.nodup_keys j) (h.resolve_left (by simp [hj]))
    · rfl
  · rw [usages_link, List.filter_cons_of_neg]
    rcases h with h | h <;> simp [h]

theorem excerpt_unlink (hm : g.Mirrored) (hid : g.contains id = true)
    (h : p id = false ∨ p value = false) : (g.unlink id q value).excerpt p = g.excerpt p := by
  refine excerpt_of_frame (frame_unlink g id value q) (fun j hj => ?_) ?_
  · rw [propertiesOf_unlink hid]
    split
    · rename_i hji
      subst hji
      exact keep_withoutValue (hm.nodup_keys j) (h.resolve_left (by simp [hj]))
    · rfl
  · rw [usages_unlink]
    refine filter_eraseP (fun u hu => ?_) _
    obtain ⟨⟨rfl, -⟩, rfl⟩ : (u.user = id ∧ u.property = q) ∧ u.target = value := by
      simpa using hu
    rcases h with h | h <;> simp [h]

theorem excerpt_purge (hm : g.Mirrored) (hid : p id = false) :
    (g.purge id q).excerpt p = g.excerpt p := by
  refine excerpt_of_frame (frame_purge g id q) (fun j hj => ?_) ?_
  · rw [propertiesOf_purge, if_neg]
    rintro rfl
    simp [hj] at hid
  · rw [usages_purge hm, List.filter_filter]
    apply List.filter_congr
    intro u _
    by_cases hu : u.user = id
    · simp [hu, hid]
    · simp [hu]

theorem elementsNamed_seat (g : Graph) (spec : NodeSpec) (lifetime : Lifetime) (package : Bool)
    (name : String) : (g.seat spec lifetime package).elementsNamed name =
      if (spec.path.map (·.name)) = some name ∧ package = false then
        g.elementsNamed name ++ [g.fresh]
      else g.elementsNamed name := by
  unfold elementsNamed seat
  cases spec.path with
  | none => simp
  | some path =>
    cases package with
    | true => simp
    | false =>
      simp only [Bool.false_eq_true, if_false, Table.values_push, Option.map_some,
        Option.some.injEq, and_true]
      by_cases h : name = path.name
      · simp [h]
      · simp [h, Ne.symm h]

theorem excerpt_seat (hi : g.Indexed) (spec : NodeSpec) (lifetime : Lifetime) (package : Bool)
    (h : p g.fresh = false) : (g.seat spec lifetime package).excerpt p = g.excerpt p := by
  unfold excerpt
  congr 1
  · funext j
    rw [propertiesOf_seat _ _ _ hi]
  · funext name
    rw [elementsNamed_seat]
    split <;> simp [h]
  · funext c
    rw [instancesOf_seat]
    split
    · split <;> simp [h]
    · rfl

theorem excerpt_found (hc : g.Coherent) {spec : NodeSpec} {lifetime : Lifetime} {package : Bool}
    {parent : NodeId} (hp : g.contains parent = true) (hfresh : p g.fresh = false) :
    (g.found spec lifetime package parent).excerpt p = g.excerpt p := by
  have hi := hc.toIndexed
  have hlive : (g.seat spec lifetime package).contains g.fresh = true := by
    simp [contains_seat _ _ _ hi]
  have hparent := contains_seat_of_contains spec lifetime package hi hp
  have hmirror : (g.seat spec lifetime package).Mirrored := hc.mirrored_seat
  rw [found, attach, excerpt_link (hmirror.link hlive hparent) _ (.inr hfresh),
    excerpt_link hmirror hlive (.inl hfresh), excerpt_seat hi _ _ _ hfresh]
  rwa [contains_congr (frame_link _ _ _ _)]

theorem filter_filter_ne {l : List NodeId} (hid : p id = false) :
    (l.filter (· ≠ id)).filter p = l.filter p := by
  rw [List.filter_filter]
  apply List.filter_congr
  intro j _
  by_cases hj : j = id <;> simp [hj, hid]

theorem elementsNamed_evict (hid : p id = false) (name : String) :
    ((g.evict id).elementsNamed name).filter p = (g.elementsNamed name).filter p := by
  unfold elementsNamed evict vacate
  cases hn : g.node? id with
  | none => simp [unindex, hn, contains]
  | some n =>
    have hc : (g.unindex id).contains id = true := by
      rw [contains_unindex, contains, hn]
      rfl
    rw [if_pos hc]
    simp only [unindex, hn]
    split
    · rw [Table.values_drop]
      split
      · rename_i h
        rw [filter_filter_ne hid, h]
      · rfl
    · rfl

theorem excerpt_evict (hi : g.Indexed) (hm : g.Mirrored) (hid : p id = false) :
    (g.evict id).excerpt p = g.excerpt p := by
  unfold excerpt
  congr 1
  · funext j
    rw [propertiesOf_evict]
    split
    · rw [if_neg]
      rintro rfl
      simp_all
    · rfl
  · rw [usages_evict hm, List.filter_filter]
    apply List.filter_congr
    intro u _
    by_cases hu : u.user = id
    · simp [hu, hid]
    · by_cases ht : u.target = id
      · simp [ht, hid]
      · simp [hu, ht]
  · funext name
    exact elementsNamed_evict hid name
  · funext c
    split
    · rename_i hc
      rw [hi.instancesOf_evict, if_neg, filter_filter_ne hid]
      rintro rfl
      simp [hid] at hc
    · rfl

end Graph

end ModelCompiler
