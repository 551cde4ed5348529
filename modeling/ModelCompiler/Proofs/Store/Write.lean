import ModelCompiler.Proofs.Actions
import ModelCompiler.Proofs.Store.View

/-!
Writing properties. A write keeps the frame, changes the values of one property of one node and
takes usages away or puts one in front.
-/
namespace ModelCompiler.Graph

theorem node?_modifyNode (g : Graph) (id j : NodeId) (f : Node → Node) :
    (g.modifyNode id f).node? j = if j = id then (g.node? j).map f else g.node? j := by
  simp only [node?, modifyNode, Array.getElem?_modify]
  by_cases h : id = j
  · subst h
    cases hs : g.slots[id]? <;> simp
  · have h' : ¬ j = id := fun e => h e.symm
    simp [h, h']

theorem frame_modifyNode (g : Graph) (id : NodeId) (f : Node → Node)
    (hf : ∀ n, (f n).bare = n.bare) : (g.modifyNode id f).frame = g.frame := by
  have hs : (g.slots.modify id (·.map f)).map (·.map Node.bare) =
      g.slots.map (·.map Node.bare) := by
    apply Array.ext_getElem?
    intro i
    simp only [Array.getElem?_map, Array.getElem?_modify]
    split
    · rcases g.slots[i]? with - | - | n <;> simp [hf]
    · rfl
  simp only [frame, modifyNode, hs]

theorem propertiesOf_modifyNode (g : Graph) (id j : NodeId) (f : Node → Node)
    (h : g.contains id = true) {t : Table String (List NodeId)}
    (hf : ∀ n, g.node? id = some n → (f n).properties = t) :
    (g.modifyNode id f).propertiesOf j = if j = id then t else g.propertiesOf j := by
  unfold propertiesOf
  rw [node?_modifyNode]
  by_cases hj : j = id
  · subst hj
    obtain ⟨n, hn⟩ := contains_iff.1 h
    simp [hn, hf n hn]
  · simp [hj]

section Touch

variable (g : Graph) (id : NodeId)

theorem frame_touch : (g.touch id).frame = g.frame := by
  have hstamp (s : Nat) : ∀ n : Node, ({ n with stamp := s } : Node).bare = n.bare := fun _ => rfl
  unfold touch
  simp only
  split
  · rw [frame_modifyNode _ _ _ (hstamp _), frame_modifyNode _ _ _ (hstamp _)]
    rfl
  · rw [frame_modifyNode _ _ _ (hstamp _)]
    rfl

theorem node?_touch (j : NodeId) : (g.touch id).node? j =
    if j = id ∨ (g.node? id >>= (·.owner)) = some j then
      (g.node? j).map fun n => { n with stamp := g.nextStamp }
    else g.node? j := by
  have hnode (k : Nat) : ({ g with nextStamp := k } : Graph).node? j = g.node? j := rfl
  unfold touch
  simp only
  split
  · rename_i o ho
    rw [node?_modifyNode, node?_modifyNode, hnode, ho]
    by_cases hj : j = id <;> by_cases hjo : j = o <;>
      simp [hj, hjo, Option.map_map, Function.comp_def, eq_comm]
    all_goals grind
  · rename_i ho
    rw [node?_modifyNode, hnode, ho]
    simp

theorem usages_touch : (g.touch id).usages = g.usages := by
  unfold touch
  simp only
  split <;> rfl

theorem propertiesOf_touch (j : NodeId) : (g.touch id).propertiesOf j = g.propertiesOf j := by
  unfold propertiesOf
  rw [node?_touch]
  split
  · simp [Function.comp_def]
  · rfl

theorem nextStamp_touch : (g.touch id).nextStamp = g.nextStamp + 1 := by
  unfold touch
  simp only
  split <;> rfl

end Touch

section TouchUnlessBack

variable (g : Graph) (id : NodeId) (p : String)

@[simp]
theorem frame_touchUnlessBack : (g.touchUnlessBack id p).frame = g.frame := by
  unfold touchUnlessBack
  split
  · rfl
  · exact frame_touch g id

@[simp]
theorem usages_touchUnlessBack : (g.touchUnlessBack id p).usages = g.usages := by
  unfold touchUnlessBack
  split
  · rfl
  · exact usages_touch g id

@[simp]
theorem propertiesOf_touchUnlessBack (j : NodeId) :
    (g.touchUnlessBack id p).propertiesOf j = g.propertiesOf j := by
  unfold touchUnlessBack
  split
  · rfl
  · exact propertiesOf_touch g id j

end TouchUnlessBack

def tally (g : Graph) (id : NodeId) (p : String) (v : NodeId) : Nat :=
  g.usages.countP fun u => u.user = id && u.property = p && u.target = v

/-- The usages are those of the property values that live. -/
structure Mirrored (g : Graph) : Prop where
  nodup_keys : ∀ id, (g.propertiesOf id).keys.Nodup
  ne_nil : ∀ id p vs, (g.propertiesOf id).find? p = some vs → vs ≠ []
  tally_eq : ∀ id p v, g.contains v = true → g.tally id p v = (g.values id p).count v
  target_live : ∀ u ∈ g.usages, g.contains u.target = true

theorem tally_pos_iff {g : Graph} {id v : NodeId} {p : String} :
    0 < g.tally id p v ↔ ∃ b, (⟨id, p, v, b⟩ : Usage) ∈ g.usages := by
  rw [tally, List.countP_pos_iff]
  constructor
  · rintro ⟨⟨u, q, t, b⟩, hu, he⟩
    simp only [Bool.and_eq_true, decide_eq_true_eq] at he
    obtain ⟨⟨rfl, rfl⟩, rfl⟩ := he
    exact ⟨b, hu⟩
  · rintro ⟨b, hb⟩
    exact ⟨_, hb, by simp⟩

namespace Mirrored

variable {g : Graph} (hm : g.Mirrored)
include hm

theorem mem_values_iff {id v : NodeId} {p : String} (hv : g.contains v = true) :
    v ∈ g.values id p ↔ ∃ b, (⟨id, p, v, b⟩ : Usage) ∈ g.usages := by
  rw [← tally_pos_iff, hm.tally_eq _ _ _ hv, List.count_pos_iff]

theorem target_mem {u : Usage} (hu : u ∈ g.usages) : u.target ∈ g.values u.user u.property :=
  (hm.mem_values_iff (hm.target_live u hu)).2 ⟨u.back, hu⟩

theorem user_live {u : Usage} (hu : u ∈ g.usages) : g.contains u.user = true :=
  contains_of_mem_values (hm.target_mem hu)

end Mirrored

section Link

variable {g : Graph} {id value : NodeId} {p : String}

@[simp]
theorem frame_link (g : Graph) (id value : NodeId) (p : String) :
    (g.link id p value).frame = g.frame := by
  unfold link
  simp only [frame_touchUnlessBack]
  exact frame_modifyNode g id _ fun _ => rfl

theorem usages_link (g : Graph) (id value : NodeId) (p : String) :
    (g.link id p value).usages = ⟨id, p, value, g.isBackReference p⟩ :: g.usages := by
  simp [link, modifyNode]

theorem propertiesOf_link (h : g.contains id = true) (j : NodeId) :
    (g.link id p value).propertiesOf j =
      if j = id then (g.propertiesOf id).push p value else g.propertiesOf j := by
  unfold link
  simp only [propertiesOf_touchUnlessBack]
  apply propertiesOf_modifyNode g id j _ h
  intro n hn
  simp [propertiesOf, hn]

theorem values_link (h : g.contains id = true) (j : NodeId) (q : String) :
    (g.link id p value).values j q =
      if j = id ∧ q = p then g.values id p ++ [value] else g.values j q := by
  rw [values_eq, propertiesOf_link h]
  by_cases hj : j = id
  · subst hj
    by_cases hq : q = p <;> simp [hq, Table.values_push, values_eq]
  · simp [hj, values_eq]

theorem mem_values_link (h : g.contains id = true) {j v : NodeId} {q : String} :
    v ∈ (g.link id p value).values j q ↔ v ∈ g.values j q ∨ j = id ∧ q = p ∧ v = value := by
  rw [values_link h]
  split
  · rename_i hjq
    obtain ⟨rfl, rfl⟩ := hjq
    simp
  · rename_i hjq
    exact ⟨.inl, fun hv => hv.resolve_right fun ⟨hj, hq, _⟩ => hjq ⟨hj, hq⟩⟩

theorem Mirrored.link (hm : g.Mirrored) (h : g.contains id = true) (hv : g.contains value = true) :
    (g.link id p value).Mirrored where
  nodup_keys j := by
    rw [propertiesOf_link h]
    split
    · exact Table.nodup_keys_push (hm.nodup_keys id) p value
    · exact hm.nodup_keys j
  ne_nil j q vs hf := by
    rw [propertiesOf_link h] at hf
    split at hf
    · rw [Table.push, Table.find?_insert] at hf
      split at hf
      · obtain rfl := Option.some.inj hf
        simp
      · exact hm.ne_nil _ _ _ hf
    · exact hm.ne_nil _ _ _ hf
  tally_eq j q v hlive := by
    have ht := hm.tally_eq j q v (by rwa [contains_congr (frame_link g id value p)] at hlive)
    rw [tally] at ht
    rw [values_link h, tally, usages_link, List.countP_cons, ht]
    by_cases hj : j = id ∧ q = p
    · obtain ⟨rfl, rfl⟩ := hj
      simp [List.count_append, List.count_singleton]
    · rw [if_neg hj]
      have : ¬(id = j ∧ p = q) := fun e => hj ⟨e.1.symm, e.2.symm⟩
      simp only [Nat.add_eq_left, ite_eq_right_iff]
      simp only [Bool.and_eq_true, decide_eq_true_eq]
      tauto
  target_live u hu := by
    rw [contains_congr (frame_link g id value p)]
    rw [usages_link] at hu
    rcases List.mem_cons.1 hu with rfl | hu
    · exact hv
    · exact hm.target_live u hu

end Link

/-- What a write that takes values away leaves: the frame, and less of everything else. -/
structure Trims (g g' : Graph) : Prop where
  frame : g'.frame = g.frame
  usages : g'.usages.Sublist g.usages
  values : ∀ id p, (g'.values id p).Sublist (g.values id p)

namespace Trims

theorem refl (g : Graph) : Trims g g :=
  ⟨rfl, .refl _, fun _ _ => .refl _⟩

theorem trans {g h k : Graph} (a : Trims g h) (b : Trims h k) : Trims g k :=
  ⟨b.frame.trans a.frame, b.usages.trans a.usages, fun id p => (b.values id p).trans
    (a.values id p)⟩

end Trims

section WithoutValue

variable (t : Table String (List NodeId)) (p q : String) (v : NodeId)

theorem values_withoutValue : (withoutValue t p v).values q =
    if q = p then (t.values p).erase v else t.values q := by
  unfold withoutValue
  split
  · rename_i he
    rw [Table.values_erase, he]
  · rw [Table.values_insert]

theorem nodup_keys_withoutValue {t : Table String (List NodeId)} (h : t.keys.Nodup) :
    (withoutValue t p v).keys.Nodup := by
  unfold withoutValue
  split
  · exact Table.nodup_keys_erase h p
  · exact Table.nodup_keys_insert h p _

theorem ne_nil_withoutValue {t : Table String (List NodeId)}
    (h : ∀ q vs, t.find? q = some vs → vs ≠ []) (vs : List NodeId)
    (hf : (withoutValue t p v).find? q = some vs) : vs ≠ [] := by
  unfold withoutValue at hf
  split at hf
  · rw [Table.find?_erase] at hf
    split at hf
    · simp at hf
    · exact h _ _ hf
  · rename_i hr
    rw [Table.find?_insert] at hf
    split at hf
    · obtain rfl := Option.some.inj hf
      exact hr
    · exact h _ _ hf

end WithoutValue

section RemoveValue

variable {g : Graph} {id value : NodeId} {p : String}

def unlink (g : Graph) (id : NodeId) (p : String) (value : NodeId) : Graph :=
  let g' := g.modifyNode id fun n => { n with properties := withoutValue n.properties p value }
  { g' with
    usages := g'.usages.eraseP fun u => u.user = id && u.property = p && u.target = value
  }.touchUnlessBack id p

theorem removeValue_eq (h : g.contains id = true) : g.removeValue id p value =
    .ok (if value ∈ g.values id p then (true, g.unlink id p value) else (false, g)) := by
  obtain ⟨n, hn⟩ := contains_iff.1 h
  have hv : g.values id p = n.values p := by simp [values, hn]
  simp only [removeValue, hn, hv]
  split <;> rfl

theorem frame_unlink (g : Graph) (id value : NodeId) (p : String) :
    (g.unlink id p value).frame = g.frame := by
  unfold unlink
  simp only [frame_touchUnlessBack]
  exact frame_modifyNode g id _ fun _ => rfl

theorem usages_unlink (g : Graph) (id value : NodeId) (p : String) :
    (g.unlink id p value).usages =
      g.usages.eraseP fun u => u.user = id && u.property = p && u.target = value := by
  simp [unlink, modifyNode]

theorem propertiesOf_unlink (h : g.contains id = true) (j : NodeId) :
    (g.unlink id p value).propertiesOf j =
      if j = id then withoutValue (g.propertiesOf id) p value else g.propertiesOf j := by
  unfold unlink
  simp only [propertiesOf_touchUnlessBack]
  apply propertiesOf_modifyNode g id j _ h
  intro n hn
  simp [propertiesOf, hn]

theorem values_unlink (h : g.contains id = true) (j : NodeId) (q : String) :
    (g.unlink id p value).values j q =
      if j = id ∧ q = p then (g.values id p).erase value else g.values j q := by
  rw [values_eq, propertiesOf_unlink h]
  by_cases hj : j = id
  · subst hj
    by_cases hq : q = p <;> simp [hq, values_withoutValue, values_eq]
  · simp [hj, values_eq]

theorem trims_unlink (h : g.contains id = true) : Trims g (g.unlink id p value) where
  frame := frame_unlink g id value p
  usages := by
    rw [usages_unlink]
    exact List.eraseP_sublist
  values j q := by
    rw [values_unlink h]
    split
    · rename_i hjq
      obtain ⟨rfl, rfl⟩ := hjq
      exact List.erase_sublist
    · exact .refl _

theorem tally_unlink (hmem : 0 < g.tally id p value) (j : NodeId) (q : String) (v : NodeId) :
    (g.unlink id p value).tally j q v =
      if j = id ∧ q = p ∧ v = value then g.tally j q v - 1 else g.tally j q v := by
  obtain ⟨b, hb⟩ := tally_pos_iff.1 hmem
  obtain ⟨u, l₁, l₂, -, hu, hl, he⟩ := List.exists_of_eraseP hb
    (p := fun u => u.user = id && u.property = p && u.target = value) (by simp)
  simp only [Bool.and_eq_true, decide_eq_true_eq] at hu
  obtain ⟨⟨rfl, rfl⟩, rfl⟩ := hu
  rw [tally, tally, usages_unlink, he, hl]
  simp only [List.countP_append, List.countP_cons]
  by_cases hjqv : j = u.user ∧ q = u.property ∧ v = u.target
  · obtain ⟨rfl, rfl, rfl⟩ := hjqv
    simp
  · rw [if_neg hjqv]
    have : ¬((u.user = j ∧ u.property = q) ∧ u.target = v) := by
      rintro ⟨⟨rfl, rfl⟩, rfl⟩
      exact hjqv ⟨rfl, rfl, rfl⟩
    simp [this]

theorem Mirrored.unlink (hm : g.Mirrored) (hv : g.contains value = true)
    (hmem : value ∈ g.values id p) : (g.unlink id p value).Mirrored where
  nodup_keys j := by
    rw [propertiesOf_unlink (contains_of_mem_values hmem)]
    split
    · exact nodup_keys_withoutValue _ _ (hm.nodup_keys id)
    · exact hm.nodup_keys j
  ne_nil j q vs hf := by
    rw [propertiesOf_unlink (contains_of_mem_values hmem)] at hf
    split at hf
    · exact ne_nil_withoutValue _ _ _ (hm.ne_nil id) _ hf
    · exact hm.ne_nil _ _ _ hf
  tally_eq j q v hlive := by
    rw [contains_congr (frame_unlink g id value p)] at hlive
    have hpos : 0 < g.tally id p value := by rwa [hm.tally_eq _ _ _ hv, List.count_pos_iff]
    rw [tally_unlink hpos, values_unlink (contains_of_mem_values hmem), hm.tally_eq _ _ _ hlive]
    by_cases hjq : j = id ∧ q = p
    · obtain ⟨rfl, rfl⟩ := hjq
      by_cases hv : v = value
      · subst hv
        simp [List.count_erase_self]
      · simp [hv, List.count_erase_of_ne hv]
    · rw [if_neg hjq, if_neg fun e => hjq ⟨e.1, e.2.1⟩]
  target_live u hu := by
    rw [contains_congr (frame_unlink g id value p)]
    rw [usages_unlink] at hu
    exact hm.target_live u (List.mem_of_mem_eraseP hu)

end RemoveValue

section ClearProperty

variable {g : Graph} {id : NodeId} {p : String}

def purge (g : Graph) (id : NodeId) (p : String) : Graph :=
  if (g.propertiesOf id).contains p then
    let g' := g.modifyNode id fun n => { n with properties := n.properties.erase p }
    { g' with usages := g'.usages.filter fun u => !(u.user = id && u.property = p)
    }.touchUnlessBack id p
  else g

theorem clearProperty_eq (h : g.contains id = true) :
    g.clearProperty id p = .ok (g.values id p, g.purge id p) := by
  obtain ⟨n, hn⟩ := contains_iff.1 h
  have hp : g.propertiesOf id = n.properties := by simp [propertiesOf, hn]
  simp only [clearProperty, purge, hn, values_eq, hp, Table.contains, Table.values]
  cases n.properties.find? p <;> rfl

theorem frame_purge (g : Graph) (id : NodeId) (p : String) : (g.purge id p).frame = g.frame := by
  unfold purge
  split
  · simp only [frame_touchUnlessBack]
    exact frame_modifyNode g id _ fun _ => rfl
  · rfl

theorem propertiesOf_purge (g : Graph) (id : NodeId) (p : String) (j : NodeId) :
    (g.purge id p).propertiesOf j =
      if j = id then (g.propertiesOf id).erase p else g.propertiesOf j := by
  unfold purge
  split
  · rename_i hc
    have hlive : g.contains id = true := by
      by_contra hn
      rw [propertiesOf_of_not_contains (by simpa using hn)] at hc
      simp [Table.contains] at hc
    rw [propertiesOf_touchUnlessBack]
    apply propertiesOf_modifyNode g id j _ hlive
    intro n hn
    simp [propertiesOf, hn]
  · rename_i hc
    split
    · rename_i hj
      rw [hj, Table.erase_of_not_contains (by simpa using hc)]
    · rfl

theorem values_purge (g : Graph) (id : NodeId) (p : String) (j : NodeId) (q : String) :
    (g.purge id p).values j q = if j = id ∧ q = p then [] else g.values j q := by
  rw [values_eq, propertiesOf_purge]
  by_cases hj : j = id
  · subst hj
    by_cases hq : q = p <;> simp [hq, Table.values_erase, values_eq]
  · simp [hj, values_eq]

theorem usages_purge (hm : g.Mirrored) (id : NodeId) (p : String) :
    (g.purge id p).usages = g.usages.filter fun u => !(u.user = id && u.property = p) := by
  unfold purge
  split
  · simp [modifyNode]
  · rename_i hc
    symm
    rw [List.filter_eq_self]
    intro u hu
    -- a usage of the property would give the property a value
    by_contra hu'
    simp only [Bool.not_eq_eq_eq_not, Bool.not_true, Bool.not_eq_false, Bool.and_eq_true,
      decide_eq_true_eq] at hu'
    have hmem := hm.target_mem hu
    rw [hu'.1, hu'.2, values_eq, Table.values_eq_nil_of_find?] at hmem
    · simp at hmem
    · simpa [Table.contains] using hc

theorem trims_purge (hm : g.Mirrored) (id : NodeId) (p : String) : Trims g (g.purge id p) where
  frame := frame_purge g id p
  usages := by
    rw [usages_purge hm]
    exact List.filter_sublist
  values j q := by
    rw [values_purge]
    split
    · exact List.nil_sublist _
    · exact .refl _

theorem Mirrored.purge (hm : g.Mirrored) (id : NodeId) (p : String) : (g.purge id p).Mirrored where
  nodup_keys j := by
    rw [propertiesOf_purge]
    split
    · exact Table.nodup_keys_erase (hm.nodup_keys id) p
    · exact hm.nodup_keys j
  ne_nil j q vs hf := by
    rw [propertiesOf_purge] at hf
    split at hf
    · rw [Table.find?_erase] at hf
      split at hf
      · simp at hf
      · exact hm.ne_nil _ _ _ hf
    · exact hm.ne_nil _ _ _ hf
  tally_eq j q v hlive := by
    rw [contains_congr (frame_purge g id p)] at hlive
    have ht := hm.tally_eq j q v hlive
    rw [tally] at ht
    rw [tally, usages_purge hm, values_purge, List.countP_filter]
    by_cases hjq : j = id ∧ q = p
    · obtain ⟨rfl, rfl⟩ := hjq
      simp only [and_self, if_true, List.count_nil, List.countP_eq_zero]
      intro u hu
      simp only [Bool.and_eq_true, decide_eq_true_eq, Bool.not_eq_eq_eq_not, Bool.not_true,
        Bool.and_eq_false_imp, decide_eq_false_iff_not]
      tauto
    · rw [if_neg hjq, ← ht]
      apply List.countP_congr
      intro u _
      simp only [Bool.and_eq_true, decide_eq_true_eq, Bool.not_eq_eq_eq_not, Bool.not_true,
        Bool.and_eq_false_imp, decide_eq_false_iff_not]
      constructor
      · exact fun h => h.1
      · rintro ⟨⟨rfl, rfl⟩, rfl⟩
        exact ⟨⟨⟨rfl, rfl⟩, rfl⟩, fun e e' => hjq ⟨e, e'⟩⟩
  target_live u hu := by
    rw [contains_congr (frame_purge g id p)]
    exact hm.target_live u ((trims_purge hm id p).usages.subset hu)

end ClearProperty

section Outcomes

variable {g g' : Graph} {id value : NodeId} {p : String}

theorem addValue_cases (h : g.addValue id p value = .ok g') :
    g.contains id = true ∧ g.contains value = true ∧ g' = g.link id p value := by
  unfold addValue at h
  split at h
  · simp at h
  · split at h
    · simp at h
    · rename_i hid hv
      exact ⟨by simpa using hid, by simpa using hv, (Except.ok.inj h).symm⟩

theorem removeValue_cases {b : Bool} (h : g.removeValue id p value = .ok (b, g')) :
    g.contains id = true ∧ (g' = g ∨ value ∈ g.values id p ∧ g' = g.unlink id p value) := by
  by_cases hid : g.contains id = true
  · rw [removeValue_eq hid] at h
    split at h
    · obtain ⟨-, rfl⟩ := ok_mk_inj h
      exact ⟨hid, .inr ⟨‹_›, rfl⟩⟩
    · obtain ⟨-, rfl⟩ := ok_mk_inj h
      exact ⟨hid, .inl rfl⟩
  · have : g.node? id = none := by simpa [contains] using hid
    simp [removeValue, this] at h

theorem eq_purge_of_clearProperty {old : List NodeId}
    (h : g.clearProperty id p = .ok (old, g')) : g' = g.purge id p := by
  by_cases hid : g.contains id = true
  · rw [clearProperty_eq hid] at h
    exact (ok_mk_inj h).2.symm
  · have : g.node? id = none := by simpa [contains] using hid
    simp [clearProperty, this] at h

/-- To set values is to purge the property and to link the values one by one. -/
theorem setValues_keeps {I : Graph → Prop} {values : List NodeId} (hg : I (g.purge id p))
    (hlink : ∀ k v, I k → k.contains id = true → k.contains v = true → I (k.link id p v))
    (h : g.setValues id p values = .ok g') : I g' := by
  unfold setValues at h
  obtain ⟨⟨old, k⟩, hc, h⟩ := exists_of_bind_ok h
  obtain rfl := eq_purge_of_clearProperty hc
  refine foldlM_keeps (fun v _ s t hs ht => ?_) hg h
  obtain ⟨hid, hv, rfl⟩ := addValue_cases ht
  exact hlink s v hs hid hv

theorem frame_setValues {values : List NodeId} (h : g.setValues id p values = .ok g') :
    g'.frame = g.frame :=
  setValues_keeps (I := fun k => k.frame = g.frame) (frame_purge g id p)
    (fun k v hk _ _ => (frame_link k id v p).trans hk) h

end Outcomes

section Flags

/-- Flags of usages only ever go up: of two references under one property, the newer one is a
back-reference if the older one is, and then the property is declared as one. -/
structure Flagged (g : Graph) : Prop where
  declared : ∀ u ∈ g.usages, u.back = true → g.isBackReference u.property = true
  rising : g.usages.Pairwise fun newer older =>
    newer.property = older.property → older.back = true → newer.back = true

theorem Flagged.of_sublist {g g' : Graph} (hf : g.Flagged) (hu : g'.usages.Sublist g.usages)
    (hb : g'.backReferences = g.backReferences) : g'.Flagged where
  declared u hmem hback := by
    have := hf.declared u (hu.subset hmem) hback
    rwa [isBackReference, ← hb] at this
  rising := hf.rising.sublist hu

theorem Flagged.link {g : Graph} (hf : g.Flagged) (id value : NodeId) (p : String) :
    (g.link id p value).Flagged where
  declared u hu hback := by
    rw [isBackReference_congr (frame_link g id value p)]
    rw [usages_link] at hu
    rcases List.mem_cons.1 hu with rfl | hu
    · exact hback
    · exact hf.declared u hu hback
  rising := by
    rw [usages_link, List.pairwise_cons]
    refine ⟨fun older hold hprop hback => ?_, hf.rising⟩
    have := hf.declared older hold hback
    rwa [← hprop] at this

end Flags

end ModelCompiler.Graph
