import ModelCompiler.Proofs.Snapshot.Addresses

/-!
Snapshots do not depend on slots.
-/
open ModelCompiler.Graph

namespace ModelCompiler

def Lifetime.rename (ρ : NodeId → NodeId) : Lifetime → Lifetime
  | .ephemeral owner => .ephemeral (ρ owner)
  | l => l

/-- `ρ` takes the nodes of `g` one to one to those of `g'`. The nodes that correspond are alike and
hold what corresponds; the order of back-references is free, as are slots and stamps and the order
of properties. -/
structure Renames (ρ : NodeId → NodeId) (g g' : Graph) : Prop where
  contains : ∀ a, g.contains a = true → g'.contains (ρ a) = true
  injective : ∀ a b, g.contains a = true → g.contains b = true → ρ a = ρ b → a = b
  surjective : ∀ b, g'.contains b = true → ∃ a, g.contains a = true ∧ ρ a = b
  name : ∀ a, g.contains a = true → g'.name? (ρ a) = g.name? a
  path : ∀ a, g.contains a = true → g'.path? (ρ a) = g.path? a
  classifier : ∀ a, g.contains a = true → g'.classifier? (ρ a) = (g.classifier? a).map ρ
  lifetime : ∀ a, g.contains a = true → g'.lifetime? (ρ a) = (g.lifetime? a).map (·.rename ρ)
  span : ∀ a, g.contains a = true → g'.span? (ρ a) = g.span? a
  persistent : ∀ s, g'.persistentNodes s = (g.persistentNodes s).map ρ
  owned : ∀ o, g.contains o = true → g'.ownedBy (ρ o) = (g.ownedBy o).map ρ
  back : ∀ p, g'.isBackReference p = g.isBackReference p
  forward : ∀ a p, g.contains a = true → g.isBackReference p = false →
    g'.values (ρ a) p = (g.values a p).map ρ
  backward : ∀ a p, g.contains a = true → g.isBackReference p = true →
    (g'.values (ρ a) p).Perm ((g.values a p).map ρ)

theorem Renames.lifetime_part {ρ : NodeId → NodeId} {g g' : Graph} (hr : Renames ρ g g')
    (hc : g.Coherent) {a o : NodeId} (ha : g.contains a = true) (ho : g.contains o = true) :
    g'.lifetime? (ρ a) = some (.ephemeral (ρ o)) ↔
      g.lifetime? a = some (.ephemeral o) := by
  rw [hr.lifetime a ha]
  cases hl : g.lifetime? a with
  | none => simp
  | some l =>
    cases l with
    | ephemeral o' =>
      simp only [Option.map_some, Lifetime.rename, Option.some.injEq, Lifetime.ephemeral.injEq]
      exact ⟨hr.injective o' o (hc.owner_live a o' hl) ho, fun h => h ▸ rfl⟩
    | bootstrap | implicit | persistent s => simp [Lifetime.rename]

namespace Graph

/-- No back-reference leads from a node to a part of its own owner, or of itself if it has none. -/
def OutwardBack (g : Graph) : Prop :=
  ∀ a r p v, g.ownerRoot? a = some r → g.isBackReference p = true → v ∈ g.values a p →
    g.lifetime? v ≠ some (.ephemeral r)

end Graph

namespace Snapshot

variable {vs : List NodeId} {a v : NodeId} {e : String × NodeId}

section Steps

def names (t : Table String (List NodeId)) : List String :=
  (Text.sortedMap t.entries).map Prod.fst

variable {t t' : Table String (List NodeId)} {g : Graph} {n : Node}

theorem names_perm (h : t.keys.Nodup) : (names t).Perm t.keys :=
  (Text.sortedMap_perm h).map Prod.fst

theorem names_congr (h : t.keys.Nodup) (hperm : t.keys.Perm t'.keys) : names t = names t' := by
  have h' := hperm.nodup_iff.1 h
  have hsorted {t : Table String (List NodeId)} (h : t.keys.Nodup) :
      (names t).Pairwise (· ≤ ·) :=
    List.pairwise_map.2 (Text.sortedMap_pairwise h)
  exact List.Perm.eq_of_pairwise (fun p q _ _ hpq hqp => le_antisymm hpq hqp) (hsorted h)
    (hsorted h') (((names_perm h).trans hperm).trans (names_perm h').symm)

theorem map_entries {β : Type} (h : t.keys.Nodup) (f : String → List NodeId → β) :
    (t.entries.map fun e => (e.1, f e.1 e.2)) = t.keys.map fun p => (p, f p (t.values p)) := by
  rw [Table.keys, List.map_map]
  refine List.map_congr_left fun e he => ?_
  simp [Table.values_eq_of_find? ((Table.mem_entries_iff h).1 he)]

theorem sortedMap_entries (h : t.keys.Nodup) :
    Text.sortedMap t.entries = (names t).map fun p => (p, t.values p) := by
  rw [names, List.map_map]
  refine (List.map_id _).symm.trans (List.map_congr_left fun e he => ?_)
  have hfind := (Table.mem_entries_iff h).1 ((Text.sortedMap_perm h).mem_iff.1 he)
  simp [Function.comp, Table.values_eq_of_find? hfind]

def stepsUnder (address p : String) (vs : List NodeId) : List (String × NodeId) :=
  vs.zipIdx.map fun (v, i) => (s!"{address}/{p}.{i}", v)

theorem steps_eq (h : n.properties.keys.Nodup) (address : String) : steps address n =
    (names n.properties).flatMap fun p => stepsUnder address p (n.values p) := by
  rw [steps, sortedMap_entries h, List.flatMap_map]
  rfl

theorem mem_stepsUnder {address p : String} (h : e ∈ stepsUnder address p vs) : e.2 ∈ vs := by
  obtain ⟨⟨v, i⟩, hv, rfl⟩ := List.mem_map.1 h
  exact List.mem_of_getElem? (List.mem_zipIdx_iff_getElem?.1 hv)

theorem stepsUnder_map (address p : String) (vs : List NodeId) (ρ : NodeId → NodeId) :
    stepsUnder address p (vs.map ρ) = (stepsUnder address p vs).map fun e => (e.1, ρ e.2) := by
  simp [stepsUnder, List.zipIdx_map, Function.comp_def]

end Steps

section Following

def follow (g : Graph) (owner : NodeId) (fuel : Nat) (keys : Keys) (e : String × NodeId) : Keys :=
  if !keys.contains e.2 && (g.node? e.2 >>= (·.owner)) = some owner then
    visit g owner fuel e.2 e.1 (keys.insert e.2 e.1)
  else keys

variable {g : Graph} {owner id : NodeId} {n : Node} {keys : Keys} {fuel : Nat} {address : String}

theorem visit_succ (hn : g.node? id = some n) : visit g owner (fuel + 1) id address keys =
    (steps address n).foldl (follow g owner fuel) keys := by
  rw [visit, hn]
  rfl

theorem follow_of_part (hnone : keys.find? e.2 = none)
    (hl : g.lifetime? e.2 = some (.ephemeral owner)) :
    follow g owner fuel keys e = visit g owner fuel e.2 e.1 (keys.insert e.2 e.1) := by
  rw [follow, if_pos]
  simp [Table.contains, hnone]
  exact owner_eq_some_iff.2 hl

theorem follow_of_not (h : keys.contains e.2 = true ∨ g.lifetime? e.2 ≠ some (.ephemeral owner)) :
    follow g owner fuel keys e = keys := by
  rw [follow, if_neg]
  rw [Bool.and_eq_true, decide_eq_true_eq, owner_eq_some_iff]
  rintro ⟨hnone, hl⟩
  rcases h with h | h
  · simp [h] at hnone
  · exact h hl

theorem foldl_follow_of_not {l : List (String × NodeId)}
    (h : ∀ e ∈ l, g.lifetime? e.2 ≠ some (.ephemeral owner)) :
    l.foldl (follow g owner fuel) keys = keys := by
  induction l with
  | nil => rfl
  | cons e l ih =>
    obtain ⟨he, hl⟩ := List.forall_mem_cons.1 h
    rw [List.foldl_cons, follow_of_not (.inr he)]
    exact ih hl

theorem extends_visit (h : keys.find? id = some address) :
    Extends keys (visit g owner fuel id address keys) :=
  extends_of_keyings (visit_keyings owner address 0 fuel id address keys h)

theorem extends_follow (g : Graph) (owner : NodeId) (fuel : Nat) (keys : Keys)
    (e : String × NodeId) :
    Extends keys (follow g owner fuel keys e) := by
  by_cases h : keys.contains e.2 = true ∨ g.lifetime? e.2 ≠ some (.ephemeral owner)
  · rw [follow_of_not h]
    exact .refl _
  · obtain ⟨hnone, hl⟩ := not_or.1 h
    rw [not_not] at hl
    replace hnone : keys.find? e.2 = none := by simpa [Table.contains] using hnone
    rw [follow_of_part hnone hl]
    exact (extends_insert hnone _).trans (extends_visit (by simp [Table.find?_insert]))

def unkeyed (g : Graph) (owner : NodeId) (keys : Keys) : Nat :=
  (g.ownedBy owner).countP fun v => !keys.contains v

theorem unkeyed_le {keys' : Keys} (h : Extends keys keys') :
    unkeyed g owner keys' ≤ unkeyed g owner keys := by
  refine List.countP_mono_left fun v _ hv => ?_
  simp only [Bool.not_eq_true', Table.contains] at hv ⊢
  cases hk : keys.find? v with
  | none => rfl
  | some k => simp [h v k hk] at hv

theorem unkeyed_insert (hv : v ∈ g.ownedBy owner) (hnone : keys.find? v = none)
    (k : String) : unkeyed g owner (keys.insert v k) < unkeyed g owner keys := by
  have hle (l : List NodeId) : l.countP (fun v' => !(keys.insert v k).contains v') ≤
      l.countP fun v' => !keys.contains v' := by
    refine List.countP_mono_left fun v' _ hv' => ?_
    simp only [Bool.not_eq_true', Table.contains, Table.find?_insert] at hv' ⊢
    split at hv'
    · simp at hv'
    · exact hv'
  obtain ⟨l₁, l₂, hl⟩ := List.append_of_mem hv
  have h₁ := hle l₁
  have h₂ := hle l₂
  have hold : keys.contains v = false := by simp [Table.contains, hnone]
  have hnew : (keys.insert v k).contains v = true := by simp [Table.contains, Table.find?_insert]
  simp only [unkeyed, hl, List.countP_append, List.countP_cons, hold, hnew, Bool.not_true,
    Bool.not_false, if_true, Bool.false_eq_true, if_false]
  omega

end Following

section Corresponding

variable {ρ : NodeId → NodeId} {g g' : Graph} {keys keys' : Keys} {owner : NodeId}

def Correspond (ρ : NodeId → NodeId) (g : Graph) (keys keys' : Keys) : Prop :=
  ∀ a, g.contains a = true → keys'.find? (ρ a) = keys.find? a

theorem Correspond.contains (h : Correspond ρ g keys keys') (ha : g.contains a = true) :
    keys'.contains (ρ a) = keys.contains a := by
  rw [Table.contains, h a ha]
  rfl

variable (hr : Renames ρ g g') (hc : g.Coherent) (hc' : g'.Coherent)
include hr

theorem Correspond.insert (h : Correspond ρ g keys keys') (hv : g.contains v = true)
    (k : String) : Correspond ρ g (keys.insert v k) (keys'.insert (ρ v) k) := by
  intro a ha
  rw [Table.find?_insert, Table.find?_insert, h a ha]
  by_cases hav : a = v
  · simp [hav]
  · rw [if_neg hav, if_neg fun heq => hav (hr.injective a v ha hv heq)]

include hc

include hc'

theorem keys_renames {n n' : Node} (hn : g.node? a = some n)
    (hn' : g'.node? (ρ a) = some n') : n'.properties.keys.Perm n.properties.keys := by
  have ha := contains_iff.2 ⟨n, hn⟩
  refine (List.perm_ext_iff_of_nodup (nodup_properties hc' hn') (nodup_properties hc hn)).2 fun p =>
    ?_
  rw [mem_keys_iff hc' hn', mem_keys_iff hc hn]
  cases hb : g.isBackReference p with
  | false => simp [hr.forward a p ha hb]
  | true =>
    have hlength := (hr.backward a p ha hb).length_eq
    rw [List.length_map] at hlength
    rw [← List.length_pos_iff_ne_nil, ← List.length_pos_iff_ne_nil, hlength]

omit hc' in
theorem follow_renames {fuel fuel' : Nat} (ho : g.contains owner = true)
    (hvisit : ∀ id address keys keys', g.ownerRoot? id = some owner → Correspond ρ g keys keys' →
      Snapshot.unkeyed g owner keys < fuel → Snapshot.unkeyed g owner keys < fuel' →
      Correspond ρ g (visit g owner fuel id address keys)
        (visit g' (ρ owner) fuel' (ρ id) address keys'))
    (he : g.contains e.2 = true) (hkeys : Correspond ρ g keys keys')
    (hfuel : Snapshot.unkeyed g owner keys < fuel + 1)
    (hfuel' : Snapshot.unkeyed g owner keys < fuel' + 1) :
    Correspond ρ g (follow g owner fuel keys e)
      (follow g' (ρ owner) fuel' keys' (e.1, ρ e.2)) := by
  by_cases h : keys.contains e.2 = true ∨ g.lifetime? e.2 ≠ some (.ephemeral owner)
  · rw [follow_of_not h, follow_of_not]
    · exact hkeys
    · rwa [hkeys.contains he, ne_eq, hr.lifetime_part hc he ho]
  · obtain ⟨hnone, hlife⟩ := not_or.1 h
    rw [not_not] at hlife
    replace hnone : keys.find? e.2 = none := by simpa [Table.contains] using hnone
    have hless := unkeyed_insert ((hc.owned_iff owner e.2).2 ⟨hlife, ho⟩) hnone e.1
    rw [follow_of_part hnone hlife, follow_of_part ((hkeys e.2 he).trans hnone)
      ((hr.lifetime_part hc he ho).2 hlife)]
    refine hvisit e.2 e.1 _ _ ?_ (hkeys.insert hr he e.1) (by omega) (by omega)
    simp [ownerRoot?_eq, hlife]

omit hc hc' hr in
theorem foldl_renames {α : Type} {f f' : Keys → α → Keys} {fuel fuel' : Nat} (l : List α)
    (h : ∀ a ∈ l, ∀ keys keys', Correspond ρ g keys keys' → Snapshot.unkeyed g owner keys < fuel →
      Snapshot.unkeyed g owner keys < fuel' → Correspond ρ g (f keys a) (f' keys' a) ∧
        Extends keys (f keys a)) : ∀ keys keys', Correspond ρ g keys keys' →
    Snapshot.unkeyed g owner keys < fuel → Snapshot.unkeyed g owner keys < fuel' →
    Correspond ρ g (l.foldl f keys) (l.foldl f' keys') ∧ Extends keys (l.foldl f keys) := by
  induction l with
  | nil => exact fun keys keys' hkeys _ _ => ⟨hkeys, .refl _⟩
  | cons a l ih =>
    intro keys keys' hkeys hfuel hfuel'
    obtain ⟨ha, hl⟩ := List.forall_mem_cons.1 h
    obtain ⟨hone, hext⟩ := ha keys keys' hkeys hfuel hfuel'
    have hle : Snapshot.unkeyed g owner _ ≤ _ := unkeyed_le hext
    obtain ⟨hrest, hext'⟩ := ih hl _ _ hone (hle.trans_lt hfuel) (hle.trans_lt hfuel')
    exact ⟨hrest, hext.trans hext'⟩

variable (hout : g.OutwardBack)
include hout

theorem visit_renames (ho : g.contains owner = true) : ∀ (fuel fuel' : Nat) (id : NodeId)
    (address : String) (keys keys' : Keys), g.ownerRoot? id = some owner →
    Correspond ρ g keys keys' → Snapshot.unkeyed g owner keys < fuel →
    Snapshot.unkeyed g owner keys < fuel' →
    Correspond ρ g (visit g owner fuel id address keys)
      (visit g' (ρ owner) fuel' (ρ id) address keys')
  | 0, _, _, _, _, _, _, _, h, _ => absurd h (Nat.not_lt_zero _)
  | _, 0, _, _, _, _, _, _, _, h => absurd h (Nat.not_lt_zero _)
  | fuel + 1, fuel' + 1, id, address, keys, keys', hroot, hkeys, hfuel, hfuel' => by
    obtain ⟨n, hn, -⟩ := Option.map_eq_some_iff.1 hroot
    have hid := contains_iff.2 ⟨n, hn⟩
    obtain ⟨n', hn'⟩ := contains_iff.1 (hr.contains id hid)
    have hvalues (p : String) : n.values p = g.values id p := by simp [values, hn]
    have hvalues' (p : String) : n'.values p = g'.values (ρ id) p := by simp [values, hn']
    rw [visit_succ hn, visit_succ hn', steps_eq (nodup_properties hc hn),
      steps_eq (nodup_properties hc' hn'), names_congr (nodup_properties hc' hn')
      (keys_renames hr hc hc' hn hn'), List.foldl_flatMap,
      List.foldl_flatMap]
    simp only [hvalues, hvalues']
    refine (foldl_renames _ (fun p _ keys keys' hkeys hfuel hfuel' => ?_) keys keys' hkeys hfuel
      hfuel').1
    cases hb : g.isBackReference p with
    | false =>
      rw [hr.forward id p hid hb, stepsUnder_map, List.foldl_map]
      refine foldl_renames _ (fun e he keys keys' hkeys hfuel hfuel' => ?_) keys keys' hkeys hfuel
        hfuel'
      have hlive := hc.value_live id p e.2 (mem_stepsUnder he)
      exact ⟨follow_renames hr hc ho (visit_renames ho fuel fuel') hlive hkeys hfuel hfuel',
        extends_follow g owner fuel keys e⟩
    | true =>
      -- what back-references hold is passed over
      rw [foldl_follow_of_not fun e he => hout id owner p e.2 hroot hb (mem_stepsUnder he),
        foldl_follow_of_not fun e he hlife => ?_]
      · exact ⟨hkeys, .refl _⟩
      · obtain ⟨v, hv, hev⟩ := List.mem_map.1
          ((hr.backward id p hid hb).mem_iff.1 (mem_stepsUnder he))
        rw [← hev, hr.lifetime_part hc (hc.value_live id p v hv) ho] at hlife
        exact hout id owner p v hroot hb hv hlife

omit hr hc' hout in
theorem length_ownedBy_lt (ho : g.contains owner = true) :
    (g.ownedBy owner).length < g.slots.size := by
  have hlive (v : NodeId) (hv : v ∈ owner :: g.ownedBy owner) : g.contains v = true := by
    rcases List.mem_cons.1 hv with rfl | hv
    · exact ho
    · exact contains_of_lifetime? ((hc.owned_iff owner v).1 hv).1
  have hnew : owner ∉ g.ownedBy owner := fun h => by
    have hlife := ((hc.owned_iff owner owner).1 h).1
    simpa [Lifetime.isEphemeral] using hc.owner_plain owner owner hlife _ hlife
  have hnodup : (owner :: g.ownedBy owner).Nodup := List.nodup_cons.2 ⟨hnew, hc.owned_nodup owner⟩
  have hsub : owner :: g.ownedBy owner ⊆ List.range g.slots.size := fun v hv =>
    List.mem_range.2 (lt_size_of_contains (hlive v hv))
  simpa using (List.subperm_of_subset hnodup hsub).length_le

theorem visit_renames_full (ho : g.contains owner = true) {id : NodeId} (address : String)
    (hroot : g.ownerRoot? id = some owner) (hkeys : Correspond ρ g keys keys') :
    Correspond ρ g (visit g owner g.slots.size id address keys)
      (visit g' (ρ owner) g'.slots.size (ρ id) address keys') := by
  have hle : Snapshot.unkeyed g owner keys ≤ _ := List.countP_le_length
  have hlength := congrArg List.length (hr.owned owner ho)
  rw [List.length_map] at hlength
  exact visit_renames hr hc hc' hout ho _ _ id address keys keys' hroot hkeys
    (hle.trans_lt (length_ownedBy_lt hc ho))
    (hle.trans_lt (hlength ▸ length_ownedBy_lt hc' (hr.contains owner ho)))

theorem visitOrphans_renames (ho : g.contains owner = true) (key : String) :
    ∀ (m : Nat) (ids : List NodeId) (keys keys' : Keys), ids ⊆ g.ownedBy owner →
      Correspond ρ g keys keys' → Correspond ρ g (visitOrphans g owner key m ids keys)
        (visitOrphans g' (ρ owner) key m (ids.map ρ) keys')
  | _, [], _, _, _, hkeys => hkeys
  | m, id :: ids, keys, keys', hids, hkeys => by
    obtain ⟨hid, hids⟩ := List.cons_subset.1 hids
    have hlife := ((hc.owned_iff owner id).1 hid).1
    have hlive := contains_of_lifetime? hlife
    rw [List.map_cons, visitOrphans, visitOrphans, hkeys.contains hlive]
    split
    · exact visitOrphans_renames ho key m ids keys keys' hids hkeys
    · refine visitOrphans_renames ho key (m + 1) ids _ _ hids ?_
      exact visit_renames_full hr hc hc' hout ho _ (by simp [ownerRoot?_eq, hlife])
        (hkeys.insert hr hlive _)

theorem parts_renames (hroot : g.ownerRoot? owner = some owner) (key : String)
    (hkeys : Correspond ρ g keys keys') : Correspond ρ g
      (visitOrphans g owner key 0 (g.ownedBy owner) (visit g owner g.slots.size owner key keys))
      (visitOrphans g' (ρ owner) key 0 (g'.ownedBy (ρ owner))
        (visit g' (ρ owner) g'.slots.size (ρ owner) key keys')) := by
  obtain ⟨n, hn, -⟩ := Option.map_eq_some_iff.1 hroot
  have ho := contains_iff.2 ⟨n, hn⟩
  rw [hr.owned owner ho]
  exact visitOrphans_renames hr hc hc' hout ho key 0 _ _ _ (List.Subset.refl _)
    (visit_renames_full hr hc hc' hout ho key hroot hkeys)

end Corresponding

section Tops

variable {ρ : NodeId → NodeId} {g g' : Graph} {a : NodeId} {n n' : Node}

theorem idxOf_map_renames (hr : Renames ρ g g') {l : List NodeId}
    (hl : ∀ b ∈ l, g.contains b = true) (ha : g.contains a = true) :
    (l.map ρ).idxOf (ρ a) = l.idxOf a := by
  induction l with
  | nil => rfl
  | cons b l ih =>
    obtain ⟨hb, hl⟩ := List.forall_mem_cons.1 hl
    by_cases hab : b = a
    · rw [hab, List.map_cons, List.idxOf_cons_self, List.idxOf_cons_self]
    · have hne : ρ b ≠ ρ a := fun h => hab (hr.injective b a hb ha h)
      rw [List.map_cons, List.idxOf_cons_ne _ hne, List.idxOf_cons_ne _ hab, ih hl]

variable (hr : Renames ρ g g') (hi : g.Indexed)
include hr

theorem ids_perm : g'.ids.Perm (g.ids.map ρ) := by
  refine (List.perm_ext_iff_of_nodup (nodup_ids g') ?_).2 fun b => ?_
  · exact List.Nodup.map_on
      (fun a ha b hb => hr.injective a b (mem_ids_iff.1 ha) (mem_ids_iff.1 hb)) (nodup_ids g)
  · rw [mem_ids_iff, List.mem_map]
    constructor
    · intro hb
      obtain ⟨a, ha, rfl⟩ := hr.surjective b hb
      exact ⟨a, mem_ids_iff.2 ha, rfl⟩
    · rintro ⟨a, ha, rfl⟩
      exact hr.contains a (mem_ids_iff.1 ha)

include hi

theorem topKey?_renames (ht : g.Titled) (hn : g.node? a = some n) (hn' : g'.node? (ρ a) = some n') :
    topKey? g' (ρ a) n' = topKey? g a n := by
  have ha := contains_iff.2 ⟨n, hn⟩
  have hlife : g.lifetime? a = some n.lifetime := lifetime?_of_node? hn
  have hpath : n'.path = n.path := by simpa [path?, hn, hn'] using hr.path a ha
  have hlifetime : n'.lifetime = n.lifetime.rename ρ := by
    simpa [lifetime?, hn, hn'] using hr.lifetime a ha
  unfold topKey?
  rw [hpath, hlifetime]
  cases hp : n.path with
  | some path => cases n.lifetime <;> rfl
  | none =>
    cases hl : n.lifetime with
    | ephemeral o => rfl
    | persistent s =>
      have hmem (b : NodeId) (hb : b ∈ g.persistentNodes s) : g.contains b = true :=
        hi.persistent_live hb
      simp only [Lifetime.rename, hr.persistent, idxOf_map_renames hr hmem ha]
    | bootstrap | implicit =>
      exact absurd (by simp [path?, hn, hp]) (ht a _ hlife (by rw [hl]; rfl))

omit hr hi in
theorem topKeys_pairwise (g : Graph) : (topKeys g).Pairwise fun e f => e.1 ≤ f.1 := by
  have hsorted : (topKeys g).Pairwise fun e f =>
      decide (e.1 < f.1 ∨ e.1 = f.1 ∧ e.2 ≤ f.2) = true := by
    refine List.pairwise_mergeSort (fun e f h hef hfh => ?_) (fun e f => ?_) _
    · simp only [decide_eq_true_eq] at hef hfh ⊢
      rcases hef with hef | ⟨hef, hle⟩ <;> rcases hfh with hfh | ⟨hfh, hle'⟩
      · exact .inl (hef.trans hfh)
      · exact .inl (hfh ▸ hef)
      · exact .inl (hef ▸ hfh)
      · exact .inr ⟨hef.trans hfh, hle.trans hle'⟩
    · simp only [Bool.or_eq_true, decide_eq_true_eq]
      rcases lt_trichotomy e.1 f.1 with h | h | h
      · exact .inl (.inl h)
      · exact (le_total e.2 f.2).imp (fun hle => .inr ⟨h, hle⟩) fun hle => .inr ⟨h.symm, hle⟩
      · exact .inr (.inl h)
  refine hsorted.imp fun h => ?_
  rcases of_decide_eq_true h with h | ⟨h, -⟩
  · exact h.le
  · exact h.le

theorem topKeys_renames (ht : g.Titled) (hk : ((topKeys g).map Prod.fst).Nodup) :
    topKeys g' = (topKeys g).map fun e => (e.1, ρ e.2) := by
  have hperm : (topKeys g').Perm ((topKeys g).map fun e => (e.1, ρ e.2)) := by
    refine (List.mergeSort_perm _ _).trans (((ids_perm hr).filterMap _).trans ?_)
    refine List.Perm.trans (.of_eq ?_) ((List.mergeSort_perm _ _).map
      fun e : String × NodeId => (e.1, ρ e.2)).symm
    rw [List.filterMap_map, List.map_filterMap]
    refine List.filterMap_congr fun a ha => ?_
    obtain ⟨n, hn⟩ := contains_iff.1 (mem_ids_iff.1 ha)
    obtain ⟨n', hn'⟩ := contains_iff.1 (hr.contains a (mem_ids_iff.1 ha))
    simp only [Function.comp_def, hn, hn', Option.bind_eq_bind, Option.bind_some, Option.map_map,
      topKey?_renames hr hi ht hn hn']
  have hk' : ((topKeys g').map Prod.fst).Nodup := by
    rw [(hperm.map Prod.fst).nodup_iff, List.map_map]
    exact hk
  refine List.Perm.eq_of_pairwise (fun e f he hf hef hfe => ?_) (topKeys_pairwise g')
    (List.pairwise_map.2 (topKeys_pairwise g)) hperm
  exact Text.eq_of_nodup_keys hk' he (hperm.mem_iff.2 hf) (le_antisymm hef hfe)

end Tops

section Captures

variable {ρ : NodeId → NodeId} {g g' : Graph} {a : NodeId} (hr : Renames ρ g g')
  (hc : g.Coherent) (hc' : g'.Coherent) (ht : g.Titled) (hout : g.OutwardBack)
  (hk : ∀ a b, g.contains a = true → g.contains b = true → keyOf g a = keyOf g b → a = b)
include hr hc hc' ht hout hk

omit hr hc hc' ht hout in
theorem nodup_fst_topKeys : ((topKeys g).map Prod.fst).Nodup := by
  refine List.Nodup.map_on (fun e he f hf hkey => ?_) (List.Nodup.of_map Prod.snd (nodup_topKeys g))
  have htop {k : String} {a : NodeId} (h : (k, a) ∈ topKeys g) :
      g.contains a = true ∧ keyOf g a = k := by
    have hfind := extends_assignKeys g a k (find?_tops.2 (mem_topKeys.1 h))
    obtain ⟨n, hn, -⟩ := mem_topKeys.1 h
    exact ⟨contains_iff.2 ⟨n, hn⟩, by simp [keyOf, hfind]⟩
  obtain ⟨he, hek⟩ := htop he
  obtain ⟨hf, hfk⟩ := htop hf
  exact Prod.ext hkey (hk e.2 f.2 he hf (hek.trans (hkey.trans hfk.symm)))

omit hc' hout hk in
theorem tops_renames : Correspond ρ g (tops g) (tops g') := by
  intro a ha
  obtain ⟨n, hn⟩ := contains_iff.1 ha
  obtain ⟨n', hn'⟩ := contains_iff.1 (hr.contains a ha)
  refine Option.ext fun k => ?_
  simp only [find?_tops, hn, hn', Option.some.injEq, exists_eq_left',
    topKey?_renames hr hc.toIndexed ht hn hn']

theorem assignKeys_renames : Correspond ρ g (assignKeys g) (assignKeys g') := by
  have hfold (l : List (String × NodeId)) (hl : l ⊆ topKeys g) : ∀ keys keys' : Keys,
      Correspond ρ g keys keys' → Correspond ρ g
        (l.foldl (fun keys e => visitOrphans g e.2 e.1 0 (g.ownedBy e.2)
          (visit g e.2 g.slots.size e.2 e.1 keys)) keys)
        ((l.map fun e => (e.1, ρ e.2)).foldl (fun keys e => visitOrphans g' e.2 e.1 0
          (g'.ownedBy e.2) (visit g' e.2 g'.slots.size e.2 e.1 keys)) keys') := by
    induction l with
    | nil => exact fun _ _ h => h
    | cons e l ih =>
      intro keys keys' hkeys
      obtain ⟨he, hl⟩ := List.cons_subset.1 hl
      obtain ⟨n, hn, htop⟩ := mem_topKeys.1 he
      have hroot : g.ownerRoot? e.2 = some e.2 := by
        have hplain := not_ephemeral_of_topKey? htop
        rw [ownerRoot?_eq, lifetime?_of_node? hn]
        cases hl : n.lifetime <;> simp_all [Lifetime.isEphemeral]
      exact ih hl _ _ (parts_renames hr hc hc' hout hroot e.1 hkeys)
  have htops := topKeys_renames hr hc.toIndexed ht (nodup_fst_topKeys hk)
  have hboth := hfold (topKeys g) (List.Subset.refl _) (tops g) (tops g') (tops_renames hr hc ht)
  rw [← htops] at hboth
  exact hboth

theorem keyOf_renames (ha : g.contains a = true) : keyOf g' (ρ a) = keyOf g a := by
  rw [keyOf, assignKeys_renames hr hc hc' ht hout hk a ha, keyOf]

theorem map_keyOf_renames (hvs : ∀ v ∈ vs, g.contains v = true) :
    (vs.map ρ).map (keyOf g') = vs.map (keyOf g) := by
  rw [List.map_map]
  exact List.map_congr_left fun v hv => keyOf_renames hr hc hc' ht hout hk (hvs v hv)

theorem keysOf_renames (ha : g.contains a = true) (p : String) :
    keysOf g' p (g'.values (ρ a) p) = keysOf g p (g.values a p) := by
  have hkeys := map_keyOf_renames hr hc hc' ht hout hk fun v hv => hc.value_live a p v hv
  rw [keysOf, keysOf, hr.back]
  cases hb : g.isBackReference p with
  | false => rw [if_neg (by simp), if_neg (by simp), hr.forward a p ha hb, hkeys]
  | true =>
    rw [if_pos rfl, if_pos rfl, ← hkeys]
    exact Text.sort_eq_of_perm ((hr.backward a p ha hb).map _)

theorem properties_renames {n n' : Node} (hn : g.node? a = some n)
    (hn' : g'.node? (ρ a) = some n') :
    Text.sortedMap (n'.properties.entries.map fun e => (e.1, keysOf g' e.1 e.2)) =
      Text.sortedMap (n.properties.entries.map fun e => (e.1, keysOf g e.1 e.2)) := by
  have ha := contains_iff.2 ⟨n, hn⟩
  have hvalues (p : String) : keysOf g' p (n'.properties.values p) =
      keysOf g p (n.properties.values p) := by
    rw [← propertiesOf_of_node? hn, ← propertiesOf_of_node? hn', ← values_eq, ← values_eq]
    exact keysOf_renames hr hc hc' ht hout hk ha p
  have hperm := keys_renames hr hc hc' hn hn'
  rw [map_entries (nodup_properties hc hn), map_entries (nodup_properties hc' hn')]
  simp only [hvalues]
  refine Text.sortedMap_eq_of_perm (hperm.map _) ?_
  rw [List.map_map]
  simpa [Function.comp_def] using nodup_properties hc' hn'

theorem entry_renames {n n' : Node} (hn : g.node? a = some n) (hn' : g'.node? (ρ a) = some n') :
    entry g' (assignKeys g') n' = entry g (assignKeys g) n := by
  have ha := contains_iff.2 ⟨n, hn⟩
  have hname : n'.name = n.name := by simpa [name?, hn, hn'] using hr.name a ha
  have hspan : n'.span = n.span := by simpa [span?, hn, hn'] using hr.span a ha
  have hclassifier : n'.classifier = n.classifier.map ρ := by
    simpa [classifier?, hn, hn'] using hr.classifier a ha
  have hlifetime : n'.lifetime = n.lifetime.rename ρ := by
    simpa [lifetime?, hn, hn'] using hr.lifetime a ha
  have hkeys : (n.classifier.map ρ).map (keyOf g') = n.classifier.map (keyOf g) := by
    cases hcl : n.classifier with
    | none => rfl
    | some c =>
      have hlive := hc.classifier_live a c (by simp [classifier?, hn, hcl])
      simp [keyOf_renames hr hc hc' ht hout hk hlive]
  have htext : lifetimeText (n.lifetime.rename ρ) = lifetimeText n.lifetime := by
    cases n.lifetime <;> rfl
  have hproperties := properties_renames hr hc hc' ht hout hk hn hn'
  rw [entry_eq hc hn, entry_eq hc' hn', hname, hspan, hclassifier, hlifetime, hkeys, htext,
    hproperties]

theorem pictures_renames : (pictures g').Perm (pictures g) := by
  refine ((ids_perm hr).filterMap _).trans (.of_eq ?_)
  rw [List.filterMap_map]
  refine List.filterMap_congr fun a ha => ?_
  replace ha := mem_ids_iff.1 ha
  obtain ⟨n, hn⟩ := contains_iff.1 ha
  obtain ⟨n', hn'⟩ := contains_iff.1 (hr.contains a ha)
  simp only [Function.comp, hn, hn', assignKeys_renames hr hc hc' ht hout hk a ha,
    Option.bind_eq_bind, Option.bind_some, entry_renames hr hc hc' ht hout hk hn hn']

end Captures

/-- Graphs that differ in slots, stamps, the order of properties and of back-references have the
same snapshot. -/
theorem capture_eq_of_renames {ρ : NodeId → NodeId} {g g' : Graph} (hg : Attained g)
    (hg' : Attained g') (hr : Renames ρ g g') (hout : g.OutwardBack)
    (hk : ∀ a b, g.contains a = true → g.contains b = true → keyOf g a = keyOf g b → a = b) :
    capture g' = capture g := by
  have hc := hg.upheld.toCoherent
  have hperm := pictures_renames hr hc hg'.upheld.toCoherent hg.titled hout hk
  have hkeys : ((pictures g').map Prod.fst).Nodup := by
    rw [(hperm.map Prod.fst).nodup_iff, map_fst_pictures hc]
    exact List.Nodup.map_on (fun a ha b hb => hk a b (mem_ids_iff.1 ha)
      (mem_ids_iff.1 hb)) (nodup_ids g)
  exact congrArg Snapshot.mk (Text.sortedMap_eq_of_perm hperm hkeys)

section Checks

variable {ρ : NodeId → NodeId} {g g' : Graph}

def carries (ρ : NodeId → NodeId) (g g' : Graph) (a : NodeId) (p : String) : Bool :=
  if g.isBackReference p then (g'.values (ρ a) p).Perm ((g.values a p).map ρ)
  else g'.values (ρ a) p = (g.values a p).map ρ

def isRenaming (ρ : NodeId → NodeId) (g g' : Graph) : Bool :=
  (g.ids.map ρ).Nodup && (g'.ids.all fun b => b ∈ g.ids.map ρ) &&
  (g.sources ++ g'.sources).all (fun s => g'.persistentNodes s = (g.persistentNodes s).map ρ) &&
  g'.backReferences = g.backReferences &&
  g.ids.all fun a => g'.contains (ρ a) && g'.name? (ρ a) = g.name? a &&
    g'.path? (ρ a) = g.path? a && g'.classifier? (ρ a) = (g.classifier? a).map ρ &&
    g'.lifetime? (ρ a) = (g.lifetime? a).map (·.rename ρ) && g'.span? (ρ a) = g.span? a &&
    g'.ownedBy (ρ a) = (g.ownedBy a).map ρ &&
    ((g.propertiesOf a).keys ++ (g'.propertiesOf (ρ a)).keys).all (carries ρ g g' a)

theorem values_of_not_mem_keys {p : String} (h : p ∉ (g.propertiesOf a).keys) :
    g.values a p = [] := by
  rw [values_eq, Table.values_of_not_mem_keys h]

theorem renames_of_isRenaming (h : isRenaming ρ g g' = true) : Renames ρ g g' := by
  simp only [isRenaming, Bool.and_eq_true, decide_eq_true_eq, List.all_eq_true, mem_ids_iff,
    List.mem_append] at h
  obtain ⟨⟨⟨⟨hinj, hsurj⟩, hpersistent⟩, hback⟩, hnodes⟩ := h
  have hcarries (a : NodeId) (p : String) (ha : g.contains a = true) :
      carries ρ g g' a p = true := by
    by_cases hp : p ∈ (g.propertiesOf a).keys ∨ p ∈ (g'.propertiesOf (ρ a)).keys
    · exact (hnodes a ha).2 p hp
    · obtain ⟨hp, hp'⟩ := not_or.1 hp
      simp [carries, values_of_not_mem_keys hp, values_of_not_mem_keys hp']
  refine {
    contains := fun a ha => (hnodes a ha).1.1.1.1.1.1.1
    injective := fun a b ha hb => List.inj_on_of_nodup_map hinj (mem_ids_iff.2 ha)
      (mem_ids_iff.2 hb)
    surjective := fun b hb => ?_
    name := fun a ha => (hnodes a ha).1.1.1.1.1.1.2
    path := fun a ha => (hnodes a ha).1.1.1.1.1.2
    classifier := fun a ha => (hnodes a ha).1.1.1.1.2
    lifetime := fun a ha => (hnodes a ha).1.1.1.2
    span := fun a ha => (hnodes a ha).1.1.2
    persistent := fun s => ?_
    owned := fun a ha => (hnodes a ha).1.2
    back := fun p => by simp [isBackReference, hback]
    forward := fun a p ha hb => by simpa [carries, hb] using hcarries a p ha
    backward := fun a p ha hb => by simpa [carries, hb] using hcarries a p ha }
  · obtain ⟨a, ha, hab⟩ := List.mem_map.1 (hsurj b hb)
    exact ⟨a, mem_ids_iff.1 ha, hab⟩
  · by_cases hs : s ∈ g.sources ∨ s ∈ g'.sources
    · exact hpersistent s hs
    · obtain ⟨hs, hs'⟩ := not_or.1 hs
      simp [persistentNodes, Table.values_of_not_mem_keys hs, Table.values_of_not_mem_keys hs']

def isOutward (g : Graph) : Bool :=
  g.ids.all fun a => (g.propertiesOf a).keys.all fun p => !g.isBackReference p ||
    (g.values a p).all fun v => g.lifetime? v ≠ (g.ownerRoot? a).map .ephemeral

theorem outwardBack_of_isOutward (h : isOutward g = true) : g.OutwardBack := by
  intro a r p v hroot hb hv hlife
  simp only [isOutward, List.all_eq_true, mem_ids_iff, Bool.or_eq_true, Bool.not_eq_true',
    decide_eq_true_eq] at h
  have hp : p ∈ (g.propertiesOf a).keys := by
    by_contra hp
    simp [values_of_not_mem_keys hp] at hv
  rcases h a (contains_of_mem_values hv) p hp with hno | hall
  · simp [hb] at hno
  · exact hall v hv (by rw [hlife, hroot]; rfl)

end Checks

def inOneOrder : List Request :=
  [.createPersistent "s" { path := some (.ofValid "town::Street".toList (by decide)) },
    .createEphemeral 41 {}, .createPersistent "t"
    { path := some (.ofValid "town::Square".toList (by decide)) },
    .addValue 41 "parts" 42, .addValue 41 "likes" 43, .addValue 42 "leads" 43]

def inAnotherOrder : List Request :=
  [.createPersistent "t" { path := some (.ofValid "town::Square".toList (by decide)) },
    .createPersistent "s" { path := some (.ofValid "town::Street".toList (by decide)) },
    .createEphemeral 42 {}, .addValue 43 "leads" 41, .addValue 42 "likes" 41,
    .addValue 42 "parts" 43]

def turn (a : NodeId) : NodeId :=
  if a = 41 then 42 else if a = 42 then 43 else if a = 43 then 41 else a

theorem capture_eq_in_another_order : ∃ g g', Request.runAll initial inOneOrder = .ok g ∧
    Request.runAll initial inAnotherOrder = .ok g' ∧ Renames turn g g' ∧
    g.children 40 = [41, 43] ∧ g'.children 40 = [41, 42] ∧ capture g' = capture g := by
  obtain ⟨g, hg, hplain, hout, hkids⟩ := exists_run inOneOrder (P := fun g => isPlain g = true ∧
      isOutward g = true ∧ g.children 40 = [41, 43] ∧
      ((Request.runAll spelledOut.1 inAnotherOrder).toOption.any fun g' =>
        isRenaming turn g g' && g'.children 40 = [41, 42]) = true) (by decide +kernel)
  rw [← spelledOut.2] at hkids
  obtain ⟨hkids, hother⟩ := hkids
  cases hg' : Request.runAll initial inAnotherOrder with
  | error b => simp [hg', Except.toOption] at hother
  | ok g' =>
    simp only [hg', Except.toOption, Option.any_some, Bool.and_eq_true, decide_eq_true_eq] at hother
    have ha : Attained g := Attained.initial.runAll hg
    have hr := renames_of_isRenaming hother.1
    refine ⟨g, g', hg, rfl, hr, hkids, hother.2, ?_⟩
    exact capture_eq_of_renames ha (Attained.initial.runAll hg') hr (outwardBack_of_isOutward hout)
      fun _ _ => keyOf_inj (legible_of_isPlain hplain) ha.upheld.toCoherent ha.titled

end Snapshot

end ModelCompiler
