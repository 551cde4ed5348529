import ModelCompiler.Snapshot
import ModelCompiler.Proofs.Store.Indexes

/-!
The keys of a snapshot.
-/
open ModelCompiler.Graph

namespace ModelCompiler

namespace Order

variable {α : Type} {le : α → α → Bool}

theorem pairwise_insert (htrans : ∀ a b c, le a b = true → le b c = true → le a c = true)
    (htotal : ∀ a b, (le a b || le b a) = true) (a : α) {bs : List α}
    (h : bs.Pairwise fun a b => le a b = true) :
    (insert le a bs).Pairwise fun a b => le a b = true := by
  induction bs with
  | nil => simp [insert]
  | cons b bs ih =>
    obtain ⟨hb, hbs⟩ := List.pairwise_cons.1 h
    unfold insert
    split
    · rename_i hab
      refine List.pairwise_cons.2 ⟨fun c hc => ?_, h⟩
      rcases List.mem_cons.1 hc with rfl | hc
      · exact hab
      · exact htrans a b c hab (hb c hc)
    · rename_i hab
      refine List.pairwise_cons.2 ⟨fun c hc => ?_, ih hbs⟩
      rcases List.mem_cons.1 ((insert_perm le a bs).mem_iff.1 hc) with rfl | hc
      · simpa [hab] using htotal c b
      · exact hb c hc

theorem pairwise_sort (htrans : ∀ a b c, le a b = true → le b c = true → le a c = true)
    (htotal : ∀ a b, (le a b || le b a) = true) (as : List α) :
    (sort le as).Pairwise fun a b => le a b = true := by
  induction as with
  | nil => exact .nil
  | cons a as ih => exact pairwise_insert htrans htotal a ih

end Order

namespace Text

variable {α : Type}

theorem pairwise_sort (texts : List String) : (sort texts).Pairwise (· ≤ ·) := by
  have h : (sort texts).Pairwise fun a b => decide (a ≤ b) = true :=
    Order.pairwise_sort (fun a b c hab hbc => by
        simp only [decide_eq_true_eq] at hab hbc ⊢
        exact le_trans hab hbc)
      (fun a b => by simpa using le_total a b) texts
  exact h.imp fun hab => by simpa using hab

theorem pairwise_lt_sort {texts : List String} (h : texts.Nodup) :
    (sort texts).Pairwise (· < ·) := by
  have hnodup : (sort texts).Nodup := (Order.sort_perm _ texts).nodup_iff.2 h
  exact (pairwise_sort texts).imp₂ (fun _ _ hle hne => lt_of_le_of_ne hle hne) hnodup

theorem sort_eq_of_perm {as bs : List String} (h : as.Perm bs) : sort as = sort bs :=
  List.Perm.eq_of_pairwise (fun _ _ _ _ hab hba => String.le_antisymm hab hba) (pairwise_sort as)
    (pairwise_sort bs) (((Order.sort_perm _ as).trans h).trans (Order.sort_perm _ bs).symm)

theorem keepLast_eq_self {es : List (String × α)} (h : (es.map (·.1)).Nodup) :
    keepLast es = es := by
  fun_induction keepLast es with
  | case1 | case2 => rfl
  | case3 e f es he => simp [he] at h
  | case4 e f es he ih => rw [ih (List.nodup_cons.1 h).2]

theorem sortedMap_eq {es : List (String × α)} (h : (es.map (·.1)).Nodup) :
    sortedMap es = es.mergeSort fun a b => decide (a.1 ≤ b.1) := by
  refine keepLast_eq_self ?_
  exact (((List.mergeSort_perm es _).map (·.1)).nodup_iff).2 h

theorem sortedMap_perm {es : List (String × α)} (h : (es.map (·.1)).Nodup) :
    (sortedMap es).Perm es := by
  rw [sortedMap_eq h]
  exact List.mergeSort_perm es _

theorem sortedMap_pairwise {es : List (String × α)} (h : (es.map (·.1)).Nodup) :
    (sortedMap es).Pairwise fun a b => a.1 ≤ b.1 := by
  rw [sortedMap_eq h]
  have hsorted : (es.mergeSort fun a b => decide (a.1 ≤ b.1)).Pairwise
      fun a b => decide (a.1 ≤ b.1) = true :=
    List.pairwise_mergeSort (fun a b c hab hbc => by
        simp only [decide_eq_true_eq] at hab hbc ⊢
        exact le_trans hab hbc)
      (fun a b => by simpa using le_total a.1 b.1) es
  exact hsorted.imp fun h => by simpa using h

theorem eq_of_nodup_keys {es : List (String × α)} (h : (es.map (·.1)).Nodup) {e f : String × α}
    (he : e ∈ es) (hf : f ∈ es) (hkey : e.1 = f.1) : e = f :=
  List.inj_on_of_nodup_map h he hf hkey

theorem sortedMap_eq_of_perm {es fs : List (String × α)} (h : es.Perm fs)
    (hn : (es.map (·.1)).Nodup) : sortedMap es = sortedMap fs := by
  have hn' : (fs.map (·.1)).Nodup := ((h.map (·.1)).nodup_iff).1 hn
  refine List.Perm.eq_of_pairwise (fun e f he hf hef hfe => ?_) (sortedMap_pairwise hn)
    (sortedMap_pairwise hn') (((sortedMap_perm hn).trans h).trans (sortedMap_perm hn').symm)
  refine eq_of_nodup_keys hn ((sortedMap_perm hn).mem_iff.1 he) ?_ (String.le_antisymm hef hfe)
  exact h.mem_iff.2 ((sortedMap_perm hn').mem_iff.1 hf)

end Text

namespace Snapshot

variable {g : Graph} {keys keys' : Keys} {owner id value : NodeId} {address key step : String}
  {n : Node} {m : Nat}

section Tops

theorem exists_topKey? (id : NodeId) (he : n.lifetime.isEphemeral = false) :
    ∃ key, topKey? g id n = some key := by
  unfold topKey?
  split <;> simp_all [Lifetime.isEphemeral]

theorem not_ephemeral_of_topKey? (h : topKey? g id n = some key) :
    n.lifetime.isEphemeral = false := by
  unfold topKey? at h
  split at h <;> simp_all [Lifetime.isEphemeral]

theorem mem_topKeys : (key, id) ∈ topKeys g ↔ ∃ n, g.node? id = some n ∧
    topKey? g id n = some key := by
  simp only [topKeys, (List.mergeSort_perm _ _).mem_iff, List.mem_filterMap, mem_ids_iff,
    Option.map_eq_some_iff, Option.bind_eq_some_iff, Option.bind_eq_bind, Prod.mk.injEq]
  constructor
  · rintro ⟨_, -, _, ⟨n, hn, hkey⟩, rfl, rfl⟩
    exact ⟨n, hn, hkey⟩
  · rintro ⟨n, hn, hkey⟩
    exact ⟨id, contains_iff.2 ⟨n, hn⟩, key, ⟨n, hn, hkey⟩, rfl, rfl⟩

theorem nodup_ids (g : Graph) : g.ids.Nodup :=
  List.nodup_range.filter _

theorem nodup_topKeys (g : Graph) : ((topKeys g).map Prod.snd).Nodup := by
  refine (((List.mergeSort_perm _ _).map Prod.snd).nodup_iff).2 ?_
  rw [List.map_filterMap]
  refine List.Nodup.filterMap (fun a b c ha hb => ?_) (nodup_ids g)
  simp only [Option.map_map, Option.mem_def, Option.map_eq_some_iff, Function.comp] at ha hb
  obtain ⟨_, -, rfl⟩ := ha
  obtain ⟨_, -, rfl⟩ := hb
  rfl

def tops (g : Graph) : Keys :=
  ⟨(topKeys g).map fun (key, id) => (id, key)⟩

theorem find?_tops : (tops g).find? id = some key ↔
    ∃ n, g.node? id = some n ∧ topKey? g id n = some key := by
  have hkeys : (tops g).keys = (topKeys g).map Prod.snd := by simp [tops, Table.keys]
  rw [← Table.mem_entries_iff (hkeys ▸ nodup_topKeys g), ← mem_topKeys]
  simp [tops]

end Tops

section Keying

def Extends (keys keys' : Keys) : Prop :=
  ∀ id k, keys.find? id = some k → keys'.find? id = some k

theorem Extends.refl (keys : Keys) : Extends keys keys :=
  fun _ _ h => h

theorem Extends.trans {keys'' : Keys} (h : Extends keys keys') (h' : Extends keys' keys'') :
    Extends keys keys'' :=
  fun id k hk => h' id k (h id k hk)

theorem extends_insert (h : keys.find? id = none) (k : String) :
    Extends keys (keys.insert id k) := by
  intro j k' hj
  rw [Table.find?_insert, if_neg]
  · exact hj
  · rintro rfl
    simp [h] at hj

theorem owner_eq_some_iff :
    (g.node? id >>= (·.owner)) = some owner ↔ g.lifetime? id = some (.ephemeral owner) := by
  cases hn : g.node? id with
  | none => simp [lifetime?, hn]
  | some n =>
    simp only [lifetime?, hn, Node.owner, Option.bind_eq_bind, Option.bind_some, Option.map_some,
      Option.some.injEq]
    cases n.lifetime <;> simp

/-- A part of `owner`, a node with the key `key`, is given a key: an address on a way out of a node
with a key, or a number. -/
inductive Keying (g : Graph) (owner : NodeId) (key : String) : Nat × Keys → Nat × Keys → Prop
  | reached {m : Nat} {keys : Keys} {id value : NodeId} {n : Node} {address step : String} :
      g.node? id = some n → keys.find? id = some address → (step, value) ∈ steps address n →
      keys.find? value = none → g.lifetime? value = some (.ephemeral owner) →
      Keying g owner key (m, keys) (m, keys.insert value step)
  | numbered {m : Nat} {keys : Keys} {value : NodeId} :
      keys.find? value = none → value ∈ g.ownedBy owner →
      Keying g owner key (m, keys) (m + 1, keys.insert value s!"{key}/~{m}")

theorem Keying.extends {x y : Nat × Keys} (h : Keying g owner key x y) : Extends x.2 y.2 := by
  cases h with
  | reached _ _ _ hnone | numbered hnone => exact extends_insert hnone _

theorem extends_of_keyings {x y : Nat × Keys} (h : Relation.ReflTransGen (Keying g owner key) x y) :
    Extends x.2 y.2 := by
  induction h with
  | refl => exact .refl _
  | tail _ hs ih => exact ih.trans hs.extends

theorem visit_keyings (owner : NodeId) (key : String) (m : Nat) : ∀ fuel id address (keys : Keys),
    keys.find? id = some address → Relation.ReflTransGen (Keying g owner key) (m, keys)
      (m, visit g owner fuel id address keys)
  | 0, _, _, _, _ => .refl
  | fuel + 1, id, address, keys, hid => by
    unfold visit
    cases hn : g.node? id with
    | none => exact .refl
    | some n =>
      -- the node keeps its address while its references are followed
      have hfold (l : List (String × NodeId)) (hl : l ⊆ steps address n) : ∀ keys : Keys,
          keys.find? id = some address → Relation.ReflTransGen (Keying g owner key) (m, keys)
            (m, l.foldl (fun keys (step, value) =>
              if !keys.contains value && (g.node? value >>= (·.owner)) = some owner then
                visit g owner fuel value step (keys.insert value step)
              else keys) keys) := by
        induction l with
        | nil => exact fun _ _ => .refl
        | cons s l ih =>
          obtain ⟨step, value⟩ := s
          intro keys hid
          obtain ⟨hmem, hl⟩ := List.cons_subset.1 hl
          rw [List.foldl_cons]
          dsimp only
          split
          · rename_i hc
            simp only [Bool.and_eq_true, decide_eq_true_eq, owner_eq_some_iff] at hc
            obtain ⟨hnone, hlife⟩ := hc
            replace hnone : keys.find? value = none := by simpa [Table.contains] using hnone
            have hone : Relation.ReflTransGen (Keying g owner key) (m, keys) (m, _) :=
              .head (.reached hn hid hmem hnone hlife)
                (visit_keyings owner key m fuel value step _ (by simp [Table.find?_insert]))
            exact hone.trans (ih hl _ (extends_of_keyings hone id address hid))
          · exact ih hl keys hid
      exact hfold _ (List.Subset.refl _) keys hid

theorem visitOrphans_keyings (owner : NodeId) (key : String) :
    ∀ (m : Nat) (ids : List NodeId) (keys : Keys), ids ⊆ g.ownedBy owner →
    (∃ m', Relation.ReflTransGen (Keying g owner key) (m, keys)
      (m', visitOrphans g owner key m ids keys)) ∧
    ∀ id ∈ ids, (visitOrphans g owner key m ids keys).contains id = true
  | m, [], keys, _ => ⟨⟨m, .refl⟩, by simp⟩
  | m, id :: ids, keys, hids => by
    obtain ⟨hid, hids⟩ := List.cons_subset.1 hids
    unfold visitOrphans
    split
    · rename_i hc
      obtain ⟨⟨m', h⟩, hall⟩ := visitOrphans_keyings owner key m ids keys hids
      refine ⟨⟨m', h⟩, List.forall_mem_cons.2 ⟨?_, hall⟩⟩
      obtain ⟨k, hk⟩ := Option.isSome_iff_exists.1 hc
      exact Option.isSome_iff_exists.2 ⟨k, extends_of_keyings h id k hk⟩
    · rename_i hc
      have hnone : keys.find? id = none := by simpa [Table.contains] using hc
      have hnew : (keys.insert id s!"{key}/~{m}").find? id = some s!"{key}/~{m}" := by
        simp [Table.find?_insert]
      have hone : Relation.ReflTransGen (Keying g owner key) (m, keys) (m + 1, _) :=
        .head (.numbered hnone hid) (visit_keyings owner key (m + 1) g.slots.size id _ _ hnew)
      obtain ⟨⟨m', h⟩, hall⟩ := visitOrphans_keyings owner key (m + 1) ids
        (visit g owner g.slots.size id s!"{key}/~{m}" (keys.insert id s!"{key}/~{m}")) hids
      refine ⟨⟨m', hone.trans h⟩, List.forall_mem_cons.2 ⟨?_, hall⟩⟩
      refine Option.isSome_iff_exists.2 ⟨s!"{key}/~{m}", extends_of_keyings h id _ ?_⟩
      exact extends_of_keyings (visit_keyings owner key (m + 1) g.slots.size id _ _ hnew) id _ hnew

theorem visit_owner_keyings (keys : Keys) (h : keys.find? owner = some key) :
    ∃ m keys', keys' = visitOrphans g owner key 0 (g.ownedBy owner)
        (visit g owner g.slots.size owner key keys) ∧
      Relation.ReflTransGen (Keying g owner key) (0, keys) (m, keys') ∧
      ∀ id ∈ g.ownedBy owner, keys'.contains id = true := by
  obtain ⟨⟨m, horphans⟩, hall⟩ := visitOrphans_keyings owner key 0 (g.ownedBy owner)
    (visit g owner g.slots.size owner key keys) (List.Subset.refl _)
  exact ⟨m, _, rfl, (visit_keyings owner key 0 _ _ _ _ h).trans horphans, hall⟩

/-- Whatever the keys of the nodes that are no parts have, and every further key keeps, the keys in
the end have. The nodes whose parts have been keyed are counted up; while the parts of one node are
keyed more may be known. -/
theorem assignKeys_rule {I : List NodeId → Keys → Prop}
    {J : List NodeId → NodeId → String → Nat × Keys → Prop} (htops : I [] (tops g))
    (hstart : ∀ done owner key keys, owner ∉ done → (tops g).find? owner = some key →
      Extends (tops g) keys → I done keys → J done owner key (0, keys))
    (hstep : ∀ done owner key x y, owner ∉ done → (tops g).find? owner = some key →
      J done owner key x → Keying g owner key x y → J done owner key y)
    (hend : ∀ done owner key x, J done owner key x → I (owner :: done) x.2) :
    (∃ done, I done (assignKeys g)) ∧ Extends (tops g) (assignKeys g) ∧
      ∀ owner key, (tops g).find? owner = some key → ∀ id ∈ g.ownedBy owner,
        (assignKeys g).contains id = true := by
  have hfold (l : List (String × NodeId)) : ∀ (done : List NodeId) (keys keys' : Keys),
      l ⊆ topKeys g → (l.map Prod.snd).Nodup → (∀ top ∈ l, top.2 ∉ done) → I done keys →
      Extends (tops g) keys → keys' = l.foldl (fun keys (key, id) =>
        visitOrphans g id key 0 (g.ownedBy id) (visit g id g.slots.size id key keys)) keys →
      (∃ done, I done keys') ∧ Extends keys keys' ∧ ∀ key owner, (key, owner) ∈ l →
        ∀ id ∈ g.ownedBy owner, keys'.contains id = true := by
    induction l with
    | nil =>
      rintro done keys keys' - - - hI - rfl
      exact ⟨⟨done, hI⟩, .refl _, by simp⟩
    | cons top l ih =>
      obtain ⟨key, owner⟩ := top
      intro done keys keys' hl hnodup hdone hI hext hkeys'
      obtain ⟨hmem, hl⟩ := List.cons_subset.1 hl
      obtain ⟨hnew, hnodup⟩ := List.nodup_cons.1 hnodup
      obtain ⟨howner, hdone⟩ := List.forall_mem_cons.1 hdone
      have htop := find?_tops.2 (mem_topKeys.1 hmem)
      obtain ⟨m, keys₁, hkeys₁, hone, hall⟩ := visit_owner_keyings (g := g) keys
        (hext owner key htop)
      simp only [List.foldl_cons, ← hkeys₁] at hkeys'
      have hJ : ∀ y, Relation.ReflTransGen (Keying g owner key) (0, keys) y →
          J done owner key y := by
        intro y hy
        induction hy with
        | refl => exact hstart done owner key keys howner htop hext hI
        | tail _ hs ih => exact hstep done owner key _ _ howner htop ih hs
      obtain ⟨hI', hext', hall'⟩ := ih (owner :: done) keys₁ keys' hl hnodup
        (fun t ht => List.not_mem_cons_of_ne_of_not_mem
          (fun heq => hnew (List.mem_map.2 ⟨t, ht, heq⟩)) (hdone t ht))
        (hend done owner key _ (hJ _ hone)) (hext.trans (extends_of_keyings hone)) hkeys'
      refine ⟨hI', (extends_of_keyings hone).trans hext', fun key' owner' hmem' id hid => ?_⟩
      rcases List.mem_cons.1 hmem' with heq | hmem'
      · obtain ⟨rfl, rfl⟩ := Prod.mk.inj heq
        obtain ⟨k, hk⟩ := Option.isSome_iff_exists.1 (hall id hid)
        exact Option.isSome_iff_exists.2 ⟨k, hext' id k hk⟩
      · exact hall' key' owner' hmem' id hid
  obtain ⟨hI, hext, hall⟩ := hfold (topKeys g) [] (tops g) (assignKeys g) (List.Subset.refl _)
    (nodup_topKeys g) (fun _ _ => List.not_mem_nil) htops (.refl _) rfl
  exact ⟨hI, hext, fun owner key h => hall key owner (mem_topKeys.2 (find?_tops.1 h))⟩

theorem extends_assignKeys (g : Graph) : Extends (tops g) (assignKeys g) :=
  (assignKeys_rule (I := fun _ _ => True) (J := fun _ _ _ _ => True) trivial
    (fun _ _ _ _ _ _ _ _ => trivial) (fun _ _ _ _ _ _ _ _ _ => trivial)
    fun _ _ _ _ _ => trivial).2.1

theorem Keying.live (hi : g.Indexed) {x y : Nat × Keys} (h : Keying g owner key x y)
    (hx : ∀ id k, x.2.find? id = some k → g.contains id = true) :
    ∀ id k, y.2.find? id = some k → g.contains id = true := by
  have hinsert {keys : Keys} {value : NodeId} {step : String} (hv : g.contains value = true)
      (hkeys : ∀ id k, keys.find? id = some k → g.contains id = true) :
      ∀ id k, (keys.insert value step).find? id = some k → g.contains id = true := by
    intro id k hk
    rw [Table.find?_insert] at hk
    split at hk
    · rename_i heq
      exact heq ▸ hv
    · exact hkeys id k hk
  cases h with
  | reached _ _ _ _ hlife => exact hinsert (contains_of_lifetime? hlife) hx
  | numbered _ hmem => exact hinsert (contains_of_lifetime? ((hi.owned_iff owner _).1 hmem).1) hx

theorem contains_assignKeys (hi : g.Indexed) (hc : g.Closed) (id : NodeId) :
    (assignKeys g).contains id = g.contains id := by
  obtain ⟨⟨-, hlive⟩, htops, hparts⟩ := assignKeys_rule (g := g)
    (I := fun _ keys => ∀ id k, keys.find? id = some k → g.contains id = true)
    (J := fun _ _ _ x => ∀ id k, x.2.find? id = some k → g.contains id = true)
    (fun id k hk => by
      obtain ⟨n, hn, -⟩ := find?_tops.1 hk
      exact contains_iff.2 ⟨n, hn⟩)
    (fun _ _ _ _ _ _ _ hI => hI) (fun _ _ _ _ _ _ _ hx h => h.live hi hx) fun _ _ _ _ h => h
  rw [Bool.eq_iff_iff]
  constructor
  · intro h
    obtain ⟨k, hk⟩ := Option.isSome_iff_exists.1 h
    exact hlive id k hk
  · intro h
    obtain ⟨n, hn⟩ := contains_iff.1 h
    cases he : n.lifetime.isEphemeral with
    | false =>
      obtain ⟨key, hkey⟩ := exists_topKey? (g := g) id he
      exact Option.isSome_iff_exists.2 ⟨key, htops id key (find?_tops.2 ⟨n, hn, hkey⟩)⟩
    | true =>
      obtain ⟨owner, hl⟩ : ∃ owner, n.lifetime = .ephemeral owner := by
        cases hl : n.lifetime <;> simp_all [Lifetime.isEphemeral]
      have hlife : g.lifetime? id = some (.ephemeral owner) := by rw [lifetime?_of_node? hn, hl]
      obtain ⟨o, ho⟩ := contains_iff.1 (hc.owner_live id owner hlife)
      obtain ⟨key, hkey⟩ := exists_topKey? (g := g) owner
        (hi.owner_plain id owner hlife _ (lifetime?_of_node? ho))
      exact hparts owner key (find?_tops.2 ⟨o, ho, hkey⟩) id
        ((hi.owned_iff owner id).2 ⟨hlife, contains_iff.2 ⟨o, ho⟩⟩)

end Keying

section Entries

def keyOf (g : Graph) (id : NodeId) : String :=
  ((assignKeys g).find? id).getD ""

def keysOf (g : Graph) (p : String) (vs : List NodeId) : List String :=
  if g.isBackReference p then Text.sort (vs.map (keyOf g)) else vs.map (keyOf g)

def pictures (g : Graph) : List (String × Entry) :=
  g.ids.filterMap fun id => do
    return (← (assignKeys g).find? id, entry g (assignKeys g) (← g.node? id))

theorem entries_capture (g : Graph) : (capture g).entries = Text.sortedMap (pictures g) := rfl

variable (hc : g.Coherent)
include hc

theorem find?_assignKeys (h : g.contains id = true) :
    (assignKeys g).find? id = some (keyOf g id) := by
  rw [← contains_assignKeys hc.toIndexed hc.toClosed] at h
  obtain ⟨k, hk⟩ := Option.isSome_iff_exists.1 h
  simp [keyOf, hk]

omit hc in
theorem propertiesOf_of_node? (hn : g.node? id = some n) : g.propertiesOf id = n.properties := by
  simp [propertiesOf, hn]

theorem nodup_properties (hn : g.node? id = some n) : n.properties.keys.Nodup :=
  propertiesOf_of_node? hn ▸ hc.nodup_keys id

theorem value_live (hn : g.node? id = some n) {p : String} {vs : List NodeId}
    (hp : n.properties.find? p = some vs) {v : NodeId} (hv : v ∈ vs) : g.contains v = true := by
  refine hc.value_live id p v ?_
  rwa [values_eq, propertiesOf_of_node? hn, Table.values_eq_of_find? hp]

theorem mem_keys_iff (hn : g.node? id = some n) {p : String} :
    p ∈ n.properties.keys ↔ g.values id p ≠ [] := by
  rw [values_eq, propertiesOf_of_node? hn, Table.mem_keys_iff, Table.values]
  constructor
  · rintro ⟨vs, hvs⟩
    rw [hvs]
    exact hc.ne_nil id p vs (by rwa [propertiesOf_of_node? hn])
  · intro h
    cases hf : n.properties.find? p with
    | none => simp [hf] at h
    | some vs => exact ⟨vs, rfl⟩

theorem valueKeys_eq {p : String} {vs : List NodeId} (hvs : ∀ v ∈ vs, g.contains v = true) :
    valueKeys g (assignKeys g) p vs = keysOf g p vs := by
  have hmap : (vs.map fun v => ((assignKeys g).find? v).getD s!"#{v}") = vs.map (keyOf g) :=
    List.map_congr_left fun v hv => by rw [find?_assignKeys hc (hvs v hv), Option.getD_some]
  unfold valueKeys keysOf
  rw [hmap]

theorem entry_eq (hn : g.node? id = some n) : entry g (assignKeys g) n =
    { classifier := n.classifier.map (keyOf g)
      name := n.name
      lifetime := lifetimeText n.lifetime
      span := n.span
      properties := Text.sortedMap <| n.properties.entries.map fun e =>
        (e.1, keysOf g e.1 e.2) } := by
  have hclassifier : (n.classifier >>= (assignKeys g).find?) = n.classifier.map (keyOf g) := by
    cases hcl : n.classifier with
    | none => rfl
    | some c =>
      have hlive := hc.classifier_live id c (by simp [classifier?, hn, hcl])
      simpa using find?_assignKeys hc hlive
  have hproperties : (n.properties.entries.map fun e => (e.1, valueKeys g (assignKeys g) e.1 e.2)) =
      n.properties.entries.map fun e => (e.1, keysOf g e.1 e.2) := by
    refine List.map_congr_left fun e he => ?_
    have hfind := (Table.mem_entries_iff (nodup_properties hc hn)).1 he
    simp only [valueKeys_eq hc fun v hv => value_live hc hn hfind hv]
  rw [← hclassifier, ← hproperties]
  rfl

theorem map_fst_pictures : (pictures g).map Prod.fst = g.ids.map (keyOf g) := by
  rw [pictures, List.map_filterMap, ← List.filterMap_eq_map]
  refine List.filterMap_congr fun id hid => ?_
  obtain ⟨n, hn⟩ := contains_iff.1 (mem_ids_iff.1 hid)
  simp [hn, find?_assignKeys hc (mem_ids_iff.1 hid)]

theorem mem_pictures {k : String} {e : Entry} : (k, e) ∈ pictures g ↔
    ∃ id n, g.node? id = some n ∧ k = keyOf g id ∧ e = entry g (assignKeys g) n := by
  simp only [pictures, List.mem_filterMap, mem_ids_iff]
  constructor
  · rintro ⟨id, hid, h⟩
    obtain ⟨n, hn⟩ := contains_iff.1 hid
    simp only [hn, find?_assignKeys hc hid, Option.bind_eq_bind, Option.bind_some, Option.pure_def,
      Option.some.injEq, Prod.mk.injEq] at h
    exact ⟨id, n, hn, h.1.symm, h.2.symm⟩
  · rintro ⟨id, n, hn, rfl, rfl⟩
    have hid := contains_iff.2 ⟨n, hn⟩
    exact ⟨id, hid, by simp [hn, find?_assignKeys hc hid]⟩

end Entries

end Snapshot

end ModelCompiler
