import ModelCompiler.Proofs.Snapshot.Keys
import ModelCompiler.Proofs.Store.Enduring

/-!
Addresses. Keys are texts that are put together from paths, sources, property names and numbers.
-/
open ModelCompiler.Graph

namespace ModelCompiler

theorem Text.eq_of_append_cons {P : Char → Prop} {l l' d d' : List Char} {a a' : Char}
    (h : l ++ a :: d = l' ++ a' :: d') (hd : ∀ c ∈ d, P c) (hd' : ∀ c ∈ d', P c) (ha : ¬ P a)
    (ha' : ¬ P a') : l = l' ∧ a = a' ∧ d = d' := by
  rcases List.append_eq_append_iff.1 h with ⟨r, rfl, hr⟩ | ⟨r, rfl, hr⟩
  · cases r with
    | nil => simpa [eq_comm] using hr
    | cons c r =>
      obtain ⟨rfl, rfl⟩ := List.cons.inj hr
      exact absurd (hd a' (by simp)) ha'
  · cases r with
    | nil => simpa [eq_comm] using hr
    | cons c r =>
      obtain ⟨rfl, rfl⟩ := List.cons.inj hr
      exact absurd (hd' a (by simp)) ha

namespace Snapshot

section Texts

variable {address place key owner p q s t : String} {i j : Nat}

theorem toList_step : (s!"{address}/{p}.{i}").toList =
    (address.toList ++ '/' :: p.toList) ++ '.' :: i.repr.toList := by
  simp [toString]

theorem toList_number : (s!"{key}/~{i}").toList =
    (key.toList ++ ['/']) ++ '~' :: i.repr.toList := by
  simp [toString]

theorem toList_place : (s!"{s}#{i}").toList = s.toList ++ '#' :: i.repr.toList := by
  simp [toString]

theorem eq_of_append_repr {l l' : List Char} {a a' : Char}
    (h : l ++ a :: i.repr.toList = l' ++ a' :: j.repr.toList) (ha : a.isDigit = false)
    (ha' : a'.isDigit = false) : l = l' ∧ a = a' ∧ i = j := by
  have hdigits (n : Nat) (c : Char) (hc : c ∈ n.repr.toList) : c.isDigit = true :=
    Nat.isDigit_of_mem_toDigits (by decide) (by decide) (Nat.toList_repr ▸ hc)
  obtain ⟨hl, ha, hi⟩ := Text.eq_of_append_cons (P := (·.isDigit = true)) h (hdigits i) (hdigits j)
    (by simp [ha]) (by simp [ha'])
  exact ⟨hl, ha, Nat.repr_inj.1 (String.toList_inj.1 hi)⟩

theorem step_inj (hp : '/' ∉ p.toList) (hp' : '/' ∉ q.toList)
    (h : s!"{address}/{p}.{i}" = s!"{place}/{q}.{j}") : address = place ∧ p = q ∧ i = j := by
  have htext := congrArg String.toList h
  rw [toList_step, toList_step] at htext
  obtain ⟨hl, -, hi⟩ := eq_of_append_repr htext (by decide) (by decide)
  obtain ⟨ha, -, hp⟩ := Text.eq_of_append_cons (P := (· ≠ '/')) hl
    (fun c hc hslash => hp (hslash ▸ hc)) (fun c hc hslash => hp' (hslash ▸ hc)) (by simp) (by simp)
  exact ⟨String.toList_inj.1 ha, String.toList_inj.1 hp, hi⟩

theorem number_inj (h : s!"{key}/~{i}" = s!"{owner}/~{j}") : key = owner ∧ i = j := by
  have htext := congrArg String.toList h
  rw [toList_number, toList_number] at htext
  obtain ⟨hl, -, hi⟩ := eq_of_append_repr htext (by decide) (by decide)
  exact ⟨String.toList_inj.1 (List.append_cancel_right hl), hi⟩

theorem place_inj (h : s!"{s}#{i}" = s!"{t}#{j}") : s = t ∧ i = j := by
  have htext := congrArg String.toList h
  rw [toList_place, toList_place] at htext
  obtain ⟨hl, -, hi⟩ := eq_of_append_repr htext (by decide) (by decide)
  exact ⟨String.toList_inj.1 hl, hi⟩

theorem step_ne_number : s!"{address}/{p}.{i}" ≠ s!"{key}/~{j}" := by
  intro h
  have htext := congrArg String.toList h
  rw [toList_step, toList_number] at htext
  simpa using (eq_of_append_repr htext (by decide) (by decide)).2.1

theorem place_ne_step : s!"{s}#{i}" ≠ s!"{address}/{p}.{j}" := by
  intro h
  have htext := congrArg String.toList h
  rw [toList_place, toList_step] at htext
  simpa using (eq_of_append_repr htext (by decide) (by decide)).2.1

theorem place_ne_number : s!"{s}#{i}" ≠ s!"{key}/~{j}" := by
  intro h
  have htext := congrArg String.toList h
  rw [toList_place, toList_number] at htext
  simpa using (eq_of_append_repr htext (by decide) (by decide)).2.1

end Texts

end Snapshot

namespace Graph

/-- Paths and property names hold no slash, and no path reads like the place of a node without a
path in its source. -/
structure Legible (g : Graph) : Prop where
  path_slash : ∀ id path, g.path? id = some path → '/' ∉ path.chars
  property_slash : ∀ id p vs, (g.propertiesOf id).find? p = some vs → '/' ∉ p.toList
  path_place : ∀ id path, g.path? id = some path → ∀ j s, g.lifetime? j = some (.persistent s) →
    g.path? j = none → path.text ≠ s!"{s}#{(g.persistentNodes s).idxOf j}"

end Graph

namespace Snapshot

variable {g : Graph} {keys : Keys} {id j owner value : NodeId} {n : Node}
  {address k key p : String} {vs : List NodeId} {i m : Nat}

section Tops

/-- The key of a node that is no part is its path, or its place in its source. -/
theorem tops_cases (ht : g.Titled) (h : (tops g).find? id = some k) :
    (∃ path, g.path? id = some path ∧ k = path.text) ∨
    ∃ s, g.path? id = none ∧ g.lifetime? id = some (.persistent s) ∧
      k = s!"{s}#{(g.persistentNodes s).idxOf id}" := by
  obtain ⟨n, hn, hkey⟩ := find?_tops.1 h
  have hpath : g.path? id = n.path := by simp [path?, hn]
  have hlife : g.lifetime? id = some n.lifetime := lifetime?_of_node? hn
  unfold topKey? at hkey
  split at hkey
  · simp at hkey
  · rename_i path hp _
    exact .inl ⟨path, hpath.trans hp, (Option.some.inj hkey).symm⟩
  · rename_i s hl hp
    exact .inr ⟨s, hpath.trans hp, hl ▸ hlife, (Option.some.inj hkey).symm⟩
  · rename_i hp he hs
    refine absurd (hpath.trans hp) (ht id _ hlife ?_)
    cases hl : n.lifetime with
    | bootstrap | implicit => rfl
    | persistent s => exact absurd hl (hs s)
    | ephemeral o => exact absurd hl (he o)

variable (hg : g.Legible) (hi : g.Indexed) (ht : g.Titled)
include hg ht

theorem tops_ne {k' : String} (h : (tops g).find? id = some k) (hslash : '/' ∈ k'.toList)
    (hplace : ∀ (s : SourceId) (i : Nat), s!"{s}#{i}" ≠ k') : k ≠ k' := by
  rintro rfl
  rcases tops_cases ht h with ⟨path, hpath, rfl⟩ | ⟨s, -, -, hk⟩
  · rw [Path.text, String.toList_ofList] at hslash
    exact hg.path_slash id path hpath hslash
  · exact hplace s _ hk.symm

include hi

theorem tops_inj (h : (tops g).find? id = some k) (h' : (tops g).find? j = some k) : id = j := by
  rcases tops_cases ht h with ⟨path, hpath, rfl⟩ | ⟨s, hp, hl, rfl⟩ <;>
    rcases tops_cases ht h' with ⟨path', hpath', hk⟩ | ⟨s', hp', hl', hk⟩
  · obtain rfl : path = path' := Path.ext (String.ofList_injective hk)
    exact Option.some.inj (((hi.lookup_iff path id).2 hpath).symm.trans
      ((hi.lookup_iff path j).2 hpath'))
  · exact absurd hk (hg.path_place id path hpath j s' hl' hp')
  · exact absurd hk.symm (hg.path_place j path' hpath' id s hl hp)
  · obtain ⟨rfl, hidx⟩ := place_inj hk
    exact (List.idxOf_inj ((hi.persistent_iff s id).2 hl)).1 hidx

end Tops

section Addressed

inductive Origin (g : Graph) (keys : Keys) (id : NodeId) (k : String) : Prop
  | top : (tops g).find? id = some k → Origin g keys id k
  | step {j : NodeId} {n : Node} {address p : String} {vs : List NodeId} {i : Nat} :
      g.node? j = some n → keys.find? j = some address → n.properties.find? p = some vs →
      vs[i]? = some id → k = s!"{address}/{p}.{i}" → Origin g keys id k
  | number {owner : NodeId} {key : String} {m : Nat} : (tops g).find? owner = some key →
      g.lifetime? id = some (.ephemeral owner) → k = s!"{key}/~{m}" → Origin g keys id k

structure Addressed (g : Graph) (done : List NodeId) (keys : Keys) : Prop where
  inj : ∀ a b k, keys.find? a = some k → keys.find? b = some k → a = b
  origin : ∀ a k, keys.find? a = some k → Origin g keys a k
  owner : ∀ a k o, keys.find? a = some k → g.lifetime? a = some (.ephemeral o) → o ∈ done

theorem mem_steps (hn : n.properties.keys.Nodup) {step : String} :
    (step, value) ∈ steps address n ↔ ∃ (p : String) (vs : List NodeId) (i : Nat),
      n.properties.find? p = some vs ∧ vs[i]? = some value ∧ step = s!"{address}/{p}.{i}" := by
  have hperm := Text.sortedMap_perm hn
  simp only [steps, List.mem_flatMap, hperm.mem_iff, List.mem_map, Prod.exists, Prod.mk.injEq,
    Table.mem_entries_iff hn, List.mem_zipIdx_iff_getElem?]
  constructor
  · rintro ⟨p, vs, hp, v, i, hv, rfl, rfl⟩
    exact ⟨p, vs, i, hp, hv, rfl⟩
  · rintro ⟨p, vs, i, hp, hv, rfl⟩
    exact ⟨p, vs, hp, value, i, hv, rfl, rfl⟩

theorem Origin.mono {keys' : Keys} (h : Origin g keys id k) (he : Extends keys keys') :
    Origin g keys' id k := by
  cases h with
  | top h => exact .top h
  | step hn hj hp hv hk => exact .step hn (he _ _ hj) hp hv hk
  | number ho hl hk => exact .number ho hl hk

variable {done : List NodeId}

theorem Addressed.insert (h : Addressed g done keys) (hnone : keys.find? value = none)
    (hfresh : ∀ a, keys.find? a ≠ some k) (horigin : Origin g (keys.insert value k) value k)
    (howner : ∀ o, g.lifetime? value = some (.ephemeral o) → o ∈ done) :
    Addressed g done (keys.insert value k) := by
  have hext := extends_insert hnone k
  refine ⟨fun a b k' ha hb => ?_, fun a k' ha => ?_, fun a k' o ha hl => ?_⟩
  · rw [Table.find?_insert] at ha hb
    split at ha <;> split at hb
    · simp_all
    · exact absurd (Option.some.inj ha ▸ hb) (hfresh b)
    · exact absurd (Option.some.inj hb ▸ ha) (hfresh a)
    · exact h.inj a b k' ha hb
  · rw [Table.find?_insert] at ha
    split at ha
    · rename_i hav
      rw [hav, ← Option.some.inj ha]
      exact horigin
    · exact (h.origin a k' ha).mono hext
  · rw [Table.find?_insert] at ha
    split at ha
    · rename_i hav
      exact howner o (hav ▸ hl)
    · exact h.owner a k' o ha hl

variable (hg : g.Legible) (hi : g.Indexed) (ht : g.Titled)
include hg ht

theorem Addressed.step_fresh (h : Addressed g done keys) (hnone : keys.find? value = none)
    (hn : g.node? j = some n) (hj : keys.find? j = some address)
    (hp : n.properties.find? p = some vs) (hv : vs[i]? = some value) (a : NodeId) :
    keys.find? a ≠ some s!"{address}/{p}.{i}" := by
  intro ha
  have hslash {j : NodeId} {n : Node} {p : String} {vs : List NodeId} (hn : g.node? j = some n)
      (hp : n.properties.find? p = some vs) : '/' ∉ p.toList :=
    hg.property_slash j p vs (by rwa [propertiesOf_of_node? hn])
  cases h.origin a _ ha with
  | top htop =>
    exact tops_ne hg ht htop (by rw [toList_step]; simp) (fun _ _ => place_ne_step) rfl
  | @step j' n' address' p' vs' i' hn' hj' hp' hv' hk =>
    obtain ⟨rfl, rfl, rfl⟩ := step_inj (hslash hn hp) (hslash hn' hp') hk
    obtain rfl := h.inj j j' _ hj hj'
    obtain rfl := Option.some.inj (hn.symm.trans hn')
    obtain rfl := Option.some.inj (hp.symm.trans hp')
    obtain rfl := Option.some.inj (hv.symm.trans hv')
    simp [hnone] at ha
  | number _ _ hk => exact step_ne_number hk

include hi

theorem Addressed.number_fresh (h : Addressed g done keys) (ho : owner ∉ done)
    (hkey : (tops g).find? owner = some key) (a : NodeId) (m : Nat) :
    keys.find? a ≠ some s!"{key}/~{m}" := by
  intro ha
  cases h.origin a _ ha with
  | top htop =>
    exact tops_ne hg ht htop (by rw [toList_number]; simp) (fun _ _ => place_ne_number) rfl
  | step _ _ _ _ hk => exact step_ne_number hk.symm
  | @number owner' key' m' hkey' hl hk =>
    obtain ⟨rfl, -⟩ := number_inj hk
    obtain rfl := tops_inj hg hi ht hkey hkey'
    exact ho (h.owner a _ owner ha hl)

omit hi in
/-- A further key of a part of `owner`; the numbers from `x.1` on are not used yet. -/
theorem Addressed.keying (hc : g.Coherent) {x y : Nat × Keys}
    (hkey : (tops g).find? owner = some key) (h : Keying g owner key x y)
    (hx : Addressed g (owner :: done) x.2 ∧ ∀ a m, x.1 ≤ m → x.2.find? a ≠ some s!"{key}/~{m}") :
    Addressed g (owner :: done) y.2 ∧ ∀ a m, y.1 ≤ m → y.2.find? a ≠ some s!"{key}/~{m}" := by
  obtain ⟨hx, hfree⟩ := hx
  have howner {value o : NodeId} (hl : g.lifetime? value = some (.ephemeral owner))
      (ho : g.lifetime? value = some (.ephemeral o)) : o ∈ owner :: done := by
    rw [hl] at ho
    simp_all
  cases h with
  | @reached m keys j value n address step hn hj hmem hnone hl =>
    obtain ⟨p, vs, i, hp, hv, rfl⟩ := (mem_steps (nodup_properties hc hn)).1 hmem
    refine ⟨hx.insert hnone (hx.step_fresh hg ht hnone hn hj hp hv) ?_ fun o => howner hl, ?_⟩
    · exact .step hn (extends_insert hnone _ _ _ hj) hp hv rfl
    · intro a m' hm ha
      rw [Table.find?_insert] at ha
      split at ha
      · exact step_ne_number (Option.some.inj ha)
      · exact hfree a m' hm ha
  | @numbered m keys value hnone hmem =>
    have hl := ((hc.owned_iff owner value).1 hmem).1
    refine ⟨hx.insert hnone (fun a => hfree a m (Nat.le_refl m)) (.number hkey hl rfl)
      fun o => howner hl, ?_⟩
    intro a m' hm ha
    rw [Table.find?_insert] at ha
    split at ha
    · have := (number_inj (Option.some.inj ha)).2
      simp only at hm
      omega
    · exact hfree a m' (Nat.le_of_succ_le hm) ha

end Addressed

theorem addressed_tops (hg : g.Legible) (hi : g.Indexed) (ht : g.Titled) :
    Addressed g [] (tops g) := by
  refine ⟨fun a b k => tops_inj hg hi ht, fun a k hk => .top hk, fun a k o hk hl => ?_⟩
  obtain ⟨n, hn, hkey⟩ := find?_tops.1 hk
  have hne := not_ephemeral_of_topKey? hkey
  rw [lifetime?_of_node? hn] at hl
  simp [Option.some.inj hl, Lifetime.isEphemeral] at hne

theorem keyOf_inj (hg : g.Legible) (hc : g.Coherent) (ht : g.Titled) (ha : g.contains id = true)
    (hb : g.contains j = true) (h : keyOf g id = keyOf g j) : id = j := by
  obtain ⟨⟨done, haddressed⟩, -⟩ := assignKeys_rule (g := g) (I := Addressed g)
    (J := fun done owner key x => Addressed g (owner :: done) x.2 ∧
      ∀ a m, x.1 ≤ m → x.2.find? a ≠ some s!"{key}/~{m}")
    (addressed_tops hg hc.toIndexed ht)
    (fun done owner key keys ho hkey _ hI => ⟨⟨hI.inj, hI.origin, fun a k o ha hl =>
      List.mem_cons_of_mem _ (hI.owner a k o ha hl)⟩, fun a m _ =>
        hI.number_fresh hg hc.toIndexed ht ho hkey a m⟩)
    (fun done owner key x y _ hkey hx h => Addressed.keying hg ht hc hkey h hx)
    fun _ _ _ _ hx => hx.1
  exact haddressed.inj id j _ (find?_assignKeys hc ha) (h ▸ find?_assignKeys hc hb)

section Depiction

/-- The snapshot has one entry for each node, under a key of its own, and what the node refers to
stands there under its key. -/
structure Depicts (g : Graph) (s : Snapshot) : Prop where
  distinct : ∀ a b, g.contains a = true → g.contains b = true → keyOf g a = keyOf g b → a = b
  size : s.size = g.size
  entry : ∀ a n, g.node? a = some n → ∃ e, s.get? (keyOf g a) = some e ∧
    e.classifier = n.classifier.map (keyOf g) ∧ e.name = n.name ∧
    e.lifetime = lifetimeText n.lifetime ∧ e.span = n.span ∧
    ∀ p, e.properties.lookup p = (n.properties.find? p).map (keysOf g p)

theorem lookup_sortedMap {α : Type} {es : List (String × α)} (h : (es.map Prod.fst).Nodup)
    {k : String} {a : α} : (Text.sortedMap es).lookup k = some a ↔ (k, a) ∈ es := by
  have hperm := Text.sortedMap_perm h
  have hkeys : (⟨Text.sortedMap es⟩ : Table String α).keys.Nodup :=
    ((hperm.map Prod.fst).nodup_iff).2 h
  rw [← hperm.mem_iff]
  exact (Table.mem_entries_iff hkeys).symm

theorem lookup_properties (hn : n.properties.keys.Nodup) (f : String → List NodeId → List String)
    (p : String) : (Text.sortedMap (n.properties.entries.map fun e => (e.1, f e.1 e.2))).lookup p =
      (n.properties.find? p).map (f p) := by
  have hkeys : ((n.properties.entries.map fun e => (e.1, f e.1 e.2)).map Prod.fst).Nodup := by
    rw [List.map_map]
    exact hn
  refine Option.ext fun ks => ?_
  rw [lookup_sortedMap hkeys, Option.map_eq_some_iff]
  simp only [List.mem_map, Prod.exists, Prod.mk.injEq, Table.mem_entries_iff hn]
  constructor
  · rintro ⟨_, vs, hp, rfl, rfl⟩
    exact ⟨vs, hp, rfl⟩
  · rintro ⟨vs, hp, rfl⟩
    exact ⟨p, vs, hp, rfl, rfl⟩

theorem depicts_of_distinct (hc : g.Coherent)
    (h : ∀ a b, g.contains a = true → g.contains b = true → keyOf g a = keyOf g b → a = b) :
    Depicts g (capture g) := by
  have hkeys : ((pictures g).map Prod.fst).Nodup := by
    rw [map_fst_pictures hc]
    exact List.Nodup.map_on (fun a ha b hb => h a b (mem_ids_iff.1 ha)
      (mem_ids_iff.1 hb)) (nodup_ids g)
  refine ⟨h, ?_, fun a n hn => ?_⟩
  · have hlength := congrArg List.length (map_fst_pictures hc)
    rw [Snapshot.size, entries_capture, (Text.sortedMap_perm hkeys).length_eq, Graph.size]
    simpa using hlength
  · refine ⟨Snapshot.entry g (assignKeys g) n, ?_, ?_⟩
    · exact (lookup_sortedMap hkeys).2 ((mem_pictures hc).2 ⟨a, n, hn, rfl, rfl⟩)
    · rw [entry_eq hc hn]
      exact ⟨rfl, rfl, rfl, rfl, lookup_properties (nodup_properties hc hn) _⟩

/-- If no path and no property name can be taken for a piece of an address, the snapshot of a graph
that requests lead to depicts it. -/
theorem capture_depicts (h : Attained g) (hg : g.Legible) : Depicts g (capture g) :=
  depicts_of_distinct h.upheld.toCoherent fun _ _ =>
    keyOf_inj hg h.upheld.toCoherent h.titled

def isPlain (g : Graph) : Bool :=
  g.ids.all fun id => (g.path? id).all (fun path => '/' ∉ path.chars && '#' ∉ path.chars) &&
    (g.propertiesOf id).keys.all fun p => '/' ∉ p.toList

theorem legible_of_isPlain (h : isPlain g = true) : g.Legible := by
  simp only [isPlain, List.all_eq_true, mem_ids_iff, Bool.and_eq_true, Option.all_eq_true,
    decide_eq_true_eq] at h
  have hpath (id : NodeId) (path : Path) (hp : g.path? id = some path) :=
    (h id (contains_of_path? hp)).1 path hp
  refine ⟨fun id path hp => (hpath id path hp).1, fun id p vs hp => ?_,
    fun id path hp j s _ _ hk => ?_⟩
  · cases hid : g.contains id with
    | false => simp [propertiesOf_of_not_contains hid] at hp
    | true => exact (h id hid).2 p (Table.mem_keys_iff.2 ⟨vs, hp⟩)
  · have htext := congrArg String.toList hk
    rw [toList_place, Path.text, String.toList_ofList] at htext
    simpa [htext] using (hpath id path hp).2

def furnished : List Request :=
  [.createPersistent "dir/s" { path := some (.ofValid "house::Room".toList (by decide)) },
    .createEphemeral 41 {}, .createEphemeral 42 {}, .createEphemeral 41 {},
    .addValue 41 "parts" 42, .addValue 42 "parts" 43, .createPersistent "dir/s" {}]

theorem capture_depicts_furnished : ∃ g, Request.runAll initial furnished = .ok g ∧ Attained g ∧
    g.Legible ∧ g.ownedBy 41 = [42, 43, 44] ∧ g.persistentNodes "dir/s" = [41, 45] ∧
    Depicts g (capture g) := by
  obtain ⟨g, hg, hplain, howned, hpersistent⟩ := exists_run furnished
    (P := fun g => isPlain g = true ∧ g.ownedBy 41 = [42, 43, 44] ∧
      g.persistentNodes "dir/s" = [41, 45]) (by decide +kernel)
  have ha : Attained g := Attained.initial.runAll hg
  have hl := legible_of_isPlain hplain
  exact ⟨g, hg, ha, hl, howned, hpersistent, capture_depicts ha hl⟩

def misread : List Request :=
  [.createPersistent "s" {},
    .createPersistent "t" { path := some (.ofValid "s#0".toList (by decide)) }]

theorem keyOf_eq_of_topKey? (h : (g.node? id >>= topKey? g id) = some k) : keyOf g id = k := by
  obtain ⟨n, hn, hk⟩ := Option.bind_eq_some_iff.1 h
  simp [keyOf, extends_assignKeys g id k (find?_tops.2 ⟨n, hn, hk⟩)]

theorem misread_shares_key : ∃ g, Request.runAll initial misread = .ok g ∧ Attained g ∧
    keyOf g 40 = "s#0" ∧ keyOf g 41 = "s#0" ∧ ¬ Depicts g (capture g) := by
  obtain ⟨g, hg, hlive, hlive', hplace, hpath⟩ := exists_run misread
    (P := fun g => g.contains 40 = true ∧ g.contains 41 = true ∧
      (g.node? 40 >>= topKey? g 40) = some "s#0" ∧
      (g.node? 41 >>= topKey? g 41) = some "s#0") (by decide +kernel)
  have hkey := keyOf_eq_of_topKey? hplace
  have hkey' := keyOf_eq_of_topKey? hpath
  refine ⟨g, hg, Attained.initial.runAll hg, hkey, hkey', fun h => ?_⟩
  exact absurd (h.distinct 40 41 hlive hlive' (hkey.trans hkey'.symm)) (by decide)

theorem exists_get?_capture (hc : g.Coherent) (ht : g.Titled) (hplain : isPlain g = true)
    (hk : (g.node? id >>= topKey? g id) = some k) : ∃ e, (capture g).get? k = some e ∧
      ∀ p, e.properties.lookup p = ((g.propertiesOf id).find? p).map (keysOf g p) := by
  have hd := depicts_of_distinct hc fun _ _ => keyOf_inj (legible_of_isPlain hplain) hc ht
  obtain ⟨n, hn, -⟩ := Option.bind_eq_some_iff.1 hk
  obtain ⟨e, he, -, -, -, -, hproperties⟩ := hd.entry id n hn
  rw [keyOf_eq_of_topKey? hk] at he
  rw [propertiesOf_of_node? hn]
  exact ⟨e, he, hproperties⟩

end Depiction

end Snapshot

end ModelCompiler
