import ModelCompiler.Proofs.Lineage.Hierarchy
import ModelCompiler.Proofs.Snapshot.Keys
import ModelCompiler.Proofs.Store.Enduring
import ModelCompiler.Proofs.Store.Tree

/-!
The rule of names.
-/
open ModelCompiler.Graph

namespace ModelCompiler

theorem eq_of_pairwise_of_mem_iff {α : Type} {r : α → α → Prop} (hr : ∀ a b, r a b → ¬ r b a)
    {as bs : List α} (ha : as.Pairwise r) (hb : bs.Pairwise r) (hmem : ∀ a, a ∈ as ↔ a ∈ bs) :
    as = bs := by
  have hnodup {l : List α} (hl : l.Pairwise r) : l.Nodup :=
    hl.imp fun {a b} hab => by
      rintro rfl
      exact hr a a hab hab
  refine List.Perm.eq_of_pairwise (fun a b _ _ hab hba => absurd hba (hr a b hab)) ha hb ?_
  exact (List.perm_ext_iff_of_nodup (hnodup ha) (hnodup hb)).2 hmem

namespace Path

theorem text_injective : Function.Injective text := by
  intro p q h
  exact ext (String.ofList_injective h)

theorem ofText?_eq_some_iff {s : String} {p : Path} : ofText? s = some p ↔ p.text = s := by
  constructor
  · intro h
    rw [text, chars_of_ofChars h, String.ofList_toList]
  · rintro rfl
    rw [ofText?, ofText, text, String.toList_ofList, ofChars_chars]

theorem le_length_takeWhile_zip {as bs : List String} {m : Nat} :
    m ≤ ((as.zip bs).takeWhile fun (a, b) => a == b).length ↔
      ∃ front : List String, front.length = m ∧ front <+: as ∧ front <+: bs := by
  induction as generalizing bs m with
  | nil =>
    simp only [List.zip_nil_left, List.takeWhile_nil, List.length_nil, Nat.le_zero,
      List.prefix_nil]
    exact ⟨fun h => ⟨[], by simp [h]⟩, fun ⟨front, hf, hnil, _⟩ => by simp [← hf, hnil]⟩
  | cons a as ih =>
    cases bs with
    | nil =>
      simp only [List.zip_nil_right, List.takeWhile_nil, List.length_nil, Nat.le_zero,
        List.prefix_nil]
      exact ⟨fun h => ⟨[], by simp [h]⟩, fun ⟨front, hf, _, hnil⟩ => by simp [← hf, hnil]⟩
    | cons b bs =>
      cases m with
      | zero => simp only [Nat.zero_le, true_iff]; exact ⟨[], by simp⟩
      | succ m =>
        rw [List.zip_cons_cons, List.takeWhile_cons]
        by_cases hab : a = b
        · subst hab
          simp only [beq_self_eq_true, if_true, List.length_cons, Nat.add_le_add_iff_right, ih]
          constructor
          · rintro ⟨front, rfl, hp, hq⟩
            exact ⟨a :: front, rfl, by simpa using hp, by simpa using hq⟩
          · rintro ⟨_ | ⟨c, front⟩, hf, hp, hq⟩
            · simp at hf
            · rw [List.cons_prefix_cons] at hp hq
              exact ⟨front, by simpa using hf, hp.2, hq.2⟩
        · simp only [beq_iff_eq, hab, if_false, List.length_nil, Nat.le_zero, Nat.add_eq_zero_iff,
            one_ne_zero, and_false, false_iff]
          rintro ⟨_ | ⟨c, front⟩, hf, hp, hq⟩
          · simp at hf
          · rw [List.cons_prefix_cons] at hp hq
            exact hab (hp.1.symm.trans hq.1)

end Path

namespace Graph

variable {g : Graph} {id : NodeId}

theorem exists_addValues {p : String} {values : List NodeId} (hid : g.contains id = true)
    (hlive : ∀ v ∈ values, g.contains v = true) :
    ∃ g', values.foldlM (fun g v => g.addValue id p v) g = .ok g' ∧ g'.frame = g.frame ∧
      ∀ j q, g'.values j q = if j = id ∧ q = p then g.values id p ++ values else g.values j q := by
  induction values generalizing g with
  | nil =>
    refine ⟨g, rfl, rfl, fun j q => ?_⟩
    split
    · rename_i h
      rw [h.1, h.2, List.append_nil]
    · rfl
  | cons v values ih =>
    have hframe := frame_link g id v p
    obtain ⟨g', hrun, hf, hvalues⟩ := ih (g := g.link id p v) (by rwa [contains_congr hframe])
      fun w hw => by rw [contains_congr hframe]; exact hlive w (List.mem_cons_of_mem v hw)
    refine ⟨g', ?_, hf.trans hframe, fun j q => ?_⟩
    · rw [List.foldlM_cons, addValue, hid, hlive v List.mem_cons_self]
      exact hrun
    · rw [hvalues, values_link hid, values_link hid]
      split <;> simp

theorem exists_setValues (hid : g.contains id = true) (p : String) {values : List NodeId}
    (hlive : ∀ v ∈ values, g.contains v = true) :
    ∃ g', g.setValues id p values = .ok g' ∧ g'.frame = g.frame ∧
      ∀ j q, g'.values j q = if j = id ∧ q = p then values else g.values j q := by
  have hframe := frame_purge g id p
  obtain ⟨g', hrun, hf, hvalues⟩ := exists_addValues (g := g.purge id p) (p := p)
    (by rwa [contains_congr hframe]) fun v hv => by rw [contains_congr hframe]; exact hlive v hv
  refine ⟨g', ?_, hf.trans hframe, fun j q => ?_⟩
  · rw [setValues, clearProperty_eq hid]
    exact hrun
  · rw [hvalues, values_purge, values_purge]
    split <;> simp [*]

end Graph

namespace Resolution

variable {cs : List Char}

section Names

def Separated (cs : List Char) : Prop :=
  [':', ':'] <:+: cs

def IsSimpleName (name simple : String) : Prop :=
  ¬ Separated name.toList ∧ simple = name ∨
    ∃ front, name.toList = front ++ ':' :: ':' :: simple.toList ∧
      ¬ Separated (':' :: simple.toList)

theorem separated_cons {c : Char} :
    Separated (c :: cs) ↔ (c = ':' ∧ ∃ ds, cs = ':' :: ds) ∨ Separated cs := by
  unfold Separated
  rw [List.infix_cons_iff, List.cons_prefix_cons]
  refine or_congr (and_congr eq_comm ⟨?_, ?_⟩) Iff.rfl
  · rintro ⟨ds, rfl⟩
    exact ⟨ds, rfl⟩
  · rintro ⟨ds, rfl⟩
    exact ⟨ds, rfl⟩

theorem afterSeparator?_cons {c : Char} : afterSeparator? (c :: cs) =
    (afterSeparator? cs).or (if c = ':' ∧ cs.head? = some ':' then some cs.tail else none) := by
  conv_lhs => unfold afterSeparator?
  cases ha : afterSeparator? cs with
  | some rest => rfl
  | none => cases cs <;> simp

theorem afterSeparator?_eq_none_iff :
    afterSeparator? cs = none ↔ ¬ Separated cs := by
  induction cs with
  | nil => simp [afterSeparator?, Separated]
  | cons c cs ih =>
    rw [separated_cons, not_or, ← ih, afterSeparator?_cons, Option.or_eq_none_iff, and_comm]
    refine and_congr ?_ Iff.rfl
    rw [ite_eq_right_iff, ← List.head?_eq_some_iff]
    simp

theorem afterSeparator?_eq_some_iff {rest : List Char} : afterSeparator? cs = some rest ↔
    ∃ front, cs = front ++ ':' :: ':' :: rest ∧ ¬ Separated (':' :: rest) := by
  constructor
  · induction cs with
    | nil => simp [afterSeparator?]
    | cons c cs ih =>
      rw [afterSeparator?_cons, Option.or_eq_some_iff]
      rintro (h | ⟨hnone, h⟩)
      · obtain ⟨front, rfl, hs⟩ := ih h
        exact ⟨c :: front, rfl, hs⟩
      · rw [Option.ite_none_right_eq_some, List.head?_eq_some_iff] at h
        obtain ⟨⟨rfl, ds, rfl⟩, hrest⟩ := h
        obtain rfl := Option.some.inj hrest
        exact ⟨[], rfl, afterSeparator?_eq_none_iff.1 hnone⟩
  · rintro ⟨front, rfl, hs⟩
    induction front with
    | nil => simp [@afterSeparator?_cons (':' :: rest) ':',
        afterSeparator?_eq_none_iff.2 hs]
    | cons c front ih => rw [List.cons_append, afterSeparator?_cons, ih, Option.some_or]

theorem isQualified_iff {name : String} : isQualified name = true ↔ Separated name.toList := by
  rw [isQualified, Option.isSome_iff_ne_none, Ne, afterSeparator?_eq_none_iff, not_not]

theorem isSimpleName_iff {name simple : String} :
    IsSimpleName name simple ↔ simple = simpleName name := by
  unfold IsSimpleName simpleName
  cases ha : afterSeparator? name.toList with
  | none =>
    have hs := afterSeparator?_eq_none_iff.1 ha
    refine ⟨?_, fun h => .inl ⟨hs, h⟩⟩
    rintro (⟨-, h⟩ | h)
    · exact h
    · rw [← afterSeparator?_eq_some_iff, ha] at h
      simp at h
  | some cs =>
    have hs : Separated name.toList := by
      by_contra hn
      simp [afterSeparator?_eq_none_iff.2 hn] at ha
    rw [← afterSeparator?_eq_some_iff, ha, Option.some.injEq]
    simp only [hs, not_true_eq_false, false_and, false_or]
    constructor
    · rintro rfl
      rw [String.ofList_toList]
    · rintro rfl
      rw [String.toList_ofList]

end Names

section Rule

def ElementAt (g : Graph) (text : String) (id : NodeId) : Prop :=
  ∃ p : Path, p.text = text ∧ g.path? id = some p ∧ g.isPackage id = false

/-- The packages in which a bare name is looked up. -/
inductive Searches (g : Graph) (stub : NodeId) : String → Prop
  /-- A name that the import group of the stub imports, whatever it is. -/
  | imported {group entry : NodeId} {package : String} :
      g.value? stub "importGroup" = some group → entry ∈ g.values group "imports" →
      g.name? entry = some package → Searches g stub package
  /-- The package of the element that owns the stub, unless it is the root package. -/
  | own {owner package : NodeId} {path : Path} : g.ownerRoot? stub = some owner →
      g.packageOf? owner = some package → g.path? package = some path → package ≠ root →
      Searches g stub path.text

def InScope (g : Graph) (stub : NodeId) (name : String) (id : NodeId) : Prop :=
  ∃ package, Searches g stub package ∧ ElementAt g (package ++ "::" ++ name) id

/-- `n` is the number of segments that the path has in common with the package. -/
def SharesFront (home : Option Path) (p : Path) (n : Nat) : Prop :=
  ∀ m, m ≤ n ↔ m = 0 ∨ ∃ q ∈ home, ∃ front : List String, front.length = m ∧
    front <+: p.segments ∧ front <+: q.segments

/-- The path is closer to the package than the other one, or as close and before it. -/
def Closer (home : Option Path) (p q : Path) : Prop :=
  ∃ m n, SharesFront home p m ∧ SharesFront home q n ∧ (n < m ∨ m = n ∧ p.text < q.text)

/-- All elements of that simple name, each once, the closest first. -/
def Suggested (g : Graph) (stub : NodeId) (name : String) (texts : List String) : Prop :=
  ∃ ps : List Path, texts = ps.map (·.text) ∧ ps.Pairwise (Closer (homePackage? g stub)) ∧
    ∀ p, p ∈ ps ↔ ∃ id, g.path? id = some p ∧ g.isPackage id = false ∧ IsSimpleName name p.name

def IsPrimitive (name : String) : Prop :=
  ∃ p ∈ Metamodel.primitives, p.text = name

/-- What the name of a stub means. -/
inductive Means (g : Graph) (stub : NodeId) (name : String) : Except CompileError NodeId → Prop
  | qualified {id : NodeId} : Separated name.toList → ElementAt g name id →
      Means g stub name (.ok id)
  | nowhere {texts : List String} : Separated name.toList → (∀ id, ¬ ElementAt g name id) →
      Suggested g stub name texts →
      Means g stub name (.error (.unresolvedIdentifier (g.spanOf stub) name texts))
  | primitive {id : NodeId} : IsPrimitive name → ElementAt g name id →
      g.lifetime? id = some .bootstrap → g.classifierPath? id = some Metamodel.primitiveType →
      Means g stub name (.ok id)
  | inScope {id : NodeId} : ¬ Separated name.toList → ¬ IsPrimitive name → InScope g stub name id →
      (∀ j, InScope g stub name j → j = id) → Means g stub name (.ok id)
  | ambiguous {a b : NodeId} {texts : List String} : ¬ Separated name.toList → ¬ IsPrimitive name →
      InScope g stub name a → InScope g stub name b → a ≠ b → texts.Pairwise (· < ·) →
      (∀ s, s ∈ texts ↔ ∃ id p, InScope g stub name id ∧ g.path? id = some p ∧ p.text = s) →
      Means g stub name (.error (.ambiguousIdentifier (g.spanOf stub) name texts))
  | top {id : NodeId} : ¬ Separated name.toList → ¬ IsPrimitive name →
      (∀ j, ¬ InScope g stub name j) → ElementAt g name id → Means g stub name (.ok id)
  | unknown {texts : List String} : ¬ Separated name.toList → ¬ IsPrimitive name →
      (∀ j, ¬ InScope g stub name j) → (∀ id, ¬ ElementAt g name id) →
      Suggested g stub name texts →
      Means g stub name (.error (.unresolvedIdentifier (g.spanOf stub) name texts))

end Rule

end Resolution

theorem Graph.initial_landmarks : Graph.initial.lifetime? root = some .bootstrap ∧
    Graph.initial.path? root = some Metamodel.rootPackage ∧
    Graph.initial.values root "package" = [] ∧
    (Metamodel.primitives.all fun p => (Graph.initial.lookup p).any fun id =>
      Graph.initial.path? id = some p && !Graph.initial.isPackage id &&
        Graph.initial.lifetime? id = some .bootstrap && (Graph.initial.classifier? id).any fun c =>
          Graph.initial.lifetime? c = some .bootstrap &&
            Graph.initial.path? c = some Metamodel.primitiveType) = true := by
  rw [spelledOut.2]
  decide +kernel

namespace Attained

variable {g : Graph} {id : NodeId}

theorem chronicle (h : Attained g) : ∃ log, Chronicle g log := by
  induction h with
  | initial => exact ⟨_, .initial⟩
  | step r _ hr ih =>
    obtain ⟨log, hlog⟩ := ih
    exact ⟨_, .step r hlog hr⟩

theorem path?_root (h : Attained g) : g.path? root = some Metamodel.rootPackage := by
  obtain ⟨hlife, hpath, -⟩ := initial_landmarks
  exact (path?_of_bare (h.endures.predefined root hlife).1).trans hpath

theorem exists_primitive (h : Attained g) {p : Path} (hp : p ∈ Metamodel.primitives) :
    ∃ id, g.path? id = some p ∧ g.isPackage id = false ∧ g.lifetime? id = some .bootstrap ∧
      g.classifierPath? id = some Metamodel.primitiveType := by
  obtain ⟨-, -, -, hall⟩ := initial_landmarks
  obtain ⟨id, -, hid⟩ := (Option.any_eq_true _ _).1 (List.all_eq_true.1 hall p hp)
  simp only [Bool.and_eq_true, decide_eq_true_eq, Bool.not_eq_true'] at hid
  obtain ⟨⟨⟨hpath, hpack⟩, hlife⟩, hclass⟩ := hid
  obtain ⟨c, hc, hc'⟩ := (Option.any_eq_true _ _).1 hclass
  simp only [Bool.and_eq_true, decide_eq_true_eq] at hc'
  obtain ⟨hbare, hpack'⟩ := h.endures.predefined id hlife
  have hbare' := (h.endures.predefined c hc'.1).1
  refine ⟨id, (path?_of_bare hbare).trans hpath, hpack'.trans hpack,
    (lifetime?_of_bare hbare).trans hlife, ?_⟩
  rw [classifierPath?, classifier?_of_bare hbare, hc]
  exact (path?_of_bare hbare').trans hc'.2

end Attained

namespace Resolution

variable {g : Graph} {stub id : NodeId} {name : String} {ids : List NodeId} {home : Option Path}
  {p q : Path} {s text : String}

section Search

theorem elementAt?_eq_some_iff (hi : g.Indexed) :
    elementAt? g text = some id ↔ ElementAt g text id := by
  unfold elementAt? lookupText ElementAt
  rw [Option.filter_eq_some_iff, Bool.not_eq_true', Option.bind_eq_bind, Option.bind_eq_some_iff]
  constructor
  · rintro ⟨⟨p, hp, hl⟩, hpack⟩
    exact ⟨p, Path.ofText?_eq_some_iff.1 hp, (hi.lookup_iff p id).1 hl, hpack⟩
  · rintro ⟨p, hp, hl, hpack⟩
    exact ⟨⟨p, Path.ofText?_eq_some_iff.2 hp, (hi.lookup_iff p id).2 hl⟩, hpack⟩

theorem elementAt?_eq_none_iff (hi : g.Indexed) :
    elementAt? g text = none ↔ ∀ id, ¬ ElementAt g text id := by
  rw [Option.eq_none_iff_forall_ne_some]
  exact forall_congr' fun id => not_congr (elementAt?_eq_some_iff hi)

theorem homePackage?_eq_some_iff {path : Path} : homePackage? g stub = some path ↔
    ∃ owner package, g.ownerRoot? stub = some owner ∧ g.packageOf? owner = some package ∧
      g.path? package = some path := by
  simp only [homePackage?, packagePath?, Option.bind_eq_bind, Option.bind_eq_some_iff]
  constructor
  · rintro ⟨owner, ho, package, hp, hpath⟩
    exact ⟨owner, package, ho, hp, hpath⟩
  · rintro ⟨owner, package, ho, hp, hpath⟩
    exact ⟨owner, ho, package, hp, hpath⟩

theorem mem_scope_iff (hg : Attained g) :
    s ∈ scope g stub ↔ Searches g stub s := by
  have hi := hg.upheld.toIndexed
  have hown {path : Path} {package : NodeId} (hp : g.path? package = some path) :
      path ≠ Metamodel.rootPackage ↔ package ≠ root := by
    refine not_congr ⟨?_, ?_⟩
    · rintro rfl
      have h₁ := (hi.lookup_iff _ _).2 hp
      have h₂ := (hi.lookup_iff _ _).2 hg.path?_root
      exact Option.some.inj (h₁.symm.trans h₂)
    · rintro rfl
      exact Option.some.inj (hp.symm.trans hg.path?_root)
  rw [scope, List.mem_append]
  constructor
  · rintro (hs | hs)
    · cases hgroup : g.value? stub "importGroup" with
      | none => simp [hgroup] at hs
      | some group =>
        simp only [hgroup, List.mem_filterMap] at hs
        obtain ⟨entry, hentry, hname⟩ := hs
        exact .imported hgroup hentry hname
    · simp only [List.mem_map, List.mem_filter, Option.mem_toList, decide_eq_true_eq] at hs
      obtain ⟨path, ⟨hhome, hroot⟩, rfl⟩ := hs
      obtain ⟨owner, package, ho, hp, hpath⟩ := homePackage?_eq_some_iff.1 hhome
      exact .own ho hp hpath ((hown hpath).1 hroot)
  · rintro (⟨hgroup, hentry, hname⟩ | ⟨ho, hp, hpath, hroot⟩)
    · left
      rw [hgroup]
      exact List.mem_filterMap.2 ⟨_, hentry, hname⟩
    · right
      simp only [List.mem_map, List.mem_filter, Option.mem_toList, decide_eq_true_eq]
      exact ⟨_, ⟨homePackage?_eq_some_iff.2 ⟨_, _, ho, hp, hpath⟩, (hown hpath).2 hroot⟩, rfl⟩

theorem mem_matching_iff (hg : Attained g) (stub : NodeId) (name : String) (id : NodeId) :
    id ∈ matching g stub name ↔ InScope g stub name id := by
  rw [matching, List.mem_eraseDups, List.mem_filterMap]
  refine exists_congr fun package => and_congr (mem_scope_iff hg) ?_
  exact elementAt?_eq_some_iff hg.upheld.toIndexed

theorem nodup_matching (g : Graph) (stub : NodeId) (name : String) :
    (matching g stub name).Nodup :=
  nodup_eraseDups _

end Search

section Orders

def proximity (home : Option Path) (p : Path) : Nat :=
  match home with
  | some package => p.commonPrefixLength package
  | none => 0

theorem shares_iff {n : Nat} :
    SharesFront home p n ↔ n = proximity home p := by
  have hle (m : Nat) : m ≤ proximity home p ↔ m = 0 ∨ ∃ q ∈ home, ∃ front : List String,
      front.length = m ∧ front <+: p.segments ∧ front <+: q.segments := by
    cases home with
    | none => simp [proximity]
    | some q =>
      simp only [proximity, Path.commonPrefixLength, Path.le_length_takeWhile_zip, Option.mem_def,
        Option.some.injEq, exists_eq_left']
      refine ⟨.inr, ?_⟩
      rintro (rfl | h)
      · exact ⟨[], by simp⟩
      · exact h
  constructor
  · intro h
    exact le_antisymm ((hle n).2 ((h n).1 le_rfl)) ((h _).2 ((hle _).1 le_rfl))
  · rintro rfl
    exact hle

theorem closer_iff : Closer home p q ↔
    proximity home q < proximity home p ∨
      proximity home p = proximity home q ∧ p.text < q.text := by
  simp [Closer, shares_iff]

theorem not_closer_of_closer (h : Closer home p q) :
    ¬ Closer home q p := by
  rw [closer_iff] at h ⊢
  rintro (h' | ⟨he, h'⟩)
  · rcases h with h | ⟨he, -⟩ <;> omega
  · rcases h with h | ⟨-, h⟩
    · omega
    · exact lt_asymm h h'

def suggestions (g : Graph) (home : Option Path) (name : String) : List Path :=
  ((g.elementsNamed (simpleName name)).filterMap g.path?).mergeSort fun p q =>
    decide (proximity home q < proximity home p ∨
      proximity home p = proximity home q ∧ p.text ≤ q.text)

theorem candidates_eq (g : Graph) (home : Option Path) (name : String) :
    candidates g home name = (suggestions g home name).map (·.text) := by
  unfold candidates suggestions
  dsimp only
  change ((((g.elementsNamed (simpleName name)).filterMap g.path?).map fun p =>
    (proximity home p, p.text)).mergeSort _).map _ = _
  rw [← List.map_mergeSort (f := fun p => (proximity home p, p.text))
    (r := fun p q => decide (proximity home q < proximity home p ∨
      proximity home p = proximity home q ∧ p.text ≤ q.text)) (fun _ _ _ _ => rfl), List.map_map]
  rfl

theorem mem_elementsNamed_iff (hg : Attained g) {simple : String} :
    id ∈ g.elementsNamed simple ↔ (∃ p, g.path? id = some p ∧ p.name = simple) ∧
      g.isPackage id = false := by
  obtain ⟨log, hlog⟩ := hg.chronicle
  rw [hlog.logged.named_eq, List.mem_filter, hlog.logged.mem_iff, decide_eq_true_eq, title?,
    Option.map_eq_some_iff]
  constructor
  · rintro ⟨⟨-, hpack⟩, hp⟩
    exact ⟨hp, hpack⟩
  · rintro ⟨⟨p, hp, hs⟩, hpack⟩
    exact ⟨⟨contains_of_path? hp, hpack⟩, p, hp, hs⟩

theorem nodup_paths (hi : g.Indexed) (hn : ids.Nodup) :
    (ids.filterMap g.path?).Nodup := by
  refine hn.filterMap fun a b p ha hb => ?_
  exact Option.some.inj (((hi.lookup_iff p a).2 ha).symm.trans ((hi.lookup_iff p b).2 hb))

theorem pairwise_suggestions (hg : Attained g) (home : Option Path) (name : String) :
    (suggestions g home name).Pairwise (Closer home) := by
  have hnodup : (suggestions g home name).Nodup := by
    obtain ⟨log, hlog⟩ := hg.chronicle
    refine ((List.mergeSort_perm _ _).nodup_iff).2 (nodup_paths hg.upheld.toIndexed ?_)
    rw [hlog.logged.named_eq]
    exact hlog.logged.nodup.filter _
  have hsorted : (suggestions g home name).Pairwise fun p q =>
      decide (proximity home q < proximity home p ∨
        proximity home p = proximity home q ∧ p.text ≤ q.text) = true := by
    refine List.pairwise_mergeSort (fun p q r hpq hqr => ?_) (fun p q => ?_) _
    · simp only [decide_eq_true_eq] at hpq hqr ⊢
      rcases hpq with hpq | ⟨hpq, htq⟩
      · exact .inl (by rcases hqr with hqr | ⟨hqr, -⟩ <;> omega)
      · rcases hqr with hqr | ⟨hqr, htr⟩
        · exact .inl (by omega)
        · exact .inr ⟨hpq.trans hqr, htq.trans htr⟩
    · simp only [Bool.or_eq_true, decide_eq_true_eq]
      rcases lt_trichotomy (proximity home p) (proximity home q) with h | h | h
      · exact .inr (.inl h)
      · rcases le_total p.text q.text with ht | ht
        · exact .inl (.inr ⟨h, ht⟩)
        · exact .inr (.inr ⟨h.symm, ht⟩)
      · exact .inl (.inl h)
  refine (hsorted.and hnodup).imp fun {p q} hpq => closer_iff.2 ?_
  obtain ⟨hle, hne⟩ := hpq
  rw [decide_eq_true_eq] at hle
  exact hle.imp id fun h => ⟨h.1, lt_of_le_of_ne h.2 fun he => hne (Path.text_injective he)⟩

theorem suggested_iff (hg : Attained g) {texts : List String} :
    Suggested g stub name texts ↔ texts = candidates g (homePackage? g stub) name := by
  have hmem (p : Path) : p ∈ suggestions g (homePackage? g stub) name ↔
      ∃ id, g.path? id = some p ∧ g.isPackage id = false ∧ IsSimpleName name p.name := by
    simp only [suggestions, List.mem_mergeSort, List.mem_filterMap, mem_elementsNamed_iff hg,
      isSimpleName_iff]
    constructor
    · rintro ⟨id, ⟨⟨q, hq, hs⟩, hpack⟩, hp⟩
      obtain rfl := Option.some.inj (hq.symm.trans hp)
      exact ⟨id, hp, hpack, hs⟩
    · rintro ⟨id, hp, hpack, hs⟩
      exact ⟨id, ⟨⟨p, hp, hs⟩, hpack⟩, hp⟩
  have hsorted := pairwise_suggestions hg (homePackage? g stub) name
  rw [candidates_eq]
  constructor
  · rintro ⟨ps, rfl, hp, hps⟩
    rw [eq_of_pairwise_of_mem_iff (fun _ _ => not_closer_of_closer) hp hsorted
      fun p => (hps p).trans (hmem p).symm]
  · rintro rfl
    exact ⟨_, rfl, hsorted, hmem⟩

def sortedPaths (g : Graph) (ids : List NodeId) : List String :=
  Text.sort (ids.filterMap fun id => (g.path? id).map (·.text))

theorem pairwise_sortedPaths (hi : g.Indexed) (hn : ids.Nodup) :
    (sortedPaths g ids).Pairwise (· < ·) := by
  have hnodup : (sortedPaths g ids).Nodup := by
    refine ((Order.sort_perm _ _).nodup_iff).2 ?_
    rw [← List.map_filterMap]
    exact (nodup_paths hi hn).map Path.text_injective
  exact ((Text.pairwise_sort _).and hnodup).imp fun h => lt_of_le_of_ne h.1 h.2

theorem mem_sortedPaths_iff :
    s ∈ sortedPaths g ids ↔ ∃ id ∈ ids, ∃ p, g.path? id = some p ∧ p.text = s := by
  simp [sortedPaths, Text.sort, List.mem_filterMap]

theorem eq_sortedPaths (hg : Attained g) {texts : List String} (hp : texts.Pairwise (· < ·))
    (hmem : ∀ s, s ∈ texts ↔ ∃ id p, InScope g stub name id ∧ g.path? id = some p ∧ p.text = s) :
    texts = sortedPaths g (matching g stub name) := by
  refine eq_of_pairwise_of_mem_iff (fun _ _ h => lt_asymm h) hp
    (pairwise_sortedPaths hg.upheld.toIndexed (nodup_matching g stub name)) fun s => ?_
  rw [hmem, mem_sortedPaths_iff]
  refine exists_congr fun id => ?_
  rw [mem_matching_iff hg]
  exact ⟨fun ⟨p, hs, h⟩ => ⟨hs, p, h⟩, fun ⟨hs, p, h⟩ => ⟨p, hs, h⟩⟩

end Orders

section Agreement

theorem isPrimitive_iff : (Metamodel.primitives.any (·.text = name)) = true ↔ IsPrimitive name := by
  simp [IsPrimitive]

theorem not_separated_of_isPrimitive (h : IsPrimitive name) : ¬ Separated name.toList := by
  obtain ⟨p, hp, rfl⟩ := h
  rw [← isQualified_iff, Bool.not_eq_true]
  have hall : Metamodel.primitives.all (fun p => !isQualified p.text) = true := by decide +kernel
  simpa using List.all_eq_true.1 hall p hp

theorem resolveBare_means (hg : Attained g) (hs : ¬ Separated name.toList)
    (hp : ¬ IsPrimitive name) : Means g stub name (resolveBare g stub name) := by
  have hi := hg.upheld.toIndexed
  have hmem := mem_matching_iff hg stub name
  have hnodup := nodup_matching g stub name
  have hsorted := pairwise_sortedPaths hi hnodup
  unfold resolveBare
  rcases hm : matching g stub name with _ | ⟨a, _ | ⟨b, rest⟩⟩
  · have hnone (j : NodeId) : ¬ InScope g stub name j := by
      rw [← hmem, hm]
      simp
    cases he : elementAt? g name with
    | some id => exact .top hs hp hnone ((elementAt?_eq_some_iff hi).1 he)
    | none =>
      exact .unknown hs hp hnone ((elementAt?_eq_none_iff hi).1 he) ((suggested_iff hg).2 rfl)
  · have hone (j : NodeId) : InScope g stub name j ↔ j = a := by
      rw [← hmem, hm]
      simp
    exact .inScope hs hp ((hone a).2 rfl) fun j => (hone j).1
  · have hab : a ≠ b := by
      rw [hm] at hnodup
      simp only [List.nodup_cons, List.mem_cons, not_or] at hnodup
      exact hnodup.1.1
    refine .ambiguous hs hp ((hmem a).1 (by simp [hm]))
      ((hmem b).1 (by simp [hm])) hab ?_ fun s => ?_
    · rw [hm] at hsorted
      exact hsorted
    · rw [← sortedPaths, mem_sortedPaths_iff, ← hm]
      refine exists_congr fun id => ?_
      rw [hmem]
      exact ⟨fun ⟨hs, p, h⟩ => ⟨p, hs, h⟩, fun ⟨p, hs, h⟩ => ⟨hs, p, h⟩⟩

theorem resolve_means (hg : Attained g) (stub : NodeId) :
    Means g stub ((g.name? stub).getD "") (resolve g stub) := by
  have hi := hg.upheld.toIndexed
  unfold resolve
  generalize (g.name? stub).getD "" = name
  dsimp only
  split
  · rename_i hq
    cases he : elementAt? g name with
    | some id => exact .qualified (isQualified_iff.1 hq) ((elementAt?_eq_some_iff hi).1 he)
    | none =>
      exact .nowhere (isQualified_iff.1 hq) ((elementAt?_eq_none_iff hi).1 he)
        ((suggested_iff hg).2 rfl)
  · rename_i hq
    have hs : ¬ Separated name.toList := fun h => hq (isQualified_iff.2 h)
    split
    · rename_i hp
      obtain ⟨p, hmem, rfl⟩ := isPrimitive_iff.1 hp
      obtain ⟨id, hpath, hpack, hlife, hclass⟩ := hg.exists_primitive hmem
      have he : ElementAt g p.text id := ⟨p, rfl, hpath, hpack⟩
      rw [(elementAt?_eq_some_iff hi).2 he]
      exact .primitive ⟨p, hmem, rfl⟩ he hlife hclass
    · rename_i hp
      exact resolveBare_means hg hs fun h => hp (isPrimitive_iff.2 h)

theorem Means.unique (hg : Attained g) {r r' : Except CompileError NodeId}
    (h : Means g stub name r) (h' : Means g stub name r') : r = r' := by
  have hi := hg.upheld.toIndexed
  have hat {a b : NodeId} (ha : ElementAt g name a) (hb : ElementAt g name b) : a = b :=
    Option.some.inj (((elementAt?_eq_some_iff hi).2 ha).symm.trans
      ((elementAt?_eq_some_iff hi).2 hb))
  cases h with
  | qualified hs he =>
    cases h' with
    | qualified _ he' => rw [hat he he']
    | nowhere _ hn => exact absurd he (hn _)
    | primitive hp => exact absurd hs (not_separated_of_isPrimitive hp)
    | inScope hs' | ambiguous hs' | top hs' | unknown hs' => exact absurd hs hs'
  | nowhere hs hn ht =>
    cases h' with
    | qualified _ he' => exact absurd he' (hn _)
    | nowhere _ _ ht' => rw [(suggested_iff hg).1 ht, (suggested_iff hg).1 ht']
    | primitive hp => exact absurd hs (not_separated_of_isPrimitive hp)
    | inScope hs' | ambiguous hs' | top hs' | unknown hs' => exact absurd hs hs'
  | primitive hp he =>
    cases h' with
    | qualified hs | nowhere hs => exact absurd hs (not_separated_of_isPrimitive hp)
    | primitive _ he' => rw [hat he he']
    | inScope _ hp' | ambiguous _ hp' | top _ hp' | unknown _ hp' => exact absurd hp hp'
  | inScope hs hp hin hall =>
    cases h' with
    | qualified hs' | nowhere hs' => exact absurd hs' hs
    | primitive hp' => exact absurd hp' hp
    | inScope _ _ hin' => rw [hall _ hin']
    | ambiguous _ _ ha hb hne => exact absurd ((hall _ ha).trans (hall _ hb).symm) hne
    | top _ _ hn | unknown _ _ hn => exact absurd hin (hn _)
  | ambiguous hs hp ha hb hne ht hmem =>
    cases h' with
    | qualified hs' | nowhere hs' => exact absurd hs' hs
    | primitive hp' => exact absurd hp' hp
    | inScope _ _ _ hall => exact absurd ((hall _ ha).trans (hall _ hb).symm) hne
    | ambiguous _ _ _ _ _ ht' hmem' => rw [eq_sortedPaths hg ht hmem, eq_sortedPaths hg ht' hmem']
    | top _ _ hn | unknown _ _ hn => exact absurd ha (hn _)
  | top hs hp hn he =>
    cases h' with
    | qualified hs' | nowhere hs' => exact absurd hs' hs
    | primitive hp' => exact absurd hp' hp
    | inScope _ _ hin | ambiguous _ _ hin => exact absurd hin (hn _)
    | top _ _ _ he' => rw [hat he he']
    | unknown _ _ _ hn' => exact absurd he (hn' _)
  | unknown hs hp hn hn' ht =>
    cases h' with
    | qualified hs' | nowhere hs' => exact absurd hs' hs
    | primitive hp' => exact absurd hp' hp
    | inScope _ _ hin | ambiguous _ _ hin => exact absurd hin (hn _)
    | top _ _ _ he' => exact absurd he' (hn' _)
    | unknown _ _ _ _ ht' => rw [(suggested_iff hg).1 ht, (suggested_iff hg).1 ht']

end Agreement

section Imports

variable {g' : Graph}

/-- What the rule looks at is the same in both graphs. -/
structure SameScope (g g' : Graph) (stub : NodeId) : Prop where
  frame : g'.frame = g.frame
  packageOf : ∀ id, g'.packageOf? id = g.packageOf? id
  searches : ∀ s, Searches g' stub s ↔ Searches g stub s

theorem SameScope.means (h : SameScope g g' stub) {r : Except CompileError NodeId}
    (hr : Means g stub name r) : Means g' stub name r := by
  have hat : ElementAt g' = ElementAt g := by
    funext text id
    simp only [ElementAt, path?_congr h.frame, isPackage_congr h.frame]
  have hin : InScope g' stub = InScope g stub := by
    funext name id
    simp only [InScope, h.searches, hat]
  have hhome : homePackage? g' stub = homePackage? g stub := by
    have hpath : g'.packagePath? = g.packagePath? := by
      funext id
      rw [packagePath?, packagePath?, h.packageOf, funext (path?_congr h.frame)]
    rw [homePackage?, homePackage?, ownerRoot?_congr h.frame, hpath]
  have hsug : Suggested g' stub = Suggested g stub := by
    funext name texts
    simp only [Suggested, hhome, path?_congr h.frame, isPackage_congr h.frame]
  have hspan : g'.spanOf stub = g.spanOf stub := by
    simp only [spanOf, span?_congr h.frame, ownerRoot?_congr h.frame, sourceOf?_congr h.frame,
      funext (span?_congr h.frame)]
  cases hr with
  | qualified hs he => exact .qualified hs (hat ▸ he)
  | nowhere hs hn ht => exact hspan ▸ .nowhere hs (hat ▸ hn) (hsug ▸ ht)
  | primitive hp he hl hc =>
    exact .primitive hp (hat ▸ he) ((lifetime?_congr h.frame _).trans hl)
      ((classifierPath?_congr h.frame _).trans hc)
  | inScope hs hp hi hall => exact .inScope hs hp (hin ▸ hi) (hin ▸ hall)
  | ambiguous hs hp ha hb hne ht hmem =>
    refine hspan ▸ .ambiguous hs hp (hin ▸ ha) (hin ▸ hb) hne ht fun s => ?_
    simp only [hmem, hin, path?_congr h.frame]
  | top hs hp hn he => exact .top hs hp (hin ▸ hn) (hat ▸ he)
  | unknown hs hp hn he ht => exact hspan ▸ .unknown hs hp (hin ▸ hn) (hat ▸ he) (hsug ▸ ht)

theorem sameScope_of_setValues {group : NodeId} (hgroup : g.value? stub "importGroup" = some group)
    {entries : List NodeId} (hframe : g'.frame = g.frame) (hvalues : ∀ j q, g'.values j q =
      if j = group ∧ q = "imports" then entries else g.values j q)
    (hnames : ∀ s, (∃ e ∈ entries, g.name? e = some s) ↔
      ∃ e ∈ g.values group "imports", g.name? e = some s) : SameScope g g' stub := by
  have hvalue {p : String} (hp : p ≠ "imports") (j : NodeId) : g'.value? j p = g.value? j p := by
    rw [value?, hvalues, if_neg fun h => hp h.2, value?]
  have hpack (j : NodeId) : g'.packageOf? j = g.packageOf? j := hvalue (by decide) j
  refine ⟨hframe, hpack, fun s => ⟨?_, ?_⟩⟩
  · rintro (⟨hg', he, hn⟩ | ⟨ho, hp, hpath, hroot⟩)
    · rw [hvalue (by decide), hgroup] at hg'
      obtain rfl := Option.some.inj hg'
      rw [hvalues, if_pos ⟨rfl, rfl⟩] at he
      rw [name?_congr hframe] at hn
      obtain ⟨e, he', hn'⟩ := (hnames s).1 ⟨_, he, hn⟩
      exact .imported hgroup he' hn'
    · exact .own (by rwa [← ownerRoot?_congr hframe]) (by rwa [← hpack])
        (by rwa [← path?_congr hframe]) hroot
  · rintro (⟨hg', he, hn⟩ | ⟨ho, hp, hpath, hroot⟩)
    · obtain rfl := Option.some.inj (hg'.symm.trans hgroup)
      obtain ⟨e, he', hn'⟩ := (hnames s).2 ⟨_, he, hn⟩
      refine .imported ((hvalue (by decide) _).trans hgroup) ?_ ((name?_congr hframe e).trans hn')
      rwa [hvalues, if_pos ⟨rfl, rfl⟩]
    · exact .own (by rwa [ownerRoot?_congr hframe]) (by rwa [hpack])
        (by rwa [path?_congr hframe]) hroot

end Imports

/-- The name of a stub is resolved to what it means: one answer by the rule, never a package, and
the same one whenever the imports of its group have the same names, in any order and number. -/
theorem resolve_by_rule (hg : Attained g) (stub : NodeId) :
    (∀ r, resolve g stub = r ↔ Means g stub ((g.name? stub).getD "") r) ∧
      (∀ id, resolve g stub = .ok id → g.isPackage id = false) ∧
      ∀ group, g.value? stub "importGroup" = some group → ∀ entries : List NodeId,
        (∀ e ∈ entries, g.contains e = true) →
        (∀ s, (∃ e ∈ entries, g.name? e = some s) ↔
          ∃ e ∈ g.values group "imports", g.name? e = some s) →
        ∃ g', g.setValues group "imports" entries = .ok g' ∧ resolve g' stub = resolve g stub := by
  have hmeans := resolve_means hg stub
  refine ⟨fun r => ⟨fun h => h ▸ hmeans, hmeans.unique hg⟩, fun id h => ?_, ?_⟩
  · rw [h] at hmeans
    obtain ⟨p, -, -, hpack⟩ : ∃ p : Path, ∃ text, p.text = text ∧ g.path? id = some p ∧
        g.isPackage id = false := by
      cases hmeans with
      | qualified _ he | primitive _ he | top _ _ _ he =>
        obtain ⟨p, hp⟩ := he
        exact ⟨p, _, hp⟩
      | inScope _ _ hi =>
        obtain ⟨_, _, p, hp⟩ := hi
        exact ⟨p, _, hp⟩
    exact hpack.2
  · intro group hgroup entries hlive hnames
    have hcontains : g.contains group = true :=
      hg.upheld.toClosed.value_live _ _ _ (List.mem_of_mem_head? hgroup)
    obtain ⟨g', hset, hframe, hvalues⟩ := exists_setValues hcontains "imports" hlive
    have hg' : Attained g' := .step (.setValues group "imports" entries) hg hset
    have hsame := sameScope_of_setValues hgroup hframe hvalues hnames
    refine ⟨g', hset, (resolve_means hg' stub).unique hg' ?_⟩
    rw [name?_congr hframe]
    exact hsame.means hmeans

def crossroads : List Request :=
  [.createPersistent "s" { path := some (.ofValid "a::Shape".toList (by decide)) },
    .createPersistent "s" { path := some (.ofValid "b::Shape".toList (by decide)) },
    .createPersistent "s" { path := some (.ofValid "c::User".toList (by decide)) },
    .createEphemeral 45 {}, .createEphemeral 45 { name := some "b" },
    .createEphemeral 45 { name := some "a" }, .createEphemeral 45 { name := some "Shape" },
    .addValue 46 "imports" 47, .addValue 46 "imports" 48, .addValue 49 "importGroup" 46]

/-- The name is ambiguous, and remains so when the imports are turned round and repeated. -/
theorem resolve_by_rule_crossroads : ∃ g g', Request.runAll initial crossroads = .ok g ∧
    Means g 49 "Shape"
      (.error (.ambiguousIdentifier (.point "s" 0 0) "Shape" ["a::Shape", "b::Shape"])) ∧
    g.setValues 46 "imports" [48, 47, 48] = .ok g' ∧
    resolve g' 49 =
      .error (.ambiguousIdentifier (.point "s" 0 0) "Shape" ["a::Shape", "b::Shape"]) := by
  obtain ⟨g, hg, hname, hgroup, himports, ha, hb, hres⟩ := exists_run crossroads
    (P := fun g => g.name? 49 = some "Shape" ∧ g.value? 49 "importGroup" = some 46 ∧
      g.values 46 "imports" = [47, 48] ∧ g.contains 48 = true ∧ g.contains 47 = true ∧
      resolve g 49 =
        .error (.ambiguousIdentifier (.point "s" 0 0) "Shape" ["a::Shape", "b::Shape"]))
    (by decide +kernel)
  obtain ⟨log, hlog⟩ := Chronicle.initial.runAll hg
  obtain ⟨hrule, -, himport⟩ := resolve_by_rule hlog.attained 49
  obtain ⟨g', hset, heq⟩ := himport 46 hgroup [48, 47, 48] (by simp [ha, hb]) (by
    intro s
    rw [himports]
    simp only [List.mem_cons, List.not_mem_nil, or_false]
    grind)
  have hmeans := (hrule _).1 hres
  rw [hname] at hmeans
  exact ⟨g, g', hg, hmeans, hset, heq.trans hres⟩

end Resolution

end ModelCompiler
