import ModelCompiler.Proofs.Compiling.Sessions

/-!
A parse that fails leaves no trace.
-/
open ModelCompiler.Action ModelCompiler.Graph ModelCompiler.Workspace ModelCompiler.Handler

namespace ModelCompiler

theorem Table.keep_eq_self {κ β : Type} {p : β → Bool} {t : Table κ (List β)}
    (h : ∀ e ∈ t.entries, e.2 ≠ [] ∧ ∀ b ∈ e.2, p b = true) : t.keep p = t := by
  have hmap : t.entries.map (fun e => (e.1, e.2.filter p)) = t.entries := by
    conv_rhs => rw [← List.map_id t.entries]
    refine List.map_congr_left fun e he => ?_
    rw [List.filter_eq_self.2 (h e he).2]
    rfl
  unfold keep
  rw [hmap, List.filter_eq_self.2 fun e he => by simpa using (h e he).1]

namespace Graph

structure Unchanged (g g' : Graph) : Prop where
  node : ∀ m, g'.node? m = g.node? m
  usages : g'.usages = g.usages
  lookup : ∀ path, g'.lookup path = g.lookup path
  named : ∀ name, g'.elementsNamed name = g.elementsNamed name
  instances : ∀ c, g'.instancesOf c = g.instancesOf c
  persistent : ∀ s, g'.persistentNodes s = g.persistentNodes s
  sources : g'.sources = g.sources
  owned : ∀ o, g'.ownedBy o = g.ownedBy o
  package : ∀ m, g'.isPackage m = g.isPackage m
  backReferences : g'.backReferences = g.backReferences
  packageClassifier : g'.packageClassifier = g.packageClassifier

section Dead

variable {g : Graph} {m : NodeId} (hi : g.Indexed) (hdead : g.contains m ≠ true)
include hi hdead

theorem Indexed.instancesOf_dead : g.instancesOf m = [] :=
  List.eq_nil_iff_forall_not_mem.2 fun _ h => hdead ((hi.instance_iff m _).1 h).2

theorem Indexed.ownedBy_dead : g.ownedBy m = [] :=
  List.eq_nil_iff_forall_not_mem.2 fun _ h => hdead ((hi.owned_iff m _).1 h).2

theorem Indexed.isPackage_dead : g.isPackage m = false := by
  simpa using fun hp => hdead (hi.isPackage_live hp)

end Dead

section Whole

variable {g : Graph} {p : NodeId → Bool} (hc : g.Coherent)
  (hp : ∀ m, g.contains m = true → p m = true)
include hc hp

theorem Coherent.keep_properties (j : NodeId) : (g.propertiesOf j).keep p = g.propertiesOf j := by
  refine Table.keep_eq_self fun ⟨q, vs⟩ he => ?_
  have hfind := (Table.mem_entries_iff (hc.nodup_keys j)).1 he
  refine ⟨hc.ne_nil j q vs hfind, fun v hv => hp v (hc.value_live j q v ?_)⟩
  rwa [values_eq, Table.values_eq_of_find? hfind]

theorem Coherent.filter_usages : (g.usages.filter fun u => p u.user && p u.target) = g.usages :=
  List.filter_eq_self.2 fun u hu => by
    simp [hp _ (hc.toMirrored.user_live hu), hp _ (hc.target_live u hu)]

theorem Coherent.filter_instancesOf (c : NodeId) : (g.instancesOf c).filter p = g.instancesOf c :=
  List.filter_eq_self.2 fun m hm => hp m (contains_of_classifier? ((hc.instance_iff c m).1 hm).1)

omit hc in
theorem Tabled.filter_elementsNamed (ht : g.Tabled) (name : String) :
    (g.elementsNamed name).filter p = g.elementsNamed name :=
  List.filter_eq_self.2 fun m hm => hp m (title?_live (ht.named name m hm))

end Whole

/-- The nodes of `g₀` are as they were, and so is all that stands between them. -/
structure Retains (g₀ g : Graph) : Prop where
  bare : ∀ m, g₀.contains m = true → (g.node? m).map Node.bare = (g₀.node? m).map Node.bare
  stamps : ∀ m, g₀.contains m = true → g.stamp? m = g₀.stamp? m
  owned : ∀ o, g₀.contains o = true → g.ownedBy o = g₀.ownedBy o
  package : ∀ m, g₀.contains m = true → g.isPackage m = g₀.isPackage m
  excerpt : g.excerpt g₀.contains = g₀.excerpt g₀.contains
  packageClassifier : g.packageClassifier = g₀.packageClassifier

namespace Retains

variable {K : NodeId → Prop} {g₀ g : Graph} (hr : Retains g₀ g) (h₀ : g₀.Regular K)
  (h : g.Regular K) (hall : ∀ m, g.contains m = true → g₀.contains m = true)
include hr h₀ h hall

theorem node? (m : NodeId) : g.node? m = g₀.node? m := by
  by_cases hm : g₀.contains m = true
  · have hprops : g.propertiesOf m = g₀.propertiesOf m := by
      have he := congrFun (congrArg Excerpt.properties hr.excerpt) m
      simpa only [Graph.excerpt, hm, if_true, h.toCoherent.keep_properties hall,
        h₀.toCoherent.keep_properties fun _ h => h] using he
    have hbare := hr.bare m hm
    have hstamp := hr.stamps m hm
    obtain ⟨n₀, hn₀⟩ := contains_iff.1 hm
    obtain ⟨n, hn⟩ := contains_iff.1 ((contains_of_bare hbare).trans hm)
    simp only [hn, hn₀, Option.map_some, Option.some.injEq, Node.bare, Node.mk.injEq, stamp?,
      propertiesOf] at hbare hstamp hprops ⊢
    obtain ⟨hname, hpath, hclass, hlife, hspan, -⟩ := hbare
    cases n
    cases n₀
    simp_all
  · have hm' : g.contains m ≠ true := fun h => hm (hall m h)
    simp only [contains, Option.isSome_iff_ne_none, ne_eq, not_not] at hm hm'
    rw [hm, hm']

theorem unchanged (hpersistent : ∀ s, g.persistentNodes s = g₀.persistentNodes s)
    (hsources : g.sources = g₀.sources) : Unchanged g₀ g := by
  have hself : ∀ i, g₀.contains i = true → g₀.contains i = true := fun _ h => h
  have hnode := hr.node? h₀ h hall
  have hc₀ := h₀.toCoherent
  have hc := h.toCoherent
  refine ⟨hnode, ?_, fun path => ?_, fun name => ?_, fun c => ?_, hpersistent,
    hsources, fun o => ?_, fun m => ?_, ?_, hr.packageClassifier⟩
  · have hu := congrArg Excerpt.usages hr.excerpt
    simpa only [Graph.excerpt, hc.filter_usages hall, hc₀.filter_usages hself] using hu
  · ext m
    rw [hc.lookup_iff, hc₀.lookup_iff, path?, hnode, path?]
  · have hn := congrFun (congrArg Excerpt.named hr.excerpt) name
    simpa only [Graph.excerpt, h.toTabled.filter_elementsNamed hall,
      h₀.toTabled.filter_elementsNamed hself] using hn
  · by_cases hlive : g₀.contains c = true
    · have hi := congrFun (congrArg Excerpt.instances hr.excerpt) c
      simpa only [Graph.excerpt, hlive, if_true, hc.filter_instancesOf hall,
        hc₀.filter_instancesOf hself] using hi
    · rw [hc.toIndexed.instancesOf_dead fun h => hlive (hall c h),
        hc₀.toIndexed.instancesOf_dead hlive]
  · by_cases hlive : g₀.contains o = true
    · exact hr.owned o hlive
    · rw [hc.toIndexed.ownedBy_dead fun h => hlive (hall o h), hc₀.toIndexed.ownedBy_dead hlive]
  · by_cases hlive : g₀.contains m = true
    · exact hr.package m hlive
    · rw [hc.toIndexed.isPackage_dead fun h => hlive (hall m h), hc₀.toIndexed.isPackage_dead hlive]
  · rw [h.backReferences, h₀.backReferences]

end Retains

namespace Drafted

variable {K : NodeId → Prop} {s : SourceId} {g₀ g : Graph}

theorem contains_of_nil (hd : Drafted K s g₀ g) (hnone : g.persistentNodes s = []) {m : NodeId}
    (hm : g.contains m = true) : g₀.contains m = true := by
  by_contra hnew
  have hgoes := hd.fleeting m hm (by simpa using hnew)
  rw [hnone] at hgoes
  -- a package that is left holds something, and that would be new as well
  clear hm hnew
  induction hgoes with
  | base hb =>
    obtain ⟨r, hr, -⟩ := hb
    simp at hr
  | @package P hl _ ih =>
    obtain ⟨c, hc⟩ := List.exists_mem_of_ne_nil _ (hd.filled P hl)
    exact ih c hc

theorem unchanged (hd : Drafted K s g₀ g) (hnone : g.persistentNodes s = []) :
    Unchanged g₀ g := by
  have hnone₀ : g₀.persistentNodes s = [] := List.eq_nil_iff_forall_not_mem.2 fun m hm =>
    hd.unused m (sourceOf?_persistent ((hd.base.persistent_iff s m).1 hm))
  have hretains : Retains g₀ g := ⟨hd.grows.bare, hd.grows.stamps, hd.grows.owned, hd.grows.package,
    hd.grows.excerpt _ fun _ h => h, hd.grows.packageClassifier⟩
  refine hretains.unchanged hd.base.toRegular hd.regular (fun m => hd.contains_of_nil hnone)
    (fun t => ?_) ?_
  · by_cases hts : t = s
    · rw [hts, hnone, hnone₀]
    · exact hd.others t hts
  · have hno {h : Graph} (ht : h.Tabled) (hnil : h.persistentNodes s = []) :
        h.sources.filter (· ≠ s) = h.sources := List.filter_eq_self.2 fun t ht' => by
      rw [ht.mem_sources_iff] at ht'
      simpa using fun hts : t = s => ht' (hts ▸ hnil)
    rw [← hno hd.regular.toTabled hnone, hd.sources, hno hd.base.toTabled hnone₀]

end Drafted

end Graph

namespace Compiler

variable {K : NodeId → Prop} {c c₀ : Compiler} {id : SourceId}

def Parses (c₀ c : Compiler) (id : SourceId) : Prop :=
  ∃ a c₁ done rest, approach c₀ = .ok (.ok a, c₁) ∧ a.unparsed = done ++ id :: rest ∧
    (done.forM parseSource : Compiling Unit) c₁ = .ok (.ok (), c)

theorem Parses.sane (h : Parses c₀ c id) (hs : c₀.Ready K) (hK : CoversMetamodel K) :
    c.Sane K ∧ ∃ unit, c.sources.find? id = some unit ∧ unit.state = .unregistered := by
  obtain ⟨a, c₁, done, rest, happroach, hsplit, hdone⟩ := h
  obtain ⟨retry, c₂, c₃, hstages, -, hunparsed⟩ := (approach_runs hs hK).result happroach
  have hs₁ := hstages.replaced.sane
  rw [hunparsed] at hsplit
  have hnodup := hs₁.nodup_inState .unregistered
  have hunit {s : SourceId} (hmem : s ∈ done ++ id :: rest) :
      ∃ unit, c₁.sources.find? s = some unit ∧ unit.state = .unregistered :=
    hs₁.mem_inState.1 (hsplit ▸ hmem)
  rw [hsplit, List.nodup_append] at hnodup
  have hparsed := (parseSources_ensures hs₁ hK hnodup.1 fun s hmem =>
    hunit (List.mem_append_left _ hmem)).result hdone
  refine ⟨hparsed.sane, ?_⟩
  rw [hparsed.units id fun hmem => hnodup.2.2 id hmem id List.mem_cons_self rfl]
  exact hunit (by simp)

structure Retracted (id : SourceId) (unit : SourceUnit) (e : CompileError) (c c' : Compiler) :
    Prop where
  graph : Unchanged c.graph c'.graph
  rest : c' = { c with workspace := { c.workspace with graph := c'.graph }, sources := c'.sources }
  unit : c'.sources.find? id = some { unit with state := .unregistered, diagnostics := [e] }
  others : ∀ s, s ≠ id → c'.sources.find? s = c.sources.find? s

theorem parseSource_retracts (hs : c.Sane K) (hK : CoversMetamodel K)
    {unit : SourceUnit} (hu : c.sources.find? id = some unit) (hst : unit.state = .unregistered)
    {e : CompileError} {d : Draft}
    (hdraft : unit.content.draft ⟨id, c.factories⟩ ⟨c.graph, []⟩ = .ok (.error e, d)) :
    Ensures (parseSource id) c (fun _ c' => e.blame = .user ∧ Retracted id unit e c c')
      fun e' c' => e' = e ∧ e.blame ≠ .user ∧ Retracted id unit e c c' := by
  have hrun : runDraft id unit.content c = .ok (.ok (.error e, d.importGroups),
      { c with workspace := { c.workspace with graph := d.graph } }) := by
    rw [runDraft_eq, hdraft]
    rfl
  have hd : Drafted K id c.graph d.graph := by
    obtain ⟨g, hc, hd, -⟩ := (runDraft_ensures hs hK (hs.contents id unit hu)
      (hs.blank id unit hu hst) (E := fun _ _ => True)).result hrun
    rwa [show d.graph = g from congrArg Compiler.graph hc]
  -- what is done when the graph is as before
  have hrest {g : Graph} (hg : Unchanged c.graph g) : Ensures (do
      setState id .unregistered
      setDiagnostics id [e]
      if e.blame ≠ .user then throw e)
      { c with workspace := { c.workspace with graph := g } }
      (fun _ c' => e.blame = .user ∧ Retracted id unit e c c')
      fun (e' : CompileError) c' => e' = e ∧ e.blame ≠ .user ∧ Retracted id unit e c c' := by
    have hretracted : Retracted id unit e c { c with
        workspace := { c.workspace with graph := g }
        sources := (c.sources.modify id fun unit => { unit with state := .unregistered }).modify id
          fun unit => { unit with diagnostics := [e] } } :=
      ⟨hg, rfl, by simp [Catalog.find?_modify, hu],
        fun s hne => by simp [Catalog.find?_modify, hne]⟩
    refine ensures_modify_bind (ensures_modify_bind ?_)
    by_cases hblame : e.blame = .user
    · rw [if_neg (by simpa using hblame)]
      exact ensures_pure ⟨hblame, hretracted⟩
    · rw [if_pos hblame]
      exact ensures_throw ⟨rfl, hblame, hretracted⟩
  refine ensures_get_bind ?_
  rw [hu]
  refine ensures_bind (.inl ⟨_, _, hrun, ?_⟩)
  refine ensures_get_bind ?_
  dsimp only
  split
  · unfold onGraph onWorkspace Work.onGraph
    refine ensures_bind (ensures_discard (ensures_within (ensures_within
      ((removeNodes_ensures hd.regular.toCoherent hd.regular.toHoused hd.removable).mono
        (fun _ g h => ?_) fun _ _ h => h.elim))))
    obtain ⟨order, pruned, -, ho, hk, hc⟩ := h
    obtain ⟨hd', hnone⟩ := hd.discard ho hk hc
    exact hrest (hd'.unchanged hnone)
  · rename_i hempty
    exact hrest (hd.unchanged (by simpa [Compiler.graph] using hempty))

/-- However far the draft of a source has come when it fails, parsing takes back all of it and ends
without a breach: the compiler is as before, but that the source is unregistered and has the error
as its diagnostic. The error goes on if it is not the user's. -/
theorem parseSource_leaves_no_trace {P : Call → Answer → Prop} (hc₀ : Reached P c₀)
    (hc : Parses c₀ c id) {unit : SourceUnit} (hu : c.sources.find? id = some unit)
    {e : CompileError} {d : Draft}
    (hdraft : unit.content.draft ⟨id, c.factories⟩ ⟨c.graph, []⟩ = .ok (.error e, d)) :
    ∃ c', parseSource id c = .ok (if e.blame = .user then .ok () else .error e, c') ∧
      Retracted id unit e c c' := by
  obtain ⟨hs, unit', hu', hst⟩ := hc.sane hc₀.ready_of_any fun _ _ => trivial
  obtain rfl := Option.some.inj (hu.symm.trans hu')
  rcases parseSource_retracts hs (fun _ _ => trivial) hu hst hdraft with
    ⟨_, c', hrun, hblame, h⟩ | ⟨_, c', hrun, rfl, hblame, h⟩
  · exact ⟨c', by rw [hrun, if_pos hblame], h⟩
  · exact ⟨c', by rw [hrun, if_neg hblame], h⟩

def broken : List Call :=
  [.create "a" "Class p::A { n: String; }", .compile, .create "b" "Class p::B extends A { n: A; }",
    .create "f"
      "import p::*;\nClass p::q::C extends A { n: Lost; }\nfunction p::q::r::f(x: A): C { y.n }"]

theorem broken_fails : ∃ c₀ c unit e d, session broken = some c₀ ∧ Parses c₀ c "f" ∧
    c.sources.find? "f" = some unit ∧
    unit.content.draft ⟨"f", c.factories⟩ ⟨c.graph, []⟩ = .ok (.error e, d) ∧ e.blame = .user ∧
    c.graph.ids.length < d.graph.ids.length := by
  have heval : ((session broken).any fun c₀ => (approach c₀).toOption.any fun p =>
      p.1.toOption.any (fun a => a.unparsed = ["b"] ++ "f" :: []) &&
        ((["b"].forM parseSource : Compiling Unit) p.2).toOption.any fun q =>
          q.1.toOption.isSome && (q.2.sources.find? "f").any fun unit =>
            (unit.content.draft ⟨"f", q.2.factories⟩ ⟨q.2.graph, []⟩).toOption.any fun r =>
              (match r.1 with
                | .ok _ => false
                | .error e => e.blame = .user) &&
                decide (q.2.graph.ids.length < r.2.graph.ids.length)) = true := by
    rw [session, new, spelledOut.2]
    decide +kernel
  obtain ⟨c₀, hsession, heval⟩ := (Option.any_eq_true _ _).1 heval
  obtain ⟨⟨answer, c₁⟩, happroach, heval⟩ := (Option.any_eq_true _ _).1 heval
  rw [Bool.and_eq_true] at heval
  obtain ⟨a, hanswer, hunparsed⟩ := (Option.any_eq_true _ _).1 heval.1
  obtain ⟨⟨r, c⟩, hparse, heval⟩ := (Option.any_eq_true _ _).1 heval.2
  rw [Bool.and_eq_true] at heval
  obtain ⟨u, hr⟩ := Option.isSome_iff_exists.1 heval.1
  obtain ⟨unit, hunit, heval⟩ := (Option.any_eq_true _ _).1 heval.2
  obtain ⟨⟨r', d⟩, hdraft, heval⟩ := (Option.any_eq_true _ _).1 heval
  obtain rfl := eq_ok_of_toOption hanswer
  obtain rfl := eq_ok_of_toOption hr
  cases r' with
  | ok _ => simp at heval
  | error e =>
    simp only [Bool.and_eq_true, decide_eq_true_eq] at hunparsed heval
    have hparses : Parses c₀ c "f" :=
      ⟨a, c₁, ["b"], [], eq_ok_of_toOption happroach, hunparsed, eq_ok_of_toOption hparse⟩
    exact ⟨c₀, c, unit, e, d, hsession, hparses, hunit, eq_ok_of_toOption hdraft, heval.1, heval.2⟩

theorem broken_leaves_no_trace : ∃ c₀ c unit e d c', Reached (fun _ _ => True) c₀ ∧
    Parses c₀ c "f" ∧ c.sources.find? "f" = some unit ∧
    unit.content.draft ⟨"f", c.factories⟩ ⟨c.graph, []⟩ = .ok (.error e, d) ∧
    c.graph.ids.length < d.graph.ids.length ∧ parseSource "f" c = .ok (.ok (), c') ∧
    Retracted "f" unit e c c' := by
  obtain ⟨c₀, c, unit, e, d, hsession, hparses, hunit, hdraft, hblame, hmore⟩ := broken_fails
  have hreached : Reached (fun _ _ => True) c₀ :=
    (Reached.of_session hsession).mono fun _ _ _ => trivial
  obtain ⟨c', hrun, h⟩ := parseSource_leaves_no_trace hreached hparses hunit hdraft
  rw [if_pos hblame] at hrun
  exact ⟨c₀, c, unit, e, d, c', hreached, hparses, hunit, hdraft, hmore, hrun, h⟩

end Compiler

end ModelCompiler
