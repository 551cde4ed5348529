import ModelCompiler.Proofs.Compiling.Dependents
import ModelCompiler.Proofs.Lineage.Derived
import ModelCompiler.Proofs.Snapshot.Keys

/-!
Dependents as a closure. One source affects another if the walker of one of its elements lists a
node of the other.
-/
open ModelCompiler.Action ModelCompiler.Graph ModelCompiler.Lineage

namespace ModelCompiler

def Walker.listed (g : Graph) (id : NodeId) : Walker → List NodeId
  | .users => Handler.users g id
  | .class_ => Handler.Class.walk g id
  | .recipe r => r.targets.filterMap g.lookupText

theorem Walker.run_ensures (walker : Walker) (id : NodeId) (w : Workspace) {ε : Type}
    {E : ε → Workspace → Prop} : Ensures (walker.run id : Work ε _) w
      (fun us w' => us = walker.listed w.graph id ∧ w'.graph = w.graph ∧ w'.lineage = w.lineage)
      E := by
  cases walker with
  | users | class_ => exact ensures_bind (Work.graph_ensures (ensures_pure ⟨rfl, rfl, rfl⟩))
  | recipe r =>
    refine ensures_bind (Work.graph_ensures ?_)
    split
    · exact ensures_bind (ensures_bind (Work.graph_ensures (ensures_modify
        (ensures_pure ⟨rfl, rfl, rfl⟩))))
    · exact ensures_pure ⟨rfl, rfl, rfl⟩

namespace Compiler

variable {claims claims' : Claims SourceId} {origin : Dispatch.Origin}
  {granted reached sources : List SourceId}

def walkerOf (c : Compiler) (id : NodeId) : Except CompileError (Walker × Dispatch.Origin) :=
  ((c.dispatch.walker c.graph id).run.run c.workspace.lineage).1

def Lists (c : Compiler) (id u : NodeId) : Prop :=
  ∃ walker origin us w, c.walkerOf id = .ok (walker, origin) ∧
    (walker.run id : Work CompileError _) c.workspace = .ok (.ok us, w) ∧ u ∈ us

def Affects (c : Compiler) (s t : SourceId) : Prop :=
  ∃ id ∈ c.graph.persistentNodes s, ∃ u, c.Lists id u ∧ c.graph.sourceOf? u = some t

variable {c d e : Compiler} {id : NodeId}

theorem lists_iff {walker : Walker} (h : c.walkerOf id = .ok (walker, origin)) {u : NodeId} :
    c.Lists id u ↔ u ∈ walker.listed c.graph id := by
  have hrun := walker.run_ensures id c.workspace (ε := CompileError) (E := fun _ _ => False)
  constructor
  · rintro ⟨walker', origin', us, w, h', hus, hu⟩
    obtain ⟨rfl, -⟩ := ok_mk_inj (h.symm.trans h')
    exact (hrun.result hus).1 ▸ hu
  · intro hu
    rcases hrun with ⟨us, w, hus, rfl, -⟩ | ⟨_, _, _, hf⟩
    · exact ⟨walker, origin, _, w, h, hus, hu⟩
    · exact hf.elim

structure Asked (c d : Compiler) : Prop where
  graph : d.graph = c.graph
  dispatch : d.dispatch = c.dispatch
  lineage : Enriched c.graph c.workspace.lineage d.workspace.lineage

theorem Asked.refl (c : Compiler) : Asked c c :=
  ⟨rfl, rfl, .refl _ _⟩

theorem Asked.progress (h : Asked c d) (meter : Progress) (lines : List String) :
    Asked c { d with meter := meter, progress := lines } :=
  ⟨h.graph, h.dispatch, h.lineage⟩

section Round

theorem walkNode_reaches {walker : Walker}
    (h : c.walkerOf id = .ok (walker, origin)) (hd : Asked c d)
    {E : CompileError → Compiler → Prop} :
    Ensures (walkNode id) d (fun r e => r = .ok ((walker.listed c.graph id).filterMap
      c.graph.sourceOf?) ∧ Asked c e) E := by
  have hask : Ensures (ask fun d g => d.walker g id) d
      (fun r e => r = (walker, origin) ∧ Asked c e) fun _ _ => False := by
    refine ensures_get_bind (onWorkspace_ensures (Work.ask_ensures ?_))
    have heq : d.dispatch.walker d.workspace.graph id = c.dispatch.walker c.graph id := by
      rw [hd.dispatch]
      exact congrArg (c.dispatch.walker · id) hd.graph
    show Gives (d.dispatch.walker d.workspace.graph id) _ _ _
    rw [heq]
    exact (Dispatch.walker_repeats h hd.lineage).imp
      (fun r m hr => ⟨hr.1, hd.graph, hd.dispatch, hr.2⟩)
  refine ensures_bind (ensures_attempt (hask.mono (fun r e hr => ?_) fun _ _ h => h.elim))
  obtain ⟨rfl, he⟩ := hr
  refine ensures_bind (onWorkspace_ensures ((walker.run_ensures id e.workspace
    (E := fun _ _ => False)).mono (fun us w hw => ?_) fun _ _ h => h.elim))
  obtain ⟨rfl, hgraph, hlineage⟩ := hw
  have hg : e.workspace.graph = c.graph := he.graph
  refine ensures_modify_bind (ensures_get_bind (ensures_pure ⟨?_, ?_⟩))
  · simp only [Compiler.graph, hgraph, hg]
  · exact ⟨hgraph.trans hg, he.dispatch, hlineage ▸ he.lineage⟩

theorem walkRound_reaches {frontier : List NodeId} (h : ∀ id ∈ frontier, ∃ r, c.walkerOf id = .ok r)
    (hd : Asked c d) : ∃ reached e, walkRound frontier d = .ok (.ok reached, e) ∧ Asked c e ∧
      ∀ t, t ∈ reached ↔ ∃ id ∈ frontier, ∃ u, c.Lists id u ∧ c.graph.sourceOf? u = some t := by
  have hround : Ensures (walkRound frontier) d (fun reached e => Asked c e ∧
      ∀ t, t ∈ reached ↔ ∃ id ∈ frontier, ∃ u, c.Lists id u ∧ c.graph.sourceOf? u = some t)
      fun _ _ => False := by
    refine ensures_get_bind (ensures_modify_bind ?_)
    refine ensures_bind ((Pool.ensures_mapM (I := Asked c) (E := fun _ _ => False)
      (R := fun id r => ∃ walker origin, c.walkerOf id = .ok (walker, origin) ∧
        r = .ok ((walker.listed c.graph id).filterMap c.graph.sourceOf?)) (hd.progress _ _)
      fun id hid e he => ?_).imp fun rs e hrs => ?_)
    · obtain ⟨⟨walker, origin⟩, hw⟩ := h id hid
      exact (walkNode_reaches hw he).imp (fun r f hr => ⟨⟨walker, origin, hw, hr.1⟩, hr.2⟩)
    · obtain ⟨hrs, he⟩ := hrs
      obtain ⟨hfwd, hbwd⟩ := exists_mem_of_forall₂ hrs
      obtain ⟨found, hfound, hall⟩ | ⟨err, -, hmem⟩ := mapM_id_cases rs
      · rw [hfound]
        obtain ⟨hfwd', hbwd'⟩ := exists_mem_of_forall₂ hall
        refine ensures_get_bind (ensures_pure ⟨he, fun t => ?_⟩)
        rw [(e.workers.perm_arrange found.flatten).mem_iff, List.mem_flatten]
        constructor
        · rintro ⟨ts, hts, ht⟩
          obtain ⟨r, hr, rfl⟩ := hbwd' ts hts
          obtain ⟨id, hid, walker, origin, hw, hts⟩ := hbwd _ hr
          rw [Except.ok.inj hts] at ht
          obtain ⟨u, hu, hut⟩ := List.mem_filterMap.1 ht
          exact ⟨id, hid, u, (lists_iff hw).2 hu, hut⟩
        · rintro ⟨id, hid, u, hu, hut⟩
          obtain ⟨r, hr, walker, origin, hw, rfl⟩ := hfwd id hid
          obtain ⟨ts, hts, hr'⟩ := hfwd' _ hr
          refine ⟨ts, hts, ?_⟩
          rw [← Except.ok.inj hr']
          exact List.mem_filterMap.2 ⟨u, (lists_iff hw).1 hu, hut⟩
      · obtain ⟨id, -, walker, origin, -, herr⟩ := hbwd _ hmem
        cases herr
  rcases hround with ⟨reached, e, hrun, hq⟩ | ⟨_, _, _, hf⟩
  · exact ⟨reached, e, hrun, hq⟩
  · exact hf.elim

end Round

section Rounds

abbrev nodesOf (c : Compiler) (sources : List SourceId) : List NodeId :=
  (c.items sources).map (·.2)

theorem walkRounds_succ (fuel : Nat) (claims : Claims SourceId) {frontier : List NodeId}
    (hne : frontier ≠ []) (hrun : walkRound frontier d = .ok (.ok reached, e)) :
    walkRounds (fuel + 1) claims frontier d = (do
      let rest ← walkRounds fuel (claims.claimAll reached).2
        (e.nodesOf (Text.sort (claims.claimAll reached).1))
      return Text.sort (claims.claimAll reached).1 ++ rest : Compiling _) e := by
  conv_lhs => unfold walkRounds
  rw [if_neg (by simpa using hne), run_bind, hrun]
  rfl

theorem walkRounds_nil (fuel : Nat) (claims : Claims SourceId) :
    walkRounds fuel claims [] d = .ok (.ok [], d) := by
  cases fuel <;> rfl

theorem mem_nodesOf (hd : Asked c d) :
    id ∈ d.nodesOf sources ↔ ∃ s ∈ sources, id ∈ c.graph.persistentNodes s := by
  rw [nodesOf, mem_items, hd.graph]

structure Pursued (c : Compiler) (claims : Claims SourceId) (sources found : List SourceId) :
    Prop where
  nodup : found.Nodup
  new : ∀ t ∈ found, t ∉ claims.taken
  affected : ∀ t ∈ found, ∃ s ∈ sources, Relation.TransGen c.Affects s t
  closed : ∀ s ∈ sources ++ found, ∀ t, c.Affects s t → t ∈ claims.taken ∨ t ∈ found

theorem Pursued.nil (hd : Asked c d)
    (h : d.nodesOf sources = []) : Pursued c claims sources [] := by
  refine ⟨.nil, by simp, by simp, ?_⟩
  rintro s hs t ⟨id, hid, -⟩
  have : id ∈ d.nodesOf sources := (mem_nodesOf hd).2 ⟨s, by simpa using hs, hid⟩
  simp [h] at this

theorem Pursued.round {rest : List SourceId}
    (hreached : ∀ t, t ∈ reached ↔ ∃ s ∈ sources, c.Affects s t)
    (hclaim : claims.claimAll reached = (granted, claims'))
    (h : Pursued c claims' (Text.sort granted) rest) :
    Pursued c claims sources (Text.sort granted ++ rest) := by
  have hmem {s : SourceId} := Claims.mem_claimAll reached claims (k := s)
  have hnodup := Claims.nodup_claimAll reached claims
  simp only [hclaim] at hmem hnodup
  have hgranted {t : SourceId} (ht : t ∈ Text.sort granted) : t ∈ reached ∧ t ∉ claims.taken :=
    hmem.1.1 (mem_sort.1 ht)
  have htaken {t : SourceId} (ht : t ∈ claims'.taken) :
      t ∈ claims.taken ∨ t ∈ Text.sort granted ++ rest := by
    by_cases hc : t ∈ claims.taken
    · exact .inl hc
    · have : t ∈ granted := hmem.1.2 ⟨(hmem.2.1 ht).resolve_left hc, hc⟩
      exact .inr (List.mem_append_left _ (mem_sort.2 this))
  constructor
  case nodup =>
    refine List.Nodup.append ((Order.sort_perm _ granted).nodup_iff.2 hnodup) h.nodup ?_
    exact fun t ht ht' => h.new t ht' (hmem.2.2 (.inr (hgranted ht).1))
  case new =>
    intro t ht
    rcases List.mem_append.1 ht with ht | ht
    · exact (hgranted ht).2
    · exact fun hc => h.new t ht (hmem.2.2 (.inl hc))
  case affected =>
    intro t ht
    rcases List.mem_append.1 ht with ht | ht
    · obtain ⟨s, hs, hst⟩ := (hreached t).1 (hgranted ht).1
      exact ⟨s, hs, .single hst⟩
    · obtain ⟨s', hs', hst⟩ := h.affected t ht
      obtain ⟨s, hs, hss'⟩ := (hreached s').1 (hgranted hs').1
      exact ⟨s, hs, hst.head hss'⟩
  case closed =>
    intro s hs t hst
    rcases List.mem_append.1 hs with hs | hs
    · exact htaken (hmem.2.2 (.inr ((hreached t).2 ⟨s, hs, hst⟩)))
    · rcases h.closed s hs t hst with ht | ht
      · exact htaken ht
      · exact .inr (List.mem_append_right _ ht)

theorem length_unclaimed_claimAll_lt (hd : Asked c d)
    (hclaim : claims.claimAll reached = (granted, claims'))
    (h : d.nodesOf (Text.sort granted) ≠ []) :
    (unclaimed c.graph claims').length < (unclaimed c.graph claims).length := by
  have hmem {s : SourceId} := Claims.mem_claimAll reached claims (k := s)
  simp only [hclaim] at hmem
  obtain ⟨id, hid⟩ := List.exists_mem_of_ne_nil _ h
  obtain ⟨s, hs, hid⟩ := (mem_nodesOf hd).1 hid
  obtain ⟨hin, hnew⟩ := hmem.1.1 (mem_sort.1 hs)
  exact length_unclaimed_lt (fun t ht => hmem.2.2 (.inl ht)) (mem_sources_of_persistent hid) hnew
    (hmem.2.2 (.inr hin))

/-- The rounds end by themselves, and all that is affected by the sources has been claimed then. -/
theorem walkRounds_pursues {seeds : List SourceId} (hseeds : ∀ s,
    (∃ seed ∈ seeds, Relation.ReflTransGen c.Affects seed s) →
      ∀ id ∈ c.graph.persistentNodes s, ∃ r, c.walkerOf id = .ok r)
    (fuel : Nat) (hsources : ∀ s ∈ sources, ∃ seed ∈ seeds, Relation.ReflTransGen c.Affects seed s)
    (hd : Asked c d) (hfuel : d.nodesOf sources = [] ∨ (unclaimed c.graph claims).length < fuel) :
    ∃ found e, (∀ more, walkRounds (fuel + more) claims (d.nodesOf sources) d =
      .ok (.ok found, e)) ∧ Asked c e ∧ Pursued c claims sources found := by
  induction fuel generalizing claims sources d with
  | zero =>
    have hempty : d.nodesOf sources = [] := hfuel.resolve_right (by omega)
    exact ⟨[], d, fun more => hempty ▸ walkRounds_nil _ _, hd, .nil hd hempty⟩
  | succ fuel ih =>
    by_cases hempty : d.nodesOf sources = []
    · exact ⟨[], d, fun more => hempty ▸ walkRounds_nil _ _, hd, .nil hd hempty⟩
    have hlook (id : NodeId) (hid : id ∈ d.nodesOf sources) : ∃ r, c.walkerOf id = .ok r := by
      obtain ⟨s, hs, hid⟩ := (mem_nodesOf hd).1 hid
      exact hseeds s (hsources s hs) id hid
    obtain ⟨reached, d₁, hrun, hd₁, hreached⟩ := walkRound_reaches hlook hd
    have haffects (t : SourceId) : t ∈ reached ↔ ∃ s ∈ sources, c.Affects s t := by
      rw [hreached]
      constructor
      · rintro ⟨id, hid, u, hu, hut⟩
        obtain ⟨s, hs, hid⟩ := (mem_nodesOf hd).1 hid
        exact ⟨s, hs, id, hid, u, hu, hut⟩
      · rintro ⟨s, hs, id, hid, u, hu, hut⟩
        exact ⟨id, (mem_nodesOf hd).2 ⟨s, hs, hid⟩, u, hu, hut⟩
    obtain ⟨⟨granted, claims'⟩, hclaim⟩ : ∃ claimed, claims.claimAll reached = claimed := ⟨_, rfl⟩
    have hnext (t : SourceId) (ht : t ∈ Text.sort granted) :
        ∃ seed ∈ seeds, Relation.ReflTransGen c.Affects seed t := by
      have hmem := (Claims.mem_claimAll reached claims (k := t)).1
      rw [hclaim] at hmem
      obtain ⟨s, hs, hst⟩ := (haffects t).1 (hmem.1 (mem_sort.1 ht)).1
      obtain ⟨seed, hseed, hreach⟩ := hsources s hs
      exact ⟨seed, hseed, hreach.tail hst⟩
    have hmeasure : d₁.nodesOf (Text.sort granted) = [] ∨
        (unclaimed c.graph claims').length < fuel := by
      refine or_iff_not_imp_left.2 fun hne => ?_
      have := length_unclaimed_claimAll_lt hd₁ hclaim hne
      have := hfuel.resolve_left hempty
      omega
    obtain ⟨rest, d₂, hrest, hd₂, hp⟩ := ih hnext hd₁ hmeasure
    refine ⟨Text.sort granted ++ rest, d₂, fun more => ?_, hd₂, hp.round haffects hclaim⟩
    rw [Nat.add_right_comm, walkRounds_succ (fuel + more) claims hempty hrun, hclaim,
      run_bind, hrest]
    rfl

def dependentsWithin (rounds : Nat) (seeds : List SourceId) : Compiling (List SourceId) := do
  let c ← get
  let (_, claims) := Claims.empty.claimAll seeds
  let found ← walkRounds rounds claims ((c.items seeds).map (·.2))
  return Text.sort found

theorem dependents_eq (seeds : List SourceId) (c : Compiler) :
    dependents seeds c = dependentsWithin (c.graph.sources.length + 2) seeds c := by
  rw [dependents, dependentsWithin, run_bind, run_bind]
  rfl

theorem dependentsWithin_exact
    (hseeds : ∀ s, (∃ seed ∈ seeds, Relation.ReflTransGen c.Affects seed s) →
      ∀ id ∈ c.graph.persistentNodes s, ∃ r, c.walkerOf id = .ok r) :
    ∃ found e, Asked c e ∧ found.Pairwise (· < ·) ∧
      (∀ t, t ∈ found ↔ t ∉ seeds ∧ ∃ s ∈ seeds, Relation.TransGen c.Affects s t) ∧
      ∀ rounds, c.graph.sources.length + 2 ≤ rounds →
        dependentsWithin rounds seeds c = .ok (.ok found, e) := by
  have hmem {s : SourceId} := (Claims.mem_claimAll seeds Claims.empty (k := s)).2
  simp only [Claims.empty, List.not_mem_nil, false_or] at hmem
  have hfuel : (unclaimed c.graph (Claims.claimAll ⟨[]⟩ seeds).2).length <
      c.graph.sources.length + 2 :=
    (List.length_filter_le _ _).trans_lt (by omega)
  obtain ⟨found, e, hrun, he, hp⟩ := walkRounds_pursues hseeds _
    (fun s hs => ⟨s, hs, .refl⟩) (Asked.refl c) (.inr hfuel)
  refine ⟨Text.sort found, e, he, Text.pairwise_lt_sort hp.nodup, fun t => ?_,
    fun rounds hrounds => ?_⟩
  · rw [mem_sort]
    refine ⟨fun ht => ⟨fun h => hp.new t ht (hmem.2 h), hp.affected t ht⟩, ?_⟩
    rintro ⟨hnew, s, hs, hst⟩
    have hclosed : ∀ t, Relation.TransGen c.Affects s t → t ∈ seeds ++ found := by
      intro t hst
      -- along the chain from `s`: what a seed or a found source affects is a seed or found
      induction hst with
      | single h =>
        exact List.mem_append.2 ((hp.closed s (List.mem_append_left _ hs) _ h).imp_left hmem.1)
      | tail _ h ih => exact List.mem_append.2 ((hp.closed _ ih _ h).imp_left hmem.1)
    exact (List.mem_append.1 (hclosed t hst)).resolve_left hnew
  · obtain ⟨more, rfl⟩ := Nat.exists_eq_add_of_le hrounds
    rw [dependentsWithin, run_bind]
    show (walkRounds _ _ _ >>= fun found => pure (Text.sort found) : Compiling _) c = _
    rw [run_bind, show walkRounds _ (Claims.empty.claimAll seeds).2
      ((c.items seeds).map (·.2)) c = _ from hrun more]
    rfl

end Rounds

/-- The dependents of some sources are all others that these affect, directly or not, in ascending
order; they are the same for all workers, in whatever order these take up their work. The walk ends
by itself: with more rounds it finds the same. -/
theorem dependents_exact (c : Compiler) (seeds : List SourceId)
    (hseeds : ∀ s, (∃ seed ∈ seeds, Relation.ReflTransGen c.Affects seed s) →
      ∀ id ∈ c.graph.persistentNodes s, ∃ r, c.walkerOf id = .ok r) :
    ∃ found, found.Pairwise (· < ·) ∧
      (∀ t, t ∈ found ↔ t ∉ seeds ∧ ∃ s ∈ seeds, Relation.TransGen c.Affects s t) ∧
      ∀ pool, ∃ d, dependents seeds { c with pool := pool } = .ok (.ok found, d) ∧
        d.graph = c.graph ∧
        ∀ rounds, c.graph.sources.length + 2 ≤ rounds →
          dependentsWithin rounds seeds { c with pool := pool } = .ok (.ok found, d) := by
  obtain ⟨found, -, -, hsorted, hfound, -⟩ := dependentsWithin_exact hseeds
  refine ⟨found, hsorted, hfound, fun pool => ?_⟩
  obtain ⟨found', d, hd, hsorted', hfound', hrun⟩ := dependentsWithin_exact
    (c := { c with pool := pool }) hseeds
  obtain rfl : found' = found := List.Pairwise.eq_of_mem_iff hsorted' hsorted fun t =>
    (hfound' t).trans (hfound t).symm
  exact ⟨d, (dependents_eq _ _).trans (hrun _ le_rfl), hd.graph, hrun⟩

def circle : Action Graph GraphError Unit := do
  let a ← createPersistent "a" {}
  let b ← createPersistent "b" {}
  let c ← createPersistent "c" {}
  discard (createPersistent "d" {})
  modify fun g => ((g.link b "uses" a).link c "uses" b).link a "uses" c

def bare (g : Graph) : Compiler where
  config := .sequential
  pool := .sequential
  dispatch := {}
  factories := ∅
  visibility := []
  workspace := { graph := g, lineage := ∅, trace := [] }

theorem dependents_exact_in_circle : ∃ g, circle Graph.empty = .ok (.ok (), g) ∧
    (∀ s, (∃ seed ∈ ["a"], Relation.ReflTransGen (bare g).Affects seed s) →
      ∀ id ∈ g.persistentNodes s, ∃ r, (bare g).walkerOf id = .ok r) ∧
    Relation.TransGen (bare g).Affects "a" "c" ∧
    ∀ pool, ∃ d, dependents ["a"] { bare g with pool := pool } = .ok (.ok ["b", "c"], d) := by
  have hcircle : ((circle Graph.empty).toOption.any fun (r, g) => r.isOk &&
      (g.sources.all fun s => (g.persistentNodes s).all fun id => ((bare g).walkerOf id).isOk) &&
      (dependents ["a"] (bare g)).toOption.bind (·.1.toOption) == some ["b", "c"]) = true := by
    decide +kernel
  obtain ⟨⟨_ | ⟨⟩, g⟩, hg, hcheck⟩ := (Option.any_eq_true _ _).1 hcircle
  · cases hcheck
  simp only [Bool.and_eq_true, List.all_eq_true, beq_iff_eq] at hcheck
  obtain ⟨⟨-, hlook⟩, hfound⟩ := hcheck
  have hseeds (s : SourceId) (_ : ∃ seed ∈ ["a"], Relation.ReflTransGen (bare g).Affects seed s)
      (id : NodeId) (hid : id ∈ g.persistentNodes s) : ∃ r, (bare g).walkerOf id = .ok r := by
    have h := hlook s (mem_sources_of_persistent hid) id hid
    cases hr : (bare g).walkerOf id with
    | ok r => exact ⟨r, rfl⟩
    | error e => simp [hr, Except.isOk, Except.toBool] at h
  obtain ⟨found, -, hmem, hrun⟩ := dependents_exact (bare g) ["a"] hseeds
  obtain rfl : found = ["b", "c"] := by
    obtain ⟨d, hd, -⟩ := hrun .sequential
    simpa [show dependents ["a"] (bare g) = .ok (.ok found, d) from hd,
      Except.toOption] using hfound
  refine ⟨g, ?_, hseeds, ?_, fun pool => ?_⟩
  · cases h : circle Graph.empty with
    | ok r => rw [h] at hg; exact congrArg _ (Option.some.inj hg)
    | error e => rw [h] at hg; cases hg
  · obtain ⟨-, s, hs, h⟩ := (hmem "c").1 (by simp)
    exact List.mem_singleton.1 hs ▸ h
  · obtain ⟨d, hd, -⟩ := hrun pool
    exact ⟨d, hd⟩

end Compiler

end ModelCompiler
