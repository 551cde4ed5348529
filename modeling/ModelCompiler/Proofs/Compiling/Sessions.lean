import ModelCompiler.Proofs.Compiling.Preparing

/-!
Sessions. A client stages changes and compiles, again and again; whatever the answers are, the
compiler is ready for the next call.
-/

open ModelCompiler.Action ModelCompiler.Graph ModelCompiler.Workspace ModelCompiler.Handler

namespace ModelCompiler

def Declaration.kind? : Declaration → Option Path
  | .element classifier _ => (Path.parse (String.ofList classifier)).toOption
  | _ => none

/-- Every `Element` line of the text names a classifier of the metamodel. -/
def Grammar.Classified (text : String) : Prop :=
  ∀ l ∈ Grammar.lines text, ∀ kind ∈ (Declaration.read (Text.trim l.text)).kind?,
    (initial.lookup kind).isSome = true

instance (text : String) : Decidable (Grammar.Classified text) :=
  inferInstanceAs (Decidable (∀ l ∈ Grammar.lines text,
    ∀ kind ∈ (Declaration.read (Text.trim l.text)).kind?, (initial.lookup kind).isSome = true))

theorem Content.admissible_any (text : String) :
    Content.Admissible (fun _ => True) (.text text) := by
  intro l _ classifier path _ kind _ g _ _ k _
  trivial

theorem Content.admissible_of_classified {text : String} (h : Grammar.Classified text) :
    Content.Admissible (initial.contains · = true) (.text text) := by
  intro l hl classifier path hdecl kind hkind g hr hi k hk
  have hmem : kind ∈ (Declaration.read (Text.trim l.text)).kind? := by
    simp [hdecl, Declaration.kind?, hkind, Except.toOption]
  obtain ⟨k', hk'⟩ := Option.isSome_iff_exists.1 (h l hl kind hmem)
  obtain rfl := Option.some.inj ((hr.lookup hi hk').symm.trans hk)
  exact (tidy_initial fun _ h => h).lookup_live hk'

namespace Compiler

/-- What a client can ask of a compiler. Staging content and compiling at once is a put followed by
a compile. -/
inductive Call where
  | create (id : SourceId) (text : String)
  | modify (id : SourceId) (text : String)
  | put (id : SourceId) (text : String)
  | delete (id : SourceId)
  | compile

abbrev Answer := Except CompileError (Option CompileReport)

namespace Call

def run : Call → Compiling (Option CompileReport)
  | create id text => do createSource id (.text text); return none
  | modify id text => do modifySource id (.text text); return none
  | put id text => do putSource id (.text text); return none
  | delete id => do deleteSource id; return none
  | compile => do return some (← Compiler.compile)

def text? : Call → Option String
  | create _ text | modify _ text | put _ text => some text
  | delete _ | compile => none

def Succeeds (call : Call) (answer : Answer) : Prop :=
  call = .compile → answer.isOk = true

instance (call : Call) (answer : Answer) : Decidable (call.Succeeds answer) :=
  match call with
  | .compile => decidable_of_iff (answer.isOk = true) ⟨fun h _ => h, fun h => h rfl⟩
  | .create .. | .modify .. | .put .. | .delete .. => .isTrue nofun

def Classified (call : Call) : Prop :=
  ∀ text ∈ call.text?, Grammar.Classified text

instance (call : Call) : Decidable call.Classified :=
  inferInstanceAs (Decidable (∀ text ∈ call.text?, Grammar.Classified text))

end Call

/-- The compilers of the core that a client comes to by calls and answers of a kind, and by
validating sources in between. -/
inductive Reached (P : Call → Answer → Prop) : Compiler → Prop
  | new {config : Config} {schedule : Schedule} {c : Compiler} :
      Compiler.new config Registry.withCore schedule = .ok (.ok c) → Reached P c
  | call {c c' : Compiler} {call : Call} {answer : Answer} : Reached P c →
      call.run c = .ok (answer, c') → P call answer → Reached P c'
  | validate {c c' : Compiler} {id : SourceId} {errors : Except CompileError (List CompileError)} :
      Reached P c → validateSource id c = .ok (errors, c') → Reached P c'

variable {a : Agenda} {P : Call → Answer → Prop} {Q : Call → Prop} {config : Config}
  {content : Content} {calls : List Call}

theorem Reached.mono {Q : Call → Answer → Prop} (hPQ : ∀ call answer, P call answer → Q call answer)
    {c : Compiler} (h : Reached P c) : Reached Q c := by
  induction h with
  | new h => exact .new h
  | call _ hrun hp ih => exact .call ih hrun (hPQ _ _ hp)
  | validate _ hrun ih => exact .validate ih hrun

variable {K : NodeId → Prop} {c c' d : Compiler} {id : SourceId}

section Staging

def content? (c : Compiler) (id : SourceId) : Option Content :=
  (c.sources.find? id).map (·.content)

abbrev Contents := SourceId → Option Content

def prospect (c : Compiler) : Contents := fun id =>
  match c.staged.find? id with
  | some change => change.content?
  | none => c.content? id

/-- A change is staged as a creation exactly if the source is not there. -/
structure StagedFits (c : Compiler) : Prop where
  ordered : c.staged.Sorted
  fits : ∀ id change, c.staged.find? id = some change →
    (c.content? id = none ↔ ∃ content, change = .create content)

theorem contains_eq (c : Compiler) (id : SourceId) :
    c.sources.contains id = (c.content? id).isSome := by
  simp [Catalog.contains, content?]

theorem exists_eq (c : Compiler) (id : SourceId) : c.exists_ id = (c.prospect id).isSome := by
  unfold exists_ prospect
  cases c.staged.find? id with
  | none => exact contains_eq c id
  | some change => cases change <;> rfl

theorem content?_eq_none_iff {change : Change} :
    (c.content? id = none ↔ ∃ content, change = .create content) ↔
      ((∃ unit, c.sources.find? id = some unit) ↔ ∀ content, change ≠ .create content) := by
  have hknown : (∃ unit, c.sources.find? id = some unit) ↔ ¬ c.content? id = none := by
    rw [content?, Option.map_eq_none_iff]
    exact Option.ne_none_iff_exists'.symm
  rw [hknown, ← not_exists, not_iff_not]

theorem Ready.stagedFits (hc : c.Ready K) : c.StagedFits where
  ordered := hc.ordered
  fits id change hch := content?_eq_none_iff.2 (hc.known id change hch)

/-- What a call that is not refused does to the changes staged, for the content it leaves the source
with. -/
inductive StagesContent (c : Compiler) (id : SourceId) : Option Content → Compiler → Prop
  | put {change : Change} : (c.content? id = none ↔ ∃ content, change = .create content) →
      StagesContent c id change.content? { c with staged := c.staged.insert id change }
  | drop : c.content? id = none → StagesContent c id none { c with staged := c.staged.erase id }

variable {content : Content} {new : Option Content} {E : CompileError → Compiler → Prop}

theorem StagesContent.sorted (hs : StagesContent c id new c') (h : c.staged.Sorted) :
    c'.staged.Sorted := by
  cases hs with
  | put _ => exact h.insert _ _
  | drop _ => exact h.erase _

theorem StagesContent.of_find? (hs : StagesContent c id new c') {n : SourceId} {change : Change}
    (hch : c'.staged.find? n = some change) : c.staged.find? n = some change ∨
      n = id ∧ (c.content? n = none ↔ ∃ content, change = .create content) ∧
        change.content? = new := by
  cases hs with
  | put hfit =>
    rw [Catalog.find?_insert] at hch
    split at hch
    · rename_i hn
      obtain rfl := Option.some.inj hch
      exact .inr ⟨hn, hn ▸ hfit, rfl⟩
    · exact .inl hch
  | drop _ =>
    rw [Catalog.find?_erase] at hch
    split at hch
    · simp at hch
    · exact .inl hch

theorem StagesContent.prospect (hs : StagesContent c id new c') :
    c'.prospect = Function.update c.prospect id new := by
  funext n
  by_cases hn : n = id
  · subst hn
    cases hs with
    | put _ => simp [Compiler.prospect, Catalog.find?_insert]
    | drop hnone => simpa [Compiler.prospect, Catalog.find?_erase, content?] using hnone
  · rw [Function.update_of_ne hn]
    cases hs with
    | put _ => simp [Compiler.prospect, Catalog.find?_insert, hn, content?]
    | drop _ => simp [Compiler.prospect, Catalog.find?_erase, hn, content?]

theorem StagesContent.stagedFits (hs : StagesContent c id new c') (h : c.StagedFits) :
    c'.StagedFits where
  ordered := hs.sorted h.ordered
  fits n change hch := by
    have hcontent : c'.content? n = c.content? n := by cases hs <;> rfl
    rw [hcontent]
    obtain hch | ⟨-, hfit, -⟩ := hs.of_find? hch
    · exact h.fits n change hch
    · exact hfit

theorem stage_stages {change : Change}
    (hfit : c.content? id = none ↔ ∃ content, change = .create content) :
    Ensures (stage id change) c (fun _ c' => StagesContent c id change.content? c') E :=
  ensures_modify (.put hfit)

theorem createSource_stages (c : Compiler) (id : SourceId) (content : Content) :
    Ensures (createSource id content) c
      (fun _ c' => c.prospect id = none ∧ StagesContent c id (some content) c')
      fun _ c' => c.prospect id ≠ none ∧ c' = c := by
  refine ensures_get_bind ?_
  rw [exists_eq]
  split
  · rename_i hm
    exact ensures_throw ⟨Option.isSome_iff_ne_none.1 hm, rfl⟩
  · rename_i hm
    have hm : c.prospect id = none := by simpa using hm
    rw [contains_eq]
    split
    · rename_i hc
      refine (stage_stages ?_).imp (fun _ _ h => ⟨hm, h⟩)
      simp [Option.isSome_iff_ne_none.1 hc]
    · rename_i hc
      refine (stage_stages ?_).imp (fun _ _ h => ⟨hm, h⟩)
      simpa using hc

theorem StagedFits.content?_ne_none (h : c.StagedFits) (hm : c.prospect id ≠ none)
    (hne : ∀ content, c.staged.find? id ≠ some (.create content)) : c.content? id ≠ none := by
  rw [prospect] at hm
  cases hch : c.staged.find? id with
  | none => simpa [hch] using hm
  | some change =>
    intro hnone
    obtain ⟨content, rfl⟩ := (h.fits id change hch).1 hnone
    exact hne content hch

theorem modifySource_stages (h : c.StagedFits) (id : SourceId) (content : Content) :
    Ensures (modifySource id content) c
      (fun _ c' => c.prospect id ≠ none ∧ StagesContent c id (some content) c')
      fun _ c' => c.prospect id = none ∧ c' = c := by
  refine ensures_get_bind ?_
  rw [exists_eq]
  split
  · rename_i hm
    have hm := Option.isSome_iff_ne_none.1 hm
    split
    · rename_i old hch
      refine (stage_stages ?_).imp (fun _ _ h => ⟨hm, h⟩)
      simpa using (h.fits id _ hch).2 ⟨old, rfl⟩
    · rename_i hne
      refine (stage_stages ?_).imp (fun _ _ h => ⟨hm, h⟩)
      simp [h.content?_ne_none hm fun content => hne content]
  · rename_i hm
    exact ensures_throw ⟨by simpa using hm, rfl⟩

theorem deleteSource_stages (c : Compiler) (id : SourceId) :
    Ensures (deleteSource id) c (fun _ c' => c.prospect id ≠ none ∧ StagesContent c id none c')
      fun _ c' => c.prospect id = none ∧ c' = c := by
  refine ensures_get_bind ?_
  rw [exists_eq]
  split
  · rename_i hm
    have hm := Option.isSome_iff_ne_none.1 hm
    rw [contains_eq]
    split
    · rename_i hc
      refine (stage_stages ?_).imp (fun _ _ h => ⟨hm, h⟩)
      simp [Option.isSome_iff_ne_none.1 hc]
    · rename_i hc
      exact ensures_set ⟨hm, .drop (by simpa using hc)⟩
  · rename_i hm
    exact ensures_throw ⟨by simpa using hm, rfl⟩

theorem putSource_stages (h : c.StagedFits) (id : SourceId) (content : Content) :
    Ensures (putSource id content) c (fun _ c' => StagesContent c id (some content) c') E := by
  refine ensures_get_bind ?_
  rw [exists_eq]
  split
  · rename_i hm
    exact (modifySource_stages h id content).mono (fun _ _ h => h.2) fun _ _ he =>
      absurd he.1 (Option.isSome_iff_ne_none.1 hm)
  · rename_i hm
    exact (createSource_stages c id content).mono (fun _ _ h => h.2) fun _ _ he =>
      absurd (by simpa using hm) he.1

structure Staged (K : NodeId → Prop) (c c' : Compiler) : Prop where
  ready : c'.Ready K
  graph : c'.graph = c.graph
  sources : c'.sources = c.sources

theorem Ready.staged (h : c.Ready K) : Staged K c c :=
  ⟨h, rfl, rfl⟩

theorem StagesContent.staged (hs : StagesContent c id new c') (h : c.Ready K)
    (hadm : ∀ content, new = some content → content.Admissible K) : Staged K c c' := by
  have hsorted := hs.sorted h.ordered
  have hknown := (hs.stagedFits h.stagedFits).fits
  have hoffered n change content (hch : c'.staged.find? n = some change)
      (hcontent : change.content? = some content) : content.Admissible K := by
    obtain hch | ⟨-, -, rfl⟩ := hs.of_find? hch
    · exact h.offered n change content hch hcontent
    · exact hadm content hcontent
  cases hs <;> exact ⟨{ h with
    ordered := hsorted
    known := fun n change hch => content?_eq_none_iff.1 (hknown n change hch)
    offered := hoffered }, rfl, rfl⟩

end Staging

section Compile

structure Compiled (K : NodeId → Prop) (a : Agenda) (report : CompileReport)
    (c c₁ c' : Compiler) : Prop where
  prepared : Prepared K a c c₁
  phases : Phases K a.batch c₁ report.aborted c'
  outcomes : report.outcomes = outcomes c' a.deleted a.touched

structure Lasts (K : NodeId → Prop) (c c' : Compiler) : Prop where
  sane : c'.Sane K
  staged : c'.staged = ∅
  listed : Predefined K → c.graph.Listed → c'.graph.Listed

theorem Prepared.settled (h : Prepared K a c d) : d.Settled := by
  intro id unit hu
  cases h.standing id unit hu with
  | parsed _ hst _ | failed _ hst _ => simp [hst]
  | kept _ hpending _ =>
    constructor <;>
    · intro hst
      simp [hst, SourceState.isPending] at hpending

theorem Prepared.batch_known (h : Prepared K a c d) {s : SourceId} (hs : s ∈ a.batch) :
    ∃ unit, d.sources.find? s = some unit ∧ unit.state = .parsed := by
  rw [h.batch] at hs
  exact h.sane.mem_inState.1 hs

theorem Phases.phased {batch : List SourceId} {aborted : Option Phase}
    (h : Phases K batch c aborted d) (hs : c.Sane K) (hc : c.Settled)
    (hbatch : ∀ s ∈ batch, ∃ unit, c.sources.find? s = some unit) : Phased K batch c d := by
  cases h with
  | idle h => exact ⟨hs.looked.handled, fun _ hl _ => hl⟩
  | halted hbound hfatal htreated => exact htreated.phased hbound hfatal hc hbatch
  | run hbound hfatal htreated hvalid _ =>
    refine hvalid.phased (htreated.phased hbound hfatal hc hbatch) fun s hs => ?_
    have hs := ((htreated.mem_inState hbound hc).1 hs).1
    exact ((hbound.mem_inState hfatal hc hbatch).1 hs).1

theorem Prepared.lasts {c₁ : Compiler} (h : Prepared K a c c₁)
    (hp : Phased K a.batch c₁ d) : Lasts K c d where
  sane := hp.sane
  staged := hp.staged.trans h.staged
  listed hK hl := hp.listed hK (h.listed hl) fun s hs x hx =>
    ((h.cleared s hs x hx).undone rfl hl).types

theorem compile_runs (hs : c.Ready K) (hK : CoversMetamodel K) :
    Runs (¬ Predefined K) compile c (fun report c' => ∃ a c₁, Compiled K a report c c₁ c')
      fun e c' => (Predefined K → e.blame ≠ .internal) ∧ Lasts K c c' := by
  refine runs_bind ((prepare_runs hs hK).mono (fun a c₁ h => ?_)
    fun _ _ h => ⟨h.1, h.2.1, h.2.2.1, h.2.2.2⟩)
  have hbatch : ∀ s ∈ a.batch, ∃ unit, c₁.sources.find? s = some unit := fun s hs' =>
    (h.batch_known hs').imp fun _ hu => hu.1
  refine runs_bind ((runPhases_ensures h.sane hK h.settled hbatch).runs.mono
    (fun aborted c₂ hp => ?_) fun _ _ hp => ⟨fun _ => hp.2, h.lasts hp.1⟩)
  exact runs_bind (Ensures.runs (ensures_get (Ensures.runs (ensures_pure ⟨a, c₁, h, hp, rfl⟩))))

theorem Compiled.lasts {report : CompileReport} {c₁ : Compiler}
    (h : Compiled K a report c c₁ d) : Lasts K c d :=
  h.prepared.lasts (h.phases.phased h.prepared.sane h.prepared.settled fun _ hs =>
    (h.prepared.batch_known hs).imp fun _ hu => hu.1)

end Compile

section Calls

theorem listed_initial : initial.Listed := by
  intro o t ht
  have hlife := ht.lifetime
  rw [rooted_initial.lifetime? (contains_of_lifetime? hlife)] at hlife
  simp at hlife

theorem start_of_new {registry : Registry} {schedule : Schedule}
    (h : Compiler.new config registry schedule = .ok (.ok c)) :
    ∃ r, registry.extend Graph.initial = .ok (.ok r, c.graph) ∧ c.workspace.lineage = ∅ ∧
      c.dispatch = registry.dispatch ∧ c.factories = registry.factories ∧
      c.visibility = registry.visibility ∧ c.sources = ∅ ∧ c.staged = ∅ := by
  unfold Compiler.new at h
  generalize registry.extend Graph.initial = answer at h ⊢
  generalize config.check = checked at h
  cases checked with
  | error e => simp [pure, Except.pure] at h
  | ok =>
    rcases answer with _ | ⟨_ | r, g⟩
    · simp [bind, Except.bind] at h
    · simp [bind, Except.bind, pure, Except.pure, Except.map] at h
    · have hc := Except.ok.inj (Except.ok.inj h)
      subst hc
      exact ⟨r, rfl, rfl, rfl, rfl, rfl, rfl, rfl⟩

theorem persistentNodes_initial (s : SourceId) : initial.persistentNodes s = [] := by
  refine List.eq_nil_iff_forall_not_mem.2 fun x hx => ?_
  have hlife := ((tidy_initial fun _ h => h).persistent_iff s x).1 hx
  rw [rooted_initial.lifetime? (contains_of_lifetime? hlife)] at hlife
  simp at hlife

theorem new_sane (hK : CoversMetamodel K) {schedule : Schedule}
    (h : Compiler.new config Registry.withCore schedule = .ok (.ok c)) :
    c.Sane K ∧ c.graph = initial ∧ c.sources = ∅ ∧ c.staged = ∅ := by
  obtain ⟨r, hrun, hlineage, hdispatch, hfactories, hvisibility, hsources, hstaged⟩ :=
    start_of_new h
  obtain ⟨-, hfactories', hvisibility', -⟩ := withCore_tables
  have hg : c.graph = initial := (extend_withCore fun p hp => Option.isSome_iff_exists.2
    (lookup_of_isMetamodel isMetamodel_initial hp)).result hrun
  have hempty (s : SourceId) : c.graph.persistentNodes s = [] := by
    rw [hg]
    exact persistentNodes_initial s
  have htidy : c.graph.Tidy K := by
    rw [hg]
    exact tidy_initial hK
  refine ⟨?_, hg, hsources, hstaged⟩
  exact {
    dispatch := hdispatch.trans withCore_dispatch
    factories := hfactories.trans hfactories'
    visibility := hvisibility.trans hvisibility'
    whole := fun x => complete_of_nil (List.eq_nil_iff_forall_not_mem.2 fun p hp => by
      obtain ⟨s, hs⟩ := htidy.owner p x ((htidy.fits x _ p hp).property rfl).1.lifetime
      simpa [hempty s] using (htidy.persistent_iff s x).2 hs)
    orderly := ⟨htidy, hlineage ▸ Lineage.valid_empty _⟩
    sorted := hsources ▸ Catalog.sorted_empty
    contents := fun id unit hu => by simp [hsources, Catalog.find?_empty] at hu
    registered := fun s hne => absurd (hempty s) hne
    blank := fun s _ _ _ => hempty s }

theorem exists_new (hconfig : config.check = .ok ()) (schedule : Schedule) :
    ∃ c, Compiler.new config Registry.withCore schedule = .ok (.ok c) ∧ c.config = config := by
  have hextend := extend_withCore (g := initial) fun p hp => Option.isSome_iff_exists.2
    (lookup_of_isMetamodel isMetamodel_initial hp)
  unfold Compiler.new
  rw [hconfig]
  generalize Registry.withCore = registry at *
  rcases hextend with ⟨r, g, hrun, -⟩ | ⟨_, _, -, hfalse⟩
  · exact ⟨_, by rw [hrun]; rfl, rfl⟩
  · exact hfalse.elim

theorem Call.run_staged (hs : c.Ready K) {call : Call} (hne : call ≠ .compile)
    (hadm : ∀ text ∈ call.text?, Content.Admissible K (.text text)) :
    Ensures call.run c (fun _ c' => Staged K c c') fun _ c' => Staged K c c' := by
  have hstaged {act : Compiling Unit} {id : SourceId} {new : Option Content} {L M : Prop}
      (h : Ensures act c (fun _ c' => L ∧ StagesContent c id new c') fun _ c' => M ∧ c' = c)
      (hnew : ∀ content, new = some content → content.Admissible K) :
      Ensures (do act; return (none : Option CompileReport)) c (fun _ c' => Staged K c c')
        fun _ c' => Staged K c c' :=
    ensures_bind (h.mono (fun _ _ h => ensures_pure (h.2.staged hs hnew)) fun _ _ h =>
      h.2 ▸ hs.staged)
  have htext (text : String) (h : text ∈ call.text?) (content : Content)
      (hc : some (.text text) = some content) : content.Admissible K :=
    Option.some.inj hc ▸ hadm text h
  cases call with
  | create id text => exact hstaged (createSource_stages c id _) (htext text rfl)
  | modify id text => exact hstaged (modifySource_stages hs.stagedFits id _) (htext text rfl)
  | put id text =>
    exact hstaged ((putSource_stages (E := fun _ _ => False) hs.stagedFits id _).mono
      (fun _ _ h => ⟨trivial, h⟩) fun _ _ h => ⟨h, h.elim⟩) (htext text rfl)
  | delete id => exact hstaged (deleteSource_stages c id) fun _ h => by simp at h
  | compile => exact absurd rfl hne

theorem Call.run_compile (hs : c.Ready K) (hK : CoversMetamodel K) :
    Runs (¬ Predefined K) Call.compile.run c
      (fun _ c' => ∃ report a c₁, Compiled K a report c c₁ c') fun _ c' => Lasts K c c' :=
  runs_bind ((compile_runs hs hK).mono (fun report _ h => (ensures_pure ⟨report, h⟩).runs)
    fun _ _ h => h.2)

theorem Lasts.ready (h : Lasts K c d) : d.Ready K :=
  h.sane.ready h.staged

theorem Looked.ready (h : Looked K c d) (hs : c.Ready K) : d.Ready K where
  toSane := h.sane
  ordered := h.staged ▸ hs.ordered
  known := by rw [h.staged, h.sources]; exact hs.known
  offered := by rw [h.staged]; exact hs.offered

theorem validateSource_ensures (hs : c.Sane K) (id : SourceId) :
    Ensures (validateSource id) c
      (fun errors c' => errors = (c.graph.persistentNodes id).flatMap (verdict c.graph) ∧
        Looked K c c')
      fun _ c' => c' = c ∧ ∀ unit, c.sources.find? id = some unit →
        ¬ (unit.state = .processed ∨ unit.state = .active) := by
  refine ensures_get_bind ?_
  cases hu : c.sources.find? id with
  | none => exact ensures_throw ⟨rfl, fun _ h => by simp at h⟩
  | some unit =>
    by_cases hst : unit.state = .processed ∨ unit.state = .active
    · simp only [if_pos hst]
      refine ensures_bind ((validateItems_ensures hs fun item hitem => ?_).imp
        fun errors c' h => ?_)
      · obtain ⟨s, -, hn⟩ := mem_items.1 (List.mem_map_of_mem hitem)
        exact hs.tidy.persistent_live hn
      · refine ensures_pure ⟨?_, h.2⟩
        rw [h.1]
        simp [verdicts, items, List.map_flatMap, List.flatMap_map, Function.comp_def]
    · simp only [if_neg hst]
      exact ensures_throw ⟨rfl, fun _ h => Option.some.inj h ▸ hst⟩

theorem Ready.validated (hs : c.Ready K) {errors : Except CompileError (List CompileError)}
    (hrun : validateSource id c = .ok (errors, d)) : Staged K c d := by
  have hruns := validateSource_ensures hs.toSane id
  cases errors with
  | ok found =>
    have hlooked := (hruns.result hrun).2
    exact ⟨hlooked.ready hs, hlooked.graph, hlooked.sources⟩
  | error e =>
    obtain ⟨rfl, -⟩ := hruns.error hrun
    exact hs.staged

theorem Call.run_ready (hs : c.Ready K) (hK : CoversMetamodel K) {call : Call}
    (hadm : ∀ text ∈ call.text?, Content.Admissible K (.text text)) {answer : Answer}
    (hrun : call.run c = .ok (answer, d)) :
    d.Ready K ∧ (Predefined K → c.graph.Listed → d.graph.Listed) := by
  by_cases hne : call = .compile
  · subst hne
    have hruns := Call.run_compile hs hK
    cases answer with
    | ok r =>
      obtain ⟨report, a, c₁, h⟩ := hruns.result hrun
      exact ⟨h.lasts.ready, h.lasts.listed⟩
    | error e => exact ⟨(hruns.error hrun).ready, (hruns.error hrun).listed⟩
  · have hruns := Call.run_staged hs hne hadm
    cases answer with
    | ok r => exact ⟨(hruns.result hrun).ready, fun _ hl => (hruns.result hrun).graph ▸ hl⟩
    | error e => exact ⟨(hruns.error hrun).ready, fun _ hl => (hruns.error hrun).graph ▸ hl⟩

theorem Reached.ready (h : Reached P c) (hK : CoversMetamodel K)
    (hP : ∀ call answer, P call answer → ∀ text ∈ call.text?, Content.Admissible K (.text text)) :
    c.Ready K ∧ (Predefined K → c.graph.Listed) := by
  induction h with
  | new h =>
    obtain ⟨hs, hg, -, hst⟩ := new_sane hK h
    exact ⟨hs.ready hst, fun _ => hg ▸ listed_initial⟩
  | call _ hrun hp ih =>
    exact (Call.run_ready ih.1 hK (hP _ _ hp) hrun).imp_right fun h hpre => h hpre (ih.2 hpre)
  | validate _ hrun ih =>
    have h := ih.1.validated hrun
    exact ⟨h.ready, fun hpre => h.graph ▸ ih.2 hpre⟩

theorem Reached.ready_of_any (h : Reached P c) : c.Ready fun _ => True :=
  (h.ready (fun _ _ => trivial) fun _ _ _ text _ => Content.admissible_any text).1

theorem Reached.ready_of_classified
    (hP : ∀ call answer, P call answer → call.Classified) (h : Reached P c) :
    c.Ready (initial.contains · = true) ∧ c.graph.Listed := by
  obtain ⟨hs, hl⟩ := h.ready (fun _ h => h) fun call answer hp text htext =>
    Content.admissible_of_classified (hP call answer hp text htext)
  exact ⟨hs, hl fun _ h => h⟩

/-- What holds of a new compiler and after every compile with a report, and is said of the graph and
the sources only, holds all along a session in which no compile fails. -/
theorem Reached.preserved (h : Reached P c) (hK : CoversMetamodel K)
    (hP : ∀ call answer, P call answer → ∀ text ∈ call.text?, Content.Admissible K (.text text))
    (hsucceeds : ∀ call answer, P call answer → call.Succeeds answer) {I : Compiler → Prop}
    (hnew : ∀ c : Compiler, c.graph = initial → c.sources = ∅ → I c)
    (hstaged : ∀ c c' : Compiler, I c → c'.graph = c.graph → c'.sources = c.sources → I c')
    (hcompiled : ∀ c c₁ c' a report, c.Ready K → (Predefined K → c.graph.Listed) → I c →
      Compiled K a report c c₁ c' → I c') : I c := by
  induction h with
  | new h =>
    obtain ⟨-, hg, hsources, -⟩ := new_sane hK h
    exact hnew _ hg hsources
  | @call c c' call answer hc hrun hp ih =>
    obtain ⟨hs, hl⟩ := hc.ready hK hP
    by_cases hne : call = .compile
    · subst hne
      cases answer with
      | ok r =>
        obtain ⟨report, a, c₁, h⟩ := (Call.run_compile hs hK).result hrun
        exact hcompiled c c₁ c' a report hs hl ih h
      | error e => exact absurd (hsucceeds _ _ hp rfl) (by simp [Except.isOk, Except.toBool])
    · have hruns := Call.run_staged hs hne (hP _ _ hp)
      cases answer with
      | ok r => exact hstaged c c' ih (hruns.result hrun).graph (hruns.result hrun).sources
      | error e => exact hstaged c c' ih (hruns.error hrun).graph (hruns.error hrun).sources
  | validate hc hrun ih =>
    have h := (hc.ready hK hP).1.validated hrun
    exact hstaged _ _ ih h.graph h.sources

end Calls

section Turns

inductive Turn where
  | call (call : Call)
  | validate (id : SourceId)

abbrev Reply := Except CompileError (Option CompileReport ⊕ List CompileError)

def Turn.run : Turn → Compiling (Option CompileReport ⊕ List CompileError)
  | call x => do return .inl (← x.run)
  | validate id => do return .inr (← validateSource id)

/-- What a client sees of a turn: the reply, and the graph, the sources with their states and
diagnostics, and the staged changes that it leaves. -/
structure Observation where
  reply : Reply
  graph : Graph
  sources : Catalog SourceUnit
  staged : Catalog Change

def observe : List Turn → Compiler → List (Except Breach Observation)
  | [], _ => []
  | turn :: turns, c =>
    match turn.run c with
    | .error b => [.error b]
    | .ok (reply, c') => .ok ⟨reply, c'.graph, c'.sources, c'.staged⟩ :: observe turns c'

theorem Turn.run_ready {turn : Turn} (hc : c.Ready fun _ => True) {reply : Reply}
    (hrun : turn.run c = .ok (reply, d)) : d.Ready fun _ => True := by
  cases turn with
  | call x =>
    have hready {answer : Answer} {c' : Compiler} (h : x.run c = .ok (answer, c')) :
        c'.Ready fun _ => True :=
      (Call.run_ready hc (fun _ _ => trivial) (fun text _ => Content.admissible_any text) h).1
    rw [Turn.run, run_bind] at hrun
    generalize x.run c = result at *
    rcases result with _ | ⟨_ | _, c'⟩
    · simp at hrun
    · obtain ⟨-, rfl⟩ := ok_mk_inj hrun
      exact hready rfl
    · obtain ⟨-, rfl⟩ := ok_mk_inj hrun
      exact hready rfl
  | validate id =>
    have hruns : Ensures (Turn.validate id).run c (fun _ c' => c'.Ready fun _ => True)
        fun _ c' => c'.Ready fun _ => True :=
      ensures_bind ((validateSource_ensures hc.toSane id).mono
        (fun _ _ h => ensures_pure (h.2.ready hc)) fun _ _ h => h.1 ▸ hc)
    cases reply with
    | ok r => exact hruns.result hrun
    | error e => exact hruns.error hrun

end Turns

section Playing

def play : List Call → Compiler → Option Compiler
  | [], c => some c
  | call :: calls, c =>
    match call.run c with
    | .ok (answer, c') => if call.Succeeds answer then play calls c' else none
    | .error _ => none

def playFrom (start : Except Breach (Except CompileError Compiler)) (calls : List Call) :
    Option Compiler :=
  match start with
  | .ok (.ok c) => play calls c
  | _ => none

def session (calls : List Call) : Option Compiler :=
  playFrom (Compiler.new .sequential Registry.withCore) calls

theorem Reached.play (hcalls : ∀ x ∈ calls, Q x)
    (h : Reached (fun x answer => x.Succeeds answer ∧ Q x) c)
    (hplay : Compiler.play calls c = some c') :
    Reached (fun x answer => x.Succeeds answer ∧ Q x) c' := by
  induction calls generalizing c with
  | nil => exact Option.some.inj hplay ▸ h
  | cons x calls ih =>
    rw [Compiler.play] at hplay
    split at hplay
    · rename_i answer d hrun
      split at hplay
      · rename_i hsucceeds
        exact ih (fun y hy => hcalls y (by simp [hy]))
          (.call h hrun ⟨hsucceeds, hcalls x (by simp)⟩) hplay
      · simp at hplay
    · simp at hplay

theorem exists_play {start : Except Breach (Except CompileError Compiler)}
    (h : playFrom start calls = some c) : ∃ c₀, start = .ok (.ok c₀) ∧ play calls c₀ = some c := by
  rcases start with _ | _ | c₀
  · simp [playFrom] at h
  · simp [playFrom] at h
  · exact ⟨c₀, rfl, h⟩

theorem reached_of_session (hcalls : ∀ x ∈ calls, Q x)
    (h : session calls = some c) : Reached (fun x answer => x.Succeeds answer ∧ Q x) c := by
  obtain ⟨c₀, hnew, hplay⟩ := exists_play h
  exact (Reached.new hnew).play hcalls hplay

theorem Reached.of_session (h : session calls = some c) : Reached Call.Succeeds c :=
  (reached_of_session (Q := fun _ => True) (fun _ _ => trivial) h).mono fun _ _ h => h.1

theorem exists_session {P : Compiler → Prop} [DecidablePred P]
    (h : ((session calls).any fun c => decide (P c)) = true) :
    ∃ c, session calls = some c ∧ P c := by
  obtain ⟨c, hc, h⟩ := (Option.any_eq_true _ _).1 h
  exact ⟨c, hc, of_decide_eq_true h⟩

def compiled? (c : Compiler) : Option (CompileReport × Compiler) :=
  match compile c with
  | .ok (.ok report, c') => some (report, c')
  | _ => none

theorem exists_compiled {P : Compiler → CompileReport → Compiler → Prop}
    [∀ c report d, Decidable (P c report d)]
    (h : ((session calls).any fun c => (compiled? c).any fun (report, d) =>
      decide (P c report d)) = true) :
    ∃ c report d, session calls = some c ∧ compile c = .ok (.ok report, d) ∧ P c report d := by
  obtain ⟨c, hc, h⟩ := (Option.any_eq_true _ _).1 h
  obtain ⟨⟨report, d⟩, hd, hP⟩ := (Option.any_eq_true _ _).1 h
  refine ⟨c, report, d, hc, ?_, of_decide_eq_true hP⟩
  unfold compiled? at hd
  split at hd
  · rename_i hrun
    obtain ⟨rfl, rfl⟩ := Prod.mk.inj (Option.some.inj hd)
    exact hrun
  · simp at hd

def sampleCalls : List Call :=
  [.create "base" "Class A { n: String; }\nClass B extends A { }",
    .create "ties" "Association T { a: A; b: B; }",
    .create "apart" "Class Z { }",
    .create "lost" "Class L extends Gone { }",
    .compile, .modify "base" "Class B extends Z { }\nClass A extends B { }"]

end Playing

end Compiler

end ModelCompiler
