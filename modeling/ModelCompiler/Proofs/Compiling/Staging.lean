import ModelCompiler.Proofs.Compiling.Sessions
import ModelCompiler.Proofs.Compiling.Pipeline

/-!
Staging refines a map from names to contents.
-/

open ModelCompiler.Action ModelCompiler.Graph

namespace ModelCompiler.Compiler

variable {ε α : Type} {c c' : Compiler} {id : SourceId}

/-- The same contents, staged and known. -/
structure KeepsContents (c c' : Compiler) : Prop where
  staged : c'.staged = c.staged
  content : ∀ id, c'.content? id = c.content? id

theorem KeepsContents.refl (c : Compiler) : KeepsContents c c :=
  ⟨rfl, fun _ => rfl⟩

section Frame

variable {c₀ : Compiler}

theorem keeps_onWorkspace (act : Work ε α) : Maintains (KeepsContents c₀) (onWorkspace act) :=
  maintains_within (I := fun _ => True) (fun _ _ => trivial) (fun _ _ h _ => ⟨h.staged, h.content⟩)
    fun _ _ _ _ _ => ⟨trivial, fun _ _ => trivial⟩

theorem keeps_ask (f : Dispatch → Graph → Lineage.Query α) : Maintains (KeepsContents c₀) (ask f) :=
  maintains_get_bind fun _ _ => keeps_onWorkspace _

theorem keeps_modifyUnit {f : SourceUnit → SourceUnit}
    (hf : ∀ unit, (f unit).content = unit.content)
    (id : SourceId) : Maintains (KeepsContents c₀) (modifyUnit id f : Action Compiler ε Unit) := by
  refine maintains_modify fun c h => ⟨h.staged, fun n => (h.content n).symm ▸ ?_⟩
  simp only [content?, Catalog.find?_modify]
  split
  · simp [Function.comp_def, hf]
  · rfl

theorem keeps_advance : Maintains (KeepsContents c₀) (advance : Action Compiler ε Unit) :=
  maintains_modify fun _ h => ⟨h.staged, h.content⟩

theorem keeps_walkNode (id : NodeId) : Maintains (KeepsContents c₀) (walkNode id) := by
  refine maintains_bind (maintains_attempt (keeps_ask _)) fun answer _ => ?_
  cases answer with
  | error e => exact maintains_pure trivial
  | ok found =>
    exact maintains_bind (keeps_onWorkspace _) fun _ _ => maintains_bind keeps_advance fun _ _ =>
      maintains_get_bind fun _ _ => maintains_pure trivial

theorem keeps_removeSources (sources : List SourceId) :
    Maintains (KeepsContents c₀) (removeSources sources) := by
  refine maintains_get_bind fun _ _ => maintains_when (maintains_discard (keeps_onWorkspace _))
    fun _ => maintains_bind (maintains_forM fun id _ => keeps_modifyUnit (by simp) id) fun _ _ =>
      maintains_bind (maintains_modify fun _ h => ⟨h.staged, h.content⟩) fun _ _ =>
        maintains_get_bind fun d _ => ?_
  split
  · refine maintains_get_bind fun c _ => ?_
    split
    · exact maintains_pure trivial
    · exact maintains_throw _
  · exact maintains_pure trivial

theorem keeps_runDraft (id : SourceId) (content : Content) :
    Maintains (KeepsContents c₀) (runDraft id content) := by
  intro c r c' hc hrun
  rw [runDraft_eq] at hrun
  rcases hdraft : content.draft ⟨id, c.factories⟩ ⟨c.graph, []⟩ with b | ⟨answer, draft⟩
  · simp [hdraft, Except.map] at hrun
  · rw [hdraft] at hrun
    obtain ⟨-, rfl⟩ := ok_mk_inj hrun
    exact ⟨⟨hc.staged, hc.content⟩, fun _ _ => trivial⟩

theorem keeps_parseSource (id : SourceId) : Maintains (KeepsContents c₀) (parseSource id) := by
  refine maintains_get_bind fun c _ => ?_
  split
  · exact maintains_pure trivial
  · refine maintains_bind (keeps_runDraft _ _) fun answer _ => ?_
    obtain ⟨_ | _, groups⟩ := answer
    · refine maintains_get_bind fun d _ => maintains_when (maintains_discard (keeps_onWorkspace _))
        fun _ => maintains_bind (keeps_modifyUnit (by simp) _) fun _ _ =>
          maintains_bind (keeps_modifyUnit (by simp) _) fun _ _ => ?_
      split
      · exact maintains_throw _
      · exact maintains_pure trivial
    · exact keeps_modifyUnit (by simp) id

theorem keeps_bindNode (item : SourceId × NodeId) :
    Maintains (KeepsContents c₀) (bindNode item) := by
  refine maintains_bind (maintains_attempt (keeps_ask _)) fun answer _ => ?_
  cases answer with
  | error e =>
    exact maintains_bind (R := fun _ => True) (maintains_pure trivial) fun _ _ =>
      maintains_bind keeps_advance fun _ _ => maintains_pure trivial
  | ok found =>
    exact maintains_bind (maintains_attempt (keeps_onWorkspace _)) fun _ _ =>
      maintains_bind keeps_advance fun _ _ => maintains_pure trivial

theorem keeps_warmUp (items : List (SourceId × NodeId)) :
    Maintains (KeepsContents c₀) (warmUp items) := by
  refine maintains_get_bind fun c _ => ?_
  split
  · exact maintains_pure trivial
  · exact maintains_discard (maintains_poolMapM (fun _ => keeps_onWorkspace _) _ _ _)

theorem keeps_steps (c₀ : Compiler) :
    KeptBySteps (KeepsContents c₀) (fun _ => True) fun _ => True where
  unit id _ hf := keeps_modifyUnit hf id
  start _ _ := maintains_modify fun _ h => ⟨h.staged, h.content⟩
  advance := keeps_advance
  walk := keeps_walkNode
  unbind _ _ _ _ _ _ := maintains_bind (keeps_ask _) fun _ _ =>
    maintains_bind (keeps_onWorkspace _) fun _ _ => keeps_advance
  remove := keeps_removeSources
  parse := keeps_parseSource
  bind item := (keeps_bindNode item).mono fun _ _ _ _ _ _ => trivial
  apply _ := keeps_onWorkspace _
  warm := keeps_warmUp
  processor _ := keeps_ask _
  process _ _ := keeps_onWorkspace _
  validate _ := maintains_validateNode (keeps_ask _) (fun _ => keeps_onWorkspace _)
    (fun _ => keeps_onWorkspace _) keeps_advance

end Frame

theorem StagedFits.of_not_staged (h : c.staged = ∅) : c.StagedFits where
  ordered := h ▸ Catalog.sorted_empty
  fits id change hch := by simp [h, Catalog.find?_empty] at hch

structure Foresees (c : Compiler) (m : Contents) : Prop extends StagedFits c where
  prospect : c.prospect = m

theorem Foresees.stages {m : Contents} {new : Option Content} (h : Foresees c m)
    (hs : StagesContent c id new c') : Foresees c' (Function.update m id new) :=
  ⟨hs.stagedFits h.toStagedFits, h.prospect ▸ hs.prospect⟩

section Compile

/-- New sources are entered first, and the others replaced once what they had led to is undone. -/
theorem StagedFits.content?_eq {c₁ c₂ c₃ : Compiler} (h : c.StagedFits)
    (htake : Catalog.Amended enter c.staged.entries c.sources c₁.sources)
    (hkeeps : ∀ id, c₂.content? id = c₁.content? id)
    (hreplace : Catalog.Amended replace c.staged.entries c₂.sources c₃.sources) (id : SourceId) :
    c₃.content? id = c.prospect id := by
  have hfind : c.staged.entries.lookup id = c.staged.find? id := rfl
  have h₁ := htake id
  have h₃ := hreplace id
  have h₂ := hkeeps id
  simp only [content?] at h₂
  rw [hfind] at h₁ h₃
  cases hch : c.staged.find? id with
  | none => simp_all [content?, prospect]
  | some change =>
    simp only [hch] at h₁ h₃
    cases change with
    | create content => simp_all [content?, prospect, enter, replace, renew, Change.content?]
    | modify content =>
      have hknown : c.content? id ≠ none := fun hnone => by simpa using (h.fits id _ hch).1 hnone
      obtain ⟨old, hold⟩ := Option.ne_none_iff_exists'.1 hknown
      simp only [content?] at hold
      have h₂ : (c₂.sources.find? id).map (·.content) =
          some old := by simpa [h₁, enter, hold] using h₂
      obtain ⟨unit, hunit, -⟩ := Option.map_eq_some_iff.1 h₂
      simp [content?, prospect, hch, h₃, hunit, replace, renew, Change.content?]
    | delete => simp [content?, prospect, hch, h₃, replace, Change.content?]

theorem prepare_contents (h : c.StagedFits) {agenda : Agenda}
    (hrun : prepare c = .ok (.ok agenda, c')) :
    c'.staged = ∅ ∧ ∀ id, c'.content? id = c.prospect id := by
  obtain ⟨staged, c₁, htake, hrun⟩ := exists_of_bind hrun
  obtain ⟨rfl, hempty, -, hentered⟩ := (takeStaged_amends (I := fun _ => True)
    (E := fun _ _ => True) h.ordered trivial fun _ _ _ _ _ h => h).result htake
  obtain ⟨_, _, ⟨⟩, hrun⟩ := exists_of_bind hrun
  obtain ⟨rebound, c₂, hwalk, hrun⟩ := exists_of_bind hrun
  obtain ⟨_, c₃, hwithdraw, hrun⟩ := exists_of_bind hrun
  have hwalked := ((keeps_steps c₁).dependents _ _ _ _ (.refl _) hwalk).1
  have hkeeps := ((keeps_steps c₁).withdraw _ _ _ _ _ hwalked hwithdraw).1
  obtain ⟨_, c₄, hreplace, hrun⟩ := exists_of_bind hrun
  obtain ⟨hst, -, hreplaced⟩ := (replaceSources_amends (I := fun _ => True) (E := fun _ _ => True)
    h.ordered trivial fun _ _ _ _ h => h).result hreplace
  obtain ⟨_, _, ⟨⟩, hrun⟩ := exists_of_bind hrun
  obtain ⟨_, c₅, hparse, hrun⟩ := exists_of_bind hrun
  obtain ⟨_, _, ⟨⟩, hrun⟩ := exists_of_bind hrun
  obtain ⟨-, rfl⟩ := ok_mk_inj hrun
  have hparsed : KeepsContents c₄ c₅ :=
    (maintains_forM (fun id _ => keeps_parseSource id) _ _ _ (.refl _) hparse).1
  refine ⟨?_, fun id => ?_⟩
  · rw [hparsed.staged, hst, hkeeps.staged, hempty]
  · rw [hparsed.content, h.content?_eq hentered hkeeps.content hreplaced]

theorem compile_contents (h : c.StagedFits) {report : CompileReport}
    (hrun : compile c = .ok (.ok report, c')) :
    c'.staged = ∅ ∧ ∀ id, c'.content? id = c.prospect id := by
  obtain ⟨agenda, c₁, hprepare, hrun⟩ := exists_of_bind hrun
  obtain ⟨aborted, c₂, hphases, hrun⟩ := exists_of_bind hrun
  obtain ⟨_, _, ⟨⟩, hrun⟩ := exists_of_bind hrun
  obtain ⟨-, rfl⟩ := ok_mk_inj hrun
  obtain ⟨hst, hcontent⟩ := prepare_contents h hprepare
  have hkeeps := ((keeps_steps c₁).runPhases _ _ _ _ (.refl _) hphases).1
  exact ⟨hkeeps.staged.trans hst, fun id => (hkeeps.content id).trans (hcontent id)⟩

end Compile

inductive Command where
  | create (id : SourceId) (content : Content)
  | modify (id : SourceId) (content : Content)
  | delete (id : SourceId)
  | compileSource (id : SourceId) (content : Content)
  | compile

namespace Command

def run : Command → Compiling (Option CompileReport)
  | create id content => do createSource id content; return none
  | modify id content => do modifySource id content; return none
  | delete id => do deleteSource id; return none
  | compileSource id content => do return some (← Compiler.compileSource id content)
  | compile => do return some (← Compiler.compile)

def compiles : Command → Bool
  | compileSource .. | compile => true
  | create .. | modify .. | delete .. => false

def IsLegal (m : Contents) : Command → Prop
  | create id _ => m id = none
  | modify id _ | delete id => m id ≠ none
  | compileSource .. | compile => True

def update (m : Contents) : Command → Contents
  | create id content | modify id content | compileSource id content =>
    Function.update m id (some content)
  | delete id => Function.update m id none
  | compile => m

end Command

/-- The compilers, with any registrations, that a client comes to by commands of which no compile
fails, and the contents that the commands lead to if only those count that were not refused. -/
inductive History : Compiler → Contents → Prop
  | new {config : Config} {registry : Registry} {schedule : Schedule} {c : Compiler} :
      Compiler.new config registry schedule = .ok (.ok c) → History c fun _ => none
  | step {c c' : Compiler} {m : Contents} {x : Command} {answer : Answer} : History c m →
      x.run c = .ok (answer, c') → (x.compiles = true → answer.isOk = true) →
      History c' (if answer.isOk = true then x.update m else m)

section Histories

variable {m : Contents} {x : Command} {answer : Answer}

theorem Command.run_foresees (h : Foresees c m) (hx : x.compiles = false) :
    Ensures x.run c (fun _ c' => x.IsLegal m ∧ Foresees c' (x.update m))
      fun _ c' => ¬ x.IsLegal m ∧ c' = c := by
  obtain rfl := h.prospect
  have hstaged {act : Compiling Unit} {id : SourceId} {new : Option Content} {L M : Prop}
      (hrun : Ensures act c (fun _ c' => L ∧ StagesContent c id new c') fun _ c' => M ∧ c' = c)
      (hLM : M → ¬ L) :
      Ensures (do act; return (none : Option CompileReport)) c
        (fun _ c' => L ∧ Foresees c' (Function.update c.prospect id new))
        fun _ c' => ¬ L ∧ c' = c :=
    ensures_bind (hrun.mono (fun _ _ hr => ensures_pure ⟨hr.1, h.stages hr.2⟩) fun _ _ hr =>
      ⟨hLM hr.1, hr.2⟩)
  cases x with
  | create id content => exact hstaged (createSource_stages c id content) fun h => h
  | modify id content => exact hstaged (modifySource_stages h.toStagedFits id content) not_not.2
  | delete id => exact hstaged (deleteSource_stages c id) not_not.2
  | compileSource id content | compile => simp [compiles] at hx

theorem Command.run_contents (h : Foresees c m) (hx : x.compiles = true) {r : Option CompileReport}
    (hrun : x.run c = .ok (.ok r, c')) : c'.staged = ∅ ∧ c'.content? = x.update m := by
  cases x with
  | create | modify | delete => simp [compiles] at hx
  | compile =>
    obtain ⟨report, c₁, hcompile, hrun⟩ := exists_of_bind hrun
    obtain ⟨-, rfl⟩ := ok_mk_inj hrun
    obtain ⟨hst, hcontent⟩ := compile_contents h.toStagedFits hcompile
    exact ⟨hst, funext fun id => (hcontent id).trans (congrFun h.prospect id)⟩
  | compileSource id content =>
    obtain ⟨report, c₁, hboth, hrun⟩ := exists_of_bind hrun
    obtain ⟨-, rfl⟩ := ok_mk_inj hrun
    obtain ⟨_, c₂, hput, hcompile⟩ := exists_of_bind hboth
    have hput := (putSource_stages (E := fun _ _ => True) h.toStagedFits id content).result hput
    have h₂ := h.stages hput
    obtain ⟨hst, hcontent⟩ := compile_contents h₂.toStagedFits hcompile
    exact ⟨hst, funext fun id => (hcontent id).trans (congrFun h₂.prospect id)⟩

theorem foresees_of_compiled (hst : c.staged = ∅) (hcontent : c.content? = m) : Foresees c m where
  toStagedFits := .of_not_staged hst
  prospect := by
    funext id
    simp [Compiler.prospect, hst, Catalog.find?_empty, hcontent]

theorem History.foresees (h : History c m) : Foresees c m := by
  induction h with
  | new h =>
    obtain ⟨-, -, -, -, -, -, hsources, hstaged⟩ := start_of_new h
    exact foresees_of_compiled hstaged (funext fun id => by
      simp [content?, hsources, Catalog.find?_empty])
  | @step c c' m x answer _ hrun hok ih =>
    by_cases hx : x.compiles = true
    · cases answer with
      | ok r =>
        obtain ⟨hst, hcontent⟩ := Command.run_contents ih hx hrun
        exact foresees_of_compiled hst hcontent
      | error e => exact absurd (hok hx) (by simp [Except.isOk, Except.toBool])
    · have hruns := Command.run_foresees ih (by simpa using hx)
      cases answer with
      | ok r => exact (hruns.result hrun).2
      | error e => exact (hruns.error hrun).2 ▸ ih

/-- Staging refines the contents: a command that stages is accepted if and only if it makes sense
for them, and changes nothing if it is not; after a compile the sources are the contents, and
nothing is staged. -/
theorem History.refines_contents (h : History c m) :
    (∀ x : Command, x.compiles = false → ∃ answer c', x.run c = .ok (answer, c') ∧
      (answer.isOk = true ↔ x.IsLegal m) ∧ (¬ x.IsLegal m → c' = c)) ∧
    ∀ (x : Command) r c', x.compiles = true → x.run c = .ok (.ok r, c') →
      c'.staged = ∅ ∧ c'.content? = x.update m := by
  refine ⟨fun x hx => ?_, fun x r c' hx hrun => Command.run_contents h.foresees hx hrun⟩
  rcases Command.run_foresees h.foresees hx with ⟨r, c', hrun, hlegal, -⟩
    | ⟨e, c', hrun, hlegal, hc⟩
  · exact ⟨_, _, hrun, by simp [hlegal, Except.isOk, Except.toBool], fun hne => absurd hlegal hne⟩
  · exact ⟨_, _, hrun, by simp [hlegal, Except.isOk, Except.toBool], fun _ => hc⟩

def follow : List Command → Compiler → Contents → Option (Compiler × Contents)
  | [], c, m => some (c, m)
  | x :: xs, c, m =>
    match x.run c with
    | .ok (answer, c') =>
      if x.compiles = true → answer.isOk = true then
        follow xs c' (if answer.isOk = true then x.update m else m)
      else none
    | .error _ => none

theorem History.follow {xs : List Command} {c c' : Compiler} {m m' : Contents} (h : History c m)
    (hxs : Compiler.follow xs c m = some (c', m')) : History c' m' := by
  induction xs generalizing c m with
  | nil =>
    obtain ⟨rfl, rfl⟩ := Prod.mk.inj (Option.some.inj hxs)
    exact h
  | cons x xs ih =>
    rw [Compiler.follow] at hxs
    split at hxs
    · rename_i answer d hrun
      split at hxs
      · rename_i hok
        exact ih (.step h hrun hok) hxs
      · simp at hxs
    · simp at hxs

theorem exists_of_compiled? (h : (compiled? c).isSome = true) :
    ∃ report c', compile c = .ok (.ok report, c') := by
  unfold compiled? at h
  split at h
  · rename_i hrun
    exact ⟨_, _, hrun⟩
  · simp at h

def followFrom (xs : List Command) :
    Except Breach (Except CompileError Compiler) → Option (Compiler × Contents)
  | .ok (.ok c) => follow xs c fun _ => none
  | _ => none

theorem history_of_followFrom {config : Config} {registry : Registry} {schedule : Schedule}
    {xs : List Command} (h : followFrom xs (Compiler.new config registry schedule) = some (c, m)) :
    History c m := by
  rcases hnew : Compiler.new config registry schedule with _ | _ | c₀
  · simp [hnew, followFrom] at h
  · simp [hnew, followFrom] at h
  · rw [hnew] at h
    exact (History.new hnew).follow h

def sampleCommands : List Command :=
  [.create "a" (.text "Class A { }"), .create "a" (.text "Class Z { }"),
    .compileSource "b" (.text "Class B extends A { }"), .delete "a",
    .create "a" (.text "Class A { n: String; }"), .create "c" (.script []), .delete "c"]

/-- A source that has been deleted cannot be modified, and the compile after the commands leaves the
contents that they lead to. -/
theorem sample_refines_contents : ∃ c m answer d r c', History c m ∧ c.staged.names = ["a"] ∧
    m "a" = some (.text "Class A { n: String; }") ∧
    (Command.modify "c" (.script [])).run c = .ok (answer, d) ∧ answer.isOk = false ∧ d = c ∧
    Command.compile.run c = .ok (.ok r, c') ∧ c'.staged = ∅ ∧ c'.content? = m := by
  have hsample : ((followFrom sampleCommands (Compiler.new .sequential Registry.withCore)).any
      fun (c, m) => decide (c.staged.names = ["a"] ∧ m "a" = some (.text "Class A { n: String; }") ∧
        m "c" = none) && (compiled? c).isSome) = true := by
    rw [new, spelledOut.2]
    decide +kernel
  obtain ⟨⟨c, m⟩, hfollow, h⟩ := (Option.any_eq_true _ _).1 hsample
  rw [Bool.and_eq_true, decide_eq_true_eq] at h
  obtain ⟨⟨hnames, ha, hnone⟩, hcompiled⟩ := h
  have hhistory : History c m := history_of_followFrom hfollow
  obtain ⟨hstaging, hcompile⟩ := hhistory.refines_contents
  obtain ⟨answer, d, hrun, hok, hd⟩ := hstaging (.modify "c" (.script [])) rfl
  have hillegal : ¬ (Command.modify "c" (.script [])).IsLegal m := not_not.2 hnone
  obtain ⟨report, c', hreport⟩ := exists_of_compiled? hcompiled
  have hrun' : Command.compile.run c = .ok (.ok (some report), c') := by
    show (Compiler.compile >>= fun report => pure (some report)) c = _
    rw [run_bind, hreport]
    rfl
  obtain ⟨hst, hcontent⟩ := hcompile .compile (some report) c' rfl hrun'
  exact ⟨c, m, answer, d, some report, c', hhistory, hnames, ha, hrun,
    by simpa [hillegal] using hok, hd hillegal, hrun', hst, hcontent⟩

end Histories

end ModelCompiler.Compiler
