import ModelCompiler.Proofs.Compiling.Steps

/-!
Declared metamodels can always be dispatched on. All that a client can ask of a compiler is made up
of steps that leave the metamodel alone, so in every state that they lead to its types have the
ancestors that they had at the start, and no look-up for an instance of one of them fails for want
of a lineage.
-/
open ModelCompiler.Action ModelCompiler.Graph

namespace ModelCompiler

open Lineage

namespace Compiler

variable {ε α : Type} {c c' : Compiler} {Q : α → Prop}

/-- The compiler `c` is in a state that steps lead to from the state `c₀`. -/
def Visited (c₀ c : Compiler) : Prop :=
  Relation.ReflTransGen (PipelineStep c₀.graph) c₀ c

section Visits

variable {c₀ : Compiler} (hm : c₀.graph.Charted) (h₀ : c₀.Operable c₀.graph)
include hm h₀

theorem Visited.operable (h : Visited c₀ c) : c.Operable c₀.graph := by
  induction h with
  | refl => exact h₀
  | tail _ hstep ih => exact hstep.operable hm ih

theorem Visited.not_contains (h : Visited c₀ c) {s : SourceId} {x : NodeId}
    (hx : x ∈ c.graph.persistentNodes s) : c₀.graph.contains x = false := by
  have hosts := (h.operable hm h₀).grounded.hosts
  exact hosts.not_contains_of_lifetime? hm ((hosts.persistent_iff s x).1 hx) (by simp)

theorem visits_of_step {act : Action Compiler ε α}
    (hstep : ∀ c r d, act c = .ok (r, d) → PipelineStep c₀.graph c d)
    (hfit : Maintains (Operable c₀.graph) act Q) : Maintains (Visited c₀) act Q :=
  fun c r d hc hrun => ⟨hc.tail (hstep c r d hrun), (hfit c r d (hc.operable hm h₀) hrun).2⟩

section Books

theorem visits_modify {f : Compiler → Compiler} (hf : ∀ c, c.Textual → Booked c (f c)) :
    Maintains (Visited c₀) (modify f : Action Compiler ε PUnit) :=
  maintains_modify fun c hc => hc.tail (.book (hf c (hc.operable hm h₀).textual))

theorem visits_modifyUnit {f : SourceUnit → SourceUnit}
    (hf : ∀ unit : SourceUnit, unit.content.isText = true → (f unit).content.isText = true)
    (id : SourceId) : Maintains (Visited c₀) (modifyUnit id f : Action Compiler ε Unit) :=
  visits_modify hm h₀ fun _ hc => ⟨rfl, rfl, hc.modifyUnit hf id⟩

end Books

theorem visits_steps :
    KeptBySteps (Visited c₀) (Processor.isNative · = true) (·.property = "resolvedNode") where
  unit id _ hf := visits_modifyUnit hm h₀ (fun unit h => by rwa [hf]) id
  start _ _ := visits_modify hm h₀ fun _ hc => ⟨rfl, rfl, hc.sources, hc.staged⟩
  advance := visits_modify hm h₀ fun _ hc => ⟨rfl, rfl, hc.sources, hc.staged⟩
  walk id := visits_of_step hm h₀ (fun _ _ _ => .walk id) (operable_walkNode hm id)
  unbind removing _ _ x hc hx :=
    have hx := hc.not_contains hm h₀ hx
    visits_of_step hm h₀ (fun _ _ _ => .unbind removing x hx) (operable_unbindNode hm removing hx)
  remove sources := visits_of_step hm h₀ (fun _ _ _ => .remove sources)
    (operable_removeSources hm sources)
  parse id := visits_of_step hm h₀ (fun _ _ _ => .parse id) (operable_parseSource hm id)
  bind item := visits_of_step hm h₀ (fun _ _ _ => .bind item) (operable_bindNode hm item)
  apply hb := visits_of_step hm h₀ (fun _ _ _ => .apply _ hb) (operable_applyBindings hm hb)
  warm items := visits_of_step hm h₀ (fun _ _ _ => .warm items) (operable_warmUp hm items)
  processor id := visits_of_step hm h₀ (fun _ _ _ => .schedule id) (operable_processor hm id)
  process id hp := visits_of_step hm h₀ (fun _ _ _ => .process _ id hp)
    (operable_onWorkspace (Processor.maintains_run hm hp id))
  validate item := visits_of_step hm h₀ (fun _ _ _ => .validate item)
    (operable_validateNode hm item)

section Preparing

theorem visits_takeStaged : Maintains (Visited c₀) takeStaged TextualChanges := by
  have hempty : TextualChanges ∅ := fun _ he => absurd he List.not_mem_nil
  refine maintains_bind (maintains_get fun c hc => (hc.operable hm h₀).textual.staged)
    fun c hstaged =>
    maintains_bind (visits_modify hm h₀ fun _ hc => ⟨rfl, rfl, hc.sources, hempty⟩) fun _ _ =>
      maintains_bind (maintains_forM fun e he => ?_) fun _ _ => maintains_pure hstaged
  obtain ⟨id, change⟩ := e
  cases change with
  | create content =>
    have htext : content.isText = true := hstaged _ he content rfl
    exact visits_modify hm h₀ fun _ hc =>
      ⟨rfl, rfl, Catalog.forall_entries_insert hc.sources htext, hc.staged⟩
  | modify content | delete => exact maintains_pure trivial

theorem visits_replaceSources {staged : Catalog Change} (hstaged : TextualChanges staged) :
    Maintains (Visited c₀) (replaceSources staged) := by
  refine maintains_bind (visits_modify hm h₀ fun c hc => ⟨rfl, rfl, ?_, hc.staged⟩) fun _ _ =>
    maintains_forM fun e he => ?_
  · exact List.foldlRecOn (motive := fun sources : Catalog SourceUnit =>
      ∀ e ∈ sources.entries, e.2.content.isText = true) _ Catalog.erase hc.sources
      fun _ h _ _ e he => h e (List.mem_filter.1 he).1
  · obtain ⟨id, change⟩ := e
    cases change with
    | modify content =>
      exact visits_modifyUnit hm h₀ (fun _ _ => hstaged _ he content rfl) id
    | create content | delete => exact maintains_pure trivial

theorem visits_prepare : Maintains (Visited c₀) prepare :=
  have h := visits_steps hm h₀
  maintains_bind (visits_takeStaged hm h₀) fun _ hstaged => maintains_get_bind fun _ _ =>
    maintains_bind (h.dependents _) fun _ _ => maintains_bind (h.withdraw _ _) fun _ _ =>
      maintains_bind (visits_replaceSources hm h₀ hstaged) fun _ _ => maintains_get_bind fun _ _ =>
        maintains_bind (maintains_forM fun id _ => h.parse id) fun _ _ =>
          maintains_get_bind fun _ _ => maintains_pure trivial

end Preparing

section Turns

theorem visits_stage (id : SourceId) {change : Change}
    (hchange : ∀ content ∈ change.content?, content.isText = true) :
    Maintains (Visited c₀) (stage id change) :=
  visits_modify hm h₀ fun _ hc => ⟨rfl, rfl, hc.stage id hchange⟩

theorem visits_createSource (id : SourceId) (text : String) :
    Maintains (Visited c₀) (createSource id (.text text)) := by
  refine maintains_get_bind fun c _ => ?_
  split
  · exact maintains_throw _
  · exact visits_stage hm h₀ id (by split <;> simp [Change.content?, Content.isText])

theorem visits_modifySource (id : SourceId) (text : String) :
    Maintains (Visited c₀) (modifySource id (.text text)) := by
  refine maintains_get_bind fun c _ => ?_
  split
  · split <;> exact visits_stage hm h₀ id (by simp [Change.content?, Content.isText])
  · exact maintains_throw _

theorem visits_deleteSource (id : SourceId) : Maintains (Visited c₀) (deleteSource id) := by
  refine maintains_get_bind fun c hc => ?_
  split
  · split
    · exact visits_stage hm h₀ id (by simp [Change.content?])
    · have htext := (hc.operable hm h₀).textual
      exact maintains_set (hc.tail (.book ⟨rfl, rfl, htext.sources, fun e he =>
        htext.staged e (List.mem_filter.1 he).1⟩))
  · exact maintains_throw _

theorem visits_validateSource (id : SourceId) : Maintains (Visited c₀) (validateSource id) := by
  refine maintains_get_bind fun c _ => ?_
  split
  · exact maintains_throw _
  · split
    · exact maintains_bind ((visits_steps hm h₀).validateItems _) fun _ _ => maintains_pure trivial
    · exact maintains_throw _

theorem visits_turn (turn : Turn) : Maintains (Visited c₀) turn.run := by
  cases turn with
  | validate id =>
    exact maintains_bind (visits_validateSource hm h₀ id) fun _ _ => maintains_pure trivial
  | call call =>
    refine maintains_bind (R := fun _ => True) ?_ fun _ _ => maintains_pure trivial
    cases call with
    | create id text =>
      exact maintains_bind (visits_createSource hm h₀ id text) fun _ _ => maintains_pure trivial
    | modify id text =>
      exact maintains_bind (visits_modifySource hm h₀ id text) fun _ _ => maintains_pure trivial
    | put id text =>
      refine maintains_bind (R := fun _ => True) (maintains_get_bind
        fun c _ => ?_) fun _ _ => maintains_pure trivial
      split
      · exact visits_modifySource hm h₀ id text
      · exact visits_createSource hm h₀ id text
    | delete id =>
      exact maintains_bind (visits_deleteSource hm h₀ id) fun _ _ => maintains_pure trivial
    | compile =>
      refine maintains_bind (R := fun _ => True) ?_ fun _ _ => maintains_pure trivial
      exact maintains_bind (visits_prepare hm h₀) fun _ _ =>
        maintains_bind ((visits_steps hm h₀).runPhases _) fun _ _ =>
          maintains_get_bind fun _ _ => maintains_pure trivial

end Turns

end Visits

section Metamodels

/-- The compiler is one over the registry, in a state that its pipeline leads to. -/
def Over (registry : Registry) (c : Compiler) : Prop :=
  ∃ config schedule c₀, Compiler.new config registry schedule = .ok (.ok c₀) ∧ Visited c₀ c

variable {registry : Registry} {config : Config} {schedule : Schedule} {c₀ : Compiler} {g : Graph}

theorem charted_of_extend {r : Unit} (h : registry.extend Graph.initial = .ok (.ok r, g)) :
    g.Charted :=
  (registry.extend_charted charted_initial).result h

theorem operable_of_new (h : Compiler.new config registry schedule = .ok (.ok c₀))
    (hd : registry.dispatch.Native) : c₀.graph.Charted ∧ c₀.Operable c₀.graph := by
  obtain ⟨r, hextend, hlineage, hdispatch, -, -, hsources, hstaged⟩ := start_of_new h
  have hm := charted_of_extend hextend
  have htextual : c₀.Textual := by
    refine ⟨fun e he => ?_, fun e he => ?_⟩
    · rw [hsources] at he
      exact absurd he List.not_mem_nil
    · rw [hstaged] at he
      exact absurd he List.not_mem_nil
  exact ⟨hm, hdispatch ▸ hd, htextual, hm.hosts, hlineage ▸ recollects_empty _⟩

theorem Over.grounded (h : c.Over registry) (hd : registry.dispatch.Native)
    (hextend : registry.extend Graph.initial = .ok (.ok (), g)) : c.workspace.Grounded g := by
  obtain ⟨config, schedule, c₀, hnew, hvisited⟩ := h
  obtain ⟨hm, h₀⟩ := operable_of_new hnew hd
  obtain ⟨r, hextend', -⟩ := start_of_new hnew
  obtain rfl : c₀.graph = g := (ok_mk_inj (hextend'.symm.trans hextend)).2
  exact (hvisited.operable hm h₀).grounded

theorem Over.turn (h : c.Over registry) (hd : registry.dispatch.Native) {turn : Turn}
    {reply : Reply} {d : Compiler} (hrun : turn.run c = .ok (reply, d)) : d.Over registry := by
  obtain ⟨config, schedule, c₀, hnew, hvisited⟩ := h
  obtain ⟨hm, h₀⟩ := operable_of_new hnew hd
  exact ⟨config, schedule, c₀, hnew, (visits_turn hm h₀ turn c reply d hvisited hrun).1⟩

theorem Over.play {calls : List Call} (hc : c.Over registry) (hd : registry.dispatch.Native)
    (h : Compiler.play calls c = some c') : c'.Over registry := by
  induction calls generalizing c with
  | nil => exact Option.some.inj h ▸ hc
  | cons call calls ih =>
    rw [Compiler.play] at h
    split at h
    · rename_i answer d hrun
      split at h
      · have hturn : (Turn.call call).run c = .ok (answer.map Sum.inl, d) := by
          rw [Turn.run, run_bind, hrun]
          cases answer <;> rfl
        exact ih (hc.turn hd hturn) h
      · simp at h
    · simp at h

/-- Every metamodel that a registry declares can be dispatched on. Its types have ancestors, with no
cycle and no unbound name in the way; with handlers of the core, they have the same ones in every
state that the pipeline leads to, whatever is remembered there. The look-ups for a node with a
classifier of the metamodel end in a handler or, where an element of a source needs one that is not
there, in the error that says so. -/
theorem metamodel_dispatchable (h : registry.extend Graph.initial = .ok (.ok (), g)) :
    (∀ k, g.lifetime? k = some .bootstrap → ∃ as, Settles g ∅ k as ∧
      (registry.dispatch.Native → ∀ c : Compiler, c.Over registry →
        Settles c.graph c.workspace.lineage k as)) ∧
    (registry.dispatch.Native → ∀ c : Compiler, c.Over registry →
      (∀ id k, c.graph.classifier? id = some k → c.graph.lifetime? k = some .bootstrap →
        c.dispatch.Decides c.graph c.workspace.lineage id) ∧
      ∀ turn reply d, Turn.run turn c = .ok (reply, d) → d.Over registry) := by
  have hm := charted_of_extend h
  refine ⟨fun k hk => ?_, fun hd c hc => ⟨fun id k hid hk => ?_, fun turn reply d => hc.turn hd⟩⟩
  · have hin : g.contains k = true := contains_of_lifetime? hk
    obtain ⟨as, has⟩ := hm.lineal k hin
    refine ⟨as, settles_of_lineal hm hm.hosts.toBears (recollects_empty g) has hin,
      fun hd c hc => ?_⟩
    have hw := hc.grounded hd h
    exact settles_of_lineal hm hw.hosts.toBears hw.recollects has hin
  · have hw := hc.grounded hd h
    exact Dispatch.decides hm hw.hosts.toBears hw.recollects hid
      (hw.hosts.bootstrap k hk) c.dispatch

def shopRegistry : Registry :=
  { Registry.withCore with
    classifiers := [⟨.ofValid "shop::Entity".toList (by decide), [Metamodel.class_]⟩,
      ⟨.ofValid "shop::Ledger".toList (by decide),
        [.ofValid "shop::Entity".toList (by decide), Metamodel.enumeration]⟩]
    backReferences := ["entries"] }

/-- The second of them and an instance of it, after a compile. -/
theorem metamodel_dispatchable_shop : ∃ (g : Graph) (c : Compiler),
    shopRegistry.extend Graph.initial = .ok (.ok (), g) ∧ c.Over shopRegistry ∧
      c.graph.classifier? 47 = some 42 ∧ Settles g ∅ 42 [41, 11, 9, 8, 6, 5] ∧
    Settles c.graph c.workspace.lineage 42 [41, 11, 9, 8, 6, 5] ∧
    c.dispatch.Decides c.graph c.workspace.lineage 47 := by
  have heval : ((playFrom (Compiler.new .sequential shopRegistry)
      [.create "books" "Class shop::Item { n: String; }\nElement shop::Ledger shop::Main",
        .compile]).any fun c => decide (c.graph.classifier? 47 = some 42 ∧
          c.graph.lifetime? 42 = some .bootstrap ∧
          ((ancestors c.graph 42).run.run c.workspace.lineage).1.toOption =
            some [41, 11, 9, 8, 6, 5])) = true := by
    rw [new, spelledOut.2]
    decide +kernel
  obtain ⟨c, hplay, h⟩ := (Option.any_eq_true _ _).1 heval
  obtain ⟨hid, hk, hanswer⟩ := of_decide_eq_true h
  obtain ⟨c₀, hnew, hplay⟩ := exists_play hplay
  obtain ⟨r, hextend, -⟩ := start_of_new hnew
  have hd : shopRegistry.dispatch.Native := by
    simp only [shopRegistry, withCore_dispatch]
    exact Dispatch.native_coreDispatch
  have hc : c.Over shopRegistry := Over.play ⟨_, _, c₀, hnew, .refl⟩ hd hplay
  have hk₀ := (charted_of_extend hextend).lifetime? ((hc.grounded hd hextend).hosts.bootstrap 42 hk)
  obtain ⟨hsettles, hdecides⟩ := metamodel_dispatchable hextend
  obtain ⟨as, hstart, hlater⟩ := hsettles 42 hk₀
  obtain rfl : as = [41, 11, 9, 8, 6, 5] := by
    rw [(hlater hd c hc).answer] at hanswer
    exact Option.some.inj hanswer
  exact ⟨c₀.graph, c, hextend, hc, hid, hstart, hlater hd c hc, (hdecides hd c hc).1 47 42 hid hk⟩

end Metamodels

end Compiler

end ModelCompiler
