import ModelCompiler.Proofs.Slots.Phases

/-!
The workers do not show.
-/
open ModelCompiler.Action ModelCompiler.Graph

namespace ModelCompiler

def Schedule.backward : Schedule where
  order _ n := (List.range n).reverse
  perm _ n := List.reverse_perm (List.range n)

def Config.eager : Config :=
  { workerThreads := some 2, bindThreshold := 1, processThreshold := 1, validateThreshold := 1,
    walkThreshold := 1 }

theorem Catalog.map_relabel_id (sources : Catalog SourceUnit) :
    sources.map (SourceUnit.relabel id) = sources := by
  simp [Catalog.map, SourceUnit.relabel]

namespace Compiler

variable {c d : Compiler}

structure Same (c d : Compiler) : Prop where
  graph : d.graph = c.graph
  sources : d.sources = c.sources
  staged : d.staged = c.staged
  factories : d.factories = c.factories
  audits : d.config.checkConsistency = c.config.checkConsistency

/-- Sane compilers that are the same up to their workers and to what they remember. -/
structure Twin (c d : Compiler) : Prop extends Same c d where
  left : c.Sane fun _ => True
  right : d.Sane fun _ => True

theorem Twin.of_sane (hc : c.Sane fun _ => True) (hd : d.Sane fun _ => True) (h : Same c d) :
    Twin c d :=
  ⟨h, hc, hd⟩

/-- Two compilers with the same state, both ready for the next call. -/
structure SameReady (c d : Compiler) : Prop extends Same c d where
  left : c.Ready fun _ => True
  right : d.Ready fun _ => True

theorem SameReady.alongside (h : SameReady c d) : Alongside True id c d where
  graph := h.graph ▸ Graph.InStep.refl trivial c.graph
  sources := by rw [Catalog.map_relabel_id, h.sources]
  staged := h.staged
  left := h.left
  right := h.right

theorem Alongside.observe_eq (h : Alongside True id c d) (turns : List Turn) :
    Compiler.observe turns d = Compiler.observe turns c := by
  induction turns generalizing c d with
  | nil => rfl
  | cons turn turns ih =>
    have hsame {c' d' : Compiler} (h : Alongside True id c' d') : d'.graph = c'.graph ∧
        d'.sources = c'.sources ∧ d'.staged = c'.staged :=
      ⟨(h.graph.same trivial).2, h.sources.trans (Catalog.map_relabel_id _), h.staged⟩
    have hturn := turn.run_matched h
    rw [Compiler.observe, Compiler.observe]
    generalize turn.run c = left at *
    generalize turn.run d = right at *
    cases hturn with
    | breach hb => rw [hb trivial]
    | error hx h | ok hx h => simp only [hx, ih h, hsame h]

theorem SameReady.observe_eq (h : SameReady c d) (turns : List Turn) :
    observe turns d = observe turns c :=
  h.alongside.observe_eq turns

/-- How much work is done at once, and in which order, makes no difference: two valid configurations
that agree on the audit give compilers with the same answers to the same turns, at every turn, and
with the same graph, sources and staged changes after it. -/
theorem observe_schedule_independent {config config' : Config} (hconfig : config.check = .ok ())
    (hconfig' : config'.check = .ok ())
    (haudits : config'.checkConsistency = config.checkConsistency) (schedule schedule' : Schedule) :
    ∃ c c', Compiler.new config Registry.withCore schedule = .ok (.ok c) ∧
      Compiler.new config' Registry.withCore schedule' = .ok (.ok c') ∧
      ∀ turns, observe turns c' = observe turns c := by
  obtain ⟨c, hc, hof⟩ := exists_new hconfig schedule
  obtain ⟨c', hc', hof'⟩ := exists_new hconfig' schedule'
  have hany : ∀ k, initial.contains k = true → True := fun _ _ => trivial
  obtain ⟨hs, hg, hsources, hstaged⟩ := new_sane hany hc
  obtain ⟨hs', hg', hsources', hstaged'⟩ := new_sane hany hc'
  refine ⟨c, c', hc, hc', SameReady.observe_eq
    ⟨⟨?_, ?_, ?_, ?_, ?_⟩, hs.ready hstaged, hs'.ready hstaged'⟩⟩
  · rw [hg, hg']
  · rw [hsources, hsources']
  · rw [hstaged, hstaged']
  · rw [hs.factories, hs'.factories]
  · rw [hof, hof', haudits]

theorem eager_schedule_independent :
    Config.sequential.check = .ok () ∧ Config.eager.check = .ok () ∧
    ∃ c c', Compiler.new .sequential Registry.withCore .inTurn = .ok (.ok c) ∧
      Compiler.new .eager Registry.withCore .backward = .ok (.ok c') ∧
      ∀ turns, observe turns c' = observe turns c :=
  ⟨by decide, by decide, observe_schedule_independent (by decide) (by decide)
    (by decide) .inTurn .backward⟩

end Compiler

end ModelCompiler
