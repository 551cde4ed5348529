import ModelCompiler.Compiler.Compile
import ModelCompiler.Proofs.Maintaining

/-!
What the pipeline keeps. Its stages are made up of steps on single nodes and sources, so an
invariant that the steps keep is kept by the stages.
-/
open ModelCompiler.Action

namespace ModelCompiler.Compiler

theorem maintains_validateNode {I : Compiler → Prop} {item : SourceId × NodeId}
    (hask : Maintains I (ask fun d g => d.validator g item.2))
    (hown : ∀ v : Validator, Maintains I (onWorkspace (v.run item.2) : Compiling _))
    (hrule : ∀ rule : VisibilityRule, Maintains I (onWorkspace (rule.run item.2) : Compiling _))
    (hadvance : Maintains I (advance : Compiling Unit)) : Maintains I (validateNode item) := by
  have htail (own : List CompileError) : Maintains I (do
      let rules := (← get).visibility
      let seen ← rules.mapM fun rule => onWorkspace (rule.run item.2)
      advance
      return (own ++ seen.flatten).map (item.1, ·) : Compiling _) :=
    maintains_get_bind fun _ _ => maintains_bind (maintains_mapM fun rule _ => hrule rule)
      fun _ _ => maintains_bind hadvance fun _ _ => maintains_pure trivial
  refine maintains_bind (maintains_attempt hask) fun answer _ => ?_
  cases answer with
  | error e => exact maintains_bind (maintains_pure trivial) fun _ (_ : True) => htail _
  | ok found => exact maintains_bind (hown found.1) fun own _ => htail own

/-- The steps of the pipeline keep `I`. Only elements of sources are unbound, only processors with
`P` are scheduled and run, and only bindings with `B` are found and written. -/
structure KeptBySteps (I : Compiler → Prop) (P : Processor → Prop) (B : Handler.Binding → Prop) :
    Prop where
  unit : ∀ {ε : Type} (id : SourceId) {f : SourceUnit → SourceUnit},
    (∀ unit, (f unit).content = unit.content) →
    Maintains I (modifyUnit id f : Action Compiler ε Unit)
  start : ∀ {ε : Type} (phase : Phase) (total : Nat),
    Maintains I (startProgress phase total : Action Compiler ε Unit)
  advance : ∀ {ε : Type}, Maintains I (advance : Action Compiler ε Unit)
  walk : ∀ id, Maintains I (walkNode id)
  unbind : ∀ removing {c : Compiler} {s x}, I c → x ∈ c.graph.persistentNodes s →
    Maintains I (unbindNode removing x)
  remove : ∀ sources, Maintains I (removeSources sources)
  parse : ∀ id, Maintains I (parseSource id)
  bind : ∀ item, Maintains I (bindNode item) fun answer =>
    ∀ bindings, answer.2 = .ok bindings → ∀ b ∈ bindings, B b
  apply : ∀ {bindings}, (∀ b ∈ bindings, B b) → Maintains I (applyBindings bindings)
  warm : ∀ items, Maintains I (warmUp items)
  processor : ∀ id, Maintains I (ask fun d g => d.processor g id) fun found => P found.1
  process : ∀ {processor} id, P processor → Maintains I (onWorkspace (processor.run id))
  validate : ∀ item, Maintains I (validateNode item)

namespace KeptBySteps

variable {I : Compiler → Prop} {P : Processor → Prop} {B : Handler.Binding → Prop} {ε : Type}
  (h : KeptBySteps I P B)
include h

theorem setState (id : SourceId) (state : SourceState) :
    Maintains I (setState id state : Action Compiler ε Unit) :=
  h.unit id fun _ => rfl

theorem setDiagnostics (id : SourceId) (diagnostics : List CompileError) :
    Maintains I (setDiagnostics id diagnostics : Action Compiler ε Unit) :=
  h.unit id fun _ => rfl

theorem conclude (id : SourceId) (next : SourceState) (errors : List CompileError) (halted : Bool) :
    Maintains I (conclude id next errors halted : Action Compiler ε Unit) := by
  refine maintains_bind (h.setDiagnostics _ _) fun _ _ => ?_
  split
  · exact h.setState _ _
  · exact maintains_pure trivial

section Withdrawing

theorem walkRound (frontier : List NodeId) : Maintains I (walkRound frontier) := by
  refine maintains_get_bind fun c _ => maintains_bind (h.start _ _) fun _ _ =>
    maintains_bind (maintains_poolMapM h.walk _ _ _) fun reached _ => ?_
  split
  · exact maintains_get_bind fun _ _ => maintains_pure trivial
  · exact maintains_throw _

theorem walkRounds : ∀ (fuel : Nat) (claims : Claims SourceId) (frontier : List NodeId),
    Maintains I (walkRounds fuel claims frontier)
  | 0, _, _ => maintains_pure trivial
  | fuel + 1, claims, frontier => by
    unfold Compiler.walkRounds
    split
    · exact maintains_pure trivial
    · exact maintains_bind (h.walkRound _) fun _ _ => maintains_get_bind fun _ _ =>
        maintains_bind (walkRounds fuel _ _) fun _ _ => maintains_pure trivial

theorem dependents (seeds : List SourceId) : Maintains I (dependents seeds) :=
  maintains_get_bind fun _ _ =>
    maintains_bind (h.walkRounds _ _ _) fun _ _ => maintains_pure trivial

theorem unbindSources (sources : List SourceId) (removing : Bool) :
    Maintains I (unbindSources sources removing) := by
  refine maintains_get_bind fun _ _ => maintains_bind (h.start _ _) fun _ _ =>
    maintains_forM fun id _ => maintains_bind (h.setState _ _) fun _ _ =>
      maintains_get_bind fun c hc => maintains_bind (maintains_forM fun x hx => ?_) fun _ _ =>
        maintains_bind (h.setState _ _) fun _ _ => h.setDiagnostics _ _
  exact h.unbind removing hc (List.mem_reverse.1 hx)

theorem withdraw (rebuild changed : List SourceId) : Maintains I (withdraw rebuild changed) :=
  maintains_bind (h.unbindSources _ _) fun _ _ => maintains_bind (h.unbindSources _ _) fun _ _ =>
    h.remove _

end Withdrawing

section Phases

theorem bindPhase (batch : List SourceId) : Maintains I (bindPhase batch) := by
  refine maintains_get_bind fun c _ => maintains_bind (h.start _ _) fun _ _ =>
    maintains_bind (maintains_poolMapM h.bind _ _ _) fun answers hanswers =>
      maintains_bind (maintains_forM fun id _ => ?_) fun _ _ => ?_
  · refine maintains_when (h.apply fun b hb => ?_) fun _ => h.conclude _ _ _ _
    obtain ⟨⟨source, answer⟩, hanswer, hb⟩ := List.mem_flatMap.1 hb
    cases answer with
    | ok bindings => exact hanswers _ (List.mem_filter.1 hanswer).1 bindings rfl b hb
    | error errors => simp at hb
  · split
    · exact maintains_throw _
    · exact maintains_pure trivial

theorem schedule : ∀ items : List (SourceId × NodeId),
    Maintains I (schedule items) fun found => ∀ job ∈ found.1, P job.2.2
  | [] => maintains_pure (by simp)
  | (source, id) :: items => by
    refine maintains_bind (maintains_attempt (h.processor id)) fun answer hanswer => ?_
    cases answer with
    | error e => exact maintains_pure (by simp)
    | ok found =>
      exact maintains_bind (schedule items) fun _ hrest =>
        maintains_pure (List.forall_mem_cons.2 ⟨hanswer _ rfl, hrest⟩)

theorem processAll : ∀ {jobs : List (SourceId × NodeId × Processor)},
    (∀ job ∈ jobs, P job.2.2) → Maintains I (processAll jobs)
  | [], _ => maintains_pure trivial
  | (source, id, processor) :: rest, hjobs => by
    obtain ⟨hp, hrest⟩ := List.forall_mem_cons.1 hjobs
    refine maintains_bind (maintains_attempt (h.process id hp)) fun answer _ => ?_
    cases answer
    all_goals
      refine maintains_bind (R := fun _ => True) (maintains_pure trivial) fun found _ => ?_
      beta_reduce
      split
      · exact maintains_pure trivial
      · exact maintains_bind h.advance fun _ _ =>
          maintains_bind (processAll hrest) fun _ _ => maintains_pure trivial

theorem processPhase (batch : List SourceId) : Maintains I (processPhase batch) := by
  refine maintains_get_bind fun c _ => maintains_bind (h.warm _) fun _ _ =>
    maintains_bind (h.start _ _) fun _ _ => maintains_bind (h.schedule _) fun found hfound => ?_
  obtain ⟨scheduled, _ | failed⟩ := found
  on_goal 1 =>
    have hjobs : ∀ job ∈ inOrder scheduled, P job.2.2 := fun job hjob => by
      rcases List.mem_append.1 hjob with h | h <;> exact hfound _ (List.mem_filter.1 h).1
    refine maintains_bind (h.processAll hjobs) fun found _ => ?_
  on_goal 2 => refine maintains_bind (R := fun _ => True) (maintains_pure trivial) fun found _ => ?_
  all_goals
    refine maintains_bind (maintains_forM fun id _ => h.conclude _ _ _ _) fun _ _ => ?_
    split
    · exact maintains_pure trivial
    · split
      · exact maintains_pure trivial
      · exact maintains_throw _

theorem validateItems (items : List (SourceId × NodeId)) : Maintains I (validateItems items) :=
  maintains_get_bind fun _ _ => maintains_bind (h.start _ _) fun _ _ =>
    maintains_bind (maintains_poolMapM h.validate _ _ _) fun _ _ => maintains_pure trivial

theorem validatePhase (batch : List SourceId) : Maintains I (validatePhase batch) := by
  refine maintains_get_bind fun c _ => maintains_bind (h.validateItems _) fun errors _ =>
    maintains_bind (maintains_forM fun id _ => h.conclude _ _ _ _) fun _ _ => ?_
  split
  · exact maintains_throw _
  · exact maintains_pure trivial

theorem runPhases (batch : List SourceId) : Maintains I (runPhases batch) := by
  unfold Compiler.runPhases
  split
  · exact maintains_pure trivial
  · refine maintains_bind (h.bindPhase _) fun _ _ => maintains_get_bind fun _ _ =>
      maintains_bind (h.processPhase _) fun aborted _ => ?_
    split
    · exact maintains_get_bind fun _ _ =>
        maintains_bind (h.validatePhase _) fun _ _ => maintains_pure trivial
    · exact maintains_pure trivial

end Phases

end KeptBySteps

end ModelCompiler.Compiler
