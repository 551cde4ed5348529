import ModelCompiler.Proofs.Handling.Rules

/-!
What validators find.
-/
open ModelCompiler.Action ModelCompiler.Graph ModelCompiler.Lineage

namespace ModelCompiler

namespace Handler

theorem exists_of_answer {α : Type} {q : Query α} {Q : α → Lineage → Prop}
    {E : CompileError → Lineage → Prop} (hq : Gives q ∅ Q E) {a : α} (h : Query.answer q = .ok a) :
    ∃ l, Q a l :=
  ⟨(q.run.run ∅).2, by rwa [Gives, Recalls, show (q.run.run ∅).1 = .ok a from h] at hq⟩

theorem exists_of_answer_error {α : Type} {q : Query α} {Q : α → Lineage → Prop}
    {E : CompileError → Lineage → Prop} (hq : Gives q ∅ Q E) {e : CompileError}
    (h : Query.answer q = .error e) : ∃ l, E e l :=
  ⟨(q.run.run ∅).2, by rwa [Gives, Recalls, show (q.run.run ∅).1 = .error e from h] at hq⟩

variable {g : Graph} (hc : g.Closed) (hi : g.Issued) {id : NodeId}
include hc hi

theorem kindErrors_steady (kind ty : NodeId) (error : CompileError) :
    Steady g (kindErrors g kind ty error) := by
  refine (isInstance_steady hc hi ty kind).bind ?_
  split <;> exact steady_pure _

theorem Association.isClass_steady (ty : NodeId) : Steady g (Association.isClass g ty).run := by
  unfold Association.isClass
  split
  · exact isInstance_steady hc hi ty _
  · exact steady_pure _

theorem Class.generalizationErrors_steady (kind stub : NodeId) :
    Steady g (Class.generalizationErrors g kind id stub) := by
  unfold Class.generalizationErrors
  split
  · exact steady_pure _
  · exact kindErrors_steady hc hi _ _ _

theorem Class.propertyErrors_steady (kind : NodeId) (p : NodeId × Bool) :
    Steady g (Class.propertyErrors g kind id p) := by
  unfold Class.propertyErrors
  simp only
  split
  · exact steady_pure _
  · exact (kindErrors_steady hc hi _ _ _).bind (steady_pure _)

theorem Class.validate_steady (ha : Steady g (ancestors g id).run) :
    Steady g (Class.validate g id) := by
  unfold Class.validate
  split
  · exact steady_pure _
  · refine (mapM_answers fun stub _ => generalizationErrors_steady hc hi _ stub).1.bind ?_
    refine (mapM_answers fun p _ => propertyErrors_steady hc hi _ p).1.bind ?_
    exact ha.bind (steady_pure _)

theorem Association.endErrors_steady (e : NodeId × Option NodeId) :
    Steady g (Association.endErrors g id e) := by
  obtain ⟨property, _ | ty⟩ := e
  · exact steady_pure _
  · refine (isClass_steady hc hi ty).bind ?_
    split <;> exact steady_pure _

theorem Association.validate_steady : Steady g (Association.validate g id) :=
  (mapM_answers fun e _ => endErrors_steady hc hi e).1.bind (steady_pure _)

theorem Function.validate_steady : Steady g (Function.validate g id) := by
  unfold Function.validate
  split
  · exact steady_pure _
  · exact (mapM_answers fun use _ => kindErrors_steady hc hi _ use.2 _).1.bind (steady_pure _)

theorem Class.answer_validate {kind : NodeId} (hkind : g.lookup Metamodel.type = some kind)
    (hid : g.contains id = true) : answer (Class.validate g id) =
      ((g.values id "generalizations").map fun stub =>
        answer (Class.generalizationErrors g kind id stub)).flatten ++
      ((flagRepeats g [] (g.values id "properties")).map fun r =>
        answer (Class.propertyErrors g kind id r)).flatten ++
      match Query.answer (ancestors g id) with
        | .ok as => (g.values id "properties").filterMap (Class.overrideError? g id as)
        | .error x => [x] := by
  have hgenerals := mapM_answers (f := Class.generalizationErrors g kind id)
    fun stub (_ : stub ∈ g.values id "generalizations") =>
      Class.generalizationErrors_steady hc hi kind stub
  have hdeclared := mapM_answers (f := Class.propertyErrors g kind id)
    fun r (_ : r ∈ flagRepeats g [] (g.values id "properties")) =>
      Class.propertyErrors_steady hc hi kind r
  have hancestors (f : Except CompileError (List NodeId) → List CompileError) :
      Steady g ((ancestors g id).run >>= fun r => pure (f r)) :=
    (ancestors_answers hc hi hid).1.bind (steady_pure _)
  rw [Class.validate, hkind]
  simp only
  rw [answer_bind hgenerals.1 (hdeclared.1.bind (hancestors _)),
    answer_bind hdeclared.1 (hancestors _), answer_bind_pure, hgenerals.2, hdeclared.2]
  rfl

section Blame

variable {e error : CompileError} {kind ty : NodeId}

theorem blame_kindErrors (herror : error.blame = .user)
    (h : e ∈ answer (kindErrors g kind ty error)) : e.blame = .user := by
  rw [kindErrors, answer_bind (isInstance_steady hc hi ty kind)
    (by split <;> exact steady_pure _)] at h
  cases hr : Query.answer (isInstance g ty kind) with
  | error x =>
    obtain ⟨-, hblame, -⟩ :=
      exists_of_answer_error (isInstance_gives hc hi ty kind (valid_empty g)) hr
    rw [show answer (isInstance g ty kind).run = .error x from hr] at h
    exact List.mem_singleton.1 h ▸ hblame
  | ok b =>
    rw [show answer (isInstance g ty kind).run = .ok b from hr] at h
    cases b with
    | true => simp at h
    | false => exact List.mem_singleton.1 h ▸ herror

omit hc hi in
theorem Class.blame_overrideError? {as : List NodeId} {property : NodeId}
    (h : Class.overrideError? g id as property = some e) : e.blame = .user := by
  simp only [overrideError?, bind, Option.bind_eq_some_iff] at h
  obtain ⟨_, -, ⟨_, _⟩, -, _, -, h⟩ := h
  split at h
  · simp at h
  · exact Option.some.inj h ▸ rfl

theorem Class.blame_validate (hid : g.contains id = true) (h : e ∈ answer (Class.validate g id)) :
    e.blame = .user := by
  cases hkind : g.lookup Metamodel.type with
  | none => simp [Class.validate, hkind] at h
  | some kind =>
    rw [answer_validate hc hi hkind hid, List.mem_append, List.mem_append, List.mem_flatten,
      List.mem_flatten] at h
    rcases h with (⟨_, hmem, h⟩ | ⟨_, hmem, h⟩) | h
    · obtain ⟨stub, -, rfl⟩ := List.mem_map.1 hmem
      unfold generalizationErrors at h
      split at h
      · simp at h
      · exact blame_kindErrors hc hi rfl h
    · obtain ⟨⟨property, repeats⟩, -, rfl⟩ := List.mem_map.1 hmem
      have htwice (name : String) {x : CompileError} (hx : x ∈ if repeats then
          [CompileError.constraintValidation (g.spanOf property) name] else []) :
          x.blame = .user := by
        split at hx
        · exact List.mem_singleton.1 hx ▸ rfl
        · simp at hx
      unfold propertyErrors at h
      simp only at h
      split at h
      · exact htwice _ h
      · rcases List.mem_append.1 h with h | h
        · exact htwice _ h
        · exact blame_kindErrors hc hi rfl h
    · split at h
      · obtain ⟨property, -, h⟩ := List.mem_filterMap.1 h
        exact blame_overrideError? h
      · rename_i x hx
        obtain ⟨-, hblame, -⟩ :=
          exists_of_answer_error (ancestors_gives hc hi hid (valid_empty g)) hx
        exact List.mem_singleton.1 h ▸ hblame

theorem Association.blame_endErrors {x : NodeId × Option NodeId}
    (h : e ∈ answer (Association.endErrors g id x)) : e.blame = .user := by
  obtain ⟨property, _ | ty⟩ := x
  · simp [endErrors] at h
  · unfold endErrors isClass at h
    dsimp only at h
    cases hk : g.lookup Metamodel.class_ with
    | none =>
      rw [hk] at h
      exact List.mem_singleton.1 h ▸ rfl
    | some kind =>
      rw [hk] at h
      exact blame_kindErrors hc hi rfl h

theorem Association.blame_validate (h : e ∈ answer (Association.validate g id)) :
    e.blame = .user := by
  rw [Association.validate, answer_bind_pure,
    (mapM_answers fun x _ => endErrors_steady hc hi x).2] at h
  rcases List.mem_append.1 h with h | h
  · split at h
    · simp at h
    · exact List.mem_singleton.1 h ▸ rfl
  · obtain ⟨_, hmem, h⟩ := List.mem_flatten.1 h
    obtain ⟨x, -, rfl⟩ := List.mem_map.1 hmem
    exact blame_endErrors hc hi h

theorem Function.blame_validate (h : e ∈ answer (Function.validate g id)) : e.blame = .user := by
  unfold Function.validate at h
  split at h
  · simp at h
  · rw [answer_bind_pure, (mapM_answers fun use _ => kindErrors_steady hc hi _ use.2 _).2] at h
    rcases List.mem_append.1 h with h | h
    · obtain ⟨_, -, rfl⟩ := List.mem_map.1 h
      rfl
    · obtain ⟨_, hmem, h⟩ := List.mem_flatten.1 h
      obtain ⟨_, -, rfl⟩ := List.mem_map.1 hmem
      exact blame_kindErrors hc hi rfl h

omit hc hi in
theorem blame_accessErrors (h : e ∈ accessErrors g id) : e.blame = .user := by
  have hlevels (message : String) (h : e ∈ if (accessLevels g id).length > 1 then
      [CompileError.constraintValidation (g.spanOf id) message] else []) : e.blame = .user := by
    split at h
    · exact List.mem_singleton.1 h ▸ rfl
    · simp at h
  unfold accessErrors at h
  dsimp only at h
  cases hv : g.packagePath? id with
  | none =>
    rw [hv] at h
    exact hlevels _ h
  | some viewer =>
    rw [hv] at h
    rcases List.mem_append.1 h with h | h
    · exact hlevels _ h
    · obtain ⟨stub, -, h⟩ := List.mem_filterMap.1 h
      unfold accessError? at h
      split at h
      · split at h
        · split at h
          · simp at h
          · exact Option.some.inj h ▸ rfl
        · simp at h
      · simp at h

end Blame

end Handler

def Validator.verdict (g : Graph) (id : NodeId) : Validator → List CompileError
  | .class_ => answer (Handler.Class.validate g id)
  | .association => answer (Handler.Association.validate g id)
  | .enumeration => Handler.Enumeration.validate g id
  | .function => answer (Handler.Function.validate g id)
  | _ => []

theorem Validator.blame_verdict {g : Graph} (hc : g.Closed) (hi : g.Issued) {id : NodeId}
    (hid : g.contains id = true) {v : Validator} {e : CompileError} (h : e ∈ v.verdict g id) :
    e.blame = .user := by
  cases v with
  | class_ => exact Handler.Class.blame_validate hc hi hid h
  | association => exact Handler.Association.blame_validate hc hi h
  | function => exact Handler.Function.blame_validate hc hi h
  | enumeration =>
    obtain ⟨_, -, rfl⟩ := List.mem_map.1 h
    rfl
  | idle | recipe => simp [verdict] at h

section Verdicts

variable {K : NodeId → Prop} {w : Workspace} {id : NodeId} {ε : Type} {E : ε → Workspace → Prop}

theorem Work.inspect_steady {α : Type} {f : Graph → StateM Lineage α}
    (hs : Steady w.graph (f w.graph))
    (hl : w.lineage.Valid w.graph) : Ensures (Work.inspect f : Work ε α) w
      (fun a w' => a = answer (f w.graph) ∧ ∃ l, w' = { w with lineage := l } ∧ l.Valid w.graph)
      E :=
  Work.inspect_ensures ((hs _ hl).mono fun _ l h => ⟨h.1, l, rfl, h.2⟩)

theorem Validator.run_ensures (hw : w.Orderly K) (hid : w.graph.contains id = true)
    {v : Validator} (hv : ∀ r, v ≠ .recipe r) : Ensures (v.run id : Work ε _) w
      (fun errors w' => errors = v.verdict w.graph id ∧
        ∃ l, w' = { w with lineage := l } ∧ l.Valid w.graph) E := by
  have hc := hw.tidy.toClosed
  have hi := hw.tidy.issued
  cases v with
  | idle => exact ensures_pure ⟨rfl, w.lineage, rfl, hw.valid⟩
  | class_ =>
    exact Work.inspect_steady (f := fun g => Handler.Class.validate g id)
      (Handler.Class.validate_steady hc hi (ancestors_answers hc hi hid).1) hw.valid
  | association =>
    exact Work.inspect_steady (f := fun g => Handler.Association.validate g id)
      (Handler.Association.validate_steady hc hi) hw.valid
  | enumeration =>
    exact ensures_bind (Work.graph_ensures (ensures_pure ⟨rfl, w.lineage, rfl, hw.valid⟩))
  | function =>
    exact Work.inspect_steady (f := fun g => Handler.Function.validate g id)
      (Handler.Function.validate_steady hc hi) hw.valid
  | recipe r => exact absurd rfl (hv r)

end Verdicts

end ModelCompiler
