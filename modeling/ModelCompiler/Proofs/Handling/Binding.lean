import ModelCompiler.Proofs.Handling.Processing

/-!
What names mean, and binding stubs to it.
-/
open ModelCompiler.Action ModelCompiler.Graph ModelCompiler.Workspace

namespace ModelCompiler

namespace Resolution

variable {g : Graph} {stub id : NodeId} {identifier : String}

theorem named_elementAt? (hi : g.Indexed) {path : String} (h : elementAt? g path = some id) :
    g.Named id := by
  obtain ⟨hlookup, hp⟩ := Option.filter_eq_some_iff.1 h
  obtain ⟨p, -, hp'⟩ := Option.bind_eq_some_iff.1 hlookup
  exact ⟨⟨p, (hi.lookup_iff p id).1 hp'⟩, by simpa using hp⟩

theorem orUnresolved_cases {found : Option NodeId} (hfound : ∀ id, found = some id → g.Named id) :
    (∃ id, orUnresolved g stub identifier found = .ok id ∧ g.Named id) ∨
      ∃ e, orUnresolved g stub identifier found = .error e ∧ e.blame = .user := by
  cases found with
  | some id => exact .inl ⟨id, rfl, hfound id rfl⟩
  | none => exact .inr ⟨_, rfl, rfl⟩

theorem resolveBare_cases (hi : g.Indexed) (stub : NodeId) (identifier : String) :
    (∃ id, resolveBare g stub identifier = .ok id ∧ g.Named id) ∨
      ∃ e, resolveBare g stub identifier = .error e ∧ e.blame = .user := by
  have hmatch : ∀ id ∈ matching g stub identifier, g.Named id := fun id h => by
    obtain ⟨package, -, h⟩ := List.mem_filterMap.1 (List.mem_eraseDups.1 h)
    exact named_elementAt? hi h
  unfold resolveBare
  split
  · exact orUnresolved_cases fun id h => named_elementAt? hi h
  · rename_i id h
    exact .inl ⟨id, rfl, hmatch id (by simp [h])⟩
  · exact .inr ⟨_, rfl, rfl⟩

theorem resolve_cases (hi : g.Indexed) (stub : NodeId) :
    (∃ id, resolve g stub = .ok id ∧ g.Named id) ∨
      ∃ e, resolve g stub = .error e ∧ e.blame = .user := by
  unfold resolve
  simp only
  split
  · exact orUnresolved_cases fun id h => named_elementAt? hi h
  · split
    · split
      · rename_i id h
        exact .inl ⟨id, rfl, named_elementAt? hi h⟩
      · exact resolveBare_cases hi _ _
    · exact resolveBare_cases hi _ _

end Resolution

namespace Handler

variable {K R : NodeId → Prop} {g : Graph} {w : Workspace} {id : NodeId} {s : SourceId}
  {bindings bs : List Binding}

structure Binds (g : Graph) (id : NodeId) (b : Binding) : Prop where
  property : b.property = "resolvedNode"
  lifetime : g.lifetime? b.node = some (.ephemeral id)
  stub : g.isImportStub b.node = true
  named : g.Named b.value

theorem Binds.congr {h : Graph} {b : Binding} (hb : Binds g id b) (e : h.frame = g.frame) :
    Binds h id b where
  property := hb.property
  lifetime := by rw [lifetime?_congr e, hb.lifetime]
  stub := by rw [isImportStub_congr e, hb.stub]
  named := hb.named.congr e

theorem binds_of_ok (hi : g.Indexed)
    (h : bindElement g id = .ok bindings) : ∀ b ∈ bindings, Binds g id b := by
  unfold bindElement at h
  simp only at h
  split at h
  · obtain rfl := Except.ok.inj h
    intro b hb
    obtain ⟨a, ha, hb⟩ := List.mem_filterMap.1 hb
    obtain ⟨stub, hstub, rfl⟩ := List.mem_map.1 ha
    obtain ⟨howned, hstub⟩ := List.mem_filter.1 hstub
    obtain ⟨target, htarget, hnamed⟩ | ⟨e, he, -⟩ := Resolution.resolve_cases hi stub
    · obtain rfl : ⟨stub, "resolvedNode", target⟩ = b := by simpa [htarget] using hb
      exact ⟨rfl, ((hi.owned_iff id stub).1 howned).1, by simp_all, hnamed⟩
    · simp [he] at hb
  · simp at h

theorem resolve_of_ok (h : bindElement g id = .ok bindings) :
    ∀ b ∈ bindings, Resolution.resolve g b.node = .ok b.value := by
  unfold bindElement at h
  simp only at h
  split at h
  · obtain rfl := Except.ok.inj h
    intro b hb
    obtain ⟨a, ha, hb⟩ := List.mem_filterMap.1 hb
    obtain ⟨stub, -, rfl⟩ := List.mem_map.1 ha
    cases hr : Resolution.resolve g stub with
    | ok target =>
      obtain rfl : ⟨stub, "resolvedNode", target⟩ = b := by simpa [hr] using hb
      exact hr
    | error e => simp [hr] at hb
  · simp at h

theorem blame_of_error (hi : g.Indexed) {errors : List CompileError}
    (h : bindElement g id = .error errors) : ∀ e ∈ errors, e.blame = .user := by
  unfold bindElement at h
  simp only at h
  split at h
  · simp at h
  · obtain rfl := Except.error.inj h
    intro e he
    obtain ⟨a, ha, he⟩ := List.mem_filterMap.1 he
    obtain ⟨stub, -, rfl⟩ := List.mem_map.1 ha
    obtain ⟨target, htarget, -⟩ | ⟨e', he', hblame⟩ := Resolution.resolve_cases hi stub
    · simp [htarget] at he
    · obtain rfl : e' = e := by simpa [he'] using he
      exact hblame

theorem binds_openStubs (h : bindElement g id = .ok bindings)
    {stub : NodeId} (hs : stub ∈ openStubs g id) : ∃ b ∈ bindings, b.node = stub := by
  unfold bindElement at h
  simp only at h
  split at h
  · rename_i hempty
    obtain rfl := Except.ok.inj h
    cases ha : Resolution.resolve g stub with
    | ok target =>
      refine ⟨⟨stub, "resolvedNode", target⟩,
        List.mem_filterMap.2 ⟨(stub, .ok target), ?_, rfl⟩, rfl⟩
      exact List.mem_map.2 ⟨stub, hs, by rw [ha]⟩
    | error e =>
      have hnone := List.filterMap_eq_nil_iff.1 (List.isEmpty_iff.1 hempty)
        (stub, .error e) (List.mem_map.2 ⟨stub, hs, by rw [ha]⟩)
      simp at hnone
  · simp at h

def Answers (g : Graph) (id : NodeId) : Except (List CompileError) (List Binding) → Prop
  | .ok bindings => (∀ b ∈ bindings, Binds g id b) ∧
      (g.Propertied id → ∀ stub ∈ openStubs g id, ∃ b ∈ bindings, b.node = stub)
  | .error errors => errors ≠ []

theorem Binder.run_ensures (hi : w.graph.Indexed) {b : Binder} (hb : ∀ r, b ≠ .recipe r)
    (ha : w.graph.Propertied id → b = .element) :
    Ensures (b.run id) w (fun bindings w' => w' = w ∧ Answers w.graph id (.ok bindings))
      fun errors w' => (w' = w ∧ ∀ e ∈ errors, e.blame = .user) ∧
        Answers w.graph id (.error errors) := by
  cases b with
  | idle => exact ensures_pure ⟨rfl, by simp, fun h => by simpa using ha h⟩
  | element =>
    refine ensures_bind (Work.graph_ensures ?_)
    cases h : bindElement w.graph id with
    | ok bindings => exact ensures_pure ⟨rfl, binds_of_ok hi h, fun _ _ => binds_openStubs h⟩
    | error errors =>
      refine ensures_throw ⟨⟨rfl, blame_of_error hi h⟩, ?_⟩
      rintro rfl
      simp only [bindElement] at h
      split at h
      · simp at h
      · rename_i hne
        exact hne (List.isEmpty_iff.2 (Except.error.inj h))
  | recipe r => exact absurd rfl (hb r)

structure Bindings (bindings : List Binding) (g g' : Graph) : Prop where
  frame : g'.frame = g.frame
  values : ∀ j q, q ≠ "resolvedNode" → g'.values j q = g.values j q
  bound : ∀ m, (g.values m "resolvedNode" ≠ [] ∨ ∃ b ∈ bindings, b.node = m) →
    g'.values m "resolvedNode" ≠ []

theorem Bindings.refl (g : Graph) : Bindings [] g g :=
  ⟨rfl, fun _ _ _ => rfl, by simp⟩

theorem Bindings.trans {bs' : List Binding} {g' g'' : Graph} (h : Bindings bs g g')
    (h' : Bindings bs' g' g'') : Bindings (bs ++ bs') g g'' where
  frame := h'.frame.trans h.frame
  values j q hq := (h'.values j q hq).trans (h.values j q hq)
  bound m hm := by
    apply h'.bound
    rcases hm with hm | ⟨b, hb, rfl⟩
    · exact .inl (h.bound m (.inl hm))
    · rcases List.mem_append.1 hb with hb | hb
      · exact .inl (h.bound _ (.inr ⟨b, hb, rfl⟩))
      · exact .inr ⟨b, hb, rfl⟩

theorem Bindings.concat {g' : Graph} (h : Bindings bs g g') {b : Binding}
    (hb : g'.contains b.node = true) :
    Bindings (bs ++ [b]) g ((g'.purge b.node "resolvedNode").link b.node "resolvedNode"
      b.value) := by
  have hlive : (g'.purge b.node "resolvedNode").contains b.node = true := by
    rwa [contains_congr (frame_purge _ _ _)]
  refine h.trans ⟨(frame_link _ _ _ _).trans (frame_purge _ _ _), fun j q hq => ?_, fun m hm => ?_⟩
  · rw [values_link hlive, if_neg fun h => hq h.2, values_purge, if_neg fun h => hq h.2]
  · rw [values_link hlive]
    split
    · simp
    · rename_i hne
      rw [values_purge, if_neg hne]
      refine hm.resolve_right fun h' => hne ?_
      simpa [eq_comm] using h'

theorem applyAll_ensures (hw : w.Orderly K)
    (hb : ∀ b ∈ bindings, ∃ id s, R id ∧ w.graph.lifetime? id = some (.persistent s) ∧
      Binds w.graph id b) {ε : Type} {E : ε → Workspace → Prop} :
    Ensures (bindings.forM fun b => Work.update b.apply) w
      (fun _ w' => Worked K R w w' ∧ Bindings bindings w.graph w'.graph) E := by
  refine ensures_forM (I := fun done w' => Worked K R w w' ∧ Bindings done w.graph w'.graph)
    ⟨hw.worked, .refl w.graph⟩ fun b hmem done w' h => ?_
  obtain ⟨hworked, hbound⟩ := h
  have e := hbound.frame
  obtain ⟨id, s, hid, hl, hbinds⟩ := hb b hmem
  have hbinds := hbinds.congr e
  have hid' : w'.graph.lifetime? id = some (.persistent s) := by rwa [lifetime?_congr e]
  have hr := hworked.orderly.tidy.toRegular
  have hlive := contains_of_lifetime? hbinds.lifetime
  have hq : "resolvedNode" ∈ Metamodel.derived := by simp [Metamodel.derived]
  refine Work.update_ensures (g := (w'.graph.purge b.node "resolvedNode").link b.node
    "resolvedNode" b.value) ?_ ⟨?_, hbound.concat hlive⟩
  · rw [Binding.apply, hbinds.property, Work.setValues_single hlive hbinds.named.contains]
  · refine hworked.setValue hid hq (hr.forward (by simp) (by simp) (by simp))
      (ownerRoot?_part hbinds.lifetime) ?_ hlive hbinds.named.contains (by simp)
    exact fits_derived hq (ruled_resolvedNode hbinds.stub hbinds.named)
      (hr.not_implicit hbinds.named)
      (.inr ⟨s, sourceOf?_eq_some_iff.2 (.inr ⟨id, hbinds.lifetime, hid'⟩)⟩)
      fun h => absurd h (hr.not_isType_of_named hbinds.named)

end Handler

end ModelCompiler
