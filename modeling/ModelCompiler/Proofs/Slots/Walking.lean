import ModelCompiler.Proofs.Compiling.Sessions
import ModelCompiler.Proofs.Compiling.Transitive
import ModelCompiler.Proofs.Slots.Handling

/-!
Compilers in step.
-/
open ModelCompiler.Action ModelCompiler.Graph ModelCompiler.Lineage

namespace ModelCompiler

def SourceUnit.relabel (π : NodeId → NodeId) (unit : SourceUnit) : SourceUnit :=
  { unit with importGroups := unit.importGroups.map π }

namespace Catalog

variable {α β : Type} (f : α → β) (c : Catalog α) (n : String)

def map : Catalog β :=
  ⟨c.entries.map fun e => (e.1, f e.2)⟩

theorem find?_map : (c.map f).find? n = (c.find? n).map f := by
  obtain ⟨es⟩ := c
  simp only [find?, map]
  induction es with
  | nil => rfl
  | cons e es ih =>
    rw [List.map_cons, lookup_cons_if, lookup_cons_if, ih]
    split <;> rfl

theorem contains_map : (c.map f).contains n = c.contains n := by
  simp [contains, find?_map]

theorem insert_map (a : α) : (c.map f).insert n (f a) = (c.insert n a).map f := by
  obtain ⟨es⟩ := c
  simp only [insert, map, mk.injEq]
  induction es with
  | nil => rfl
  | cons e es ih =>
    simp only [List.map_cons, insertEntry, ih]
    split
    · rfl
    · split <;> rfl

theorem erase_map : (c.map f).erase n = (c.erase n).map f := by
  simp [erase, map, List.filter_map, Function.comp_def]

theorem foldl_erase_map (gone : List String) :
    gone.foldl erase (c.map f) = (gone.foldl erase c).map f := by
  induction gone generalizing c with
  | nil => rfl
  | cons n gone ih => rw [List.foldl_cons, List.foldl_cons, erase_map, ih]

theorem modify_map {k : α → α} {k' : β → β} (hk : ∀ a, k' (f a) = f (k a)) :
    (c.map f).modify n k' = (c.modify n k).map f := by
  simp only [modify, map, List.map_map, mk.injEq]
  refine List.map_congr_left fun e _ => ?_
  simp only [Function.comp, hk]
  split <;> rfl

end Catalog

namespace Claims

variable {κ : Type} [DecidableEq κ]

theorem perm_claimAll {c d : Claims κ} (hcd : ∀ k, k ∈ d.taken ↔ k ∈ c.taken) {keys keys' : List κ}
    (h : ∀ k, k ∈ keys' ↔ k ∈ keys) : (d.claimAll keys').1.Perm (c.claimAll keys).1 ∧
      ∀ k, k ∈ (d.claimAll keys').2.taken ↔ k ∈ (c.claimAll keys).2.taken := by
  refine ⟨(List.perm_ext_iff_of_nodup (nodup_claimAll _ _) (nodup_claimAll _ _)).2 fun k => ?_,
    fun k => ?_⟩
  · rw [(mem_claimAll keys' d).1, (mem_claimAll keys c).1, h, hcd]
  · rw [(mem_claimAll keys' d).2, (mem_claimAll keys c).2, h, hcd]

end Claims

theorem Lineage.gives_answer {g : Graph} {α : Type} {q : Query α} {l : Lineage}
    (hs : Steady g q.run)
    (hl : l.Valid g) : Gives q l (fun a l' => Query.answer q = .ok a ∧ l'.Valid g)
      fun e l' => Query.answer q = .error e ∧ l'.Valid g := by
  have h := hs l hl
  unfold Gives Recalls at *
  generalize q.run.run l = out at h
  obtain ⟨_ | _, l'⟩ := out
  · exact ⟨h.1.symm, h.2⟩
  · exact ⟨h.1.symm, h.2⟩

theorem Lineage.Gives.of_answer {α : Type} {q : Query α} {P : α → Lineage → Prop}
    {E : CompileError → Lineage → Prop} (h : Gives q ∅ P E) {a : α} (ha : Query.answer q = .ok a) :
    ∃ l, P a l := by
  unfold Query.answer answer at ha
  unfold Gives Recalls at h
  rw [ha] at h
  exact ⟨_, h⟩

theorem Graph.Regular.upheld {K : NodeId → Prop} {g : Graph} (hr : g.Regular K) : g.Upheld :=
  { hr.toCoherent with
    root_isPackage := hr.root_isPackage
    root_bootstrap := hr.root_bootstrap
    classifier_bootstrap := hr.classifier_bootstrap
    issued := hr.issued }

namespace Action

variable {X : Prop} {σ τ ε δ α β γ ζ : Type} {F : ε → δ → Prop} {Q : α → β → Prop}

theorem paired_mapM {f : γ → Except ε α} {g : ζ → Except δ β} {ρ : γ → ζ} {cs : List γ}
    (h : ∀ c ∈ cs, Paired F Q (f c) (g (ρ c))) :
    Paired F (List.Forall₂ Q) (cs.mapM f) ((cs.map ρ).mapM g) := by
  induction cs with
  | nil => exact .ok .nil
  | cons c cs ih =>
    rw [List.map_cons, List.mapM_cons, List.mapM_cons]
    have hc := h c List.mem_cons_self
    have hcs := ih fun c hc => h c (List.mem_cons_of_mem _ hc)
    generalize f c = left at *
    generalize g (ρ c) = right at *
    generalize cs.mapM f = lefts at *
    generalize (cs.map ρ).mapM g = rights at *
    cases hc with
    | error he => exact .error he
    | ok ha =>
      cases hcs with
      | error he => exact .error he
      | ok has => exact .ok (.cons ha has)

theorem matched_of_ensures {R : σ → τ → Prop} {x : Action σ ε α} {y : Action τ δ β} {s : σ} {t : τ}
    {P : α → σ → Prop} {P' : β → τ → Prop} (hx : Ensures x s P fun _ _ => False)
    (hy : Ensures y t P' fun _ _ => False)
    (h : ∀ a b u v, P a u → P' b v → Q a b ∧ R u v) : Matched X F Q R (x s) (y t) := by
  rcases hx with ⟨a, u, hx, ha⟩ | ⟨_, _, _, hf⟩
  · rcases hy with ⟨b, v, hy, hb⟩ | ⟨_, _, _, hf⟩
    · obtain ⟨hQ, hR⟩ := h a b u v ha hb
      exact matched_of_eq hx hy hQ hR
    · exact hf.elim
  · exact hf.elim

theorem matched_when {R S : σ → τ → Prop} {p q : Prop} [Decidable p] [Decidable q] (hpq : q ↔ p)
    {x : Action σ ε PUnit} {y : Action τ δ PUnit} {f : PUnit → Action σ ε α}
    {g : PUnit → Action τ δ β}
    {s : σ} {t : τ} (hx : p → Matched X F (fun _ _ => True) R (x s) (y t)) (hskip : ¬ p → R s t)
    (hRS : ∀ u v, R u v → S u v) (hf : ∀ u v, R u v → Matched X F Q S (f ⟨⟩ u) (g ⟨⟩ v)) :
    Matched X F Q S ((if p then x >>= f else f ⟨⟩) s) ((if q then y >>= g else g ⟨⟩) t) := by
  by_cases h : p
  · rw [if_pos h, if_pos (hpq.2 h)]
    exact (hx h).bind (fun _ _ u v _ _ _ => hRS u v) fun _ _ u v _ _ _ => hf u v
  · rw [if_neg h, if_neg (mt hpq.1 h)]
    exact hf s t (hskip h)

end Action

theorem Pool.ensures_mapM_eq {σ ε α β : Type} {pool : Pool} {threshold : Nat} {f : α → Action σ ε β}
    {items : List α} {s : σ} {I : σ → Prop} {r : α → β} {E : ε → σ → Prop} (h : I s)
    (hf : ∀ a ∈ items, ∀ t, I t → Ensures (f a) t (fun b t => b = r a ∧ I t) E) :
    Ensures (pool.mapM threshold f items) s (fun bs t => bs = items.map r ∧ I t) E := by
  refine (Pool.ensures_mapM (R := fun a b => b = r a) h hf).imp (fun bs t hbs => ⟨?_, hbs.2⟩)
  have := List.forall₂_map_left_iff.2 (hbs.1.imp fun _ _ h => h.symm)
  rw [List.forall₂_eq_eq_eq] at this
  exact this.symm

namespace Compiler

/-- Graphs in step, the same sources up to the renaming, and the same staged changes. -/
structure StateInStep (X : Prop) (π : NodeId → NodeId) (c d : Compiler) : Prop where
  graph : Graph.InStep X π c.graph d.graph
  sources : d.sources = c.sources.map (SourceUnit.relabel π)
  staged : d.staged = c.staged

/-- The states are in step, and both compilers are sane. -/
structure SaneInStep (X : Prop) (K : NodeId → Prop) (π : NodeId → NodeId) (c d : Compiler) : Prop
    extends StateInStep X π c d where
  left : c.Sane K
  right : d.Sane K

def Beheld (K : NodeId → Prop) (c d u v : Compiler) : Prop :=
  Looked K c u ∧ Looked K d v

variable {X : Prop} {K : NodeId → Prop} {π : NodeId → NodeId} {c d u v : Compiler} {α β ε δ : Type}
  {F : ε → δ → Prop} {Q : α → β → Prop} {id : SourceId}

theorem Beheld.trans (h : Beheld K c d u v) {u' v' : Compiler} (h' : Beheld K u v u' v') :
    Beheld K c d u' v' :=
  ⟨h.1.trans h'.1, h.2.trans h'.2⟩

namespace StateInStep

variable (e : StateInStep X π c d)
include e

theorem find? (id : SourceId) : d.sources.find? id = (c.sources.find? id).map (·.relabel π) := by
  rw [e.sources, Catalog.find?_map]

theorem inState (state : SourceState) : d.inState state = c.inState state := by
  simp only [Compiler.inState, e.sources, Catalog.map, List.filter_map, List.map_map]
  rfl

theorem items (sources : List SourceId) :
    d.items sources = (c.items sources).map fun item => (item.1, π item.2) := by
  simp only [Compiler.items, e.graph.persistentNodes, List.map_map, List.map_flatMap]
  rfl

theorem nodes (sources : List SourceId) :
    (d.items sources).map (·.2) = ((c.items sources).map (·.2)).map π := by
  rw [e.items, List.map_map, List.map_map]
  rfl

end StateInStep

theorem SaneInStep.beheld (e : SaneInStep X K π c d) (h : Beheld K c d u v) :
    SaneInStep X K π u v where
  graph := by
    rw [h.1.graph, h.2.graph]
    exact e.graph
  sources := by rw [h.1.sources, h.2.sources, e.sources]
  staged := by rw [h.1.staged, h.2.staged, e.staged]
  left := h.1.sane
  right := h.2.sane

theorem matched_sane {x : Action Compiler ε α} {y : Action Compiler δ β}
    (h : Matched X F Q (StateInStep X π) (x c) (y d))
    (hx : Runs (¬ Predefined K) x c (fun _ u => u.Sane K) fun _ u => u.Sane K)
    (hy : Runs (¬ Predefined K) y d (fun _ v => v.Sane K) fun _ v => v.Sane K) :
    Matched X F Q (SaneInStep X K π) (x c) (y d) :=
  h.mono (fun _ _ _ _ hu hv hF hR => ⟨hF, hR, hx.error hu, hy.error hv⟩)
    fun _ _ _ _ hu hv hQ hR => ⟨hQ, hR, hx.result hu, hy.result hv⟩

section Rules

theorem matched_onWorkspace {x : Work ε α} {y : Work δ β} (e : StateInStep X π c d)
    (h : Matched X F Q (Workspace.GraphsInStep X π) (x c.workspace) (y d.workspace)) :
    Matched X F Q (StateInStep X π) (onWorkspace x c) (onWorkspace y d) :=
  h.within (fun _ _ h => h) fun _ _ h => ⟨h, e.sources, e.staged⟩

theorem SaneInStep.workspace (e : SaneInStep X K π c d) :
    c.workspace.OrderlyInStep X K π d.workspace :=
  ⟨e.graph, e.left.orderly, e.right.orderly⟩

theorem matched_ask (e : SaneInStep X K π c d) {f k : Dispatch → Graph → Query α}
    (hs : Steady c.graph (f coreDispatch c.graph).run)
    (hs' : Steady d.graph (k coreDispatch d.graph).run)
    (ha : Query.answer (k coreDispatch d.graph) = Query.answer (f coreDispatch c.graph)) :
    Matched X Eq (fun a b => Query.answer (f coreDispatch c.graph) = .ok a ∧ b = a) (Beheld K c d)
      (ask f c) (ask k d) := by
  refine matched_get ?_
  rw [e.left.dispatch, e.right.dispatch]
  refine Matched.within (Work.matched_ask e.workspace hs hs' (k := fun a => a) ?_) (fun _ _ h => h)
    fun w w' h => ?_
  · change Query.answer (k coreDispatch d.graph) = (Query.answer (f coreDispatch c.graph)).map _
    rw [ha]
    cases Query.answer (f coreDispatch c.graph) <;> rfl
  · obtain ⟨l, l', hl, hl', rfl, rfl⟩ := h
    exact ⟨e.left.remember hl, e.right.remember hl'⟩

theorem matched_advance (hc : c.Sane K) (hd : d.Sane K) :
    Matched X F (fun _ _ => True) (Beheld K c d) ((advance : Action Compiler ε Unit) c)
      ((advance : Action Compiler δ Unit) d) :=
  matched_modify trivial ⟨hc.progress _ _, hd.progress _ _⟩

theorem matched_startProgress (hc : c.Sane K) (hd : d.Sane K) (phase : Phase) (n n' : Nat) :
    Matched X F (fun _ _ => True) (Beheld K c d)
      ((startProgress phase n : Action Compiler ε Unit) c)
      ((startProgress phase n' : Action Compiler δ Unit) d) :=
  matched_modify trivial ⟨hc.progress _ _, hd.progress _ _⟩

theorem StateInStep.progress (e : StateInStep X π c d) (meter meter' : Progress)
    (lines lines' : List String) :
    StateInStep X π { c with meter := meter, progress := lines }
      { d with meter := meter', progress := lines' } :=
  ⟨e.graph, e.sources, e.staged⟩

section Units

variable (id) {f f' : SourceUnit → SourceUnit}

theorem StateInStep.modifyUnit (e : StateInStep X π c d)
    (hf : ∀ unit, f' (unit.relabel π) = (f unit).relabel π) :
    Matched X F (fun _ _ => True) (StateInStep X π)
      ((Compiler.modifyUnit id f : Action Compiler ε Unit) c)
      ((Compiler.modifyUnit id f' : Action Compiler δ Unit) d) := by
  refine matched_modify trivial ⟨e.graph, ?_, e.staged⟩
  show d.sources.modify id f' = _
  rw [e.sources, Catalog.modify_map _ _ _ hf]

theorem StateInStep.setState (e : StateInStep X π c d) (state : SourceState) :
    Matched X F (fun _ _ => True) (StateInStep X π)
      ((Compiler.setState id state : Action Compiler ε Unit) c)
      ((Compiler.setState id state : Action Compiler δ Unit) d) :=
  e.modifyUnit id fun _ => rfl

theorem StateInStep.setDiagnostics (e : StateInStep X π c d) (errors : List CompileError) :
    Matched X F (fun _ _ => True) (StateInStep X π)
      ((Compiler.setDiagnostics id errors : Action Compiler ε Unit) c)
      ((Compiler.setDiagnostics id errors : Action Compiler δ Unit) d) :=
  e.modifyUnit id fun _ => rfl

theorem SaneInStep.modifyUnit (e : SaneInStep X K π c d)
    (hf : ∀ unit, f (unit.relabel π) = (f unit).relabel π)
    (hcontent : ∀ unit, (f unit).content = unit.content)
    (hstate : ∀ unit, (f unit).state = .unregistered → unit.state = .unregistered) :
    Matched X F (fun _ _ => True) (SaneInStep X K π)
      ((Compiler.modifyUnit id f : Action Compiler ε Unit) c)
      ((Compiler.modifyUnit id f : Action Compiler δ Unit) d) :=
  matched_sane (e.toStateInStep.modifyUnit id hf)
    (Ensures.runs (ensures_modify (e.left.setUnit id hcontent hstate).sane))
    (Ensures.runs (ensures_modify (e.right.setUnit id hcontent hstate).sane))

theorem SaneInStep.setState (e : SaneInStep X K π c d) {state : SourceState}
    (hstate : state ≠ .unregistered) :
    Matched X F (fun _ _ => True) (SaneInStep X K π)
      ((Compiler.setState id state : Action Compiler ε Unit) c)
      ((Compiler.setState id state : Action Compiler δ Unit) d) :=
  e.modifyUnit id (fun _ => rfl) (fun _ => rfl) fun _ h => absurd h hstate

theorem SaneInStep.setDiagnostics (e : SaneInStep X K π c d) (errors : List CompileError) :
    Matched X F (fun _ _ => True) (SaneInStep X K π)
      ((Compiler.setDiagnostics id errors : Action Compiler ε Unit) c)
      ((Compiler.setDiagnostics id errors : Action Compiler δ Unit) d) :=
  e.modifyUnit id (fun _ => rfl) (fun _ => rfl) fun _ h => h

end Units

end Rules

section Walks

theorem users_map {g h : Graph} (e : SameUpTo π g h) (id x : NodeId) :
    x ∈ Handler.users h (π id) ↔ x ∈ (Handler.users g id).map π := by
  have hheld : ((h.tree (π id)).flatMap h.usagesOf).filter
        (fun u => u.isForward && u.user ∉ h.tree (π id)) =
      (((g.tree id).flatMap g.usagesOf).filter fun u => u.isForward && u.user ∉ g.tree id).map
        (Usage.relabel π) := by
    simp only [e.tree, List.flatMap_map, e.usagesOf, ← List.map_flatMap, List.filter_map,
      Function.comp_def, Usage.relabel, e.mem_map]
    rfl
  simp only [Handler.users, hheld, Graph.mem_ascending, List.mem_map]
  constructor
  · rintro ⟨_, ⟨u, hu, rfl⟩, rfl⟩
    exact ⟨u.user, ⟨u, hu, rfl⟩, rfl⟩
  · rintro ⟨_, ⟨u, hu, rfl⟩, rfl⟩
    exact ⟨_, ⟨u, hu, rfl⟩, rfl⟩

theorem listed_map {g h : Graph} (e : SameUpTo π g h) (walker : Walker) (id x : NodeId) :
    x ∈ walker.listed h (π id) ↔ x ∈ (walker.listed g id).map π := by
  cases walker with
  | users => exact users_map e id x
  | class_ =>
    simp only [Walker.listed, Handler.Class.walk, Graph.mem_ascending, List.mem_append, users_map e,
      e.values, List.mem_map, or_and_right, exists_or]
  | recipe r =>
    simp only [Walker.listed, List.map_filterMap, e.lookupText]

def walked (g : Graph) (id : NodeId) : Except CompileError (List SourceId) :=
  (Query.answer (coreDispatch.walker g id)).map fun found =>
    (found.1.listed g id).filterMap g.sourceOf?

theorem paired_walked {g h : Graph} (e : SameUpTo π g h) (hr : g.Regular K) (hr' : h.Regular K)
    (id : NodeId) :
    Paired Eq (fun xs ys => ∀ s, s ∈ ys ↔ s ∈ xs) (walked g id) (walked h (π id)) := by
  unfold walked
  rw [e.answer_walker hr hr']
  cases Query.answer (coreDispatch.walker g id) with
  | error x => exact .error rfl
  | ok found =>
    refine .ok fun s => ?_
    simp only [List.mem_filterMap, listed_map e, List.mem_map]
    constructor
    · rintro ⟨_, ⟨u, hu, rfl⟩, hs⟩
      exact ⟨u, hu, e.sourceOf? u ▸ hs⟩
    · rintro ⟨u, hu, hs⟩
      exact ⟨_, ⟨u, hu, rfl⟩, (e.sourceOf? u).trans hs⟩

theorem Sane.noted (h : c.Sane K) {w : Workspace} (hg : w.graph = c.graph)
    (hl : w.lineage = c.workspace.lineage) : Looked K c { c with workspace := w } := by
  obtain ⟨g, l, notes⟩ := w
  obtain rfl : g = c.graph := hg
  obtain rfl : l = c.workspace.lineage := hl
  exact ⟨⟨h.dispatch, h.factories, h.visibility, ⟨h.tidy, h.orderly.valid⟩, h.whole, h.sorted,
    h.contents, h.registered, h.blank⟩, rfl, rfl, rfl⟩

theorem walkNode_walked (hs : c.Sane K) (id : NodeId) {E : CompileError → Compiler → Prop} :
    Ensures (walkNode id) c (fun r c' => r = walked c.graph id ∧ Looked K c c') E := by
  have hsteady := Dispatch.walker_steady hs.tidy.toRegular.upheld coreDispatch id
  refine ensures_bind (ensures_attempt (ask_ensures hs (gives_answer hsteady hs.orderly.valid)
    (fun found c₁ ha h₁ => ?_) fun x c₁ ha h₁ => ensures_pure ⟨?_, h₁⟩))
  · refine ensures_bind (onWorkspace_ensures ((found.1.run_ensures id c₁.workspace).imp
      fun us w hw => ?_))
    obtain ⟨hus, hg, hl⟩ := hw
    have h₂ := h₁.sane.noted hg hl
    refine ensures_bind (advance_ensures h₂.sane fun c₃ h₃ => ensures_bind (ensures_get
      (ensures_pure ⟨?_, h₁.trans (h₂.trans h₃)⟩)))
    have hgraph : c₁.workspace.graph = c.graph := h₁.graph
    rw [walked, ha, hus, hgraph, (h₁.trans (h₂.trans h₃)).graph]
    rfl
  · rw [walked, ha]
    rfl

theorem walkRound_walked (hs : c.Sane K) (frontier : List NodeId) :
    Ensures (walkRound frontier) c
      (fun reached c' => (∃ found, frontier.mapM (walked c.graph) = .ok found ∧
        ∀ s, s ∈ reached ↔ s ∈ found.flatten) ∧ Looked K c c')
      fun x c' => frontier.mapM (walked c.graph) = .error x ∧ Looked K c c' := by
  refine ensures_get_bind (ensures_bind (startProgress_ensures hs fun c₁ h₁ => ?_))
  refine ensures_bind ((Pool.ensures_mapM_eq (I := Looked K c) (r := walked c.graph) h₁
    fun id _ c' h => ?_).imp fun rs c' h => ?_)
  · refine (walkNode_walked h.sane id).imp (fun r c'' h' => ?_)
    exact ⟨h.graph ▸ h'.1, h.trans h'.2⟩
  · obtain ⟨rfl, h⟩ := h
    have hmapM : (frontier.map (walked c.graph)).mapM id = frontier.mapM (walked c.graph) := by
      rw [List.mapM_map]
      rfl
    rw [hmapM]
    cases hall : frontier.mapM (walked c.graph) with
    | error x => exact ensures_throw ⟨rfl, h⟩
    | ok found =>
      exact ensures_get_bind (ensures_pure
        ⟨⟨found, rfl, fun s => (c'.workers.perm_arrange _).mem_iff⟩, h⟩)

theorem walkRound_matched (e : SaneInStep X K π c d) (frontier : List NodeId) :
    Matched X Eq (fun xs ys => ∀ s, s ∈ ys ↔ s ∈ xs) (Beheld K c d) (walkRound frontier c)
      (walkRound (frontier.map π) d) := by
  have hwalked := paired_mapM fun id (_ : id ∈ frontier) => paired_walked e.graph.toSameUpTo
    e.left.tidy.toRegular e.right.tidy.toRegular id
  rcases walkRound_walked e.left frontier with ⟨xs, u, hx, ⟨found, hfound, hxs⟩, hu⟩
    | ⟨x, u, hx, hfound, hu⟩
  all_goals
    rcases walkRound_walked e.right (frontier.map π) with
      ⟨ys, v, hy, ⟨found', hfound', hys⟩, hv⟩ | ⟨y, v, hy, hfound', hv⟩
  all_goals
    rw [hfound, hfound'] at hwalked
    rw [hx, hy]
    cases hwalked
  · rename_i hall
    refine .ok (fun s => ?_) ⟨hu, hv⟩
    rw [hxs, hys]
    clear hxs hys hfound hfound'
    induction hall with
    | nil => rfl
    | cons h _ ih =>
      rw [List.flatten_cons, List.flatten_cons, List.mem_append, List.mem_append, h, ih]
  · rename_i hxy
    exact .error hxy ⟨hu, hv⟩

theorem walkRounds_matched (e : SaneInStep X K π c d) :
    ∀ (fuel : Nat) {claims claims' : Claims SourceId}
    (frontier : List NodeId), (∀ s, s ∈ claims'.taken ↔ s ∈ claims.taken) → ∀ {u v : Compiler},
    Beheld K c d u v → Matched X Eq Eq (Beheld K c d) (walkRounds fuel claims frontier u)
      (walkRounds fuel claims' (frontier.map π) v) := by
  intro fuel
  induction fuel with
  | zero => exact fun _ _ _ _ h => matched_pure rfl h
  | succ fuel ih =>
    intro claims claims' frontier hclaims u v h
    unfold walkRounds
    rw [List.isEmpty_map]
    split
    · exact matched_pure rfl h
    · refine (walkRound_matched (e.beheld h) frontier).bind (fun _ _ _ _ _ _ _ h' => h.trans h')
        fun reached reached' u' v' _ _ hreached h' => ?_
      have h' := h.trans h'
      obtain ⟨hgranted, htaken⟩ := Claims.perm_claimAll hclaims hreached
      refine matched_get ?_
      rw [Text.sort_eq_of_perm hgranted, (e.beheld h').nodes]
      exact (ih _ htaken h').seq fun rest rest' _ _ hrest h => matched_pure (by rw [hrest]) h

theorem dependents_matched (e : SaneInStep X K π c d) (seeds : List SourceId) :
    Matched X Eq Eq (Beheld K c d) (dependents seeds c) (dependents seeds d) := by
  have hlength : d.graph.sources.length = c.graph.sources.length := by
    refine List.Perm.length_eq ((List.perm_ext_iff_of_nodup e.right.tidy.source_keys
      e.left.tidy.source_keys).2 fun s => ?_)
    change s ∈ d.graph.sources ↔ s ∈ c.graph.sources
    rw [e.right.tidy.mem_sources_iff, e.left.tidy.mem_sources_iff, e.graph.persistentNodes]
    simp
  refine matched_get ?_
  rw [hlength, e.nodes]
  exact (walkRounds_matched e _ _ (fun _ => Iff.rfl) ⟨e.left.looked, e.right.looked⟩).seq
    fun found found' _ _ hfound h => matched_pure (by rw [hfound]) h

end Walks

end Compiler

end ModelCompiler
