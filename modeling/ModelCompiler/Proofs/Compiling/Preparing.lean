import ModelCompiler.Proofs.Compiling.Phases

/-!
What precedes the phases of a compile.
-/

open ModelCompiler.Action ModelCompiler.Graph ModelCompiler.Workspace ModelCompiler.Handler

namespace ModelCompiler

def Change.content? : Change → Option Content
  | .create content | .modify content => some content
  | .delete => none

namespace Compiler

variable {K : NodeId → Prop} {c d : Compiler} {id : SourceId} {staged : Catalog Change}
  {E : CompileError → Compiler → Prop} {e : Compiler}

/-- A sane compiler whose staged changes fit its sources: those and only those that are not known
yet are to be created. -/
structure Ready (K : NodeId → Prop) (c : Compiler) : Prop extends Sane K c where
  ordered : c.staged.Sorted
  known : ∀ id change, c.staged.find? id = some change →
    ((∃ unit, c.sources.find? id = some unit) ↔ ∀ content, change ≠ .create content)
  offered : ∀ id change content, c.staged.find? id = some change →
    change.content? = some content → content.Admissible K

theorem Sane.ready (hs : c.Sane K) (h : c.staged = ∅) : c.Ready K where
  toSane := hs
  ordered := h ▸ Catalog.sorted_empty
  known id change hch := by simp [h, Catalog.find?_empty] at hch
  offered id change _ hch := by simp [h, Catalog.find?_empty] at hch

section Staged

theorem mem_changedSources (h : staged.Sorted) :
    id ∈ changedSources staged ↔
      ∃ change, staged.find? id = some change ∧ ∀ content, change ≠ .create content := by
  simp only [changedSources, List.mem_filterMap, Prod.exists]
  constructor
  · rintro ⟨n, change, hmem, hid⟩
    cases change with
    | create content => simp at hid
    | modify content | delete =>
      obtain rfl : n = id := by simpa using hid
      exact ⟨_, h.mem_entries_iff.1 hmem, by simp⟩
  · rintro ⟨change, hch, hne⟩
    refine ⟨id, change, h.mem_entries_iff.2 hch, ?_⟩
    cases change with
    | create content => exact absurd rfl (hne content)
    | modify content | delete => rfl

theorem mem_deletedSources (h : staged.Sorted) :
    id ∈ deletedSources staged ↔ staged.find? id = some .delete := by
  simp only [deletedSources, List.mem_filterMap, Prod.exists]
  constructor
  · rintro ⟨n, change, hmem, hid⟩
    cases change with
    | create content | modify content => simp at hid
    | delete =>
      obtain rfl : n = id := by simpa using hid
      exact h.mem_entries_iff.1 hmem
  · exact fun hch => ⟨id, .delete, h.mem_entries_iff.2 hch, rfl⟩

def enter : Change → Option SourceUnit → Option SourceUnit
  | .create content, _ => some { content }
  | _, unit => unit

structure Taken (K : NodeId → Prop) (c c' : Compiler) : Prop where
  sane : c'.Sane K
  graph : c'.graph = c.graph
  staged : c'.staged = ∅
  find : Catalog.Amended enter c.staged.entries c.sources c'.sources

theorem Sane.insert (hs : c.Sane K) (hid : c.sources.find? id = none) {content : Content}
    (hadm : content.Admissible K) :
    Sane K { c with sources := c.sources.insert id { content } } where
  dispatch := hs.dispatch
  factories := hs.factories
  visibility := hs.visibility
  whole := hs.whole
  orderly := hs.orderly
  sorted := hs.sorted.insert _ _
  contents n unit hu := by
    rw [Catalog.find?_insert] at hu
    split at hu
    · obtain rfl := Option.some.inj hu
      exact hadm
    · exact hs.contents n unit hu
  registered s hne := by
    rw [Catalog.find?_insert]
    split
    · exact ⟨_, rfl⟩
    · exact hs.registered s hne
  blank s unit hu hst := by
    rw [Catalog.find?_insert] at hu
    split at hu
    · rename_i heq
      by_contra hne
      obtain ⟨unit', hu'⟩ := hs.registered s hne
      rw [heq, hid] at hu'
      exact absurd hu' (by simp)
    · exact hs.blank s unit hu hst

/-- An invariant that no new source spoils holds once all of them are entered. -/
theorem takeStaged_amends {I : Compiler → Prop} (h : c.staged.Sorted)
    (hI : I { c with staged := ∅ })
    (hstep : ∀ c' n content, c.staged.find? n = some (.create content) →
      c'.sources.find? n = c.sources.find? n → I c' →
        I { c' with sources := c'.sources.insert n { content } }) :
    Ensures takeStaged c (fun staged c' => staged = c.staged ∧ c'.staged = ∅ ∧ I c' ∧
      Catalog.Amended enter c.staged.entries c.sources c'.sources) E := by
  refine ensures_get_bind (ensures_modify_bind (ensures_bind ?_))
  refine (ensures_forM_inOrder (I := fun done c' => c'.staged = ∅ ∧ I c' ∧
    Catalog.Amended enter done c.sources c'.sources) ⟨rfl, hI, Catalog.amended_nil _ _⟩ ?_).imp
    fun _ c' h => ensures_pure ⟨rfl, h⟩
  rintro done ⟨n, change⟩ rest hsplit c' ⟨hst, hI, hfind⟩
  have hnone := h.lookup_eq_none hsplit
  have hn : c'.sources.find? n = c.sources.find? n := by rw [hfind n, hnone]
  cases change with
  | create content =>
    exact ensures_modify ⟨hst, hstep c' n content (h.mem_entries_iff.1 (by simp [hsplit])) hn hI,
      hfind.concat hnone fun m => Catalog.find?_insert _ _ _ _⟩
  | modify content | delete =>
    exact ensures_pure ⟨hst, hI, hfind.concat hnone fun m => by simp [enter]⟩

theorem takeStaged_ensures (hs : c.Ready K) :
    Ensures takeStaged c (fun staged c' => staged = c.staged ∧ Taken K c c') E := by
  refine (takeStaged_amends (I := fun c' => c'.Sane K ∧ c'.graph = c.graph) hs.ordered
    ⟨{ hs.toSane with }, rfl⟩ fun c' n content hch hn h => ⟨h.1.insert ?_ ?_, h.2⟩).imp
    fun _ _ ⟨hstaged, hst, h, hf⟩ => ⟨hstaged, h.1, h.2, hst, hf⟩
  · rw [hn, Option.eq_none_iff_forall_ne_some]
    exact fun unit hu => absurd rfl ((hs.known n _ hch).1 ⟨unit, hu⟩ content)
  · exact hs.offered n _ content hch rfl

theorem Sane.mem_retried (hs : c.Sane K) {changed : List SourceId} : id ∈ retried c changed ↔
    id ∉ changed ∧ ∃ unit, c.sources.find? id = some unit ∧ unit.state.isPending = true := by
  simp only [retried, List.mem_map, List.mem_filter, Prod.exists, Bool.and_eq_true,
    decide_eq_true_eq]
  constructor
  · rintro ⟨s, unit, ⟨hmem, hst, hs'⟩, rfl⟩
    exact ⟨hs', unit, hs.sorted.mem_entries_iff.1 hmem, hst⟩
  · rintro ⟨hid, unit, hu, hst⟩
    exact ⟨id, unit, ⟨hs.sorted.mem_entries_iff.2 hu, hst, hid⟩, rfl⟩

end Staged

section Withdrawal

variable {rebuild changed : List SourceId}

structure Withdrawn (K : NodeId → Prop) (rebuild changed : List SourceId) (c c' : Compiler) :
    Prop extends Advanced K (· ∈ changed ++ rebuild) c c' where
  cleared : ∀ s ∈ rebuild, ∀ x ∈ c'.graph.persistentNodes s, Cleared false c c' x
  empty : ∀ s ∈ changed, c'.graph.persistentNodes s = []
  listed : c.graph.Listed → c'.graph.Listed
  find : ∀ id, c'.sources.find? id =
    if id ∈ changed then (c.sources.find? id).map fun unit => ungrouped (unwound true unit)
    else if id ∈ rebuild then (c.sources.find? id).map (unwound false)
    else c.sources.find? id

theorem Unwound.stripped (h₁ : Unwound K false rebuild c d)
    (h₂ : Unwound K true changed d e) {s : SourceId} (hs : s ∈ changed ++ rebuild) {x : NodeId}
    (hx : x ∈ e.graph.persistentNodes s) : Stripped e.graph x := by
  rw [h₂.persistent] at hx
  rcases List.mem_append.1 hs with hs | hs
  · exact (h₂.cleared s hs x hx).stripped
  · exact ((h₁.cleared s hs x (by rwa [← h₁.persistent])).weakened h₁.sane hx
      h₂.toWeakened).stripped

theorem Unwound.stripped_users (h₁ : Unwound K false rebuild c d)
    (h₂ : Unwound K true changed d e) (hs : c.Sane K)
    (husers : ∀ t ∈ changed, ∀ r ∈ c.graph.persistentNodes t, ∀ u ∈ users c.graph r, ∀ s,
      c.graph.sourceOf? u = some s → s ∈ changed ++ rebuild) :
    ∀ t ∈ changed, ∀ r ∈ e.graph.persistentNodes t, ∀ u ∈ users e.graph r, ∀ s,
      e.graph.sourceOf? u = some s → ∀ x ∈ e.graph.persistentNodes s, Stripped e.graph x := by
  intro t ht r hr u hu s hsource x hx
  refine h₁.stripped h₂ ?_ hx
  have hlive : e.graph.contains r = true :=
    h₂.sane.tidy.persistent_live hr
  have hl := h₁.loses.trans h₂.loses
  refine husers t ht r (by rwa [← h₁.persistent, ← h₂.persistent]) u
    (hl.users hs.tidy.toCoherent h₂.sane.tidy.toCoherent hlive hu) s ?_
  rw [← hsource]
  exact ((hl.agree u (contains_of_sourceOf? hsource)).source).symm

theorem Unwound.removable (h₁ : Unwound K false rebuild c d)
    (h₂ : Unwound K true changed d e) (hs : c.Sane K) (hK : Predefined K)
    (husers : ∀ t ∈ changed, ∀ r ∈ c.graph.persistentNodes t, ∀ u ∈ users c.graph r, ∀ s,
      c.graph.sourceOf? u = some s → s ∈ changed ++ rebuild) :
    Removable e.graph ((e.items changed).map (·.2)) := by
  have hr := h₂.sane.tidy.toRegular
  refine hr.toSound.removable_of_stripped (fun id => mem_items) (hr.disciplined hK)
    (fun u hu _ hl _ => ?_) (fun s hs' x hx => h₁.stripped h₂ (by simp [hs']) hx)
    (h₁.stripped_users h₂ hs husers)
  exact (hr.fits _ _ _ (hr.toCoherent.target_mem_values hu)).implicit hl

theorem withdraw_runs (hs : c.Sane K) (hK : CoversMetamodel K)
    (hdisjoint : ∀ s ∈ rebuild, s ∉ changed)
    (husers : ∀ t ∈ changed, ∀ r ∈ c.graph.persistentNodes t, ∀ u ∈ users c.graph r, ∀ s,
      c.graph.sourceOf? u = some s → s ∈ changed ++ rebuild) :
    Runs (¬ Predefined K) (withdraw rebuild changed) c
      (fun _ c' => Withdrawn K rebuild changed c c')
      fun _ c' => ¬ Predefined K ∧ Advanced K (· ∈ changed ++ rebuild) c c' := by
  have hrebuild : ∀ s, s ∈ rebuild → s ∈ changed ++ rebuild := fun s h => by simp [h]
  have hchanged : ∀ s, s ∈ changed → s ∈ changed ++ rebuild := fun s h => by simp [h]
  refine runs_bind ((unbindSources_ensures hs rebuild).runs.mono (fun _ c₁ h₁ => ?_)
    fun _ _ h => ⟨h.1.2, h.2.mono hrebuild⟩)
  refine runs_bind ((unbindSources_ensures h₁.sane changed).runs.mono (fun _ c₂ h₂ => ?_)
    fun _ _ h => ⟨h.1.2, (h₁.toAdvanced.mono hrebuild).trans (h.2.mono hchanged)⟩)
  have h₁₂ : Advanced K (· ∈ changed ++ rebuild) c c₂ :=
    (h₁.toAdvanced.mono hrebuild).trans (h₂.toAdvanced.mono hchanged)
  refine (removeSources_runs h₂.sane hK changed fun hpre => h₁.removable h₂ hs hpre husers).mono
    (fun _ c₃ h => ?_) fun _ c' h => ⟨h.1, h.2 ▸ h₁₂⟩
  obtain ⟨h₃, hfind⟩ := h
  exact {
    toAdvanced := h₁₂.trans (h₃.toAdvanced.mono hchanged)
    empty := h₃.empty
    listed := fun hl => h₃.listed (h₂.listed (h₁.listed hl))
    cleared := fun s hs' x hx => by
      have hlive : c₃.graph.contains x = true :=
        h₃.sane.tidy.persistent_live hx
      have hx₂ : x ∈ c₂.graph.persistentNodes s := by
        rwa [← h₃.trace.persistentNodes h₂.sane.tidy hK (hdisjoint s hs')]
      have hx₁ : x ∈ c₁.graph.persistentNodes s := by rwa [← h₂.persistent]
      have hcleared := (h₁.cleared s hs' x (by rwa [← h₁.persistent])).weakened h₁.sane hx₁
        h₂.toWeakened
      exact ⟨hcleared.stripped.loses h₃.loses h₂.sane.tidy.toCoherent h₃.sane.tidy.toCoherent
        hlive, fun hr hl => (hcleared.undone hr hl).loses h₃.loses h₂.sane.tidy.toCoherent
          h₃.sane.tidy.toCoherent hlive⟩
    find := fun id => by
      rw [hfind id, h₂.find id, h₁.find id]
      by_cases hch : id ∈ changed
      · have hre : id ∉ rebuild := fun h => hdisjoint id h hch
        simp [hch, hre, Function.comp_def]
      · simp [hch] }

end Withdrawal

section Replacement

variable {staged : Catalog Change}

def renew : Change → Option SourceUnit → Option SourceUnit
  | .modify content, unit =>
    unit.map fun unit => { unit with content, state := .unregistered, diagnostics := [] }
  | _, unit => unit

def replace : Change → Option SourceUnit → Option SourceUnit
  | .delete, _ => none
  | change, unit => renew change unit

theorem Sane.erase (hs : c.Sane K) {gone : List SourceId}
    (hempty : ∀ s ∈ gone, c.graph.persistentNodes s = []) :
    Sane K { c with sources := gone.foldl Catalog.erase c.sources } where
  dispatch := hs.dispatch
  factories := hs.factories
  visibility := hs.visibility
  whole := hs.whole
  orderly := hs.orderly
  sorted := hs.sorted.foldl_erase gone
  contents id unit hu := by
    rw [Catalog.find?_foldl_erase] at hu
    split at hu
    · simp at hu
    · exact hs.contents id unit hu
  registered s hne := by
    rw [Catalog.find?_foldl_erase, if_neg fun hmem => hne (hempty s hmem)]
    exact hs.registered s hne
  blank s unit hu hst := by
    rw [Catalog.find?_foldl_erase] at hu
    split at hu
    · simp at hu
    · exact hs.blank s unit hu hst

structure Replaced (K : NodeId → Prop) (staged : Catalog Change) (c c' : Compiler) : Prop where
  sane : c'.Sane K
  graph : c'.graph = c.graph
  find : Catalog.Amended replace staged.entries c.sources c'.sources
  staged : c'.staged = c.staged

theorem replaceSources_amends {I : Compiler → Prop} (h : staged.Sorted)
    (hI : I { c with sources := (deletedSources staged).foldl Catalog.erase c.sources })
    (hstep : ∀ (c' : Compiler) n content, staged.find? n = some (.modify content) → I c' →
      I { c' with sources := c'.sources.modify n fun unit =>
        { unit with content, state := .unregistered, diagnostics := [] } }) :
    Ensures (replaceSources staged) c (fun _ c' => c'.staged = c.staged ∧ I c' ∧
      Catalog.Amended replace staged.entries c.sources c'.sources) E := by
  refine ensures_modify_bind ((ensures_forM_inOrder (I := fun done (c' : Compiler) =>
    c'.staged = c.staged ∧ I c' ∧ Catalog.Amended renew done
      ((deletedSources staged).foldl Catalog.erase c.sources) c'.sources)
    ⟨by rfl, hI, Catalog.amended_nil _ _⟩ ?_).imp fun _ c' ⟨hst, hI, hfind⟩ =>
      ⟨hst, hI, fun n => ?_⟩)
  · rintro done ⟨n, change⟩ rest hsplit c' ⟨hst, hI, hfind⟩
    have hnone := h.lookup_eq_none hsplit
    cases change with
    | create content | delete =>
      exact ensures_pure ⟨hst, hI, hfind.concat hnone fun m => by simp [renew]⟩
    | modify content =>
      exact ensures_modify ⟨hst, hstep c' n content (h.mem_entries_iff.1 (by simp [hsplit])) hI,
        hfind.concat hnone fun m => Catalog.find?_modify _ _ _ _⟩
  · have hdel : n ∈ deletedSources staged ↔ staged.entries.lookup n = some .delete :=
      mem_deletedSources h
    rw [hfind n, Catalog.find?_foldl_erase]
    cases hch : staged.entries.lookup n with
    | none => simp [hdel, hch]
    | some change => cases change <;> simp [hdel, hch, replace, renew]

theorem replaceSources_ensures (hs : c.Sane K) (hsorted : staged.Sorted)
    (hempty : ∀ id ∈ changedSources staged, c.graph.persistentNodes id = [])
    (hnew : ∀ id content, staged.find? id = some (.modify content) → content.Admissible K) :
    Ensures (replaceSources staged) c (fun _ c' => Replaced K staged c c') E := by
  have hchanged {id : SourceId} {change : Change} (hch : staged.find? id = some change)
      (hne : ∀ content, change ≠ .create content) : c.graph.persistentNodes id = [] :=
    hempty id ((mem_changedSources hsorted).2 ⟨_, hch, hne⟩)
  refine (replaceSources_amends (I := fun c' => c'.Sane K ∧ c'.graph = c.graph) hsorted
    ⟨hs.erase fun id h => hchanged ((mem_deletedSources hsorted).1 h) (by simp), rfl⟩
    fun c' n content hch ⟨hsane, hg⟩ => ⟨?_, hg⟩).imp fun _ _ ⟨hst, h, hf⟩ => ⟨h.1, h.2, hf, hst⟩
  refine (hsane.modifyUnit (fun _ _ => hnew n content hch) fun _ _ _ => ?_).sane
  rw [hg]
  exact hchanged hch (by simp)

end Replacement

section Stages

inductive Standing (a : Agenda) (id : SourceId) (unit : SourceUnit) : Prop
  | parsed : id ∈ a.batch → unit.state = .parsed → unit.diagnostics = [] → Standing a id unit
  | failed {e : CompileError} : id ∈ a.unparsed → unit.state = .unregistered →
      unit.diagnostics = [e] → Standing a id unit
  | kept : id ∉ a.deleted ++ a.touched → unit.state.isPending = false →
      unit.state ≠ .unregistered → Standing a id unit

structure Prepared (K : NodeId → Prop) (a : Agenda) (c c' : Compiler) : Prop where
  sane : c'.Sane K
  staged : c'.staged = ∅
  trace : Trace K (· ∈ a.deleted ++ a.touched) c.graph c'.graph
  units : ∀ id, id ∉ a.deleted ++ a.touched → c'.sources.find? id = c.sources.find? id
  batch : a.batch = c'.inState .parsed
  standing : ∀ id unit, c'.sources.find? id = some unit → Standing a id unit
  cleared : ∀ s ∈ a.batch, ∀ x ∈ c'.graph.persistentNodes s, Cleared false c c' x
  listed : c.graph.Listed → c'.graph.Listed
  users : ∀ t ∈ a.deleted ++ a.touched, ∀ r ∈ c.graph.persistentNodes t, ∀ u ∈ users c.graph r,
    ∀ s, c.graph.sourceOf? u = some s → s ∈ a.deleted ++ a.touched

structure Stages (K : NodeId → Prop) (retry rebound rebuild : List SourceId)
    (c c₁ c₂ c₃ : Compiler) : Prop where
  ready : c.Ready K
  taken : Taken K c c₁
  retried : ∀ id, id ∈ retry ↔ id ∉ changedSources c.staged ∧
    ∃ unit, c₁.sources.find? id = some unit ∧ unit.state.isPending = true
  depends : Depends c₁.graph (changedSources c.staged ++ retry) rebound
  rebuilt : ∀ id, id ∈ rebuild ↔ id ∈ retry ∨ id ∈ rebound
  withdrawn : Withdrawn K rebuild (changedSources c.staged) c₁ c₂
  replaced : Replaced K c.staged c₂ c₃

namespace Stages

variable {retry rebound rebuild : List SourceId} {c₁ c₂ c₃ c₄ : Compiler}
  (h : Stages K retry rebound rebuild c c₁ c₂ c₃) {unit : SourceUnit}
include h

theorem find_deleted (hid : c.staged.find? id = some .delete) : c₃.sources.find? id = none := by
  rw [h.replaced.find id, show c.staged.entries.lookup id = _ from hid]
  rfl

theorem find_modified {content : Content} (hid : c.staged.find? id = some (.modify content)) :
    ∃ unit, c₃.sources.find? id = some unit ∧ unit.state = .unregistered := by
  obtain ⟨unit, hu⟩ := (h.ready.known id _ hid).2 (by simp)
  have hch : id ∈ changedSources c.staged :=
    (mem_changedSources h.ready.ordered).2 ⟨_, hid, by simp⟩
  have hid' : c.staged.entries.lookup id = some (.modify content) := hid
  rw [h.replaced.find id, h.withdrawn.find id, h.taken.find id, hid', if_pos hch]
  simp [replace, renew, enter, hu]

theorem find_created {content : Content} (hid : c.staged.find? id = some (.create content)) :
    c₃.sources.find? id = some { content } := by
  have hch : id ∉ changedSources c.staged := fun hch => by
    obtain ⟨change, hch, hne⟩ := (mem_changedSources h.ready.ordered).1 hch
    exact hne content (Option.some.inj (hch.symm.trans hid))
  have hid' : c.staged.entries.lookup id = some (.create content) := hid
  have hfind : c₁.sources.find? id = some { content } := by
    rw [h.taken.find id, hid']
    rfl
  have hre : id ∉ rebuild := fun hre => by
    have hnone : c.sources.find? id = none := by
      rw [Option.eq_none_iff_forall_ne_some]
      exact fun unit hu => absurd rfl ((h.ready.known id _ hid).1 ⟨unit, hu⟩ content)
    rcases (h.rebuilt id).1 hre with hre | hre
    · obtain ⟨-, unit, hu, hpending⟩ := (h.retried id).1 hre
      obtain rfl := Option.some.inj (hu.symm.trans hfind)
      simp [SourceState.isPending] at hpending
    · obtain ⟨m, hm⟩ := h.depends.nodes id hre
      rw [h.taken.graph] at hm
      obtain ⟨x, hx, -⟩ := h.ready.tidy.sourceOf?_iff_tree.1 hm
      obtain ⟨unit, hu⟩ := h.ready.registered id (List.ne_nil_of_mem hx)
      simp [hnone] at hu
  rw [h.replaced.find id, h.withdrawn.find id, hid', if_neg hch, if_neg hre, hfind]
  rfl

theorem find_unstaged (hid : c.staged.find? id = none) : c₃.sources.find? id =
    if id ∈ rebuild then (c.sources.find? id).map (unwound false) else c.sources.find? id := by
  have hch : id ∉ changedSources c.staged := fun hch => by
    obtain ⟨change, hch, -⟩ := (mem_changedSources h.ready.ordered).1 hch
    simp [hid] at hch
  have hid' : c.staged.entries.lookup id = none := hid
  rw [h.replaced.find id, h.withdrawn.find id, h.taken.find id, hid', if_neg hch]

theorem place (hu : c₃.sources.find? id = some unit) :
    unit.state = .unregistered ∨
    (id ∈ rebuild ∧ unit.state = .parsed ∧ unit.diagnostics = []) ∨
    id ∉ changedSources c.staged ++ rebuild ∧ unit.state.isPending = false ∧
      c.sources.find? id = some unit := by
  cases hid : c.staged.find? id with
  | none =>
    have hch : id ∉ changedSources c.staged := fun hch => by
      obtain ⟨change, hch, -⟩ := (mem_changedSources h.ready.ordered).1 hch
      simp [hid] at hch
    rw [h.find_unstaged hid] at hu
    split at hu
    · rename_i hre
      obtain ⟨unit', -, rfl⟩ := Option.map_eq_some_iff.1 hu
      exact .inr (.inl ⟨hre, rfl, rfl⟩)
    · rename_i hre
      refine .inr (.inr ⟨by simp [hch, hre], ?_, hu⟩)
      by_contra hpending
      refine hre ((h.rebuilt id).2
        (.inl ((h.retried id).2 ⟨hch, unit, ?_, by simpa using hpending⟩)))
      rw [h.taken.find id, show c.staged.entries.lookup id = none from hid]
      exact hu
  | some change =>
    cases change with
    | create content =>
      rw [h.find_created hid] at hu
      exact .inl (Option.some.inj hu ▸ rfl)
    | modify content =>
      obtain ⟨unit', hu', hst⟩ := h.find_modified hid
      exact .inl (Option.some.inj (hu.symm.trans hu') ▸ hst)
    | delete => simp [h.find_deleted hid] at hu

theorem mem_of_changed (hid : id ∈ changedSources c.staged) :
    id ∈ deletedSources c.staged ∨ id ∈ c₃.inState .unregistered := by
  obtain ⟨change, hch, hne⟩ := (mem_changedSources h.ready.ordered).1 hid
  cases change with
  | create content => exact absurd rfl (hne content)
  | modify content => exact .inr (h.replaced.sane.mem_inState.2 (h.find_modified hch))
  | delete => exact .inl ((mem_deletedSources h.ready.ordered).2 hch)

theorem unparsed_changed (hid : id ∈ c₃.inState .unregistered)
    (hne : c.graph.persistentNodes id ≠ []) : id ∈ changedSources c.staged := by
  obtain ⟨unit, hu, hst⟩ := h.replaced.sane.mem_inState.1 hid
  obtain ⟨unit', hu'⟩ := h.ready.registered id hne
  cases hch : c.staged.find? id with
  | none =>
    rw [h.find_unstaged hch, hu'] at hu
    split at hu
    · obtain rfl := Option.some.inj hu
      simp [unwound] at hst
    · obtain rfl := Option.some.inj hu
      exact absurd (h.ready.blank id _ hu' hst) hne
  | some change =>
    exact (mem_changedSources h.ready.ordered).2
      ⟨change, hch, (h.ready.known id change hch).1 ⟨unit', hu'⟩⟩

/-- Elements that have been unbound stay so, and those that are new have nothing to be unbound. -/
theorem cleared (hK : CoversMetamodel K)
    (hp : Parsed K (c₃.inState .unregistered) c₃ c₄) {s : SourceId} (hs : s ∈ c₄.inState .parsed)
    {x : NodeId} (hx : x ∈ c₄.graph.persistentNodes s) : Cleared false c c₄ x := by
  have ht := h.replaced.sane.tidy
  have ht' := hp.sane.tidy
  have hlife := (ht'.persistent_iff s x).1 hx
  obtain ⟨unit, hu, hst⟩ := hp.sane.mem_inState.1 hs
  by_cases hun : s ∈ c₃.inState .unregistered
  · have hnew : c₃.graph.contains x = false := by
      by_contra hcon
      obtain ⟨unit₃, hu₃, hst₃⟩ := h.replaced.sane.mem_inState.1 hun
      have hagree := hp.grows.agree ht.toClosed (by simpa using hcon)
      have hmem := (ht.persistent_iff s x).2 (hagree.lifetime ▸ hlife)
      simp [h.replaced.sane.blank s unit₃ hu₃ hst₃] at hmem
    have hundone := hp.grows.undone ht.toCoherent ht'.toRegular hlife hnew
    exact ⟨hundone.toStripped, fun _ _ => hundone⟩
  · rw [hp.units s hun] at hu
    rcases h.place hu with hst' | ⟨hre, -, -⟩ | ⟨-, hpending, -⟩
    · simp [hst] at hst'
    · have hx₃ : x ∈ c₃.graph.persistentNodes s := by
        rwa [← hp.trace.persistentNodes ht hK hun]
      have hlife₃ := (ht.persistent_iff s x).1 hx₃
      rw [h.replaced.graph] at hx₃
      obtain ⟨hstripped, hundone⟩ := h.withdrawn.cleared s hre x hx₃
      rw [← h.replaced.graph] at hstripped hundone
      rw [h.taken.graph] at hundone
      exact ⟨hstripped.grows hp.grows ht.toRegular ht'.toRegular hlife₃, fun hr hl =>
        (hundone hr hl).grows hp.grows ht.toRegular ht'.toRegular hlife₃⟩
    · simp [hst, SourceState.isPending] at hpending

theorem prepared (hK : CoversMetamodel K) (hp : Parsed K (c₃.inState .unregistered) c₃ c₄) :
    Prepared K ⟨deletedSources c.staged, rebound, rebuild, c₃.inState .unregistered,
      c₄.inState .parsed⟩ c c₄ := by
  have hdeleted {id : SourceId} (hid : id ∈ deletedSources c.staged) :
      id ∈ changedSources c.staged :=
    (mem_changedSources h.ready.ordered).2 ⟨_, (mem_deletedSources h.ready.ordered).1 hid, by simp⟩
  have hsub : ∀ id, id ∈ changedSources c.staged ++ rebuild →
      id ∈ deletedSources c.staged ++
        (c₃.inState .unregistered ++ c₄.inState .parsed ++ rebuild) := by
    intro id hid
    rcases List.mem_append.1 hid with hid | hid
    · rcases h.mem_of_changed hid with hid | hid <;> simp [hid]
    · simp [hid]
  have hplace {id : SourceId} {unit : SourceUnit} (hu : c₄.sources.find? id = some unit)
      (hun : id ∉ c₃.inState .unregistered) : (id ∈ rebuild ∧ unit.state = .parsed ∧
        unit.diagnostics = []) ∨ id ∉ changedSources c.staged ++ rebuild ∧
        unit.state.isPending = false ∧ unit.state ≠ .unregistered := by
    rw [hp.units id hun] at hu
    have hne : unit.state ≠ .unregistered := fun hst =>
      hun (h.replaced.sane.mem_inState.2 ⟨unit, hu, hst⟩)
    rcases h.place hu with hst | hre | ⟨hno, hpending, -⟩
    · exact absurd hst hne
    · exact .inl hre
    · exact .inr ⟨hno, hpending, hne⟩
  constructor
  · exact hp.sane
  · exact hp.staged.trans (h.replaced.staged.trans (h.withdrawn.staged.trans h.taken.staged))
  · have h₁ := h.withdrawn.trace.mono hsub
    have h₂ := hp.trace.mono (U := (· ∈ _)) fun id hid => show id ∈ deletedSources c.staged ++
      (c₃.inState .unregistered ++ c₄.inState .parsed ++ rebuild) by simp [hid]
    rw [h.taken.graph, ← h.replaced.graph] at h₁
    exact h₁.trans h₂
  · intro id hid
    simp only [Agenda.touched, List.mem_append, not_or] at hid
    rw [hp.units id hid.2.1.1]
    cases hch : c.staged.find? id with
    | none => rw [h.find_unstaged hch, if_neg hid.2.2]
    | some change =>
      cases change with
      | create content =>
        exact absurd (h.replaced.sane.mem_inState.2 ⟨_, h.find_created hch, rfl⟩) hid.2.1.1
      | modify content =>
        exact absurd (h.replaced.sane.mem_inState.2 (h.find_modified hch)) hid.2.1.1
      | delete => exact absurd ((mem_deletedSources h.ready.ordered).2 hch) hid.1
  · rfl
  · intro id unit hu
    by_cases hun : id ∈ c₃.inState .unregistered
    · obtain ⟨unit₃, hu₃, -⟩ := h.replaced.sane.mem_inState.1 hun
      obtain ⟨unit', hu', -, hst⟩ := hp.answered id hun unit₃ hu₃
      obtain rfl := Option.some.inj (hu.symm.trans hu')
      rcases hst with ⟨hst, hdiag⟩ | ⟨hst, e, hdiag⟩
      · exact .parsed (hp.sane.mem_inState.2 ⟨unit, hu, hst⟩) hst hdiag
      · exact .failed hun hst hdiag
    · rcases hplace hu hun with ⟨-, hst, hdiag⟩ | ⟨hno, hpending, hne⟩
      · exact .parsed (hp.sane.mem_inState.2 ⟨unit, hu, hst⟩) hst hdiag
      · refine .kept ?_ hpending hne
        have hbatch : id ∉ c₄.inState .parsed := fun hmem => by
          obtain ⟨unit', hu', hst⟩ := hp.sane.mem_inState.1 hmem
          obtain rfl := Option.some.inj (hu.symm.trans hu')
          simp [hst, SourceState.isPending] at hpending
        simp only [List.mem_append, not_or] at hno
        simpa [Agenda.touched, hun, hbatch, hno.2] using mt hdeleted hno.1
  · intro s hs x hx
    exact h.cleared hK hp hs hx
  · intro hl
    have hl₂ := h.withdrawn.listed (h.taken.graph ▸ hl)
    rw [← h.replaced.graph] at hl₂
    exact hl₂.grows hp.grows h.replaced.sane.tidy.toCoherent
  · intro t ht r hr u hu s hs
    have hne : c.graph.persistentNodes t ≠ [] := List.ne_nil_of_mem hr
    have hmem : t ∈ changedSources c.staged ++ rebuild := by
      by_cases hun : t ∈ c₃.inState .unregistered
      · exact List.mem_append_left _ (h.unparsed_changed hun hne)
      simp only [Agenda.touched, List.mem_append, hun, false_or] at ht
      rcases ht with hdel | hbatch | hre
      · exact List.mem_append_left _ (hdeleted hdel)
      · obtain ⟨unit, hu, hst⟩ := hp.sane.mem_inState.1 hbatch
        rcases hplace hu hun with ⟨hre, -, -⟩ | ⟨-, hpending, -⟩
        · exact List.mem_append_right _ hre
        · simp [hst, SourceState.isPending] at hpending
      · exact List.mem_append_right _ hre
    refine hsub s ?_
    rw [← h.taken.graph] at hr hu hs
    have hseeds : ∀ id, id ∈ changedSources c.staged ++ retry ++ rebound ↔
        id ∈ changedSources c.staged ++ rebuild := fun id => by
      simp only [List.mem_append, h.rebuilt id, or_assoc]
    exact (hseeds s).1 (h.depends.users t ((hseeds t).2 hmem) r hr u hu s hs)

end Stages

/-- What comes before the parsing: staged changes are taken up, what they concern is withdrawn, and
contents are replaced. There is no batch yet. -/
def approach : Compiling Agenda := do
  let staged ← takeStaged
  let changed := changedSources staged
  let deleted := deletedSources staged
  let retry := retried (← get) changed
  let rebound ← dependents (changed ++ retry)
  let rebuild := (Text.sort (retry ++ rebound)).eraseDups
  withdraw rebuild changed
  replaceSources staged
  return { deleted, rebound, rebuild, unparsed := (← get).inState .unregistered, batch := [] }

theorem prepare_eq : prepare = do
    let a ← approach
    a.unparsed.forM parseSource
    return { a with batch := (← get).inState .parsed } := by
  simp only [prepare, approach, bind_assoc, pure_bind]

theorem approach_runs (hs : c.Ready K) (hK : CoversMetamodel K) :
    Runs (¬ Predefined K) approach c
      (fun a c' => ∃ retry c₁ c₂, Stages K retry a.rebound a.rebuild c c₁ c₂ c' ∧
        a.deleted = deletedSources c.staged ∧ a.unparsed = c'.inState .unregistered)
      fun _ c' => c'.Sane K ∧ c'.staged = ∅ ∧ ¬ Predefined K := by
  refine runs_bind ((takeStaged_ensures hs).runs.imp fun staged c₁ h => ?_)
  obtain ⟨rfl, h₁⟩ := h
  refine runs_bind (Ensures.runs (ensures_get ?_))
  refine runs_bind ((dependents_ensures h₁.sane _).runs.mono (fun rebound c₂ h => ?_) fun _ c' h =>
    ⟨h.2.2.sane, h.2.2.staged.trans h₁.staged, h.2.1⟩)
  obtain ⟨hlook, hdep⟩ := h
  let changed := changedSources c.staged
  let retry := retried c₁ changed
  let rebuild := (Text.sort (retry ++ rebound)).eraseDups
  have hretry (id : SourceId) : id ∈ retry ↔ id ∉ changed ∧
      ∃ unit, c₂.sources.find? id = some unit ∧ unit.state.isPending = true := by
    rw [hlook.sources]
    exact h₁.sane.mem_retried
  have hrebuild (id : SourceId) : id ∈ rebuild ↔ id ∈ retry ∨ id ∈ rebound := by
    simp only [rebuild, List.mem_eraseDups, mem_sort, List.mem_append]
  rw [← hlook.graph] at hdep
  refine runs_bind ((withdraw_runs hlook.sane hK (fun s hs' => ?_)
    fun t ht r hr u hu s hs' => ?_).mono (fun _ c₃ h₃ => ?_) fun _ c' h => ⟨h.2.sane, ?_, h.1⟩)
  · rcases (hrebuild s).1 hs' with hs' | hs'
    · exact ((hretry s).1 hs').1
    · exact fun hch => hdep.new s hs' (List.mem_append_left _ hch)
  · have hmem := hdep.users t (by simp [ht]) r hr u hu s hs'
    simp only [List.mem_append] at hmem ⊢
    rw [hrebuild]
    tauto
  · refine runs_bind ((replaceSources_ensures h₃.sane hs.ordered h₃.empty fun id content hch =>
      hs.offered id _ content hch rfl).runs.imp fun _ c₄ h₄ => ?_)
    refine runs_bind (Ensures.runs (ensures_get (Ensures.runs (ensures_pure
      ⟨retry, c₂, c₃, ?_, rfl, rfl⟩))))
    exact {
      ready := hs
      taken := ⟨hlook.sane, hlook.graph.trans h₁.graph, hlook.staged.trans h₁.staged,
        hlook.sources ▸ h₁.find⟩
      retried := hretry
      depends := hdep
      rebuilt := hrebuild
      withdrawn := h₃
      replaced := h₄ }
  · exact h.2.staged.trans (hlook.staged.trans h₁.staged)

theorem prepare_runs (hs : c.Ready K) (hK : CoversMetamodel K) :
    Runs (¬ Predefined K) prepare c (fun a c' => Prepared K a c c')
      fun e c' => (Predefined K → e.blame ≠ .internal) ∧ c'.Sane K ∧ c'.staged = ∅ ∧
        (Predefined K → c.graph.Listed → c'.graph.Listed) := by
  rw [prepare_eq]
  refine runs_bind ((approach_runs hs hK).mono (fun a c₃ h => ?_) fun _ c' h =>
    ⟨fun hpre => absurd hpre h.2.2, h.1, h.2.1, fun hpre => absurd hpre h.2.2⟩)
  obtain ⟨retry, c₁, c₂, hstages, hdeleted, hunparsed⟩ := h
  have hs₃ := hstages.replaced.sane
  rw [hunparsed]
  refine runs_bind ((parseSources_ensures hs₃ hK (hs₃.nodup_inState _) fun s hs' =>
    hs₃.mem_inState.1 hs').runs.mono (fun _ c₄ h₄ => ?_) fun _ c' h => ?_)
  · refine runs_bind (Ensures.runs (ensures_get (Ensures.runs (ensures_pure ?_))))
    rw [hdeleted]
    exact hstages.prepared hK h₄
  · obtain ⟨hblame, hadv, hgrows⟩ := h
    refine ⟨fun _ => hblame, hadv.sane, hadv.staged.trans (hstages.replaced.staged.trans
      (hstages.withdrawn.staged.trans hstages.taken.staged)), fun _ hl => ?_⟩
    have hl₂ := hstages.withdrawn.listed (by rwa [hstages.taken.graph])
    rw [← hstages.replaced.graph] at hl₂
    exact hl₂.grows hgrows hs₃.tidy.toCoherent

end Stages

end Compiler

end ModelCompiler
