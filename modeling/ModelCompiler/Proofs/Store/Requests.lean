import ModelCompiler.Proofs.Store.Initial
import ModelCompiler.Proofs.Store.Remove

/-!
Requests to the store and the graphs that they lead to.
-/
open ModelCompiler.Action

namespace ModelCompiler

variable {g : Graph}

inductive Request where
  | declareBackReference (property : String)
  | createBootstrap (spec : NodeSpec)
  | createPersistent (source : SourceId) (spec : NodeSpec)
  | createEphemeral (owner : NodeId) (spec : NodeSpec)
  | declareClassifier (path : Path) (generals : List NodeId)
  | addValue (id : NodeId) (property : String) (value : NodeId)
  | setValues (id : NodeId) (property : String) (values : List NodeId)
  | removeValue (id : NodeId) (property : String) (value : NodeId)
  | clearProperty (id : NodeId) (property : String)
  | removeNodes (ids : List NodeId)

namespace Request

def run (g : Graph) : Request → Except Breach Graph
  | .declareBackReference property => .ok (g.declareBackReference property)
  | .createBootstrap spec => (Graph.createBootstrap spec g).map (·.2)
  | .createPersistent source spec => (Graph.createPersistent source spec g).map (·.2)
  | .createEphemeral owner spec => (Graph.createEphemeral owner spec g).map (·.2)
  | .declareClassifier path generals => (Graph.declareClassifier path generals g).map (·.2)
  | .addValue id property value => g.addValue id property value
  | .setValues id property values => g.setValues id property values
  | .removeValue id property value => (g.removeValue id property value).map (·.2)
  | .clearProperty id property => (g.clearProperty id property).map (·.2)
  | .removeNodes ids => (Graph.removeNodes ids g).map (·.2)

def property? : Request → Option String
  | .addValue _ property _ | .setValues _ property _ | .removeValue _ property _
  | .clearProperty _ property => some property
  | _ => none

/-- The request leaves membership in packages to the store. -/
def Mindful (r : Request) : Prop :=
  ∀ p ∈ r.property?, p ≠ "package" ∧ p ≠ "children"

instance (r : Request) : Decidable r.Mindful :=
  inferInstanceAs (Decidable (∀ p ∈ r.property?, p ≠ "package" ∧ p ≠ "children"))

def runAll (g : Graph) (requests : List Request) : Except Breach Graph :=
  requests.foldlM run g

theorem run_addValue {g : Graph} {id value : NodeId} (hid : g.contains id = true)
    (hv : g.contains value = true) (p : String) :
    run g (.addValue id p value) = .ok (g.link id p value) := by
  simp [run, Graph.addValue, hid, hv]

end Request

theorem exists_run (requests : List Request) {P : Graph → Prop} [DecidablePred P]
    (h : ((Request.runAll Graph.spelledOut.1 requests).toOption.any fun g => decide (P g)) = true) :
    ∃ g, Request.runAll Graph.initial requests = .ok g ∧ P g := by
  rw [Graph.spelledOut.2]
  exact exists_ok_of_any h

/-- Graphs that requests lead to, starting from the metamodel. -/
inductive Reachable : Graph → Prop
  | initial : Reachable Graph.initial
  | step {g g' : Graph} (r : Request) : Reachable g → r.Mindful → r.run g = .ok g' → Reachable g'

namespace Graph

variable {g g' : Graph} {id value : NodeId} {p : String}

/-- The laws of the store, and no implicit package is empty. -/
structure Stocked (g : Graph) : Prop extends Sound g where
  filled : g.Filled

namespace Stocked

variable (hs : g.Stocked) {id value : NodeId} {p : String}
include hs

theorem of_children (hs' : g'.Sound) (e : g'.frame = g.frame)
    (hc : ∀ P, g'.values P "children" = g.values P "children") : g'.Stocked :=
  ⟨hs', hs.filled.of_children (fun P h => lifetime?_congr e P ▸ h) hc⟩

theorem link (hid : g.contains id = true) (hv : g.contains value = true) (hp : p ≠ "package")
    (hc : p ≠ "children") : (g.link id p value).Stocked :=
  hs.of_children (hs.toSound.link hid hv hp hc) (frame_link g id value p) fun j => by
    rw [values_link hid, if_neg fun h => hc h.2.symm]

theorem unlink (hmem : value ∈ g.values id p) (hp : p ≠ "package") (hc : p ≠ "children") :
    (g.unlink id p value).Stocked :=
  hs.of_children (hs.toSound.unlink hmem hp hc) (frame_unlink g id value p) fun j => by
    rw [values_unlink (contains_of_mem_values hmem), if_neg fun h => hc h.2.symm]

theorem purge (id : NodeId) (hp : p ≠ "package") (hc : p ≠ "children") : (g.purge id p).Stocked :=
  hs.of_children (hs.toSound.purge id hp hc) (frame_purge g id p) fun j => by
    rw [values_purge, if_neg fun h => hc h.2.symm]

theorem seat {spec : NodeSpec} {lifetime : Lifetime} (ha : g.Admissible spec lifetime false)
    (hl : lifetime ≠ .implicit) : (g.seat spec lifetime false).Stocked := by
  have hi := hs.toIndexed
  refine ⟨hs.toSound.seat ha, hs.filled.of_children (fun P h => ?_) fun P =>
    values_seat _ _ _ hi P _⟩
  rw [lifetime?_seat _ _ _ hi] at h
  split at h
  · exact absurd (Option.some.inj h) hl
  · exact h

end Stocked

theorem Stocked.declareBackReference (hs : g.Stocked) (p : String) :
    (g.declareBackReference p).Stocked := by
  unfold Graph.declareBackReference
  split
  · exact hs
  · exact { hs with
      declared := fun u hu hback => by
        have := hs.declared u hu hback
        simp only [isBackReference, decide_eq_true_eq] at this
        simp [isBackReference, this]
      filled := hs.filled }

theorem Stocked.createBootstrap (hs : g.Stocked) (spec : NodeSpec) :
    Ensures (Graph.createBootstrap spec) g
      (fun id h => h.Stocked ∧ h.contains id = true ∧ ∀ j, g.contains j = true →
        h.contains j = true)
      fun _ h => h = g := by
  refine (createBootstrap_ensures hs.root_isPackage).mono (fun id k hk => ?_) fun _ _ he => he.1
  obtain ⟨path, -, he⟩ := hk
  have hs' : k.Stocked :=
    ⟨he.sound hs.toSound (by simp) (by simp), he.filled (by simp) hs.toSound hs.filled⟩
  obtain ⟨h, parent, hf, -, rfl, -, rfl⟩ := he.founded
  have hi := (hf.sound rfl hs.toSound).toIndexed
  refine ⟨hs', ?_, fun j hj => ?_⟩
  · rw [contains_congr (frame_found _ _ _ _ _), contains_seat _ _ _ hi]
    simp
  · rw [contains_congr (frame_found _ _ _ _ _)]
    exact contains_seat_of_contains _ _ _ hi (hf.contains rfl hs.toSound hj)

theorem Stocked.createPersistent (hs : g.Stocked) (source : SourceId) (spec : NodeSpec) :
    Ensures (Graph.createPersistent source spec) g (fun _ h => h.Stocked) fun _ h => h = g := by
  refine (createPersistent_ensures hs.root_isPackage source).mono (fun id h hk => ?_)
    fun _ _ he => he.1
  rcases hk with ⟨path, -, he⟩ | ⟨hp, hcl, -, rfl⟩
  · exact ⟨he.sound hs.toSound (by simp) (by simp), he.filled (by simp) hs.toSound hs.filled⟩
  · exact hs.seat (admissible_pathless hp source hcl) (by simp)

theorem Stocked.createEphemeral (hs : g.Stocked) (owner : NodeId) (spec : NodeSpec) :
    Ensures (Graph.createEphemeral owner spec) g (fun _ h => h.Stocked) fun _ h => h = g := by
  refine (createEphemeral_ensures owner).mono (fun id h hk => ?_) fun _ _ he => he.1
  obtain ⟨root, hroot, hp, hcl, -, rfl⟩ := hk
  exact hs.seat (hs.toCoherent.admissible_part hroot hp hcl) (by simp)

theorem Stocked.declareClassifier (hs : g.Stocked) (path : Path) (generals : List NodeId) :
    Ensures (Graph.declareClassifier path generals) g (fun _ h => h.Stocked) fun _ h => h = g :=
  declareClassifier_ensures hs.toIndexed (fun _ => rfl) (fun _ _ => hs.createBootstrap _)
    fun _ _ _ _ hk hid hi => hk.link hid hi (by decide) (by decide)

theorem Stocked.removeNodes (hs : g.Stocked) {ids : List NodeId}
    {r : Except GraphError (List NodeId)}
    (h : Graph.removeNodes ids g = .ok (r, g')) : g'.Stocked := by
  have hruns := removeNodes_runs hs.toCoherent hs.toHoused ids
  cases r with
  | ok gone =>
    obtain ⟨order, pruned, -, hk, hc⟩ := hruns.result h
    exact { hc, hk.housed, hs.toFlagged.of_sublist hk.usages hk.backReferences with
      filled := hk.filled hs.filled }
  | error e =>
    obtain rfl := hruns.error h
    exact hs

end Graph

theorem Request.stocked {g' : Graph} (hs : g.Stocked) {r : Request} (hm : r.Mindful)
    (h : r.run g = .ok g') : g'.Stocked := by
  cases r with
  | declareBackReference p => exact Except.ok.inj h ▸ hs.declareBackReference p
  | createBootstrap spec =>
    exact (hs.createBootstrap spec).ends (fun _ _ hq => hq.1) (fun _ _ he => he ▸ hs) h
  | createPersistent source spec =>
    exact (hs.createPersistent source spec).ends (fun _ _ hq => hq) (fun _ _ he => he ▸ hs) h
  | createEphemeral owner spec =>
    exact (hs.createEphemeral owner spec).ends (fun _ _ hq => hq) (fun _ _ he => he ▸ hs) h
  | declareClassifier path generals =>
    exact (hs.declareClassifier path generals).ends (fun _ _ hq => hq) (fun _ _ he => he ▸ hs) h
  | addValue id p v =>
    obtain ⟨hp, hc⟩ := hm p rfl
    obtain ⟨hid, hv, rfl⟩ := Graph.addValue_cases h
    exact hs.link hid hv hp hc
  | setValues id p vs =>
    obtain ⟨hp, hc⟩ := hm p rfl
    exact Graph.setValues_keeps (hs.purge id hp hc) (fun _ _ hk hid hv => hk.link hid hv hp hc) h
  | removeValue id p v =>
    obtain ⟨hp, hc⟩ := hm p rfl
    obtain ⟨b, hr⟩ := exists_of_map_snd_ok h
    obtain ⟨-, rfl | ⟨hmem, rfl⟩⟩ := Graph.removeValue_cases hr
    · exact hs
    · exact hs.unlink hmem hp hc
  | clearProperty id p =>
    obtain ⟨hp, hc⟩ := hm p rfl
    obtain ⟨old, hr⟩ := exists_of_map_snd_ok h
    obtain rfl := Graph.eq_purge_of_clearProperty hr
    exact hs.purge id hp hc
  | removeNodes ids =>
    obtain ⟨out, hr⟩ := exists_of_map_snd_ok h
    exact hs.removeNodes hr

theorem Reachable.stocked (h : Reachable g) : g.Stocked := by
  induction h with
  | initial =>
    refine ⟨Graph.basal_initial.toSound, fun P hP => ?_⟩
    have := Graph.basal_initial.bootstrap P _ hP
    simp at this
  | step r _ hm hr ih => exact Request.stocked ih hm hr

theorem Reachable.sound (h : Reachable g) : g.Sound :=
  h.stocked.toSound

theorem Reachable.runAll {requests : List Request} {g g' : Graph} (hg : Reachable g)
    (hm : ∀ r ∈ requests, r.Mindful) (h : Request.runAll g requests = .ok g') : Reachable g' :=
  foldlM_keeps (fun r hr _ _ hk => .step r hk (hm r hr)) hg h

end ModelCompiler
