import ModelCompiler.Proofs.Compiling.Leftovers
import ModelCompiler.Proofs.Compiling.Staging
import ModelCompiler.Proofs.Slots.Phases

/-!
A compiler from which all sources have been withdrawn is as good as new. Its graph is the initial
one, but for the slots that have been used and given back. A renaming pairs the slots that it gives
out next with those of a new compiler, and from there on the two stay in step.
-/
open ModelCompiler.Action ModelCompiler.Graph

namespace ModelCompiler

namespace Graph

variable {K : NodeId → Prop} {π : NodeId → NodeId} {g h : Graph}

theorem slot_of_lt {n : Nat} (hn : n < g.free.length) : g.slot n = g.free[n] := by
  rw [slot, List.getElem?_eq_getElem hn, Option.getD_some]

theorem slot_of_le {n : Nat} (hn : g.free.length ≤ n) :
    g.slot n = g.slots.size + (n - g.free.length) := by
  rw [slot, List.getElem?_eq_none hn, Option.getD_none]

section Slots

variable (hp : g.Packed)
include hp

theorem Packed.slot_lt_iff {n : Nat} : g.slot n < g.slots.size ↔ n < g.free.length := by
  constructor
  · intro hlt
    by_contra hn
    rw [slot_of_le (Nat.le_of_not_lt hn)] at hlt
    exact Nat.not_lt.2 (Nat.le_add_right _ _) hlt
  · intro hn
    rw [slot_of_lt hn]
    exact ((hp.mem_free _).1 (List.getElem_mem hn)).1

theorem Packed.slot_injective : Function.Injective g.slot := by
  intro n k heq
  have hlt : n < g.free.length ↔ k < g.free.length := by
    rw [← hp.slot_lt_iff, ← hp.slot_lt_iff, heq]
  by_cases hn : n < g.free.length
  · rw [slot_of_lt hn, slot_of_lt (hlt.1 hn)] at heq
    exact hp.nodup.getElem_inj_iff.1 heq
  · have hk : ¬ k < g.free.length := fun h => hn (hlt.2 h)
    rw [slot_of_le (Nat.le_of_not_lt hn), slot_of_le (Nat.le_of_not_lt hk)] at heq
    have := Nat.add_left_cancel heq
    omega

theorem Packed.exists_slot_iff {x : NodeId} : (∃ n, g.slot n = x) ↔ g.contains x = false := by
  constructor
  · rintro ⟨n, rfl⟩
    by_cases hn : n < g.free.length
    · rw [slot_of_lt hn]
      exact ((hp.mem_free _).1 (List.getElem_mem hn)).2
    · by_contra hlive
      exact hn (hp.slot_lt_iff.1 (lt_size_of_contains (by simpa using hlive)))
  · intro hdead
    by_cases hx : x < g.slots.size
    · obtain ⟨n, hn, hget⟩ := List.getElem_of_mem ((hp.mem_free x).2 ⟨hx, hdead⟩)
      exact ⟨n, (slot_of_lt hn).trans hget⟩
    · refine ⟨g.free.length + (x - g.slots.size), ?_⟩
      rw [slot_of_le (Nat.le_add_right _ _), Nat.add_sub_cancel_left]
      exact Nat.add_sub_cancel' (Nat.le_of_not_lt hx)

end Slots

/-- Graphs with the same nodes: a renaming that leaves those alone and takes the slots to come in
one graph to those in the other. -/
theorem Packed.exists_pairing (hg : g.Packed) (hh : h.Packed)
    (hlive : ∀ x, h.contains x = g.contains x) : ∃ π : NodeId → NodeId, Function.Bijective π ∧
      (∀ x, g.contains x = true → π x = x) ∧ ∀ n, h.slot n = π (g.slot n) := by
  let π : NodeId → NodeId := fun x => if g.contains x then x else h.slot (Function.invFun g.slot x)
  have hfix (x : NodeId) (hx : g.contains x = true) : π x = x := if_pos hx
  have hslot (n : Nat) : π (g.slot n) = h.slot n := by
    have hdead : g.contains (g.slot n) = false := hg.exists_slot_iff.1 ⟨n, rfl⟩
    simp only [π, hdead, Bool.false_eq_true, if_false]
    rw [Function.leftInverse_invFun hg.slot_injective]
  -- every node is live in both graphs or a slot to come in both
  have hcases (x : NodeId) : g.contains x = true ∨ ∃ n, g.slot n = x := by
    rw [hg.exists_slot_iff]
    cases g.contains x <;> simp
  have hapart {x : NodeId} (hx : g.contains x = true) (n : Nat) : x ≠ h.slot n := by
    rintro rfl
    have := hh.exists_slot_iff.1 ⟨n, rfl⟩
    rw [hlive, hx] at this
    simp at this
  refine ⟨π, ⟨fun x y hxy => ?_, fun y => ?_⟩, hfix, fun n => (hslot n).symm⟩
  · rcases hcases x with hx | ⟨n, rfl⟩ <;> rcases hcases y with hy | ⟨k, rfl⟩
    · rwa [hfix x hx, hfix y hy] at hxy
    · rw [hfix x hx, hslot] at hxy
      exact absurd hxy (hapart hx k)
    · rw [hfix y hy, hslot] at hxy
      exact absurd hxy.symm (hapart hy n)
    · rw [hslot, hslot] at hxy
      rw [hh.slot_injective hxy]
  · by_cases hy : g.contains y = true
    · exact ⟨y, hfix y hy⟩
    · obtain ⟨n, hn⟩ := hh.exists_slot_iff.2 (by simpa [hlive] using hy : h.contains y = false)
      exact ⟨g.slot n, (hslot n).trans hn⟩

theorem packed_of_isSequential (hs : g.isSequential = true) : g.Packed := by
  simp only [isSequential, Bool.and_eq_true, List.isEmpty_iff, List.all_eq_true,
    List.mem_range] at hs
  obtain ⟨⟨hfree, hall⟩, -⟩ := hs
  refine ⟨by simp [hfree], fun id => ?_⟩
  rw [hfree]
  simpa using hall id

theorem Unchanged.refl (g : Graph) : Unchanged g g :=
  ⟨fun _ => rfl, rfl, fun _ => rfl, fun _ => rfl, fun _ => rfl, fun _ => rfl, rfl, fun _ => rfl,
    fun _ => rfl, rfl, rfl⟩

section Pairing

theorem Unchanged.contains (hu : Unchanged h g) (x : NodeId) : g.contains x = h.contains x := by
  rw [Graph.contains, hu.node, Graph.contains]

theorem Unchanged.sameUpTo (hu : Unchanged h g) (hg : g.Regular K) (hh : h.Regular K)
    (hπ : Function.Bijective π) (hfix : ∀ x, g.contains x = true → π x = x) : SameUpTo π g h := by
  have hi := hg.toIndexed
  have hi' := hh.toIndexed
  have hlist {l : List NodeId} (hl : ∀ x ∈ l, g.contains x = true) : l.map π = l :=
    (List.map_congr_left fun x hx => hfix x (hl x hx)).trans (List.map_id l)
  have hoption {o : Option NodeId} (ho : ∀ x, o = some x → g.contains x = true) : o.map π = o := by
    cases o with
    | none => rfl
    | some x => exact congrArg some (hfix x (ho x rfl))
  -- a name that does not live has one that does not live either
  have hdead {x : NodeId} (hx : g.contains x ≠ true) : h.contains (π x) ≠ true := fun hlive => by
    rw [← hu.contains] at hlive
    exact hx (hπ.1 (hfix _ hlive) ▸ hlive)
  refine ⟨hπ.1, fun y _ => hπ.2 y, hfix _ (contains_of_lifetime? hg.root_bootstrap), fun x => ?_,
    fun x => ?_, ?_, fun p => ?_, fun s => ?_, fun o => ?_, fun s => ?_, fun c => ?_, fun x => ?_,
    hu.backReferences.symm, ?_⟩
  · by_cases hx : g.contains x = true
    · rw [hfix x hx, ← hu.node]
      obtain ⟨n, hn⟩ := contains_iff.1 hx
      have hclassifier : n.classifier.map π = n.classifier :=
        hoption fun k hk => hg.classifier_live x k (by simp [Graph.classifier?, hn, hk])
      have hlifetime : n.lifetime.rename π = n.lifetime := by
        cases hl : n.lifetime with
        | ephemeral o =>
          rw [Lifetime.rename, hfix o (hg.owner_live x o (by simp [Graph.lifetime?, hn, hl]))]
        | bootstrap | implicit | persistent => rfl
      simp only [hn, Option.map_some, Node.relabel, hclassifier, hlifetime]
      rfl
    · have hnone {k : Graph} {x : NodeId} (hx : k.contains x ≠ true) : k.node? x = none := by
        simpa [Graph.contains] using hx
      rw [hnone hx, hnone (hdead hx)]
      rfl
  · by_cases hx : g.contains x = true
    · have hprops : h.propertiesOf x = g.propertiesOf x := by
        rw [propertiesOf, propertiesOf, hu.node]
      rw [hfix x hx, hprops, Table.relabel]
      refine (congrArg Table.mk ?_).symm
      refine (List.map_congr_left fun e he => ?_).trans (List.map_id _)
      have hfind := (Table.mem_entries_iff (hg.nodup_keys x)).1 he
      have hvalues := hlist fun v hv => hg.value_live x e.1 v (by
        rwa [values_eq, Table.values_eq_of_find? hfind])
      rw [hvalues]
      rfl
    · rw [propertiesOf_of_not_contains (by simpa using hdead hx),
        propertiesOf_of_not_contains (by simpa using hx)]
      rfl
  · rw [← hu.usages]
    refine (List.map_congr_left fun u hmem => ?_).trans (List.map_id _) |>.symm
    rw [Usage.relabel, hfix _ (hg.toMirrored.user_live hmem), hfix _ (hg.target_live u hmem)]
    rfl
  · rw [← hu.lookup, hoption fun x hx => contains_of_path? ((hi.lookup_iff p x).1 hx)]
  · rw [← hu.persistent, hlist fun x hx => hi.persistent_live hx]
  · by_cases hx : g.contains o = true
    · rw [hfix o hx, ← hu.owned, hlist fun x hx => contains_of_lifetime?
        ((hi.owned_iff o x).1 hx).1]
    · rw [hi'.ownedBy_dead (hdead hx), hi.ownedBy_dead hx]
      rfl
  · rw [← hu.named, hlist fun x hx => title?_live (hg.named s x hx)]
  · by_cases hx : g.contains c = true
    · rw [hfix c hx, ← hu.instances,
        hlist fun x hx => contains_of_classifier? ((hi.instance_iff c x).1 hx).1]
    · rw [hi'.instancesOf_dead (hdead hx), hi.instancesOf_dead hx]
      rfl
  · by_cases hx : g.contains x = true
    · rw [hfix x hx, hu.package]
    · rw [hi'.isPackage_dead (hdead hx), hi.isPackage_dead hx]
  · rw [← hu.packageClassifier,
      hoption fun k hk => contains_of_lifetime? (hg.classifier_bootstrap k hk)]

theorem Unchanged.exists_inStep (hu : Unchanged initial g) (hg : g.Regular K)
    (hK : CoversMetamodel K) (hpacked : g.Packed) :
    ∃ π, Function.Bijective π ∧ InStep False π g initial := by
  have hpacked' := packed_of_isSequential isSequential_initial
  obtain ⟨π, hπ, hfix, hslot⟩ := hpacked.exists_pairing hpacked' fun x => (hu.contains x).symm
  refine ⟨π, hπ, hu.sameUpTo hg (tidy_initial hK).toRegular hπ hfix, .inr ⟨not_false, hslot,
    ⟨hpacked, hpacked'⟩, fun m c _ hc => ?_⟩⟩
  rw [← hu.contains]
  exact hg.classifier_live m c hc

end Pairing

end Graph

namespace Compiler

variable {c d : Compiler}

theorem exists_alongside (hc : c.Ready fun _ => True) (hd : d.Ready fun _ => True)
    (hpacked : c.graph.Packed) (hu : Unchanged initial c.graph) (hg : d.graph = initial)
    (hsources : c.sources = ∅) (hsources' : d.sources = ∅) (hstaged : d.staged = c.staged) :
    ∃ π, Function.Bijective π ∧ Alongside False π c d := by
  obtain ⟨π, hπ, e⟩ := hu.exists_inStep hc.tidy.toRegular (fun _ _ => trivial) hpacked
  rw [← hg] at e
  refine ⟨π, hπ, ⟨e, ?_, hstaged⟩, hc, hd⟩
  rw [hsources, hsources']
  rfl

/-- A compiler keeps pace with itself; so its free slots are those without a node, all along. -/
theorem Reached.packed {P : Call → Answer → Prop} (hc : Reached P c) : c.graph.Packed := by
  suffices h : ∃ π, Alongside False π c c by
    obtain ⟨π, h⟩ := h
    obtain ⟨hfalse, -⟩ | ⟨-, hs⟩ := h.graph.steps
    · exact hfalse.elim
    · exact hs.packed.1
  induction hc with
  | new h =>
    obtain ⟨hs, hg, hsources, hstaged⟩ := new_sane (K := fun _ => True) (fun _ _ => trivial) h
    have hr := hs.ready hstaged
    have hpacked : Packed _ := packed_of_isSequential isSequential_initial
    have hu := Unchanged.refl initial
    rw [← hg] at hpacked
    nth_rewrite 2 [← hg] at hu
    obtain ⟨π, -, h⟩ := exists_alongside hr hr hpacked hu hg hsources hsources rfl
    exact ⟨π, h⟩
  | @call c c' x answer _ hrun _ ih =>
    obtain ⟨π, h⟩ := ih
    have hx := x.run_matched h
    rw [hrun] at hx
    cases hx with
    | ok _ h | error _ h => exact ⟨π, h⟩
  | @validate c c' id errors _ hrun ih =>
    obtain ⟨π, h⟩ := ih
    have hready := (h.left.validated hrun).ready
    have hid := validateSource_matched h.saneInStep id
    rw [hrun] at hid
    cases hid with
    | ok _ h | error _ h => exact ⟨π, h, hready, hready⟩

theorem Reached.alongside_new (hc : Reached Call.Succeeds c) (hsources : c.sources = ∅)
    (hstaged : c.staged = ∅) {config : Config} {schedule : Schedule}
    (hnew : Compiler.new config Registry.withCore schedule = .ok (.ok d)) :
    ∃ π, Function.Bijective π ∧ Alongside False π c d := by
  obtain ⟨hs, hg, hsources', hstaged'⟩ := new_sane (K := fun _ => True) (fun _ _ => trivial) hnew
  exact exists_alongside hc.ready_of_any (hs.ready hstaged') hc.packed (hc.unchanged hsources) hg
    hsources hsources' (hstaged'.trans hstaged.symm)

theorem mem_names_of_exists {id : SourceId} (h : c.exists_ id = true) :
    id ∈ c.staged.names ++ c.sources.names := by
  rw [List.mem_append, Catalog.mem_names_iff, Catalog.mem_names_iff]
  unfold exists_ at h
  cases hfind : c.staged.find? id with
  | none =>
    rw [hfind] at h
    exact .inr h
  | some change => exact .inl rfl

theorem Ready.withdrawn {K : NodeId → Prop} (hc : c.Ready K) (hdeleted : ∀ id, c.exists_ id = false)
    {report : CompileReport} (hrun : compile c = .ok (.ok report, d)) :
    d.sources = ∅ ∧ d.staged = ∅ := by
  obtain ⟨hstaged, hcontent⟩ := compile_contents hc.stagedFits hrun
  refine ⟨Catalog.eq_empty fun id => ?_, hstaged⟩
  have hnone := hdeleted id
  rw [exists_eq, ← hcontent, ← contains_eq] at hnone
  simpa [Catalog.contains] using hnone

/-- After a session in which every compile has succeeded, and in the end one with all sources
deleted, nothing is left but the predefined nodes, and they are as in the beginning. Whatever turns
follow, they show the same as on a new compiler, up to one renaming of the nodes: the same replies,
sources and staged changes, and the same graph. -/
theorem withdrawn_like_new (hc : Reached Call.Succeeds c) (hdeleted : ∀ id, c.exists_ id = false)
    {report : CompileReport} (hrun : compile c = .ok (.ok report, d)) :
    (∀ m, d.graph.contains m = true → d.graph.lifetime? m = some .bootstrap) ∧
    (∀ m, d.graph.node? m = initial.node? m) ∧
    ∀ config schedule e, Compiler.new config Registry.withCore schedule = .ok (.ok e) →
      ∃ π, Function.Bijective π ∧ ∀ turns,
        List.Forall₂ (Jointly (Observation.SameUpTo π)) (observe turns d) (observe turns e) := by
  have hcall : Call.compile.run c = .ok (.ok (some report), d) := by
    rw [Call.run, run_bind, hrun]
    rfl
  have hd : Reached Call.Succeeds d := .call hc hcall fun _ => rfl
  obtain ⟨hsources, hstaged⟩ := hc.ready_of_any.withdrawn hdeleted hrun
  have hu := hd.unchanged hsources
  refine ⟨fun m hm => hd.ready_of_any.tidy.toRooted.lifetime? (hu.contains m ▸ hm), hu.node,
    fun config schedule e hnew => ?_⟩
  obtain ⟨π, hπ, h⟩ := hd.alongside_new hsources hstaged hnew
  exact ⟨π, hπ, h.observe⟩

def roundTrip : List Call :=
  [.create "a" "Class p::A { }", .create "b" "import p::*;\nClass q::B extends A { }", .compile,
    .delete "b", .delete "a"]

/-- The slots that come next have all been in use, and they come in another order. -/
theorem roundTrip_like_new : ∃ c report d e π, session roundTrip = some c ∧
    compile c = .ok (.ok report, d) ∧ d.graph.free = [41, 45, 47, 46, 44, 43, 42, 40] ∧
    (∀ m, d.graph.node? m = initial.node? m) ∧
    Compiler.new .sequential Registry.withCore = .ok (.ok e) ∧ Function.Bijective π ∧
    ∀ turns, List.Forall₂ (Jointly (Observation.SameUpTo π)) (observe turns d)
      (observe turns e) := by
  have hsample : ∃ c report d, session roundTrip = some c ∧ compile c = .ok (.ok report, d) ∧
      (∀ id ∈ c.staged.names ++ c.sources.names, c.exists_ id = false) ∧
      d.graph.free = [41, 45, 47, 46, 44, 43, 42, 40] :=
    exists_compiled (by rw [session, new, spelledOut.2]; decide +kernel)
  obtain ⟨c, report, d, hsession, hrun, hnames, hfree⟩ := hsample
  have hdeleted (id : SourceId) : c.exists_ id = false := by
    by_contra hid
    exact hid (hnames id (mem_names_of_exists (by simpa using hid)))
  have hconfig : Config.sequential.check = .ok () := by decide
  obtain ⟨e, hnew, -⟩ := exists_new hconfig .inTurn
  have hreached := Reached.of_session hsession
  obtain ⟨-, hnode, hlike⟩ := withdrawn_like_new hreached hdeleted hrun
  obtain ⟨π, hπ, hturns⟩ := hlike _ _ e hnew
  exact ⟨c, report, d, e, π, hsession, hrun, hfree, hnode, hnew, hπ, hturns⟩

def shadowing : List Call :=
  [.create "t" "Class X { }", .create "s" "Class p::X { }",
    .create "d" "import p::*;\nClass q::C extends X { }", .compile]

def resupply : List Call :=
  [.delete "s", .compile, .create "s" "Class p::X { }", .compile]

open Snapshot in
/-- The class of the source that is back hides `X` again, but what extends `X` is not bound anew. -/
theorem shadowing_not_restored : ∃ c d, session shadowing = some c ∧ play resupply c = some d ∧
    d.sources.names = c.sources.names ∧ (∀ id ∈ c.sources.names,
      d.content? id = c.content? id ∧ c.stateOf id = .active ∧ d.stateOf id = .active) ∧
    capture d.graph ≠ capture c.graph := by
  obtain ⟨c, hsession, h⟩ : ∃ c, session shadowing = some c ∧ ((play resupply c).any fun d =>
      decide ((d.sources.names = c.sources.names ∧ ∀ id ∈ c.sources.names,
        d.content? id = c.content? id ∧ c.stateOf id = .active ∧ d.stateOf id = .active) ∧
      ∀ x ∈ [(c.graph, none), (d.graph, some [43])], x.1.Titled ∧ isPlain x.1 = true ∧
        (x.1.node? 49 >>= topKey? x.1 49) = some "X" ∧
        (x.1.propertiesOf 49).find? "specializations" = x.2)) = true :=
    exists_session (by rw [session, new, spelledOut.2]; decide +kernel)
  obtain ⟨d, hplay, h⟩ := (Option.any_eq_true _ _).1 h
  obtain ⟨⟨hnames, hsame⟩, hgraphs⟩ := of_decide_eq_true h
  refine ⟨c, d, hsession, hplay, hnames, hsame, fun heq => ?_⟩
  have hc := reached_of_session (Q := fun _ => True) (fun _ _ => trivial) hsession
  have hd := hc.play (fun _ _ => trivial) hplay
  obtain ⟨ht, hplain, hk, hnone⟩ := hgraphs (c.graph, none) (.head _)
  obtain ⟨ht', hplain', hk', hsome⟩ := hgraphs (d.graph, some [43]) (.tail _ (.head _))
  obtain ⟨e, he, hp⟩ := exists_get?_capture hc.ready_of_any.tidy.toCoherent ht hplain hk
  obtain ⟨e', he', hp'⟩ := exists_get?_capture hd.ready_of_any.tidy.toCoherent ht' hplain' hk'
  rw [heq, he, Option.some.injEq] at he'
  have hlookup := hp "specializations"
  rw [he', hp', hsome, hnone] at hlookup
  simp at hlookup

end Compiler

end ModelCompiler
