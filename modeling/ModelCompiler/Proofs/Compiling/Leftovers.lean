import ModelCompiler.Proofs.Compiling.Discarding
import ModelCompiler.Proofs.Compiling.Reports
import ModelCompiler.Proofs.Reading

/-!
What is left once all sources have gone: the metamodel as it was in the beginning, and nothing else.
-/
open ModelCompiler.Action ModelCompiler.Graph

namespace ModelCompiler

namespace Graph

variable {K R : NodeId → Prop} {T : SourceId → Prop} {g g' h : Graph} {m : NodeId}

def Tiered (g : Graph) : Prop :=
  ∃ depth : NodeId → Nat, ∀ P, ∀ c ∈ g.children P, depth P < depth c

namespace Tiered

theorem of_children (ht : g.Tiered) (hc : ∀ P, ∀ c ∈ g'.children P, c ∈ g.children P) :
    g'.Tiered := by
  obtain ⟨depth, hd⟩ := ht
  exact ⟨depth, fun P c hmem => hd P c (hc P c hmem)⟩

theorem link (ht : g.Tiered) {j v : NodeId} {q : String} (hj : g.contains j = true)
    (hq : q ≠ "children") : (g.link j q v).Tiered :=
  ht.of_children fun P c hc => by
    rwa [children, values_link hj, if_neg fun h => hq h.2.symm] at hc

theorem seat (ht : g.Tiered) (hi : g.Indexed) (spec : NodeSpec) (lifetime : Lifetime)
    (package : Bool) : (g.seat spec lifetime package).Tiered :=
  ht.of_children fun P c hc => by rwa [children, values_seat _ _ _ hi] at hc

theorem without (ht : g.Tiered) {gone : List NodeId} (w : Without g g' gone) : g'.Tiered :=
  ht.of_children fun _ _ hc => (w.mem_values hc).2.1

theorem found (ht : g.Tiered) (hc : g.Coherent) {parent : NodeId} (hp : g.contains parent = true)
    (spec : NodeSpec) (lifetime : Lifetime) (package : Bool) :
    (g.found spec lifetime package parent).Tiered := by
  obtain ⟨depth, hd⟩ := ht
  have hparent : parent ≠ g.fresh := hc.toIndexed.ne_fresh hp
  refine ⟨Function.update depth g.fresh (depth parent + 1), fun P c hmem => ?_⟩
  rw [children, values_found hc.toIndexed hp] at hmem
  have hold (hmem : c ∈ g.children P) : Function.update depth g.fresh (depth parent + 1) P <
      Function.update depth g.fresh (depth parent + 1) c := by
    rw [Function.update_of_ne (hc.toIndexed.ne_fresh (contains_of_mem_values hmem)),
      Function.update_of_ne (hc.toIndexed.ne_fresh (hc.value_live P _ c hmem))]
    exact hd P c hmem
  split at hmem
  · rename_i hP
    rcases List.mem_append.1 hmem with hmem | hmem
    · exact hold (hP.1 ▸ hmem)
    · rw [List.mem_singleton.1 hmem, hP.1, Function.update_self, Function.update_of_ne hparent]
      exact Nat.lt_succ_self _
  · rw [if_neg (by simp)] at hmem
    exact hold hmem

theorem founded (ht : g.Tiered) (hr : g.Regular K) (hK : CoversMetamodel K)
    {package : NodeId} (hf : Founded .implicit g h package) : h.Tiered := by
  induction hf with
  | refl => exact ht
  | step hf _ ih =>
    have hh := hf.regular hr hK
    exact ih.found hh.toCoherent (hh.isPackage_live hf.isPackage) _ _ _

end Tiered

section Moves

theorem Step.tiered (h : Step K R g g') (ht : g.Tidy K) (hd : g.Tiered) : g'.Tiered := by
  cases h with
  | link hq _ hj => exact hd.link hj fun h => by simp [h, Metamodel.derived] at hq
  | type => exact hd.seat ht.toIndexed _ _ _
  | fill hty _ hq =>
    obtain ⟨o, hp⟩ := hty
    exact hd.link (contains_of_lifetime? hp.lifetime) fun h => by simp [h] at hq
  | unlink hv =>
    refine hd.of_children fun P c hc => ?_
    rw [children, values_unlink (contains_of_mem_values hv)] at hc
    split at hc
    · rename_i h
      rw [children, h.1, h.2]
      exact List.mem_of_mem_erase hc
    · exact hc
  | purge =>
    refine hd.of_children fun P c hc => ?_
    rw [children, values_purge] at hc
    split at hc
    · simp at hc
    · exact hc
  | drop _ _ hk _ => exact hd.without hk.toWithout

theorem Step.packageClassifier (h : Step K R g g') :
    g'.packageClassifier = g.packageClassifier := by
  cases h with
  | link => exact packageClassifier_congr (frame_link _ _ _ _)
  | type => rfl
  | fill => exact packageClassifier_congr (frame_link _ _ _ _)
  | unlink => exact packageClassifier_congr (frame_unlink _ _ _ _)
  | purge => exact packageClassifier_congr (frame_purge _ _ _)
  | drop _ _ hk _ => exact hk.packageClassifier

theorem Founded.packageClassifier {lifetime : Lifetime} {package : NodeId}
    (hf : Founded lifetime g h package) : h.packageClassifier = g.packageClassifier := by
  induction hf with
  | refl => rfl
  | step _ _ ih => exact (packageClassifier_congr (frame_found _ _ _ _ _)).trans ih

theorem Move.packageClassifier (h : Move K T g g') :
    g'.packageClassifier = g.packageClassifier := by
  cases h with
  | step _ h => exact h.packageClassifier
  | element _ he _ =>
    obtain ⟨h, parent, hf, -, -, -, rfl⟩ := he.founded
    exact (packageClassifier_congr (frame_found _ _ _ _ _)).trans hf.packageClassifier
  | part => rfl
  | write => exact packageClassifier_congr (frame_link _ _ _ _)
  | remove _ _ hk _ => exact hk.packageClassifier

theorem Trace.packageClassifier (h : Trace K T g g') :
    g'.packageClassifier = g.packageClassifier := by
  induction h with
  | refl => rfl
  | tail _ hs ih => exact hs.packageClassifier.trans ih

variable (hK : CoversMetamodel K)
include hK

theorem Move.tiered (h : Move K T g g') (ht : g.Tidy K) (hd : g.Tiered) : g'.Tiered := by
  cases h with
  | step _ h => exact h.tiered ht hd
  | element _ he _ =>
    obtain ⟨h, parent, hf, -, -, -, rfl⟩ := he.founded
    have hh := hf.regular ht.toRegular hK
    exact (hd.founded ht.toRegular hK hf).found hh.toCoherent (hh.isPackage_live hf.isPackage) _ _ _
  | part => exact hd.seat ht.toIndexed _ _ _
  | write ha _ _ _ _ hc => exact hd.link ha.contains hc
  | remove _ _ hk _ => exact hd.without hk.toWithout

theorem Trace.tiered (h : Trace K T g g') (ht : g.Tidy K) (hd : g.Tiered) : g'.Tiered := by
  induction h with
  | refl => exact hd
  | tail hw hs ih => exact hs.tiered hK (Trace.tidy hK hw ht) ih

end Moves

section Initial

def isSequential (g : Graph) : Bool :=
  g.free.isEmpty && (List.range g.slots.size).all g.contains &&
    g.ids.all fun P => (g.children P).all fun c => decide (P < c)

theorem isSequential_initial : initial.isSequential = true := by
  rw [spelledOut.2]
  decide +kernel

theorem tiered_of_isSequential (hs : g.isSequential = true) : g.Tiered := by
  simp only [isSequential, Bool.and_eq_true, List.all_eq_true, decide_eq_true_eq] at hs
  exact ⟨id, fun P c hc => hs.2 P (mem_ids_iff.2 (contains_of_mem_values hc)) c hc⟩

end Initial

section Leftovers

theorem Tidy.initial_of_live (ht : g.Tidy K) (hd : g.Tiered) (hnone : ∀ s, g.persistentNodes s = [])
    (hhome : ∀ c, initial.contains c = true → g.values c "package" = initial.values c "package")
    (hm : g.contains m = true) : initial.contains m = true := by
  have hsource (m : NodeId) : g.sourceOf? m = none := by
    refine Option.eq_none_iff_forall_ne_some.2 fun s hs => ?_
    obtain ⟨r, hr, -⟩ := ht.sourceOf?_iff_tree.1 hs
    simp [hnone] at hr
  refine ht.toRegular.initial_of_sourceless hm (hsource m) fun himp => ?_
  obtain ⟨depth, hdepth⟩ := hd
  -- each package that nobody asked for holds a deeper one, and depths are bounded
  induction hn : g.ids.toFinset.sup depth - depth m using Nat.strong_induction_on
    generalizing m with
  | _ n ih =>
    obtain ⟨c, hc⟩ := List.exists_mem_of_ne_nil _ (ht.filled m himp)
    have hlive := ht.value_live m _ c hc
    by_cases hcimp : g.lifetime? c = some .implicit
    · have hlt := hdepth m c hc
      have hle : depth c ≤ g.ids.toFinset.sup depth :=
        Finset.le_sup (List.mem_toFinset.2 (mem_ids_iff.2 hlive))
      exact ih _ (by omega) hlive hcimp rfl
    · have hinit := ht.toRegular.initial_of_sourceless hlive (hsource c) hcimp
      have hpackage : m ∈ initial.values c "package" := by
        rw [← hhome c hinit, ht.package_of_child m c hc]
        exact List.mem_singleton_self m
      have hboot := ht.toRooted.lifetime? ((tidy_initial (K := fun _ => True)
        fun _ _ => trivial).value_live c _ m hpackage)
      simp [himp] at hboot

/-- Whatever has been done in the name of sources: once they have no elements any more, the graph is
the initial one. -/
theorem Trace.unchanged_initial (h : Trace K T initial g) (hK : CoversMetamodel K)
    (hnone : ∀ s, g.persistentNodes s = []) : Unchanged initial g := by
  have ht₀ := tidy_initial hK
  have ht := Trace.tidy hK h ht₀
  have hun {m : NodeId} (hm : initial.contains m = true) := Trace.untouched_initial ht₀ hK h hm
  have hretains : Retains initial g := {
    bare := fun m hm => (hun hm).bare
    stamps := fun m hm => (hun hm).stamp
    owned := fun m hm => (hun hm).owned
    package := fun m hm => (Trace.agree_of ht₀ hK h fun k hw =>
      (Trace.tidy hK hw ht₀).toRooted.contains hm).package
    excerpt := Trace.excerpt hK h ht₀
    packageClassifier := Trace.packageClassifier h }
  have hsources {k : Graph} (hk : k.Tabled) (hnone : ∀ s, k.persistentNodes s = []) :
      k.sources = [] :=
    List.eq_nil_iff_forall_not_mem.2 fun s hs => (hk.mem_sources_iff s).1 hs (hnone s)
  refine hretains.unchanged ht₀.toRegular ht.toRegular (fun m hm => ?_) (fun s => ?_) ?_
  · refine ht.initial_of_live (Trace.tiered hK h ht₀ (tiered_of_isSequential isSequential_initial))
      hnone (fun c hc => (hun hc).values _ ?_) hm
    simp [← Bool.not_eq_true, ht₀.isBackReference_iff]
  · rw [hnone, Compiler.persistentNodes_initial]
  · rw [hsources ht.toTabled hnone, hsources ht₀.toTabled Compiler.persistentNodes_initial]

end Leftovers

end Graph

namespace Compiler

variable {c : Compiler}

theorem Reached.trace (hc : Reached Call.Succeeds c) :
    Trace (fun _ => True) (fun _ => True) initial c.graph := by
  refine hc.preserved (K := fun _ => True) (fun _ _ => trivial)
    (fun _ _ _ text _ => Content.admissible_any text) (fun _ _ h => h)
    (I := fun c => Trace (fun _ => True) (fun _ => True) initial c.graph)
    (fun c hg _ => hg ▸ .refl) (fun c c' ih hg _ => hg ▸ ih) fun c c₁ c' a report _ _ ih h => ?_
  exact ih.trans (Trace.mono (fun _ _ => trivial) h.trace)

theorem Reached.unchanged (hc : Reached Call.Succeeds c) (hsources : c.sources = ∅) :
    Unchanged initial c.graph := by
  refine Trace.unchanged_initial hc.trace (fun _ _ => trivial) fun s => ?_
  by_contra hne
  obtain ⟨unit, hu⟩ := hc.ready_of_any.registered s hne
  simp [hsources, Catalog.find?_empty] at hu

end Compiler

end ModelCompiler
