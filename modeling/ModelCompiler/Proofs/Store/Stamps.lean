import ModelCompiler.Proofs.Store.Evict

/-!
Stamps.
-/
namespace ModelCompiler.Graph

def Issued (g : Graph) : Prop :=
  ∀ j s, g.stamp? j = some s → s < g.nextStamp

structure Restamps (g g' : Graph) : Prop where
  next : g.nextStamp ≤ g'.nextStamp
  still : ∀ j s, g'.stamp? j = some s → s < g.nextStamp → g.stamp? j = some s
  issued : g.Issued → g'.Issued

namespace Restamps

theorem refl (g : Graph) : Restamps g g :=
  ⟨le_rfl, fun _ _ h _ => h, id⟩

theorem trans {g h k : Graph} (a : Restamps g h) (b : Restamps h k) : Restamps g k :=
  ⟨a.next.trans b.next,
    fun j s hs hlt => a.still j s (b.still j s hs (hlt.trans_le a.next)) hlt,
    fun hi => b.issued (a.issued hi)⟩

theorem of_eq {g g' : Graph} (hn : g'.nextStamp = g.nextStamp)
    (hs : ∀ j, g'.stamp? j = g.stamp? j) : Restamps g g' :=
  ⟨hn.ge, fun j _ h _ => hs j ▸ h, fun hi j s h => hn ▸ hi j s (hs j ▸ h)⟩

end Restamps

section Touched

variable (g : Graph) (id : NodeId) (p : String)

def Touches (j : NodeId) : Prop :=
  j = id ∨ g.lifetime? id = some (.ephemeral j)

theorem owner_eq_some_iff (j : NodeId) :
    (g.node? id >>= (·.owner)) = some j ↔ g.lifetime? id = some (.ephemeral j) := by
  cases hn : g.node? id with
  | none => simp [lifetime?, hn]
  | some n =>
    simp only [lifetime?, hn, Option.bind_eq_bind, Option.bind_some, Node.owner, Option.map_some,
      Option.some.injEq]
    cases n.lifetime <;> simp

open Classical in
theorem stamp?_touch (j : NodeId) : (g.touch id).stamp? j =
    if g.Touches id j then (g.stamp? j).map fun _ => g.nextStamp else g.stamp? j := by
  unfold stamp?
  rw [node?_touch]
  simp only [owner_eq_some_iff]
  by_cases h : g.Touches id j
  · rw [if_pos h, if_pos (show j = id ∨ g.lifetime? id = some (.ephemeral j) from h)]
    simp [Function.comp_def]
  · rw [if_neg h, if_neg (show ¬ (j = id ∨ g.lifetime? id = some (.ephemeral j)) from h)]

theorem restamps_touchUnlessBack : Restamps g (g.touchUnlessBack id p) := by
  unfold touchUnlessBack
  split
  · exact .refl g
  · refine ⟨by rw [nextStamp_touch]; omega, fun j s hs hlt => ?_, fun hi j s hs => ?_⟩
    · rw [stamp?_touch] at hs
      split at hs
      · obtain ⟨_, -, rfl⟩ := Option.map_eq_some_iff.1 hs
        exact absurd hlt (lt_irrefl _)
      · exact hs
    · rw [nextStamp_touch]
      rw [stamp?_touch] at hs
      split at hs
      · obtain ⟨_, -, rfl⟩ := Option.map_eq_some_iff.1 hs
        omega
      · exact (hi j s hs).trans (Nat.lt_succ_self _)

theorem not_touches_of_stamp? {j : NodeId} {s : Nat} (hp : g.isBackReference p = false)
    (hs : (g.touchUnlessBack id p).stamp? j = some s) (hlt : s < g.nextStamp) :
    ¬ g.Touches id j := by
  intro ht
  rw [touchUnlessBack, hp] at hs
  simp only [Bool.false_eq_true, if_false] at hs
  rw [stamp?_touch, if_pos ht] at hs
  obtain ⟨_, -, rfl⟩ := Option.map_eq_some_iff.1 hs
  exact lt_irrefl _ hlt

theorem stamp?_modifyNode {f : Node → Node} (hf : ∀ n, (f n).stamp = n.stamp) (j : NodeId) :
    (g.modifyNode id f).stamp? j = g.stamp? j := by
  unfold stamp?
  rw [node?_modifyNode]
  split
  · simp [Function.comp_def, hf]
  · rfl

end Touched

section Writes

variable (g : Graph) (id value : NodeId) (p : String)

/-- A write to a property of `id`: new contents of the node, new usages, and new stamps unless the
property is a back-reference. -/
def written (f : Node → Node) (usages : List Usage) : Graph :=
  { g.modifyNode id f with usages := usages }.touchUnlessBack id p

theorem link_eq_written : g.link id p value =
    g.written id p (fun n => { n with properties := n.properties.push p value })
      (⟨id, p, value, g.isBackReference p⟩ :: g.usages) := rfl

theorem unlink_eq_written : g.unlink id p value =
    g.written id p (fun n => { n with properties := withoutValue n.properties p value })
      (g.usages.eraseP fun u => u.user = id && u.property = p && u.target = value) := rfl

theorem purge_eq_written (h : (g.propertiesOf id).contains p = true) : g.purge id p =
    g.written id p (fun n => { n with properties := n.properties.erase p })
      (g.usages.filter fun u => !(u.user = id && u.property = p)) := by
  rw [purge, if_pos h]
  rfl

variable {f : Node → Node} (hf : ∀ n, (f n).stamp = n.stamp) (usages : List Usage)

include hf in
theorem restamps_written : Restamps g (g.written id p f usages) := by
  have h : Restamps g { g.modifyNode id f with usages := usages } :=
    .of_eq rfl (stamp?_modifyNode g id hf)
  exact h.trans (restamps_touchUnlessBack _ id p)

def Leaves (j : NodeId) : Prop :=
  g.isBackReference p = true ∨ ¬ g.Touches id j

include hf in
theorem stamp?_written (hb : ∀ n, (f n).bare = n.bare) {j : NodeId} (h : g.Leaves id p j) :
    (g.written id p f usages).stamp? j = g.stamp? j := by
  have hmod : ({ g.modifyNode id f with usages := usages } : Graph).stamp? j = g.stamp? j :=
    stamp?_modifyNode g id hf j
  have hlife : ({ g.modifyNode id f with usages := usages } : Graph).lifetime? id =
      g.lifetime? id := lifetime?_congr (frame_modifyNode g id f hb) id
  unfold written touchUnlessBack
  split
  · exact hmod
  · rename_i hback
    rw [stamp?_touch, if_neg, hmod]
    rw [Touches, hlife]
    exact h.resolve_left hback

variable {g id p} {j : NodeId} (h : g.Leaves id p j)
include h

theorem stamp?_link : (g.link id p value).stamp? j = g.stamp? j := by
  rw [link_eq_written]
  apply stamp?_written (h := h) <;> exact fun _ => rfl

theorem stamp?_unlink : (g.unlink id p value).stamp? j = g.stamp? j := by
  rw [unlink_eq_written]
  apply stamp?_written (h := h) <;> exact fun _ => rfl

theorem stamp?_purge : (g.purge id p).stamp? j = g.stamp? j := by
  by_cases hc : (g.propertiesOf id).contains p = true
  · rw [purge_eq_written g id p hc]
    apply stamp?_written (h := h) <;> exact fun _ => rfl
  · rw [purge, if_neg hc]

omit h
variable (g id p)

theorem restamps_link : Restamps g (g.link id p value) := by
  rw [link_eq_written]
  apply restamps_written
  exact fun _ => rfl

theorem restamps_unlink : Restamps g (g.unlink id p value) := by
  rw [unlink_eq_written]
  apply restamps_written
  exact fun _ => rfl

theorem restamps_purge : Restamps g (g.purge id p) := by
  by_cases h : (g.propertiesOf id).contains p = true
  · rw [purge_eq_written g id p h]
    apply restamps_written
    exact fun _ => rfl
  · rw [purge, if_neg h]
    exact .refl g

theorem nextStamp_evict : (g.evict id).nextStamp = g.nextStamp := by
  have hun : (g.unindex id).nextStamp = g.nextStamp := by
    unfold unindex
    split <;> rfl
  unfold evict vacate
  split <;> exact hun

theorem restamps_evict : Restamps g (g.evict id) := by
  have hstamp {j : NodeId} {s : Nat} (hs : (g.evict id).stamp? j = some s) :
      g.stamp? j = some s := by
    rw [stamp?, node?_evict] at hs
    split at hs
    · simp at hs
    · exact hs
  exact ⟨(nextStamp_evict g id).ge, fun j s hs _ => hstamp hs,
    fun hi j s hs => nextStamp_evict g id ▸ hi j s (hstamp hs)⟩

end Writes

theorem restamps_seat {g : Graph} (hi : g.Indexed) (spec : NodeSpec) (lifetime : Lifetime)
    (package : Bool) : Restamps g (g.seat spec lifetime package) := by
  have hnext : (g.seat spec lifetime package).nextStamp = g.nextStamp + 1 := rfl
  have hstamp {j : NodeId} {s : Nat} (hs : (g.seat spec lifetime package).stamp? j = some s) :
      g.stamp? j = some s ∨ s = g.nextStamp := by
    rw [stamp?, node?_seat _ _ _ hi] at hs
    split at hs
    · exact .inr (Option.some.inj hs).symm
    · exact .inl hs
  refine ⟨by omega, fun j s hs hlt => (hstamp hs).resolve_right (by omega), fun h j s hs => ?_⟩
  rcases hstamp hs with hs | rfl
  · have := h j s hs
    omega
  · omega

theorem stamp?_seat {g : Graph} (hi : g.Indexed) (spec : NodeSpec) (lifetime : Lifetime)
    (package : Bool) {j : NodeId} (hj : j ≠ g.fresh) :
    (g.seat spec lifetime package).stamp? j = g.stamp? j := by
  rw [stamp?, node?_seat _ _ _ hi, if_neg hj, stamp?]

theorem stamp?_found {g : Graph} (hi : g.Indexed) (hb : g.isBackReference "children" = true)
    {spec : NodeSpec} {lifetime : Lifetime} (hl : ∀ o, lifetime ≠ .ephemeral o) (package : Bool)
    (parent : NodeId) {j : NodeId} (hj : j ≠ g.fresh) :
    (g.found spec lifetime package parent).stamp? j = g.stamp? j := by
  have hforward : ¬ (g.seat spec lifetime package).Touches g.fresh j := by
    rintro (h | h)
    · exact hj h
    · rw [lifetime?_seat _ _ _ hi, if_pos rfl] at h
      exact hl j (Option.some.inj h)
  rw [found, attach, stamp?_link _ (.inl _), stamp?_link _ (.inr hforward), stamp?_seat hi _ _ _ hj]
  rwa [isBackReference_congr (frame_link _ _ _ _), isBackReference, backReferences_seat]

end ModelCompiler.Graph
