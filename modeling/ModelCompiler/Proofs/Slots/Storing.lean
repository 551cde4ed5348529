import ModelCompiler.Proofs.Pairs
import ModelCompiler.Proofs.Slots.Renaming

/-!
The store on graphs that are in step.
-/
open ModelCompiler.Action

namespace ModelCompiler

def GraphError.relabel (π : NodeId → NodeId) : GraphError → GraphError
  | .nodeNotFound id => .nodeNotFound (π id)
  | e => e

namespace Graph

variable {X : Prop} {π : NodeId → NodeId} {g h : Graph}

namespace InStep

section Writes

variable (e : InStep X π g h) (id : NodeId) (p : String)
include e

theorem addValue (v : NodeId) :
    Joint X (InStep X π) (g.addValue id p v) (h.addValue (π id) p (π v)) := by
  unfold Graph.addValue
  rw [e.contains, e.contains]
  split
  · exact .breach fun hX => by rw [(e.same hX).1]; rfl
  · split
    · exact .breach fun hX => by rw [(e.same hX).1, (e.same hX).2]; rfl
    · exact .ok (e.link id p v)

theorem clearProperty : Joint X (fun a b => b.1 = a.1.map π ∧ InStep X π a.2 b.2)
    (g.clearProperty id p) (h.clearProperty (π id) p) := by
  by_cases hid : g.contains id = true
  · rw [clearProperty_eq hid, clearProperty_eq (e.contains id ▸ hid)]
    exact .ok ⟨e.values id p, e.purge id p⟩
  · have hdead {k : Graph} {j : NodeId} (hj : ¬ k.contains j = true) :
        k.clearProperty j p = .error (.missingHolder p j) := by
      have hn : k.node? j = none := by simpa [Graph.contains] using hj
      simp [Graph.clearProperty, hn]
    rw [hdead hid, hdead (e.contains id ▸ hid)]
    exact .breach fun hX => by rw [(e.same hX).1]; rfl

theorem setValues (vs : List NodeId) :
    Joint X (InStep X π) (g.setValues id p vs) (h.setValues (π id) p (vs.map π)) :=
  (e.clearProperty id p).bind fun _ _ _ _ hab =>
    Joint.foldlM hab.2 fun v _ _ _ e => e.addValue id p v

theorem removeValue (v : NodeId) : Joint X (fun a b => b.1 = a.1 ∧ InStep X π a.2 b.2)
    (g.removeValue id p v) (h.removeValue (π id) p (π v)) := by
  by_cases hid : g.contains id = true
  · rw [removeValue_eq hid, removeValue_eq (e.contains id ▸ hid), e.values]
    simp only [e.mem_map]
    split
    · exact .ok ⟨rfl, e.unlink hid v⟩
    · exact .ok ⟨rfl, e⟩
  · have hdead {k : Graph} {j w : NodeId} (hj : ¬ k.contains j = true) :
        k.removeValue j p w = .error (.missingHolder p j) := by
      have hn : k.node? j = none := by simpa [Graph.contains] using hj
      simp [Graph.removeValue, hn]
    rw [hdead hid, hdead (e.contains id ▸ hid)]
    exact .breach fun hX => by rw [(e.same hX).1]; rfl

theorem attach (package : NodeId) :
    InStep X π (g.attach id package) (h.attach (π id) (π package)) :=
  (e.link id "package" package).link package "children" id

end Writes

section Creation

theorem ensurePackage {lifetime : Lifetime} (hl : lifetime.isShared = true) (paths : List Path)
    {g h : Graph} (e : InStep X π g h) (hi : g.Indexed) :
    Matched X (fun x y => y = x.relabel π) (fun a b => b = π a) (InStep X π)
      (ensurePackage lifetime paths g) (ensurePackage lifetime paths h) := by
  induction paths with
  | nil => exact matched_pure e.root.symm e
  | cons path outer ih =>
    unfold Graph.ensurePackage
    refine matched_get ?_
    rw [e.lookup path]
    cases hp : g.lookup path with
    | some id =>
      simp only [Option.map_some, e.isPackage, e.describe id ((hi.lookup_iff path id).1 hp)]
      split
      · exact matched_pure rfl e
      · exact matched_throw rfl e
    | none =>
      simp only [Option.map_none]
      refine ih.seq fun parent parent' u v hparent e => ?_
      refine matched_get ?_
      rw [run_bind, insertNode_eq, run_bind, insertNode_eq]
      refine matched_pure e.fresh ?_
      beta_reduce
      rw [insert_package hl _ rfl, insert_package hl _ rfl, hparent, e.fresh, e.packageClassifier]
      have hrename : lifetime.rename π = lifetime := by
        cases lifetime <;> first | rfl | simp [Lifetime.isShared] at hl
      have hseat := e.seat { classifier := u.packageClassifier, path := some path } lifetime true
        fun h => absurd h (Option.some_ne_none path)
      rw [hrename] at hseat
      exact hseat.attach _ parent

theorem require (e : InStep X π g h) {path : Path} {id : NodeId} (hid : g.lookup path = some id)
    {F : GraphError → GraphError → Prop} : Matched X F (fun a b => a = id ∧ b = π id) (InStep X π)
      (Graph.require path g) (Graph.require path h) := by
  refine matched_get ?_
  rw [e.lookup, hid]
  exact matched_pure ⟨rfl, rfl⟩ e

theorem checkClassifier (e : InStep X π g h) (classifier : Option NodeId) :
    Matched X (fun x y => y = x.relabel π) (fun _ _ => True) (InStep X π)
      (checkClassifier classifier g) (checkClassifier (classifier.map π) h) := by
  cases classifier with
  | none => exact matched_pure trivial e
  | some c =>
    refine matched_get ?_
    rw [e.contains c]
    split
    · exact matched_throw rfl e
    · exact matched_pure trivial e

theorem createPersistent (e : InStep X π g h) (hi : g.Indexed) (source : SourceId) {spec : NodeSpec}
    {path : Path} (hp : spec.path = some path) :
    Matched X (fun x y => y = x.relabel π) (fun a b => b = π a) (InStep X π)
      (createPersistent source spec g) (createPersistent source (spec.relabel π) h) := by
  have hp' : (spec.relabel π).path = some path := hp
  simp only [Graph.createPersistent, hp, hp', Graph.createElement, bind_assoc]
  refine matched_get ?_
  rw [e.lookup path, Option.isSome_map]
  split
  · exact matched_throw rfl e
  · simp only [bind_assoc]
    refine (e.checkClassifier spec.classifier).bind (fun _ _ _ _ _ _ _ e => e)
      fun _ _ u v hu _ _ e' => ?_
    obtain ⟨rfl, -⟩ := (checkClassifier_ensures (g := g) spec.classifier).result hu
    refine (ensurePackage (isShared_around (.persistent source)) path.packages e' hi).seq
      fun P P' u v hP e => ?_
    rw [run_bind, insertNode_eq, run_bind, insertNode_eq]
    refine matched_pure e.fresh ?_
    have hfound (k : Graph) (spec : NodeSpec) (P : NodeId) : Graph.enroll
        (Graph.attach { (k.insert { spec with path := some path } (.persistent source)).2 with
          byName := (k.insert { spec with path := some path } (.persistent source)).2.byName.push
            path.name k.fresh } k.fresh P) (.persistent source) k.fresh =
        (k.seat { spec with path := some path } (.persistent source) false).attach k.fresh P := by
      rw [enroll_attach, insert_element (by simp) _ rfl]
    refine (congrArg₂ (InStep X π) (hfound u spec P) (hfound v (spec.relabel π) P')).mpr ?_
    rw [e.fresh, hP]
    exact (e.seat { spec with path := some path } (.persistent source) false nofun).attach _ P

theorem createEphemeral (e : InStep X π g h) (owner : NodeId) (spec : NodeSpec)
    (hpart : ∀ c, spec.classifier = some c → initial.contains c = true) :
    Matched X (fun x y => y = x.relabel π) (fun a b => b = π a) (InStep X π)
      (createEphemeral owner spec g) (createEphemeral (π owner) (spec.relabel π) h) := by
  unfold Graph.createEphemeral
  cases hp : spec.path with
  | some path =>
    have hp' : (spec.relabel π).path = some path := hp
    simp only [hp']
    exact matched_throw rfl e
  | none =>
    have hp' : (spec.relabel π).path = none := hp
    simp only [hp']
    refine (e.checkClassifier spec.classifier).seq fun _ _ u v _ e => ?_
    refine matched_get ?_
    rw [e.ownerRoot?]
    cases u.ownerRoot? owner with
    | none => exact matched_throw rfl e
    | some o =>
      simp only [Option.map_some]
      rw [run_bind, insertNode_eq, run_bind, insertNode_eq]
      refine matched_pure e.fresh ?_
      have hanonymous (k : Graph) {spec : NodeSpec} (hp : spec.path = none) (o : NodeId) :
          { (k.insert spec (.ephemeral o)).2 with
            owned := (k.insert spec (.ephemeral o)).2.owned.push o k.fresh } =
          k.seat spec (.ephemeral o) false := by
        obtain ⟨c, n, p, s⟩ := spec
        obtain rfl : p = none := hp
        rfl
      exact (congrArg₂ (InStep X π) (hanonymous u hp o) (hanonymous v hp' (π o))).mpr
        (e.seat spec (.ephemeral o) false fun _ => hpart)

end Creation

section Removal

variable (e : InStep X π g h)

theorem foldl_insert_map (hπ : Function.Injective π) : ∀ (xs order : List NodeId),
    (xs.map π).foldl (fun o m => if m ∈ o then o else o ++ [m]) (order.map π) =
      (xs.foldl (fun o m => if m ∈ o then o else o ++ [m]) order).map π
  | [], _ => rfl
  | x :: xs, order => by
    simp only [List.map_cons, List.foldl_cons, List.mem_map_of_injective hπ]
    split
    · exact foldl_insert_map hπ xs order
    · rw [← foldl_insert_map hπ xs, List.map_append]
      rfl

include e

theorem removalOrder : ∀ (ids acc : List NodeId),
    (∀ id ∈ ids, ∃ l, g.lifetime? id = some l ∧ l ≠ .bootstrap) →
    h.removalOrder (acc.map π) (ids.map π) = (g.removalOrder acc ids).map (List.map π)
  | [], _, _ => rfl
  | id :: ids, acc, hids => by
    obtain ⟨l, hl, hne⟩ := hids id List.mem_cons_self
    have hl' := e.lifetime? id
    rw [hl] at hl'
    have hne' : l.rename π ≠ .bootstrap := by
      cases l <;> simp_all [Lifetime.rename]
    obtain ⟨n, hn, rfl⟩ := Option.map_eq_some_iff.1 hl
    obtain ⟨m, hm, hml⟩ := Option.map_eq_some_iff.1 hl'
    simp only [List.map_cons, Graph.removalOrder, hn, hm, hml, hne', hne, if_false, e.tree]
    rw [foldl_insert_map e.injective, removalOrder ids _ fun j hj =>
      hids j (List.mem_cons_of_mem _ hj)]

theorem holds (order : List NodeId) (u : Usage) :
    h.holds (order.map π) (u.relabel π) = g.holds order u := by
  simp only [Graph.holds, Usage.relabel, e.mem_map, e.isPackage]
  rfl

theorem holder? (order : List NodeId) (t : NodeId)
    (huser : ∀ u ∈ g.usages, u.target = t → g.holds order u = false)
    (hpath : ∀ i ∈ g.instancesOf t, (∃ p, g.path? i = some p) ∧ ∃ p, g.path? t = some p) :
    h.holder? (order.map π) (π t) = g.holder? order t := by
  have hnone : (g.usagesOf t).find? (g.holds order) = none := by
    rw [List.find?_eq_none]
    intro u hu
    simp only [Graph.usagesOf] at hu
    split at hu
    · obtain ⟨hu, ht⟩ := List.mem_filter.1 hu
      simp [huser u hu (by simpa using ht)]
    · simp at hu
  have hnone' : (h.usagesOf (π t)).find? (h.holds (order.map π)) = none := by
    rw [e.usagesOf, List.find?_map]
    simp only [Function.comp_def, e.holds, hnone, Option.map_none]
  have hmem (i : NodeId) : (decide (π i ∉ order.map π)) = decide (i ∉ order) := by
    simp only [e.mem_map]
  simp only [Graph.holder?, hnone, hnone', e.instancesOf, List.find?_map, Function.comp_def, hmem]
  cases hi : (g.instancesOf t).find? fun i => decide (i ∉ order) with
  | none => rfl
  | some i =>
    obtain ⟨⟨p, hp⟩, q, hq⟩ := hpath i (List.mem_of_find?_eq_some hi)
    simp only [Option.map_some, e.describe i hp, e.describe t hq]

theorem detach (order : List NodeId) (id : NodeId) :
    Joint X (fun a b => b.1 = a.1.map π ∧ InStep X π a.2 b.2)
      (Graph.detach order g id) (Graph.detach (order.map π) h (π id)) := by
  unfold Graph.detach
  rw [e.packageOf?]
  cases g.packageOf? id with
  | none => exact .ok ⟨rfl, e⟩
  | some package =>
    simp only [Option.map_some, e.mem_map]
    split
    · exact .ok ⟨rfl, e⟩
    · exact (e.removeValue package "children" id).bind fun _ _ _ _ hab => .ok ⟨rfl, hab.2⟩

omit e in
theorem detachAll (order : List NodeId) : ∀ (ids : List NodeId) {g h : Graph}, InStep X π g h →
    Joint X (fun a b => b.1 = a.1.map π ∧ InStep X π a.2 b.2)
      (Graph.detachAll order g ids) (Graph.detachAll (order.map π) h (ids.map π))
  | [], g, h, e => .ok ⟨rfl, e⟩
  | id :: ids, g, h, e => by
    unfold Graph.detachAll
    refine (e.detach order id).bind fun a b _ _ hab => ?_
    refine (detachAll order ids hab.2).bind fun c d _ _ hcd => .ok ⟨?_, hcd.2⟩
    rw [List.map_append, hcd.1, hab.1]
    cases a.1 <;> rfl

omit e in
theorem foldl_evict : ∀ (order : List NodeId) {g h : Graph}, InStep X π g h →
    InStep X π (order.foldl Graph.evict g) ((order.map π).foldl Graph.evict h)
  | [], _, _, e => e
  | id :: order, _, _, e => foldl_evict order (e.evict id)

omit e in
theorem prune : ∀ (fuel : Nat) {g h : Graph} (P : NodeId), InStep X π g h →
    Joint X (fun a b => b.1 = a.1.map π ∧ InStep X π a.2 b.2)
      (Graph.prune fuel g P) (Graph.prune fuel h (π P))
  | 0, g, h, P, e => .ok ⟨rfl, e⟩
  | fuel + 1, g, h, P, e => by
    unfold Graph.prune
    cases hn : g.node? P with
    | none =>
      have hn' : h.node? (π P) = none := by simpa [hn] using e.bare P
      rw [hn']
      exact .ok ⟨rfl, e⟩
    | some n =>
      obtain ⟨m, hm, hbare⟩ := Option.map_eq_some_iff.1 ((e.bare P).trans (by rw [hn]; rfl))
      have hlifetime : m.lifetime = n.lifetime.rename π := (congrArg Node.lifetime hbare :)
      have himplicit : m.lifetime ≠ .implicit ↔ n.lifetime ≠ .implicit := by
        rw [hlifetime]
        cases n.lifetime <;> simp [Lifetime.rename]
      simp only [hm, himplicit, e.children, List.isEmpty_map, e.packageOf?]
      split
      · exact .ok ⟨rfl, e⟩
      · cases g.packageOf? P with
        | none => exact .ok ⟨rfl, e.evict P⟩
        | some parent =>
          refine (e.removeValue parent "children" P).bind fun a b _ _ hab => ?_
          refine (prune fuel parent (hab.2.evict P)).bind fun c d _ _ hcd => .ok ⟨?_, hcd.2⟩
          rw [hcd.1, List.map_cons]

end Removal

end InStep

theorem SameUpTo.closed_iff (e : SameUpTo π g h) : h.Closed ↔ g.Closed := by
  constructor
  · intro hc
    refine ⟨fun id p v hv => ?_, fun id c hid => ?_, fun id o hid => ?_⟩
    · rw [← e.contains]
      exact hc.value_live (π id) p (π v) (by rw [e.values, e.mem_map]; exact hv)
    · rw [← e.contains]
      exact hc.classifier_live (π id) (π c) (by rw [e.classifier?, hid]; rfl)
    · rw [← e.contains]
      exact hc.owner_live (π id) (π o) (by rw [e.lifetime?, hid]; rfl)
  · intro hc
    refine ⟨fun id p v hv => ?_, fun id c hid => ?_, fun id o hid => ?_⟩
    · obtain ⟨x, rfl⟩ := e.onto id (contains_of_mem_values hv)
      rw [e.values] at hv
      obtain ⟨w, hw, rfl⟩ := List.mem_map.1 hv
      rw [e.contains]
      exact hc.value_live x p w hw
    · obtain ⟨x, rfl⟩ := e.onto id (contains_of_classifier? hid)
      rw [e.classifier?] at hid
      obtain ⟨k, hk, rfl⟩ := Option.map_eq_some_iff.1 hid
      rw [e.contains]
      exact hc.classifier_live x k hk
    · obtain ⟨x, rfl⟩ := e.onto id (contains_of_lifetime? hid)
      rw [e.lifetime?] at hid
      obtain ⟨l, hl, hlo⟩ := Option.map_eq_some_iff.1 hid
      cases l with
      | ephemeral o' =>
        obtain rfl := Lifetime.ephemeral.inj hlo
        rw [e.contains]
        exact hc.owner_live x o' hl
      | bootstrap | implicit | persistent => simp [Lifetime.rename] at hlo

section Fuel

theorem size_le_slots (g : Graph) : g.size ≤ g.slots.size := by
  simpa [Graph.size, ids] using List.length_filter_le g.contains (List.range g.slots.size)

theorem size_evict_lt {P : NodeId} (hP : g.contains P = true) : (g.evict P).size < g.size :=
  size_lt_of_contains hP (size_slots_evict g P) fun j => by simp [contains_evict]

theorem size_congr (hf : g.frame = h.frame) : g.size = h.size := by
  have hcontains : g.contains = h.contains := funext fun j => contains_congr hf j
  rw [size, size, ids, ids, size_slots_congr hf, hcontains]

theorem frame_of_removeValue {id v : NodeId} {p : String} {r : Bool × Graph}
    (hr : g.removeValue id p v = .ok r) : r.2.frame = g.frame := by
  by_cases hid : g.contains id = true
  · rw [removeValue_eq hid] at hr
    obtain rfl := Except.ok.inj hr
    split
    · exact frame_unlink ..
    · rfl
  · have hn : g.node? id = none := by simpa [Graph.contains] using hid
    simp [removeValue, hn] at hr

/-- Each step of a pruning takes a node away, so more fuel than nodes is of no use. -/
theorem prune_fuel : ∀ (fuel fuel' : Nat) {g : Graph} (P : NodeId), g.size ≤ fuel → g.size ≤ fuel' →
    prune fuel g P = prune fuel' g P := by
  have hdead {g : Graph} (hg : g.size ≤ 0) (fuel : Nat) (P : NodeId) :
      prune fuel g P = .ok ([], g) := by
    have hP : g.node? P = none := by
      by_contra hP
      have hmem : P ∈ g.ids := by
        have hP : g.contains P = true := Option.isSome_iff_ne_none.2 hP
        rw [ids, List.mem_filter, List.mem_range]
        exact ⟨lt_size_of_contains hP, hP⟩
      have := List.length_pos_of_mem hmem
      unfold size at hg
      omega
    cases fuel with
    | zero => rfl
    | succ fuel => simp [prune, hP]
  intro fuel
  induction fuel with
  | zero =>
    intro fuel' g P hg _
    rw [hdead hg, hdead hg]
  | succ fuel ih =>
    intro fuel' g P hg hg'
    cases fuel' with
    | zero => rw [hdead hg', hdead hg']
    | succ fuel' =>
      unfold prune
      cases hn : g.node? P with
      | none => rfl
      | some n =>
        simp only
        split
        · rfl
        · cases g.packageOf? P with
          | none => rfl
          | some parent =>
            simp only
            cases hr : g.removeValue parent "children" P with
            | error b => rfl
            | ok r =>
              have hframe : r.2.frame = g.frame := frame_of_removeValue hr
              have hP : r.2.contains P = true := by
                rw [contains_congr hframe]
                exact contains_iff.2 ⟨n, hn⟩
              have hlt := size_evict_lt hP
              rw [size_congr hframe] at hlt
              simp only [bind, Except.bind]
              rw [ih fuel' parent (by omega) (by omega)]

end Fuel

namespace InStep

theorem pruneAll : ∀ (packages : List NodeId) {g h : Graph}, InStep X π g h →
    Joint X (fun a b => b.1 = a.1.map π ∧ InStep X π a.2 b.2)
      (Graph.pruneAll g packages) (Graph.pruneAll h (packages.map π))
  | [], g, h, e => .ok ⟨rfl, e⟩
  | P :: packages, g, h, e => by
    rw [List.map_cons, Graph.pruneAll, Graph.pruneAll]
    let fuel := max g.slots.size h.slots.size
    rw [prune_fuel _ fuel P g.size_le_slots (g.size_le_slots.trans (le_max_left ..)),
      prune_fuel _ fuel (π P) h.size_le_slots (h.size_le_slots.trans (le_max_right ..))]
    refine (prune fuel P e).bind fun a b _ _ hab => ?_
    refine (pruneAll packages hab.2).bind fun c d _ _ hcd => .ok ⟨?_, hcd.2⟩
    rw [List.map_append, hab.1, hcd.1]

theorem extract (e : InStep X π g h) (hc : g.Coherent) (hc' : h.Coherent) (order : List NodeId) :
    Joint X (fun a b => b.1 = a.1.map π ∧ InStep X π a.2 b.2)
      (Graph.extract order g) (Graph.extract (order.map π) h) := by
  unfold Graph.extract
  refine (detachAll order order e).bind fun a b ha hb hab => ?_
  have hpruned := pruneAll a.1.reverse (foldl_evict order hab.2)
  rw [List.map_reverse, ← hab.1] at hpruned
  refine hpruned.bind fun c d hc₂ hd₂ hcd => ?_
  have haudit {k : Graph} (hk : k.Coherent) {order : List NodeId} {r s : List NodeId × Graph}
      (hr : Graph.detachAll order k order = .ok r)
      (hs : Graph.pruneAll (order.foldl Graph.evict r.2) r.1.reverse = .ok s) :
      s.2.audit = .ok () ↔ s.2.Closed := by
    obtain ⟨hc₁, -⟩ := detachAll_remains order hk hr
    obtain ⟨-, hi₂, hm₂⟩ := Graph.foldl_evict order hc₁.toIndexed hc₁.toMirrored
    obtain ⟨hi₃, hm₃, -⟩ := pruneAll_remains _ hi₂ hm₂ hs
    exact ⟨Closed.of_audit hi₃ hm₃, fun hcl => Coherent.audit_eq_ok { hi₃, hm₃, hcl with }⟩
  have hboth : d.2.audit = .ok () ↔ c.2.audit = .ok () := by
    rw [haudit hc ha hc₂, haudit hc' hb hd₂, hcd.2.closed_iff]
  cases hac : c.2.audit with
  | error x =>
    cases had : d.2.audit with
    | error y =>
      simp only [hac, had]
      refine .breach fun hX => ?_
      rw [(hcd.2.same hX).2, hac] at had
      rw [Except.error.inj had]
    | ok => simp [hac, had] at hboth
  | ok =>
    simp only [hac, hboth.2 hac]
    exact .ok ⟨by rw [hcd.1, List.map_append], hcd.2⟩

theorem findSome?_congr_left {α β : Type} {f f' : α → Option β} :
    ∀ {l : List α}, (∀ a ∈ l, f a = f' a) → l.findSome? f = l.findSome? f'
  | [], _ => rfl
  | a :: l, hf => by
    rw [List.findSome?_cons, List.findSome?_cons, hf a List.mem_cons_self,
      findSome?_congr_left fun b hb => hf b (List.mem_cons_of_mem _ hb)]

theorem removeNodes (e : InStep X π g h) (hc : g.Coherent) (hc' : h.Coherent) {ids : List NodeId}
    (hids : ∀ id ∈ ids, ∃ l, g.lifetime? id = some l ∧ l ≠ .bootstrap)
    (huser : ∀ u ∈ g.usages, g.InTrees ids u.target → ¬ g.InTrees ids u.user →
      u.property = "children" ∧ g.isPackage u.user = true)
    (hpath : ∀ i t, g.InTrees ids t → g.classifier? i = some t →
      (∃ p, g.path? i = some p) ∧ ∃ p, g.path? t = some p) :
    Matched X Eq (fun a b => b = a.map π) (InStep X π)
      (Graph.removeNodes ids g) (Graph.removeNodes (ids.map π) h) := by
  obtain ⟨order, horder⟩ := removalOrder_ok [] hids
  have ho := ordered_of_removalOrder horder
  have horder' : h.removalOrder [] (ids.map π) = .ok (order.map π) := by
    rw [← List.map_nil, e.removalOrder ids [] hids, horder]
    rfl
  have hholder : (order.map π).findSome? (h.holder? (order.map π)) =
      order.findSome? (g.holder? order) := by
    rw [List.findSome?_map]
    refine findSome?_congr_left fun t ht => e.holder? order t (fun u hu hut => ?_) fun i hi' => ?_
    · have hin (m : NodeId) : m ∈ order ↔ g.InTrees ids m := ho.mem_iff m
      unfold Graph.holds
      by_cases huo : u.user ∈ order
      · simp [huo]
      · obtain ⟨hp, hpackage⟩ := huser u hu ((hin _).1 (hut ▸ ht)) (mt (hin _).2 huo)
        simp [hp, hpackage]
    · exact hpath i t ((ho.mem_iff t).1 ht) ((hc.instance_iff t i).1 hi').1
  simp only [removeNodes_eq, horder, horder', hholder]
  cases order.findSome? (g.holder? order) with
  | some x => exact .error rfl e
  | none => exact matched_write (e.extract hc hc' order)

end InStep

end Graph

end ModelCompiler
