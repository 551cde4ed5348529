import ModelCompiler.Proofs.SafeRemoval
import ModelCompiler.Proofs.Compiling.States

/-!
The sources that depend on others.
-/
open ModelCompiler.Action ModelCompiler.Graph ModelCompiler.Handler

namespace ModelCompiler

namespace Claims

variable {κ : Type} [DecidableEq κ]

theorem mem_claimAll (keys : List κ) : ∀ (c : Claims κ) {k : κ},
    (k ∈ (c.claimAll keys).1 ↔ k ∈ keys ∧ k ∉ c.taken) ∧
      (k ∈ (c.claimAll keys).2.taken ↔ k ∈ c.taken ∨ k ∈ keys) := by
  induction keys with
  | nil => intro c k; simp [claimAll]
  | cons key keys ih =>
    intro c k
    by_cases h : key ∈ c.taken
    · have ih := ih c (k := k)
      simp only [claimAll, claim, h, if_true, Bool.false_eq_true, if_false, ih, List.mem_cons]
      constructor
      · constructor
        · exact fun h' => ⟨.inr h'.1, h'.2⟩
        · rintro ⟨rfl | hk, hn⟩
          · exact absurd h hn
          · exact ⟨hk, hn⟩
      · constructor
        · exact Or.imp_right .inr
        · rintro (hk | rfl | hk)
          · exact .inl hk
          · exact .inl h
          · exact .inr hk
    · have ih := ih ⟨key :: c.taken⟩ (k := k)
      simp only [claimAll, claim, h, if_false, if_true, List.mem_cons, ih]
      by_cases hk : k = key <;> simp [hk, h]

theorem nodup_claimAll (keys : List κ) : ∀ c : Claims κ, (c.claimAll keys).1.Nodup := by
  induction keys with
  | nil => exact fun _ => List.nodup_nil
  | cons key keys ih =>
    intro c
    by_cases h : key ∈ c.taken
    · simpa only [claimAll, claim, h, if_true, Bool.false_eq_true, if_false] using ih c
    · simp only [claimAll, claim, h, if_false, if_true]
      refine List.nodup_cons.2 ⟨fun hmem => ?_, ih _⟩
      exact ((mem_claimAll keys _).1.1 hmem).2 List.mem_cons_self

end Claims

namespace Compiler

variable {K : NodeId → Prop} {c : Compiler}

section Round

structure Reaches (g : Graph) (id : NodeId) (found : List SourceId) : Prop where
  users : ∀ u ∈ users g id, ∀ s, g.sourceOf? u = some s → s ∈ found
  nodes : ∀ s ∈ found, ∃ m, g.sourceOf? m = some s

def Walked (K : NodeId → Prop) (g : Graph) (id : NodeId) :
    Except CompileError (List SourceId) → Prop
  | .ok found => Reaches g id found
  | .error e => e.blame = .user ∧ ¬ Predefined K

theorem walker_ensures {w : Workspace} {id : NodeId} {h : Walker} (hh : ∀ r, h ≠ .recipe r)
    {ε : Type} {E : ε → Workspace → Prop} : Ensures (h.run id : Work ε _) w
      (fun reached w' => w' = w ∧ ∀ u ∈ users w.graph id, u ∈ reached) E := by
  cases h with
  | users =>
    exact ensures_bind (Work.graph_ensures (ensures_pure ⟨rfl, fun _ h => h⟩))
  | class_ =>
    refine ensures_bind (Work.graph_ensures (ensures_pure ⟨rfl, fun u h => ?_⟩))
    exact mem_ascending.2 (List.mem_append_left _ h)
  | recipe r => exact absurd rfl (hh r)

theorem walkNode_ensures (hs : c.Sane K) {E : CompileError → Compiler → Prop} (id : NodeId) :
    Ensures (walkNode id) c (fun r c' => Walked K c.graph id r ∧ Looked K c c') E := by
  refine ensures_bind (ensures_attempt (ask_ensures hs
    (Dispatch.walker_gives hs.tidy.toRegular hs.orderly.valid id) (fun r c₁ hcore h₁ => ?_)
    fun e c₁ he h₁ => ensures_pure ⟨he, h₁⟩))
  refine ensures_bind (onWorkspace_ensures ((walker_ensures (E := fun _ _ => False) hcore).mono
    (fun reached w hw => ?_) fun _ _ h => h.elim))
  obtain ⟨rfl, husers⟩ := hw
  refine ensures_bind (advance_ensures h₁.sane fun c₂ h₂ => ensures_get_bind ?_)
  have h := h₁.trans h₂
  refine ensures_pure ⟨⟨fun u hu s hus => ?_, fun s hmem => ?_⟩, h⟩
  · exact List.mem_filterMap.2 ⟨u, husers u (by rwa [← h₁.graph] at hu), by rw [h.graph, hus]⟩
  · obtain ⟨m, -, hm⟩ := List.mem_filterMap.1 hmem
    exact ⟨m, by rwa [h.graph] at hm⟩

theorem mapM_id_cases {ε α : Type} : ∀ rs : List (Except ε α),
    (∃ as, rs.mapM id = .ok as ∧ List.Forall₂ (fun r a => r = .ok a) rs as) ∨
      ∃ e, rs.mapM id = .error e ∧ .error e ∈ rs
  | [] => .inl ⟨[], rfl, .nil⟩
  | .error e :: rs => .inr ⟨e, by rw [List.mapM_cons]; rfl, List.mem_cons_self⟩
  | .ok a :: rs => by
    rw [List.mapM_cons]
    obtain ⟨as, has, h⟩ | ⟨e, he, hmem⟩ := mapM_id_cases rs
    · exact .inl ⟨a :: as, by rw [has]; rfl, .cons rfl h⟩
    · exact .inr ⟨e, by rw [he]; rfl, List.mem_cons_of_mem _ hmem⟩

theorem walkRound_ensures (hs : c.Sane K) (frontier : List NodeId) :
    Ensures (walkRound frontier) c
      (fun reached c' => Looked K c c' ∧ (∀ id ∈ frontier, ∀ u ∈ users c.graph id, ∀ s,
        c.graph.sourceOf? u = some s → s ∈ reached) ∧
        ∀ s ∈ reached, ∃ m, c.graph.sourceOf? m = some s)
      fun e c' => e.blame = .user ∧ ¬ Predefined K ∧ Looked K c c' := by
  refine ensures_get_bind (ensures_bind (startProgress_ensures hs fun c₁ h₁ => ?_))
  refine ensures_bind ((Pool.ensures_mapM (I := fun c' => Looked K c c')
    (R := fun id r => Walked K c.graph id r) h₁ fun id _ c' h => ?_).imp fun rs c' h => ?_)
  · refine (walkNode_ensures h.sane id).imp (fun r c'' h' => ?_)
    rw [h.graph] at h'
    exact ⟨h'.1, h.trans h'.2⟩
  · obtain ⟨hrs, hc'⟩ := h
    obtain ⟨hfwd, hbwd⟩ := Lineage.exists_mem_of_forall₂ hrs
    obtain ⟨reached, hreached, hall⟩ | ⟨e, he, hmem⟩ := mapM_id_cases rs
    · rw [hreached]
      obtain ⟨hfwd', hbwd'⟩ := Lineage.exists_mem_of_forall₂ hall
      have harr {s : SourceId} := (c'.workers.perm_arrange reached.flatten).mem_iff (a := s)
      refine ensures_get_bind (ensures_pure ⟨hc', fun id hid u hu s hus => ?_,
        fun s hmem => ?_⟩)
      · obtain ⟨r, hr, hwalk⟩ := hfwd id hid
        obtain ⟨found, hfound, rfl⟩ := hfwd' r hr
        exact harr.2 (List.mem_flatten_of_mem hfound (hwalk.users u hu s hus))
      · obtain ⟨found, hfound, hs⟩ := List.mem_flatten.1 (harr.1 hmem)
        obtain ⟨r, hr, rfl⟩ := hbwd' found hfound
        obtain ⟨id, -, hwalk⟩ := hbwd _ hr
        exact hwalk.nodes s hs
    · rw [he]
      obtain ⟨id, -, hwalk⟩ := hbwd _ hmem
      exact ensures_throw ⟨hwalk.1, hwalk.2, hc'⟩

end Round

section Rounds

theorem mem_sort {texts : List String} {t : String} : t ∈ Text.sort texts ↔ t ∈ texts :=
  Order.mem_sort

theorem mem_items {sources : List SourceId} {id : NodeId} :
    id ∈ (c.items sources).map (·.2) ↔ ∃ s ∈ sources, id ∈ c.graph.persistentNodes s := by
  simp [items]

theorem mem_sources_of_persistent {g : Graph} {m : NodeId} {s : SourceId}
    (h : m ∈ g.persistentNodes s) : s ∈ g.sources := by
  by_contra hs
  simp [persistentNodes, Table.values_of_not_mem_keys hs] at h

theorem mem_sources_of_sourceOf? {g : Graph} (hi : g.Indexed) {m : NodeId} {s : SourceId}
    (h : g.sourceOf? m = some s) : s ∈ g.sources := by
  obtain ⟨r, hr, -⟩ := hi.sourceOf?_iff_tree.1 h
  exact mem_sources_of_persistent hr

def unclaimed (g : Graph) (claims : Claims SourceId) : List SourceId :=
  g.sources.filter (· ∉ claims.taken)

theorem length_unclaimed_lt {g : Graph} {claims claims' : Claims SourceId} {s : SourceId}
    (hsub : ∀ t ∈ claims.taken, t ∈ claims'.taken) (hs : s ∈ g.sources) (hn : s ∉ claims.taken)
    (ht : s ∈ claims'.taken) : (unclaimed g claims').length < (unclaimed g claims).length := by
  have heq : unclaimed g claims' = (unclaimed g claims).filter (· ∉ claims'.taken) := by
    rw [unclaimed, unclaimed, List.filter_filter]
    refine List.filter_congr fun t _ => ?_
    by_cases h : t ∈ claims'.taken
    · simp [h]
    · simpa [h] using fun h' => h (hsub t h')
  rw [heq, List.length_filter_lt_length_iff_exists]
  exact ⟨s, List.mem_filter.2 ⟨hs, by simpa using hn⟩, by simpa using ht⟩

structure Closes (g : Graph) (claims : Claims SourceId) (frontier : List NodeId)
    (found : List SourceId) : Prop where
  new : ∀ s ∈ found, s ∉ claims.taken
  nodes : ∀ s ∈ found, ∃ m, g.sourceOf? m = some s
  users : ∀ id, (id ∈ frontier ∨ ∃ s ∈ found, id ∈ g.persistentNodes s) → ∀ u ∈ users g id, ∀ s,
    g.sourceOf? u = some s → s ∈ claims.taken ∨ s ∈ found

theorem closes_nil {g : Graph} {claims : Claims SourceId} : Closes g claims [] [] := by
  constructor <;> simp

theorem walkRounds_ensures : ∀ (fuel : Nat) {claims : Claims SourceId} {frontier : List NodeId}
    {c : Compiler}, c.Sane K → frontier = [] ∨ (unclaimed c.graph claims).length < fuel →
    Ensures (walkRounds fuel claims frontier) c
      (fun found c' => Looked K c c' ∧ Closes c.graph claims frontier found)
      fun e c' => e.blame = .user ∧ ¬ Predefined K ∧ Looked K c c'
  | 0, claims, frontier, c, hs, hfuel => by
    obtain rfl : frontier = [] := hfuel.resolve_right (by simp)
    exact ensures_pure ⟨hs.looked, closes_nil⟩
  | fuel + 1, claims, frontier, c, hs, hfuel => by
    by_cases hempty : frontier = []
    · subst hempty
      exact ensures_pure ⟨hs.looked, closes_nil⟩
    · unfold walkRounds
      rw [if_neg (by simpa using hempty)]
      refine ensures_bind ((walkRound_ensures hs frontier).imp fun reached c₁ h => ?_)
      obtain ⟨h₁, husers, hnodes⟩ := h
      have hmem {s : SourceId} := Claims.mem_claimAll reached claims (k := s)
      generalize claims.claimAll reached = claimed at hmem ⊢
      obtain ⟨granted, claims'⟩ := claimed
      refine ensures_get_bind (ensures_bind ?_)
      have hfuel' : ((c₁.items (Text.sort granted)).map (·.2)) = [] ∨
          (unclaimed c₁.graph claims').length < fuel := by
        by_cases hg : granted = []
        · exact .inl (by simp [hg, Text.sort, Order.sort, items])
        · obtain ⟨s, hs'⟩ := List.exists_mem_of_ne_nil _ hg
          obtain ⟨hreached, hn⟩ := hmem.1.1 hs'
          obtain ⟨m, hm⟩ := hnodes s hreached
          have hlt : (unclaimed c.graph claims').length < (unclaimed c.graph claims).length :=
            length_unclaimed_lt (fun t ht => hmem.2.2 (.inl ht))
              (mem_sources_of_sourceOf? hs.tidy.toIndexed hm) hn (hmem.2.2 (.inr hreached))
          have := hfuel.resolve_left hempty
          rw [h₁.graph]
          right
          omega
      refine (walkRounds_ensures fuel h₁.sane hfuel').mono (fun rest c₂ h => ?_)
        fun _ _ h => ⟨h.1, h.2.1, h₁.trans h.2.2⟩
      obtain ⟨h₂, hrest⟩ := h
      rw [h₁.graph] at hrest
      -- what was taken after the round had been taken before it, or is granted in it
      have htaken {s : SourceId} (ht : s ∈ claims'.taken) :
          s ∈ claims.taken ∨ s ∈ Text.sort granted ++ rest := by
        by_cases hc : s ∈ claims.taken
        · exact .inl hc
        · exact .inr (List.mem_append_left _ (mem_sort.2
            (hmem.1.2 ⟨(hmem.2.1 ht).resolve_left hc, hc⟩)))
      refine ensures_pure ⟨h₁.trans h₂, fun s hs' => ?_, fun s hs' => ?_,
        fun id hid u hu s hus => ?_⟩
      · rcases List.mem_append.1 hs' with hs' | hs'
        · exact (hmem.1.1 (mem_sort.1 hs')).2
        · exact fun hc => hrest.new s hs' (hmem.2.2 (.inl hc))
      · rcases List.mem_append.1 hs' with hs' | hs'
        · exact hnodes s (hmem.1.1 (mem_sort.1 hs')).1
        · exact hrest.nodes s hs'
      · rcases hid with hid | ⟨t, ht, hid⟩
        · exact htaken (hmem.2.2 (.inr (husers id hid u hu s hus)))
        · have hid' : id ∈ (c₁.items (Text.sort granted)).map (·.2) ∨
              ∃ s ∈ rest, id ∈ c.graph.persistentNodes s := by
            rcases List.mem_append.1 ht with ht | ht
            · exact .inl (mem_items.2 ⟨t, ht, by rwa [h₁.graph]⟩)
            · exact .inr ⟨t, ht, hid⟩
          rcases hrest.users id hid' u hu s hus with h | h
          · exact htaken h
          · exact .inr (List.mem_append_right _ h)

/-- The sources found are not among the seeds, and every source that refers to one of all these is
among them. -/
structure Depends (g : Graph) (seeds found : List SourceId) : Prop where
  new : ∀ s ∈ found, s ∉ seeds
  nodes : ∀ s ∈ found, ∃ m, g.sourceOf? m = some s
  users : ∀ t ∈ seeds ++ found, ∀ r ∈ g.persistentNodes t, ∀ u ∈ users g r, ∀ s,
    g.sourceOf? u = some s → s ∈ seeds ++ found

theorem dependents_ensures (hs : c.Sane K) (seeds : List SourceId) :
    Ensures (dependents seeds) c (fun found c' => Looked K c c' ∧ Depends c.graph seeds found)
      fun e c' => e.blame = .user ∧ ¬ Predefined K ∧ Looked K c c' := by
  refine ensures_get_bind ?_
  have hmem {s : SourceId} := (Claims.mem_claimAll seeds Claims.empty (k := s)).2
  simp only [Claims.empty, List.not_mem_nil, false_or] at hmem ⊢
  generalize Claims.claimAll ⟨[]⟩ seeds = claimed at hmem ⊢
  obtain ⟨granted, claims⟩ := claimed
  have hfuel : (unclaimed c.graph claims).length < c.graph.sources.length + 2 :=
    (List.length_filter_le _ _).trans_lt (by omega)
  refine ensures_bind ((walkRounds_ensures _ hs (.inr hfuel)).imp fun found c' h => ?_)
  obtain ⟨h', hcloses⟩ := h
  refine ensures_pure ⟨h', fun s hs' => ?_, fun s hs' => ?_, fun t ht r hr u hu s hus => ?_⟩
  · rw [← hmem]
    exact hcloses.new s (mem_sort.1 hs')
  · exact hcloses.nodes s (mem_sort.1 hs')
  · have hr' : r ∈ (c.items seeds).map (·.2) ∨ ∃ s ∈ found, r ∈ c.graph.persistentNodes s := by
      rcases List.mem_append.1 ht with ht | ht
      · exact .inl (mem_items.2 ⟨t, ht, hr⟩)
      · exact .inr ⟨t, mem_sort.1 ht, hr⟩
    rcases hcloses.users r hr' u hu s hus with h | h
    · exact List.mem_append_left _ (hmem.1 h)
    · exact List.mem_append_right _ (mem_sort.2 h)

end Rounds

end Compiler

end ModelCompiler
