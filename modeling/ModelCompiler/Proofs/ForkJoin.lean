import ModelCompiler.ForkJoin
import ModelCompiler.Proofs.Actions

/-!
Fork-join is the map over the items.
-/
open ModelCompiler.Action

namespace ModelCompiler

variable {σ ε α β : Type}

theorem Schedule.perm_arrange (s : Schedule) (moment : Nat) (items : List α) :
    (s.arrange moment items).Perm items := by
  have h : ∀ items : List α, (List.range items.length).filterMap (items[·]?) = items := by
    intro items
    induction items with
    | nil => rfl
    | cons a items ih => simp [List.range_succ_eq_map, List.filterMap_map, ih]
  calc s.arrange moment items
    _ = (s.order moment items.length).filterMap (items[·]?) := by simp [arrange]
    _ |>.Perm ((List.range items.length).filterMap (items[·]?)) := (s.perm _ _).filterMap _
    _ = items := h items

namespace Range

theorem flatMap_placed_split (threshold : Nat) (r : Range α) :
    (split threshold r).flatMap placed = r.placed := by
  fun_induction split threshold r with
  | case1 => simp
  | case2 r h half ih₁ ih₂ =>
    have hlen : (r.items.take half).length = half := by
      rw [List.length_take]
      omega
    rw [List.flatMap_append, ih₁, ih₂]
    simp only [placed]
    conv_rhs => rw [← List.take_append_drop half r.items, List.zipIdx_append, hlen]

theorem length_le_of_mem_split {threshold : Nat} {r s : Range α} (h : s ∈ split threshold r) :
    s.items.length ≤ max 1 threshold := by
  fun_induction split threshold r with
  | case1 r hr => exact List.mem_singleton.1 h ▸ hr
  | case2 r hr half ih₁ ih₂ => exact (List.mem_append.1 h).elim ih₁ ih₂

end Range

section Slots

def put (slots : Array (Option β)) (done : List ((α × Nat) × β)) : Array (Option β) :=
  done.foldl (fun slots d => slots.setIfInBounds d.1.2 (some d.2)) slots

theorem size_put (done : List ((α × Nat) × β)) (slots : Array (Option β)) :
    (put slots done).size = slots.size := by
  induction done generalizing slots with
  | nil => rfl
  | cons d done ih => rw [put, List.foldl_cons, ← put, ih, Array.size_setIfInBounds]

theorem exists_getElem?_put (slots : Array (Option β)) {done : List ((α × Nat) × β)} {i : Nat}
    (hi : i < slots.size) (h : ∃ d ∈ done, d.1.2 = i) :
    ∃ d ∈ done, d.1.2 = i ∧ (put slots done)[i]? = some (some d.2) := by
  induction done using List.reverseRecOn with
  | nil => simp at h
  | append_singleton done d ih =>
    rw [put, List.foldl_append, List.foldl_cons, List.foldl_nil, ← put]
    by_cases hd : d.1.2 = i
    · refine ⟨d, by simp, hd, ?_⟩
      rw [hd, Array.getElem?_setIfInBounds_self_of_lt (by rwa [size_put])]
    · obtain ⟨d', hd', heq⟩ := h
      have hold : d' ∈ done := by
        rcases List.mem_append.1 hd' with h | h
        · exact h
        · exact absurd (List.mem_singleton.1 h ▸ heq) hd
      obtain ⟨d'', hd'', heq, hget⟩ := ih ⟨d', hold, heq⟩
      exact ⟨d'', by simp [hd''], heq, by rw [Array.getElem?_setIfInBounds_ne hd, hget]⟩

theorem forall₂_filterMap {R : α → β → Prop} {items : List α} {slots : List (Option β)}
    (h : List.Forall₂ (fun a slot => ∃ b, slot = some b ∧ R a b) items slots) :
    List.Forall₂ R items (slots.filterMap id) := by
  induction h with
  | nil => exact .nil
  | cons h _ ih =>
    obtain ⟨b, rfl, hb⟩ := h
    exact .cons hb ih

def collect (items : List α) (done : List ((α × Nat) × β)) : List β :=
  (put (Array.replicate items.length none) done).toList.filterMap id

/-- If the tasks are the items with their places, in whatever order, then a result is collected for
each item, at its place. -/
theorem forall₂_collect {R : α → β → Prop} {items : List α} {tasks : List (α × Nat)}
    {results : List β} (hperm : tasks.Perm items.zipIdx)
    (h : List.Forall₂ (fun t b => R t.1 b) tasks results) :
    List.Forall₂ R items (collect items (tasks.zip results)) := by
  obtain ⟨hlen, hR⟩ := List.forall₂_iff_zip.1 h
  apply forall₂_filterMap
  rw [List.forall₂_iff_get]
  refine ⟨by simp [size_put], fun i hi hi' => ?_⟩
  -- the slot was filled, since the item is a task, and by a task for this very place
  have htask : (items[i], i) ∈ tasks := hperm.symm.subset (by simp [List.mem_zipIdx_iff_getElem?])
  obtain ⟨b, hb⟩ : ∃ b, ((items[i], i), b) ∈ tasks.zip results := by
    have hfst : (tasks.zip results).map (·.1) = tasks := List.map_fst_zip hlen.le
    rw [← hfst] at htask
    obtain ⟨d, hd, heq⟩ := List.mem_map.1 htask
    exact ⟨d.2, heq ▸ hd⟩
  obtain ⟨⟨⟨a, j⟩, c⟩, hd, rfl, hget⟩ := exists_getElem?_put
    (Array.replicate items.length none) (by simpa using hi) ⟨_, hb, rfl⟩
  have ha : items[j]? = some a :=
    List.mem_zipIdx_iff_getElem?.1 (hperm.subset (List.of_mem_zip hd).1)
  refine ⟨c, by simpa using (Array.getElem?_eq_some_iff.1 hget).2, ?_⟩
  simpa [(List.getElem?_eq_some_iff.1 ha).2] using hR hd

end Slots

namespace Pool

theorem perm_arrange (pool : Pool) (items : List α) : (pool.arrange items).Perm items := by
  unfold arrange
  split
  · exact pool.schedule.perm_arrange pool.moment items
  · exact .refl _

theorem flatMap_placed_plan (pool : Pool) (threshold : Nat) (items : List α) :
    (pool.plan threshold items).flatMap Range.placed = items.zipIdx := by
  unfold plan
  split
  · exact Range.flatMap_placed_split threshold ⟨0, items⟩
  · simp [Range.placed]

def tasks (pool : Pool) (threshold : Nat) (items : List α) : List (α × Nat) :=
  (pool.arrange (pool.plan threshold items)).flatMap Range.placed

theorem perm_tasks (pool : Pool) (threshold : Nat) (items : List α) :
    (pool.tasks threshold items).Perm items.zipIdx := by
  rw [← flatMap_placed_plan pool threshold items]
  exact (pool.perm_arrange _).flatMap_right _

section Lawful

variable {m : Type → Type} [Monad m] [LawfulMonad m]

theorem foldlM_eq_put (op : α → m β) (tasks : List (α × Nat)) (slots : Array (Option β)) :
    tasks.foldlM (fun slots t => do return slots.setIfInBounds t.2 (some (← op t.1))) slots =
      (fun results => put slots (tasks.zip results)) <$> tasks.mapM fun t => op t.1 := by
  induction tasks generalizing slots with
  | nil => simp [put]
  | cons t tasks ih =>
    rw [List.foldlM_cons, List.mapM_cons]
    simp only [bind_assoc, pure_bind, ih]
    simp [put]

theorem mapM_eq (pool : Pool) (threshold : Nat) (op : α → m β) (items : List α) :
    pool.mapM threshold op items =
      (fun results => collect items ((pool.tasks threshold items).zip results)) <$>
        (pool.tasks threshold items).mapM fun t => op t.1 := by
  have hfill (ranges : List (Range α)) (slots : Array (Option β)) :
      ranges.foldlM (Range.fill op) slots = (ranges.flatMap Range.placed).foldlM
        (fun slots t => do return slots.setIfInBounds t.2 (some (← op t.1))) slots := by
    induction ranges generalizing slots with
    | nil => rfl
    | cons r ranges ih =>
      rw [List.foldlM_cons, List.flatMap_cons, List.foldlM_append]
      simp only [ih]
      rfl
  rw [mapM, hfill, ← tasks, foldlM_eq_put]
  simp [collect]

end Lawful

theorem ensures_mapM {pool : Pool} {threshold : Nat} {f : α → Action σ ε β} {items : List α} {s : σ}
    {I : σ → Prop} {R : α → β → Prop} {E : ε → σ → Prop} (h : I s)
    (hf : ∀ a ∈ items, ∀ t, I t → Ensures (f a) t (fun b t => R a b ∧ I t) E) :
    Ensures (pool.mapM threshold f items) s (fun bs t => List.Forall₂ R items bs ∧ I t) E := by
  have hperm := pool.perm_tasks threshold items
  rw [mapM_eq]
  refine ensures_map ((ensures_mapM_forall₂ (R := fun t b => R t.1 b) h fun t ht => ?_).imp
    fun bs t hbs => ⟨forall₂_collect hperm hbs.1, hbs.2⟩)
  exact hf t.1 (List.fst_mem_of_mem_zipIdx (hperm.subset ht))

theorem collect_tasks (pool : Pool) (threshold : Nat) (op : α → β) (items : List α) :
    collect items ((pool.tasks threshold items).zip
      ((pool.tasks threshold items).map fun t => op t.1)) = items.map op := by
  have hdone : List.Forall₂ (fun t b => op t.1 = b) (pool.tasks threshold items)
      ((pool.tasks threshold items).map fun t => op t.1) := by
    simp [List.forall₂_map_right_iff, List.forall₂_same]
  have h := forall₂_collect (R := fun a b => op a = b) (pool.perm_tasks threshold items) hdone
  rw [← List.forall₂_map_left_iff, List.forall₂_eq_eq_eq] at h
  exact h.symm

theorem map_eq (pool : Pool) (threshold : Nat) (op : α → β) (items : List α) :
    pool.map threshold op items = items.map op := by
  have hrun := congrArg Id.run (mapM_eq pool threshold (fun a => pure (op a)) items)
  rw [List.mapM_pure] at hrun
  exact hrun.trans (collect_tasks pool threshold op items)

def recorded (op : α → β) (a : α) : StateM (List α) β := do
  modify (· ++ [a])
  return op a

theorem run_mapM_recorded (op : α → β) (tasks : List (α × Nat)) (calls : List α) :
    (tasks.mapM fun t => recorded op t.1).run calls =
      (tasks.map fun t => op t.1, calls ++ tasks.map (·.1)) := by
  induction tasks generalizing calls with
  | nil => exact Prod.ext rfl (List.append_nil calls).symm
  | cons t tasks ih =>
    rw [List.mapM_cons]
    change (op t.1 :: ((tasks.mapM fun t => recorded op t.1).run (calls ++ [t.1])).1,
      ((tasks.mapM fun t => recorded op t.1).run (calls ++ [t.1])).2) = _
    rw [ih, List.append_assoc]
    rfl

theorem run_mapM_eq (pool : Pool) (threshold : Nat) (op : α → β) (items : List α) :
    (pool.mapM threshold (recorded op) items).run [] =
      (items.map op, (pool.tasks threshold items).map (·.1)) := by
  rw [mapM_eq, StateT.run_map, run_mapM_recorded]
  exact Prod.ext (collect_tasks pool threshold op items) rfl

theorem mapM_cases (attempt : α → Except ε β) : ∀ items : List α,
    (∃ results, items.mapM attempt = .ok results ∧
      List.Forall₂ (fun a b => attempt a = .ok b) items results) ∨
    ∃ before a after e, items = before ++ a :: after ∧ (∀ x ∈ before, ∃ b, attempt x = .ok b) ∧
      attempt a = .error e ∧ items.mapM attempt = .error e
  | [] => .inl ⟨[], rfl, .nil⟩
  | a :: items => by
    rw [List.mapM_cons]
    cases ha : attempt a with
    | error e => exact .inr ⟨[], a, items, e, rfl, by simp, ha, rfl⟩
    | ok b =>
      obtain ⟨results, hmap, h⟩ | ⟨before, x, after, e, rfl, hbefore, hx, hmap⟩ :=
        mapM_cases attempt items
      · exact .inl ⟨b :: results, by rw [hmap]; rfl, .cons ha h⟩
      · refine .inr ⟨a :: before, x, after, e, rfl, fun y hy => ?_, hx, by rw [hmap]; rfl⟩
        rcases List.mem_cons.1 hy with rfl | hy
        · exact ⟨b, ha⟩
        · exact hbefore y hy

theorem tryMap_eq (pool : Pool) (threshold : Nat) (attempt : α → Except ε β) (items : List α) :
    pool.tryMap threshold attempt items = items.mapM attempt := by
  rw [tryMap, map_eq, List.mapM_map]
  rfl

/-- Whatever the threshold and the order in which the ranges are taken up: the parts of a split are
short enough and together have every item at its place, an operation without effects gives the
results of the items in their order and is called once for each of them, and an operation that may
fail gives all results in order or the error of the first item that fails. -/
theorem forkJoin_eq_inTurn (pool : Pool) (threshold : Nat) (op : α → β)
    (attempt : α → Except ε β) (items : List α) :
    (∀ r ∈ Range.split threshold ⟨0, items⟩, r.items.length ≤ max 1 threshold) ∧
    (Range.split threshold ⟨0, items⟩).flatMap Range.placed = items.zipIdx ∧
    pool.map threshold op items = items.map op ∧
    (∃ calls, calls.Perm items ∧
      (pool.mapM threshold (recorded op) items).run [] = (items.map op, calls)) ∧
    ((∃ results, pool.tryMap threshold attempt items = .ok results ∧
      List.Forall₂ (fun a b => attempt a = .ok b) items results) ∨
    ∃ before a after e, items = before ++ a :: after ∧ (∀ x ∈ before, ∃ b, attempt x = .ok b) ∧
      attempt a = .error e ∧ pool.tryMap threshold attempt items = .error e) := by
  refine ⟨fun r hr => Range.length_le_of_mem_split hr,
    Range.flatMap_placed_split threshold ⟨0, items⟩,
    pool.map_eq threshold op items, ⟨_, ?_, pool.run_mapM_eq threshold op items⟩, ?_⟩
  · have h := (pool.perm_tasks threshold items).map (·.1)
    rwa [List.zipIdx_map_fst] at h
  · rw [tryMap_eq]
    exact mapM_cases attempt items

end Pool

end ModelCompiler
