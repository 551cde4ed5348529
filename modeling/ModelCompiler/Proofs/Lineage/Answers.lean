import ModelCompiler.Proofs.Lineage.Search

/-!
Answers without a memory.
-/
open ModelCompiler.Graph

namespace ModelCompiler.Lineage

variable {α β γ : Type} {g : Graph} {gs l : List NodeId} {ty x : NodeId}

section Climb

def climb (g : Graph) : Nat → List NodeId → NodeId → Except CompileError (List NodeId)
  | 0, _, ty => .error (.internal (.nodeNotFound ty))
  | fuel + 1, way, ty =>
    if ty ∈ way then .error (cycleError g (way.dropWhile (· ≠ ty)) ty)
    else do
      let generals ← direct g ty
      let inherited ← ((g.values ty "generalizations").zip generals).mapM fun p =>
        (climb g fuel (way ++ [ty]) p.2).mapError (localize g ty p.1 p.2)
      return (generals ++ inherited.flatten).eraseDups

theorem climb_succ {fuel : Nat} {way : List NodeId} (hty : ty ∉ way)
    (hgs : direct g ty = .ok gs) : climb g (fuel + 1) way ty =
      (((g.values ty "generalizations").zip gs).mapM fun p =>
        (climb g fuel (way ++ [ty]) p.2).mapError (localize g ty p.1 p.2)).map fun inherited =>
          (gs ++ inherited.flatten).eraseDups := by
  rw [climb, if_neg hty, hgs]
  rfl

structure Climbing (g : Graph) (fuel : Nat) (way : List NodeId) : Prop where
  nodup : way.Nodup
  live : ∀ x ∈ way, g.contains x = true
  fuel : g.slots.size < fuel + way.length

namespace Climbing

variable {fuel : Nat} {way : List NodeId} {ty : NodeId}

theorem start (g : Graph) : Climbing g (g.slots.size + 2) [] :=
  ⟨List.nodup_nil, by simp, by simp⟩

theorem fuel_ne_zero (h : Climbing g fuel way) : fuel ≠ 0 := by
  rintro rfl
  have hsub : way ⊆ List.range g.slots.size := fun x hx =>
    List.mem_range.2 (lt_size_of_contains (h.live x hx))
  have hlen := (h.nodup.subperm hsub).length_le
  have hfuel := h.fuel
  rw [List.length_range] at hlen
  omega

theorem succ (h : Climbing g (fuel + 1) way) (hty : ty ∉ way) (hlive : g.contains ty = true) :
    Climbing g fuel (way ++ [ty]) where
  nodup := List.Nodup.append h.nodup (List.nodup_singleton ty) (by simpa using hty)
  live x hx := by
    rcases List.mem_append.1 hx with hx | hx
    · exact h.live x hx
    · exact List.mem_singleton.1 hx ▸ hlive
  fuel := by
    have hfuel := h.fuel
    rw [List.length_append, List.length_singleton]
    omega

end Climbing

theorem direct_of_generals (hty : g.contains ty = true)
    (h : g.generals ty = gs.map some) : direct g ty = .ok gs := by
  rw [direct, if_pos hty]
  unfold generals at h
  generalize g.values ty "generalizations" = vs at h
  induction vs generalizing gs with
  | nil =>
    obtain rfl : gs = [] := by simpa using h.symm
    rfl
  | cons v vs ih =>
    cases gs with
    | nil => simp at h
    | cons x gs =>
      obtain ⟨hx, hrest⟩ := List.cons.inj h
      rw [List.mapM_cons, ih hrest]
      simp only [general, hx]
      rfl

theorem mapM_ok {f : α → Except CompileError β} {h : α → β} : ∀ {xs : List α},
    (∀ x ∈ xs, f x = .ok (h x)) → xs.mapM f = .ok (xs.map h)
  | [], _ => rfl
  | x :: xs, hf => by
    rw [List.mapM_cons, hf x List.mem_cons_self, mapM_ok fun y hy =>
      hf y (List.mem_cons_of_mem _ hy)]
    rfl

/-- A type with a lineage has that lineage for an answer, from wherever the climb comes. -/
theorem climb_of_lineal (h : g.Lineal ty l) (hc : g.Closed)
    (hty : g.contains ty = true) : ∀ {fuel : Nat} {way : List NodeId}, Climbing g fuel way →
      (∀ x ∈ ty :: l, x ∉ way) → climb g fuel way ty = .ok l := by
  induction h with
  | @intro ty gs ls hgs hls ih =>
    intro fuel way hway hfree
    obtain ⟨fuel, rfl⟩ := Nat.exists_eq_succ_of_ne_zero hway.fuel_ne_zero
    have hself := Lineal.not_mem_self (.intro gs ls hgs hls)
    have hmem {x y : NodeId} (hx : x ∈ gs) (hy : y ∈ x :: ls x) :
        y ∈ (gs ++ gs.flatMap ls).eraseDups := by
      rw [List.mem_eraseDups, List.mem_append]
      rcases List.mem_cons.1 hy with rfl | hy
      · exact .inl hx
      · exact .inr (List.mem_flatMap.2 ⟨x, hx, hy⟩)
    have hstep : ∀ p ∈ (g.values ty "generalizations").zip gs,
        (climb g fuel (way ++ [ty]) p.2).mapError (localize g ty p.1 p.2) = .ok (ls p.2) := by
      intro p hp
      have hx := (List.of_mem_zip hp).2
      have hgen : some p.2 ∈ g.generals ty := hgs ▸ List.mem_map_of_mem hx
      rw [ih p.2 hx (general_live hc hgen) (hway.succ (hfree ty List.mem_cons_self) hty)]
      · rfl
      · intro y hy hway'
        rcases List.mem_append.1 hway' with h' | h'
        · exact hfree y (List.mem_cons_of_mem _ (hmem hx hy)) h'
        · exact hself (List.mem_singleton.1 h' ▸ hmem hx hy)
    have hlen : (g.values ty "generalizations").length = gs.length := by
      simpa [generals] using congrArg List.length hgs
    have hzip : ((g.values ty "generalizations").zip gs).map (fun p => ls p.2) = gs.map ls := by
      rw [← Function.comp_def, ← List.map_map, List.map_snd_zip (le_of_eq hlen.symm)]
    rw [climb_succ (hfree ty List.mem_cons_self) (direct_of_generals hty hgs), mapM_ok hstep, hzip,
      List.flatMap_def]
    rfl

def Under (g : Graph) : NodeId → NodeId → Prop :=
  Relation.TransGen fun a b => some b ∈ g.generals a

theorem Under.mem {y : NodeId} (h : Under g x y) (hl : g.Lineal x l) :
    y ∈ l := by
  induction h with
  | single h => exact hl.mem_of_general h
  | tail _ h ih =>
    obtain ⟨m, hm, hsub⟩ := hl.of_mem _ ih
    exact hsub _ (hm.mem_of_general h)

theorem not_mem_of_under (h : Under g x ty) (hl : g.Lineal ty l) : x ∉ ty :: l := by
  intro hx
  rcases List.mem_cons.1 hx with rfl | hx
  · exact hl.not_mem_self (h.mem hl)
  · obtain ⟨m, hm, hsub⟩ := hl.of_mem x hx
    exact hl.not_mem_self (hsub _ (h.mem hm))

theorem gives_mapM_eq (view : α → γ) {f : β → Query α} {h : β → Except CompileError γ}
    {I : Lineage → Prop} {R : β → α → Prop} : ∀ {bs : List β} {l : Lineage}, I l →
      (∀ b ∈ bs, ∀ l, I l → Gives (f b) l (fun a l' => h b = .ok (view a) ∧ R b a ∧ I l')
        fun e l' => h b = .error e ∧ I l') →
      Gives (bs.mapM f) l
        (fun as l' => bs.mapM h = .ok (as.map view) ∧ List.Forall₂ R bs as ∧ I l')
        fun e l' => bs.mapM h = .error e ∧ I l'
  | [], l, hl, _ => gives_pure ⟨rfl, .nil, hl⟩
  | b :: bs, l, hl, hf => by
    rw [List.mapM_cons, List.mapM_cons]
    refine gives_bind ((hf b List.mem_cons_self l hl).mono (fun a l' ha => ?_) fun e l' he => ?_)
    · obtain ⟨hb, hR, hl'⟩ := ha
      rw [hb]
      refine gives_bind ((gives_mapM_eq view hl' fun c hc => hf c (List.mem_cons_of_mem _ hc)).mono
        (fun as l'' has => gives_pure ?_) fun e l'' he => ?_)
      · obtain ⟨hbs, hRs, hl''⟩ := has
        exact ⟨by rw [hbs]; rfl, .cons hR hRs, hl''⟩
      · exact ⟨by rw [he.1]; rfl, he.2⟩
    · exact ⟨by rw [he.1]; rfl, he.2⟩

/-- With a valid memory the search finds what the climb finds. -/
theorem search_climbs (hc : g.Closed) (hi : g.Issued) : ∀ {fuel : Nat} {way : List NodeId}
    {ty : NodeId} {l : Lineage}, Climbing g fuel way → (∀ x ∈ way, Under g x ty) →
    g.contains ty = true → l.Valid g →
    Gives (search g fuel way ty) l
      (fun a l' => climb g fuel way ty = .ok a.ancestors ∧ a.Holds g ty ∧ l'.Valid g)
      fun e l' => climb g fuel way ty = .error e ∧ l'.Valid g
  | 0, way, ty, l, hway, _, _, _ => absurd rfl hway.fuel_ne_zero
  | fuel + 1, way, ty, l, hway, hunder, hty, hl => by
    rw [search]
    refine gives_bind (gives_get ?_)
    split
    · rename_i a ha
      have hh := hl.holds_of_fresh? ha
      refine gives_pure ⟨climb_of_lineal hh.lineal hc hty hway fun x hx hxw => ?_, hh, hl⟩
      exact not_mem_of_under (hunder x hxw) hh.lineal hx
    · split
      · rename_i hmem
        exact gives_throw ⟨by rw [climb, if_pos hmem], hl⟩
      · rename_i hmem
        refine gives_bind (gives_of_except ?_)
        rcases direct_cases hty with ⟨gs, hgs, hmap⟩ | ⟨e, he, -⟩
        · rw [hgs]
          have hlen : (g.values ty "generalizations").length = gs.length := by
            simpa [generals] using congrArg List.length hmap
          refine gives_bind (Gives.mono (gives_mapM_eq Ancestry.ancestors (I := fun l => l.Valid g)
            (R := fun (p : NodeId × NodeId) (a : Ancestry) => a.Holds g p.2)
            (h := fun p => (climb g fuel (way ++ [ty]) p.2).mapError (localize g ty p.1 p.2)) hl ?_)
            (fun as l' has => ?_) fun e l' he => ?_)
          · rintro ⟨stub, x⟩ hx l hl
            have hgen : some x ∈ g.generals ty := by
              rw [hmap]
              exact List.mem_map_of_mem (List.of_mem_zip hx).2
            refine gives_tryCatch ((search_climbs hc hi (hway.succ hmem hty) (fun y hy => ?_)
              (general_live hc hgen) hl).mono (fun a l' h => ?_) fun e l' h => gives_throw ?_)
            · rcases List.mem_append.1 hy with hy | hy
              · exact (hunder y hy).tail hgen
              · exact List.mem_singleton.1 hy ▸ .single hgen
            · exact ⟨by rw [h.1]; rfl, h.2⟩
            · exact ⟨by rw [h.1]; rfl, h.2⟩
          · obtain ⟨heq, has, hl'⟩ := has
            have hh := holds_merge hty hmap (forall₂_of_zip hlen has)
            refine gives_bind (gives_modify (gives_pure ⟨?_, hh, hl'.insert (hh.sound hi)⟩))
            rw [climb_succ hmem hgs, heq, merge, List.flatMap_def]
            rfl
          · exact ⟨by rw [climb_succ hmem hgs, he.1]; rfl, he.2⟩
        · rw [he]
          exact ⟨by rw [climb, if_neg hmem, he]; rfl, hl⟩

end Climb

section Steady

def answer (q : StateM Lineage α) : α :=
  (q.run ∅).1

/-- The question has the same answer with every valid memory, and leaves it valid. -/
def Steady (g : Graph) (q : StateM Lineage α) : Prop :=
  ∀ l : Lineage, l.Valid g → Recalls q l fun a l' => a = answer q ∧ l'.Valid g

theorem Steady.of_forall {q : StateM Lineage α} (a : α)
    (h : ∀ l : Lineage, l.Valid g → Recalls q l fun b l' => b = a ∧ l'.Valid g) :
    Steady g q ∧ answer q = a := by
  have ha : answer q = a := (h ∅ (valid_empty g)).1
  exact ⟨fun l hl => (h l hl).mono fun b l' hb => ⟨hb.1.trans ha.symm, hb.2⟩, ha⟩

theorem steady_pure (a : α) : Steady g (pure a : StateM Lineage α) := fun _ hl => ⟨rfl, hl⟩

@[simp]
theorem answer_pure (a : α) : answer (pure a) = a := rfl

theorem answer_bind_pure (q : StateM Lineage β) (f : β → α) :
    answer (q >>= fun b => pure (f b)) = f (answer q) := rfl

theorem bind_answers {q : StateM Lineage β} {f : β → StateM Lineage α} (hq : Steady g q)
    (hf : Steady g (f (answer q))) :
    Steady g (q >>= f) ∧ answer (q >>= f) = answer (f (answer q)) := by
  refine Steady.of_forall _ fun l hl => recalls_bind ((hq l hl).mono fun b l' hb => ?_)
  obtain ⟨rfl, hl'⟩ := hb
  exact hf l' hl'

theorem Steady.bind {q : StateM Lineage β} {f : β → StateM Lineage α} (hq : Steady g q)
    (hf : Steady g (f (answer q))) : Steady g (q >>= f) :=
  (bind_answers hq hf).1

theorem answer_bind {q : StateM Lineage β} {f : β → StateM Lineage α} (hq : Steady g q)
    (hf : Steady g (f (answer q))) : answer (q >>= f) = answer (f (answer q)) :=
  (bind_answers hq hf).2

theorem mapM_answers {f : β → StateM Lineage α} : ∀ {bs : List β}, (∀ b ∈ bs, Steady g (f b)) →
    Steady g (bs.mapM f) ∧ answer (bs.mapM f) = bs.map fun b => answer (f b)
  | [], _ => ⟨steady_pure [], rfl⟩
  | b :: bs, hf => by
    have hb := hf b List.mem_cons_self
    obtain ⟨hs, ha⟩ := mapM_answers fun c hc => hf c (List.mem_cons_of_mem _ hc)
    rw [List.mapM_cons]
    obtain ⟨hs', ha'⟩ := bind_answers (f := fun as => pure (answer (f b) :: as)) hs (steady_pure _)
    obtain ⟨hs'', ha''⟩ := bind_answers (f := fun a => List.mapM f bs >>= fun as => pure (a :: as))
      hb hs'
    exact ⟨hs'', ha''.trans (ha'.trans (by rw [ha]; rfl))⟩

def Query.answer (q : Query α) : Except CompileError α :=
  Lineage.answer q.run

theorem query_bind_answers {q : Query β} {f : β → Query α} (hq : Steady g q.run)
    (hf : ∀ b, Query.answer q = .ok b → Steady g (f b).run) :
    Steady g (q >>= f).run ∧ Query.answer (q >>= f) = Query.answer q >>= fun b =>
      Query.answer (f b) := by
  have hrun : (q >>= f).run = q.run >>= ExceptT.bindCont f := rfl
  unfold Query.answer at hf ⊢
  rw [hrun]
  cases ha : Lineage.answer q.run with
  | error e =>
    have := bind_answers (f := ExceptT.bindCont f) hq (by rw [ha]; exact steady_pure _)
    rw [ha] at this
    exact this
  | ok b =>
    have := bind_answers (f := ExceptT.bindCont f) hq (by rw [ha]; exact hf b ha)
    rw [ha] at this
    exact this

variable (hc : g.Closed) (hi : g.Issued) {ty : NodeId}
include hc hi

theorem ancestors_answers (hty : g.contains ty = true) : Steady g (ancestors g ty).run ∧
    Query.answer (ancestors g ty) = climb g (g.slots.size + 2) [] ty := by
  refine Steady.of_forall _ fun l hl => ?_
  have h : Gives (ancestors g ty) l
      (fun as l' => climb g (g.slots.size + 2) [] ty = .ok as ∧ l'.Valid g)
      fun e l' => climb g (g.slots.size + 2) [] ty = .error e ∧ l'.Valid g :=
    gives_bind ((search_climbs hc hi (.start g) (by simp) hty hl).imp
      fun _ _ h => gives_pure ⟨h.1, h.2.2⟩)
  refine Recalls.mono h fun r l' hr => ?_
  cases r with
  | ok as | error e => exact ⟨hr.1.symm, hr.2⟩

theorem answer_ancestors_of_lineal (hty : g.contains ty = true) {as : List NodeId}
    (h : g.Lineal ty as) : Query.answer (ancestors g ty) = .ok as := by
  rw [(ancestors_answers hc hi hty).2]
  exact climb_of_lineal h hc hty (.start g) (by simp)

theorem isSubtype_answers (hty : g.contains ty = true) (sup : NodeId) :
    Steady g (isSubtype g ty sup).run ∧ Query.answer (isSubtype g ty sup) =
      if ty = sup then .ok true
      else (climb g (g.slots.size + 2) [] ty).map (·.contains sup) := by
  obtain ⟨hs, ha⟩ := ancestors_answers hc hi hty
  unfold isSubtype sameType
  by_cases h : ty = sup
  · simp only [h, decide_true, if_true]
    exact ⟨steady_pure _, rfl⟩
  · simp only [h, decide_false, if_false, Bool.false_eq_true]
    obtain ⟨hs', ha'⟩ := query_bind_answers (f := fun as : List NodeId => pure (as.contains sup)) hs
      fun as _ => steady_pure _
    refine ⟨hs', ha'.trans ?_⟩
    rw [ha]
    cases climb g (g.slots.size + 2) [] ty <;> rfl

theorem isInstance_steady (id sup : NodeId) : Steady g (isInstance g id sup).run := by
  unfold isInstance
  cases hcl : g.classifier? id with
  | none => exact steady_pure _
  | some c => exact (isSubtype_answers hc hi (hc.classifier_live id c hcl) sup).1

theorem findProperty_answers (hty : g.contains ty = true) (name : String) :
    Steady g (findProperty g ty name).run ∧ Query.answer (findProperty g ty name) =
      (climb g (g.slots.size + 2) [] ty).map fun as =>
        (ty :: as).findSome? fun owner => ownProperty? g owner name := by
  obtain ⟨hs, ha⟩ := ancestors_answers hc hi hty
  obtain ⟨hs₁, ha₁⟩ := query_bind_answers (f := fun as : List NodeId => pure (ty :: as)) hs
    fun as _ => steady_pure _
  obtain ⟨hs₂, ha₂⟩ := query_bind_answers (q := resolutionOrder g ty)
    (f := fun order : List NodeId =>
    pure (order.findSome? fun owner => ownProperty? g owner name)) hs₁ fun as _ => steady_pure _
  refine ⟨hs₂, ha₂.trans ?_⟩
  rw [show Query.answer (resolutionOrder g ty) = _ from ha₁, ha]
  cases climb g (g.slots.size + 2) [] ty <;> rfl

end Steady

end ModelCompiler.Lineage

namespace ModelCompiler.Dispatch

open Lineage

variable {η : Type} {g : Graph}

def found (table : Table Path η) (g : Graph) (id : NodeId) :
    Except CompileError (Option η × Origin) :=
  Query.answer (find table g id)

theorem find_steady (hc : g.Closed) (hi : g.Issued) (table : Table Path η) (id : NodeId) :
    Steady g (find table g id).run := by
  unfold find
  cases hcl : g.classifier? id with
  | none => exact steady_pure _
  | some c =>
    simp only
    split
    · exact steady_pure _
    · cases handlerAt? table g c with
      | some r => exact steady_pure _
      | none =>
        refine (query_bind_answers (ancestors_answers hc hi (hc.classifier_live id c hcl)).1
          fun as _ => ?_).1
        cases as.findSome? (handlerAt? table g) with
        | some r | none => exact steady_pure _

end ModelCompiler.Dispatch
