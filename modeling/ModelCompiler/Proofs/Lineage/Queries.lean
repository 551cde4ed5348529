import Mathlib
import ModelCompiler.Lineage

/-!
Rules for questions that fill the memory of lineages: what a question answers and what it leaves in
the memory.
-/
namespace ModelCompiler.Lineage

variable {α β : Type} {l : Lineage}

/-- The answer of a question that cannot fail and the memory after it. -/
def Recalls (q : StateM Lineage α) (l : Lineage) (Q : α → Lineage → Prop) : Prop :=
  Q (q.run l).1 (q.run l).2

/-- The answer or the error of a question and the memory after it. -/
def Gives (q : Query α) (l : Lineage) (Q : α → Lineage → Prop)
    (E : CompileError → Lineage → Prop) : Prop :=
  Recalls q.run l fun
    | .ok a => Q a
    | .error e => E e

section Recalls

variable {Q : α → Lineage → Prop}

theorem Recalls.mono {R : α → Lineage → Prop} {q : StateM Lineage α} (h : Recalls q l Q)
    (hr : ∀ a l', Q a l' → R a l') : Recalls q l R :=
  hr _ _ h

theorem recalls_pure {a : α} (h : Q a l) : Recalls (pure a) l Q := h

theorem recalls_bind {q : StateM Lineage β} {f : β → StateM Lineage α}
    (h : Recalls q l fun b l' => Recalls (f b) l' Q) : Recalls (q >>= f) l Q := h

theorem recalls_discard {q : StateM Lineage β} {Q : PUnit → Lineage → Prop}
    (h : Recalls q l fun _ l' => Q ⟨⟩ l') : Recalls (discard q) l Q := h

end Recalls

section Gives

variable {Q : α → Lineage → Prop} {E : CompileError → Lineage → Prop}

theorem Gives.mono {R : α → Lineage → Prop} {F : CompileError → Lineage → Prop} {q : Query α}
    (h : Gives q l Q E) (hr : ∀ a l', Q a l' → R a l') (hf : ∀ e l', E e l' → F e l') :
    Gives q l R F := by
  refine Recalls.mono h fun r l' hq => ?_
  cases r with
  | ok a => exact hr a l' hq
  | error e => exact hf e l' hq

theorem Gives.imp {R : α → Lineage → Prop} {q : Query α} (h : Gives q l Q E)
    (hr : ∀ a l', Q a l' → R a l') : Gives q l R E :=
  h.mono hr fun _ _ he => he

theorem gives_pure {a : α} (h : Q a l) : Gives (pure a) l Q E := h

theorem gives_throw {e : CompileError} (h : E e l) : Gives (throw e : Query α) l Q E := h

theorem gives_get {Q : Lineage → Lineage → Prop} (h : Q l l) :
    Gives (get : Query Lineage) l Q E := h

theorem gives_modify {f : Lineage → Lineage} {Q : PUnit → Lineage → Prop} (h : Q ⟨⟩ (f l)) :
    Gives (modify f : Query PUnit) l Q E := h

theorem gives_of_except {r : Except CompileError α} (h : match r with
      | .ok a => Q a l
      | .error e => E e l) : Gives (ExceptT.mk (pure r)) l Q E := by
  cases r <;> exact h

theorem gives_bind {q : Query β} {f : β → Query α}
    (h : Gives q l (fun b l' => Gives (f b) l' Q E) E) : Gives (q >>= f) l Q E := by
  unfold Gives Recalls at h ⊢
  have hrun : (q >>= f).run.run l =
      (ExceptT.bindCont f (q.run.run l).1).run (q.run.run l).2 := rfl
  rw [hrun]
  revert h
  generalize q.run.run l = r
  obtain ⟨r, l'⟩ := r
  cases r <;> exact id

theorem gives_tryCatch {q : Query α} {f : CompileError → Query α}
    (h : Gives q l Q fun e l' => Gives (f e) l' Q E) : Gives (tryCatch q f) l Q E := by
  unfold Gives Recalls at h ⊢
  simp only [tryCatch, tryCatchThe, MonadExceptOf.tryCatch, ExceptT.tryCatch, ExceptT.run_mk,
    StateT.run_bind]
  obtain ⟨r, l', hr⟩ : ∃ r l', q.run.run l = (r, l') := ⟨_, _, rfl⟩
  rw [hr] at h
  rw [show (StateT.run q l : Id (Except CompileError α × Lineage)) = (r, l') from hr]
  cases r <;> exact h

theorem gives_mapM {f : β → Query α} {I : Lineage → Prop} {R : β → α → Prop} :
    ∀ {bs : List β} {l : Lineage}, I l →
      (∀ b ∈ bs, ∀ l, I l → Gives (f b) l (fun a l' => R b a ∧ I l') E) →
      Gives (bs.mapM f) l (fun as l' => List.Forall₂ R bs as ∧ I l') E
  | [], l, hl, _ => gives_pure ⟨.nil, hl⟩
  | b :: bs, l, hl, hf => by
    rw [List.mapM_cons]
    refine gives_bind ((hf b List.mem_cons_self l hl).imp fun a l' h => ?_)
    refine gives_bind ((gives_mapM h.2 fun c hc => hf c (List.mem_cons_of_mem _ hc)).imp
      fun as l'' h' => gives_pure ?_)
    exact ⟨.cons h.1 h'.1, h'.2⟩

end Gives

end ModelCompiler.Lineage
