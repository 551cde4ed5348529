import Mathlib
import ModelCompiler.Action

/-!
Reasoning about actions.
-/
namespace ModelCompiler

theorem exists_of_bind_ok {ε α β : Type} {x : Except ε α} {f : α → Except ε β} {b : β}
    (h : (x >>= f) = .ok b) : ∃ a, x = .ok a ∧ f a = .ok b := by
  cases x with
  | error e => simp [bind, Except.bind] at h
  | ok a => exact ⟨a, rfl, h⟩

theorem exists_of_map_snd_ok {ε α σ : Type} {x : Except ε (α × σ)} {s : σ}
    (h : x.map (·.2) = .ok s) : ∃ a, x = .ok (a, s) := by
  cases x with
  | error e => simp [Except.map] at h
  | ok r => exact ⟨r.1, by rw [← Except.ok.inj h]⟩

theorem eq_ok_of_toOption {α ε : Type} {x : Except ε α} {y : α} (h : x.toOption = some y) :
    x = .ok y := by
  cases x with
  | error e => simp [Except.toOption] at h
  | ok z => simpa [Except.toOption] using h

theorem exists_ok_of_any {α ε : Type} {x : Except ε α} {P : α → Prop} [DecidablePred P]
    (h : (x.toOption.any fun a => decide (P a)) = true) : ∃ a, x = .ok a ∧ P a := by
  cases x with
  | error e => simp [Except.toOption] at h
  | ok a => exact ⟨a, rfl, by simpa [Except.toOption] using h⟩

theorem ok_mk_inj {ε α β : Type} {a c : α} {b d : β}
    (h : (.ok (a, b) : Except ε (α × β)) = .ok (c, d)) : a = c ∧ b = d :=
  Prod.mk.inj (Except.ok.inj h)

theorem foldlM_keeps {ε σ α : Type} {f : σ → α → Except ε σ} {I : σ → Prop} {xs : List α}
    (hf : ∀ x ∈ xs, ∀ s t, I s → f s x = .ok t → I t) :
    ∀ {s t : σ}, I s → xs.foldlM f s = .ok t → I t := by
  induction xs with
  | nil => exact fun hs h => Except.ok.inj h ▸ hs
  | cons x xs ih =>
    intro s t hs h
    rw [List.foldlM_cons] at h
    obtain ⟨k, hk, h⟩ := exists_of_bind_ok h
    exact ih (fun y hy => hf y (List.mem_cons_of_mem x hy)) (hf x List.mem_cons_self s k hs hk) h

namespace Action

variable {σ τ ε δ α β : Type}

theorem run_bind (s : σ) (x : Action σ ε α) (f : α → Action σ ε β) : (x >>= f) s =
    match x s with
    | .error b => .error b
    | .ok (.error e, t) => .ok (.error e, t)
    | .ok (.ok a, t) => f a t := by
  rcases h : x s with b | ⟨e | a, t⟩ <;>
    simp [bind, ExceptT.bind, ExceptT.mk, StateT.bind, Except.bind, h, ExceptT.bindCont, pure,
      StateT.pure, Except.pure]

/-- Ends without a breach, in a result that satisfies `Q` or an error that satisfies `E`. -/
def Ensures (act : Action σ ε α) (s : σ) (Q : α → σ → Prop) (E : ε → σ → Prop) : Prop :=
  (∃ a t, act s = .ok (.ok a, t) ∧ Q a t) ∨ ∃ e t, act s = .ok (.error e, t) ∧ E e t

section Basic

variable {s : σ} {act : Action σ ε α} {Q R : α → σ → Prop} {E F : ε → σ → Prop}

theorem Ensures.mono (h : Ensures act s Q E) (hq : ∀ a t, Q a t → R a t)
    (he : ∀ e t, E e t → F e t) : Ensures act s R F := by
  rcases h with ⟨a, t, hact, h⟩ | ⟨e, t, hact, h⟩
  · exact .inl ⟨a, t, hact, hq a t h⟩
  · exact .inr ⟨e, t, hact, he e t h⟩

theorem Ensures.imp (h : Ensures act s Q E) (hq : ∀ a t, Q a t → R a t) : Ensures act s R E :=
  h.mono hq fun _ _ he => he

theorem Ensures.result (h : Ensures act s Q E) {a : α} {t : σ} (hact : act s = .ok (.ok a, t)) :
    Q a t := by
  rcases h with ⟨a', t', h', hq⟩ | ⟨e, t', h', -⟩
  · rw [hact] at h'
    obtain ⟨ha, rfl⟩ := ok_mk_inj h'
    rwa [Except.ok.inj ha]
  · simp [hact] at h'

theorem Ensures.error (h : Ensures act s Q E) {e : ε} {t : σ} (hact : act s = .ok (.error e, t)) :
    E e t := by
  rcases h with ⟨a, t', h', -⟩ | ⟨e', t', h', he⟩
  · simp [hact] at h'
  · rw [hact] at h'
    obtain ⟨ha, rfl⟩ := ok_mk_inj h'
    rwa [Except.error.inj ha]

theorem Ensures.and (h : Ensures act s Q E) (h' : Ensures act s R F) :
    Ensures act s (fun a t => Q a t ∧ R a t) fun e t => E e t ∧ F e t := by
  rcases h with ⟨a, t, hact, hq⟩ | ⟨e, t, hact, he⟩
  · exact .inl ⟨a, t, hact, hq, h'.result hact⟩
  · exact .inr ⟨e, t, hact, he, h'.error hact⟩

/-- What holds after a result and after an error holds at the end. -/
theorem Ensures.ends (h : Ensures act s Q E) {P : σ → Prop} (hq : ∀ a t, Q a t → P t)
    (he : ∀ e t, E e t → P t) {t : σ} (hact : (act s).map (·.2) = .ok t) : P t := by
  obtain ⟨r, hr⟩ := exists_of_map_snd_ok hact
  cases r with
  | ok a => exact hq a t (h.result hr)
  | error e => exact he e t (h.error hr)

theorem Ensures.no_breach (h : Ensures act s Q E) : ∃ r t, act s = .ok (r, t) := by
  rcases h with ⟨a, t, hact, -⟩ | ⟨e, t, hact, -⟩
  · exact ⟨_, _, hact⟩
  · exact ⟨_, _, hact⟩

theorem ensures_of_eq {a : α} {t : σ} (hact : act s = .ok (.ok a, t)) (h : Q a t) :
    Ensures act s Q E :=
  .inl ⟨a, t, hact, h⟩

theorem ensures_pure {a : α} (h : Q a s) : Ensures (pure a) s Q E :=
  ensures_of_eq rfl h

theorem ensures_throw {e : ε} (h : E e s) : Ensures (throw e) s Q E :=
  .inr ⟨e, s, rfl, h⟩

theorem ensures_get {Q : σ → σ → Prop} (h : Q s s) : Ensures (get : Action σ ε σ) s Q E :=
  ensures_of_eq rfl h

theorem ensures_set {Q : PUnit → σ → Prop} {t : σ} (h : Q ⟨⟩ t) :
    Ensures (set t : Action σ ε PUnit) s Q E :=
  ensures_of_eq rfl h

theorem ensures_modify {Q : PUnit → σ → Prop} {f : σ → σ} (h : Q ⟨⟩ (f s)) :
    Ensures (modify f : Action σ ε PUnit) s Q E :=
  ensures_of_eq rfl h

theorem ensures_write {f : σ → Except Breach (α × σ)} {a : α} {t : σ} (hf : f s = .ok (a, t))
    (h : Q a t) : Ensures (write f : Action σ ε α) s Q E :=
  ensures_of_eq (by simp [write, hf, Except.map]) h

theorem ensures_bind {x : Action σ ε β} {f : β → Action σ ε α}
    (h : Ensures x s (fun b t => Ensures (f b) t Q E) E) : Ensures (x >>= f) s Q E := by
  rcases h with ⟨b, t, hx, h⟩ | ⟨e, t, hx, h⟩
  · have hrun : (x >>= f) s = f b t := by rw [run_bind, hx]
    unfold Ensures
    rw [hrun]
    exact h
  · exact .inr ⟨e, t, by rw [run_bind, hx], h⟩

theorem ensures_get_bind {f : σ → Action σ ε α} (h : Ensures (f s) s Q E) :
    Ensures (get >>= f) s Q E :=
  ensures_bind (ensures_get h)

theorem ensures_modify_bind {u : σ → σ} {f : PUnit → Action σ ε α}
    (h : Ensures (f ⟨⟩) (u s) Q E) : Ensures (modify u >>= f) s Q E :=
  ensures_bind (ensures_modify h)

theorem ensures_map {x : Action σ ε β} {f : β → α} (h : Ensures x s (fun b t => Q (f b) t) E) :
    Ensures (f <$> x) s Q E := by
  rw [map_eq_pure_bind]
  exact ensures_bind (h.imp fun _ _ hq => ensures_pure hq)

theorem ensures_discard {x : Action σ ε β} {Q : PUnit → σ → Prop}
    (h : Ensures x s (fun _ t => Q ⟨⟩ t) E) : Ensures (discard x) s Q E :=
  ensures_map h

end Basic

section Embedding

variable {s : σ} {E : δ → σ → Prop}

theorem ensures_within {part : τ → σ} {put : σ → τ → τ} {cause : ε → δ} {act : Action σ ε α}
    {t : τ} {Q : α → τ → Prop} {E : δ → τ → Prop}
    (h : Ensures act (part t) (fun a s => Q a (put s t)) fun e s => E (cause e) (put s t)) :
    Ensures (act.within part put cause) t Q E := by
  rcases h with ⟨a, s, hact, h⟩ | ⟨e, s, hact, h⟩
  · exact .inl ⟨a, put s t, by simp [within, hact, Except.map, Except.mapError], h⟩
  · exact .inr ⟨cause e, put s t, by simp [within, hact, Except.map, Except.mapError], h⟩

theorem ensures_relabel {cause : ε → δ} {act : Action σ ε α} {Q : α → σ → Prop}
    (h : Ensures act s Q fun e t => E (cause e) t) : Ensures (act.relabel cause) s Q E := by
  rcases h with ⟨a, t, hact, h⟩ | ⟨e, t, hact, h⟩
  · exact .inl ⟨a, t, by simp [relabel, hact, Except.map, Except.mapError], h⟩
  · exact .inr ⟨cause e, t, by simp [relabel, hact, Except.map, Except.mapError], h⟩

theorem ensures_attempt {act : Action σ ε α} {Q : Except ε α → σ → Prop}
    (h : Ensures act s (fun a t => Q (.ok a) t) fun e t => Q (.error e) t) :
    Ensures (act.attempt : Action σ δ (Except ε α)) s Q E := by
  rcases h with ⟨a, t, hact, h⟩ | ⟨e, t, hact, h⟩
  · exact .inl ⟨.ok a, t, by simp [attempt, hact, Except.map], h⟩
  · exact .inl ⟨.error e, t, by simp [attempt, hact, Except.map], h⟩

end Embedding

section Loops

variable {s : σ} {E : ε → σ → Prop}

theorem ensures_forM_from {f : α → Action σ ε PUnit} {I : List α → σ → Prop} {xs : List α}
    (hf : ∀ done a rest, xs = done ++ a :: rest → ∀ t, I done t →
      Ensures (f a) t (fun _ t => I (done ++ [a]) t) E) :
    ∀ {rest done : List α} {s : σ}, xs = done ++ rest → I done s →
      Ensures (rest.forM f) s (fun _ t => I xs t) E
  | [], done, s, hxs, h => ensures_pure (by simpa [hxs] using h)
  | a :: rest, done, s, hxs, h => by
    show Ensures (f a >>= fun _ => rest.forM f) s _ E
    apply ensures_bind
    refine (hf done a rest hxs s h).imp (fun _ t ht => ?_)
    exact ensures_forM_from hf (by simpa using hxs) ht

theorem ensures_forM_inOrder {f : α → Action σ ε PUnit} {I : List α → σ → Prop} {xs : List α}
    (h : I [] s) (hf : ∀ done a rest, xs = done ++ a :: rest → ∀ t, I done t →
      Ensures (f a) t (fun _ t => I (done ++ [a]) t) E) :
    Ensures (xs.forM f) s (fun _ t => I xs t) E :=
  ensures_forM_from hf rfl h

theorem ensures_forM {f : α → Action σ ε PUnit} {I : List α → σ → Prop} {xs : List α} (h : I [] s)
    (hf : ∀ a ∈ xs, ∀ done t, I done t → Ensures (f a) t (fun _ t => I (done ++ [a]) t) E) :
    Ensures (xs.forM f) s (fun _ t => I xs t) E :=
  ensures_forM_inOrder h fun done a _ hxs => hf a (by simp [hxs]) done

theorem ensures_forM_invariant {f : α → Action σ ε PUnit} {I : σ → Prop} {xs : List α} (h : I s)
    (hf : ∀ a ∈ xs, ∀ t, I t → Ensures (f a) t (fun _ t => I t) E) :
    Ensures (xs.forM f) s (fun _ t => I t) E :=
  ensures_forM (I := fun _ t => I t) h fun a ha _ => hf a ha

theorem ensures_mapM_from {f : α → Action σ ε β} {I : List α → List β → σ → Prop} :
    ∀ (xs : List α) (seen : List α) (done : List β) {s : σ}, I seen done s →
      (∀ a ∈ xs, ∀ seen done t, I seen done t →
        Ensures (f a) t (fun b t => I (seen ++ [a]) (done ++ [b]) t) E) →
      Ensures (xs.mapM f) s (fun bs t => I (seen ++ xs) (done ++ bs) t) E
  | [], seen, done, s, h, _ => by
    rw [List.mapM_nil]
    exact ensures_pure (by simpa using h)
  | a :: xs, seen, done, s, h, hf => by
    rw [List.mapM_cons]
    apply ensures_bind
    refine (hf a List.mem_cons_self seen done s h).imp (fun b t hb => ?_)
    apply ensures_bind
    refine (ensures_mapM_from xs _ _ hb fun a' ha' => hf a' (List.mem_cons_of_mem _ ha')).imp
      (fun bs t' hbs => ?_)
    exact ensures_pure (by simpa using hbs)

theorem ensures_mapM {f : α → Action σ ε β} {I : List β → σ → Prop} {xs : List α} (h : I [] s)
    (hf : ∀ a ∈ xs, ∀ done t, I done t → Ensures (f a) t (fun b t => I (done ++ [b]) t) E) :
    Ensures (xs.mapM f) s (fun bs t => I bs t) E := by
  simpa using ensures_mapM_from (I := fun _ => I) xs [] [] h fun a ha _ => hf a ha

theorem ensures_mapM_forall₂ {f : α → Action σ ε β} {I : σ → Prop} {R : α → β → Prop}
    {xs : List α} (h : I s) (hf : ∀ a ∈ xs, ∀ t, I t → Ensures (f a) t (fun b t => R a b ∧ I t) E) :
    Ensures (xs.mapM f) s (fun bs t => List.Forall₂ R xs bs ∧ I t) E := by
  simpa using ensures_mapM_from (I := fun as bs t => List.Forall₂ R as bs ∧ I t) xs [] []
    ⟨.nil, h⟩ fun a ha _ _ t ht => (hf a ha t ht.2).imp fun _ _ hb =>
      ⟨List.rel_append ht.1 (.cons hb.1 .nil), hb.2⟩

theorem ensures_foldlM {f : β → α → Action σ ε β} {I : β → σ → Prop} :
    ∀ {xs : List α} {b : β} {s : σ}, I b s →
      (∀ a ∈ xs, ∀ b t, I b t → Ensures (f b a) t I E) →
      Ensures (xs.foldlM f b) s I E
  | [], b, s, h, _ => by
    rw [List.foldlM_nil]
    exact ensures_pure h
  | a :: xs, b, s, h, hf => by
    rw [List.foldlM_cons]
    apply ensures_bind
    refine (hf a List.mem_cons_self b s h).imp (fun b' t hb => ?_)
    exact ensures_foldlM hb fun a' ha' => hf a' (List.mem_cons_of_mem _ ha')

end Loops

def Runs (B : Prop) (act : Action σ ε α) (s : σ) (Q : α → σ → Prop) (E : ε → σ → Prop) : Prop :=
  Ensures act s Q E ∨ B ∧ ∃ b, act s = .error b

section Runs

variable {B : Prop} {s : σ} {act : Action σ ε α} {Q R : α → σ → Prop} {E F : ε → σ → Prop}

theorem Ensures.runs (h : Ensures act s Q E) : Runs B act s Q E :=
  .inl h

theorem Runs.mono (h : Runs B act s Q E) (hq : ∀ a t, Q a t → R a t)
    (he : ∀ e t, E e t → F e t) : Runs B act s R F :=
  h.imp_left fun h => h.mono hq he

theorem Runs.imp (h : Runs B act s Q E) (hq : ∀ a t, Q a t → R a t) : Runs B act s R E :=
  h.mono hq fun _ _ he => he

theorem Runs.result (h : Runs B act s Q E) {a : α} {t : σ} (hact : act s = .ok (.ok a, t)) :
    Q a t := by
  rcases h with h | ⟨-, b, hb⟩
  · exact h.result hact
  · simp [hact] at hb

theorem Runs.error (h : Runs B act s Q E) {e : ε} {t : σ} (hact : act s = .ok (.error e, t)) :
    E e t := by
  rcases h with h | ⟨-, b, hb⟩
  · exact h.error hact
  · simp [hact] at hb

theorem runs_bind {x : Action σ ε β} {f : β → Action σ ε α}
    (h : Runs B x s (fun b t => Runs B (f b) t Q E) E) : Runs B (x >>= f) s Q E := by
  rcases h with (⟨b, t, hx, h⟩ | ⟨e, t, hx, he⟩) | ⟨hB, b, hx⟩
  · have heq : (x >>= f) s = f b t := by rw [run_bind, hx]
    simpa only [Runs, Ensures, heq] using h
  · exact .inl (.inr ⟨e, t, by rw [run_bind, hx], he⟩)
  · exact .inr ⟨hB, b, by rw [run_bind, hx]⟩

theorem runs_within {part : τ → σ} {put : σ → τ → τ} {cause : ε → δ} {act : Action σ ε α}
    {t : τ} {Q : α → τ → Prop} {E : δ → τ → Prop}
    (h : Runs B act (part t) (fun a s => Q a (put s t)) fun e s => E (cause e) (put s t)) :
    Runs B (act.within part put cause) t Q E := by
  rcases h with h | ⟨hB, b, hb⟩
  · exact (ensures_within h).runs
  · exact .inr ⟨hB, b, by simp [within, hb, Except.map]⟩

theorem runs_discard {x : Action σ ε β} {Q : PUnit → σ → Prop}
    (h : Runs B x s (fun _ t => Q ⟨⟩ t) E) : Runs B (discard x) s Q E := by
  rcases h with h | ⟨hB, b, hb⟩
  · exact (ensures_discard h).runs
  · refine .inr ⟨hB, b, ?_⟩
    show ((fun _ => PUnit.unit) <$> x) s = _
    rw [map_eq_pure_bind, run_bind, hb]

end Runs

end Action

end ModelCompiler
