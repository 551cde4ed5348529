import ModelCompiler.ForkJoin
import ModelCompiler.Proofs.Actions

/-!
Actions that keep an invariant of the state.
-/
namespace ModelCompiler.Action

variable {σ τ ε δ α β : Type} {I : σ → Prop} {P Q : α → Prop} {R : β → Prop}

theorem exists_of_bind {x : Action σ ε α} {f : α → Action σ ε β} {s t : σ} {b : β}
    (h : (x >>= f) s = .ok (.ok b, t)) :
    ∃ a u, x s = .ok (.ok a, u) ∧ f a u = .ok (.ok b, t) := by
  rw [run_bind] at h
  rcases hx : x s with e | ⟨e | a, u⟩
  · simp [hx] at h
  · simp [hx] at h
  · exact ⟨a, u, rfl, by simpa [hx] using h⟩

/-- Wherever the action starts with the invariant and ends without a breach, the invariant holds. -/
def Maintains (I : σ → Prop) (act : Action σ ε α) (Q : α → Prop := fun _ => True) : Prop :=
  ∀ s r t, I s → act s = .ok (r, t) → I t ∧ ∀ a, r = .ok a → Q a

theorem Maintains.mono {act : Action σ ε α} (h : Maintains I act P) (hPQ : ∀ a, P a → Q a) :
    Maintains I act Q :=
  fun s r t hs hrun => ⟨(h s r t hs hrun).1, fun a ha => hPQ a ((h s r t hs hrun).2 a ha)⟩

theorem maintains_pure {a : α} (h : Q a) : Maintains I (pure a : Action σ ε α) Q := by
  rintro s r t hs ⟨⟩
  exact ⟨hs, fun b hb => Except.ok.inj hb ▸ h⟩

theorem maintains_throw (e : ε) : Maintains I (throw e : Action σ ε α) Q := by
  rintro s r t hs ⟨⟩
  exact ⟨hs, fun b hb => nomatch hb⟩

theorem maintains_get {Q : σ → Prop} (h : ∀ s, I s → Q s) : Maintains I (get : Action σ ε σ) Q := by
  rintro s r t hs ⟨⟩
  exact ⟨hs, fun b hb => Except.ok.inj hb ▸ h s hs⟩

theorem maintains_set {t : σ} (h : I t) : Maintains I (set t : Action σ ε PUnit) := by
  rintro s r t hs ⟨⟩
  exact ⟨h, fun _ _ => trivial⟩

theorem maintains_modify {f : σ → σ} (h : ∀ s, I s → I (f s)) :
    Maintains I (modify f : Action σ ε PUnit) := by
  rintro s r t hs ⟨⟩
  exact ⟨h s hs, fun _ _ => trivial⟩

theorem maintains_write {f : σ → Except Breach (α × σ)}
    (h : ∀ s a t, I s → f s = .ok (a, t) → I t) : Maintains I (write f : Action σ ε α) := by
  intro s r t hs hrun
  rcases hf : f s with b | ⟨a, t'⟩
  · simp [write, hf, Except.map] at hrun
  · obtain ⟨-, rfl⟩ : .ok a = r ∧ t' = t := by simpa [write, hf, Except.map] using hrun
    exact ⟨h s a t' hs hf, fun _ _ => trivial⟩

theorem maintains_bind {x : Action σ ε β} {f : β → Action σ ε α} (hx : Maintains I x R)
    (hf : ∀ b, R b → Maintains I (f b) Q) : Maintains I (x >>= f) Q := by
  intro s r t hs hrun
  rw [run_bind] at hrun
  rcases hact : x s with b | ⟨e | b, u⟩
  · simp [hact] at hrun
  · obtain ⟨rfl, rfl⟩ : .error e = r ∧ u = t := by simpa [hact] using hrun
    exact ⟨(hx s _ u hs hact).1, fun a ha => nomatch ha⟩
  · obtain ⟨hu, hb⟩ := hx s _ u hs hact
    exact hf b (hb b rfl) u r t hu (by simpa [hact] using hrun)

theorem maintains_get_bind {f : σ → Action σ ε α} (hf : ∀ s, I s → Maintains I (f s) Q) :
    Maintains I (get >>= f) Q :=
  maintains_bind (maintains_get fun _ h => h) hf

theorem maintains_when {p : Prop} [Decidable p] {x : Action σ ε PUnit} {f : PUnit → Action σ ε α}
    (hx : Maintains I x) (hf : ∀ u, Maintains I (f u) Q) :
    Maintains I (if p then x >>= f else f ⟨⟩) Q := by
  split
  · exact maintains_bind hx fun u _ => hf u
  · exact hf _

theorem maintains_discard {x : Action σ ε α} (hx : Maintains I x P) : Maintains I (discard x) := by
  show Maintains I ((fun _ => PUnit.unit) <$> x)
  rw [map_eq_pure_bind]
  exact maintains_bind hx fun _ _ => maintains_pure trivial

theorem maintains_attempt {act : Action σ ε α} (h : Maintains I act Q) :
    Maintains I (act.attempt : Action σ δ (Except ε α)) fun r => ∀ a, r = .ok a → Q a := by
  intro s r t hs hrun
  rcases hact : act s with b | ⟨r', t'⟩
  · simp [attempt, hact, Except.map] at hrun
  · obtain ⟨rfl, rfl⟩ : .ok r' = r ∧ t' = t := by simpa [attempt, hact, Except.map] using hrun
    obtain ⟨ht, hr⟩ := h s r' t' hs hact
    exact ⟨ht, fun a ha => Except.ok.inj ha ▸ hr⟩

theorem maintains_within {J : τ → Prop} {part : τ → σ} {put : σ → τ → τ} {cause : ε → δ}
    {act : Action σ ε α} (hpart : ∀ t, J t → I (part t)) (hput : ∀ s t, J t → I s → J (put s t))
    (h : Maintains I act Q) : Maintains J (act.within part put cause) Q := by
  intro t r t' ht hrun
  rcases hact : act (part t) with b | ⟨r', s⟩
  · simp [within, hact, Except.map] at hrun
  · obtain ⟨rfl, rfl⟩ : r'.mapError cause = r ∧ put s t = t' := by
      simpa [within, hact, Except.map] using hrun
    obtain ⟨hs, hr⟩ := h _ r' s (hpart t ht) hact
    refine ⟨hput s t ht hs, fun a ha => hr a ?_⟩
    cases r' with
    | error e => cases ha
    | ok b => exact congrArg _ (Except.ok.inj ha)

theorem maintains_forM {f : α → Action σ ε PUnit} : ∀ {xs : List α},
    (∀ a ∈ xs, Maintains I (f a)) → Maintains I (xs.forM f)
  | [], _ => maintains_pure trivial
  | a :: _, hf => maintains_bind (hf a List.mem_cons_self) fun _ _ =>
      maintains_forM fun b hb => hf b (List.mem_cons_of_mem _ hb)

theorem maintains_mapM {f : β → Action σ ε α} : ∀ {xs : List β},
    (∀ b ∈ xs, Maintains I (f b) Q) → Maintains I (xs.mapM f) fun as => ∀ a ∈ as, Q a
  | [], _ => maintains_pure (by simp)
  | b :: xs, hf => by
    rw [List.mapM_cons]
    refine maintains_bind (hf b List.mem_cons_self) fun a ha => maintains_bind
      (maintains_mapM fun c hc => hf c (List.mem_cons_of_mem _ hc)) fun as has => maintains_pure ?_
    exact List.forall_mem_cons.2 ⟨ha, has⟩

theorem maintains_foldlM {f : α → β → Action σ ε α} : ∀ {xs : List β} {a : α}, Q a →
    (∀ a, Q a → ∀ b ∈ xs, Maintains I (f a b) Q) → Maintains I (xs.foldlM f a) Q
  | [], _, ha, _ => maintains_pure ha
  | b :: _, a, ha, hf => maintains_bind (hf a ha b List.mem_cons_self) fun _ ha' =>
      maintains_foldlM ha' fun c hc d hd => hf c hc d (List.mem_cons_of_mem _ hd)

theorem maintains_poolMapM {f : β → Action σ ε α} (hf : ∀ b, Maintains I (f b) Q) (pool : Pool)
    (threshold : Nat) (xs : List β) :
    Maintains I (pool.mapM threshold f xs) fun as => ∀ a ∈ as, Q a := by
  refine maintains_bind (maintains_foldlM (Q := fun slots => ∀ a, some a ∈ slots → Q a) (by simp)
    fun slots hslots r _ => maintains_foldlM hslots fun slots hslots ⟨b, i⟩ _ => ?_)
    fun slots hslots => maintains_pure fun a ha => hslots a (by simpa using ha)
  refine maintains_bind (hf b) fun a ha => maintains_pure fun c hc => ?_
  rcases Array.mem_or_eq_of_mem_setIfInBounds hc with hc | hc
  · exact hslots c hc
  · exact Option.some.inj hc ▸ ha

end ModelCompiler.Action
