import ModelCompiler.Proofs.Actions

/-!
Pairs of runs. `Joint X Q x y` says that two writes both are a breach or both go through, with
results that `Q` relates.
-/
namespace ModelCompiler

variable {α β γ ζ : Type} {X : Prop}

inductive Joint (X : Prop) (Q : α → β → Prop) : Except Breach α → Except Breach β → Prop
  | breach {b b' : Breach} : (X → b' = b) → Joint X Q (.error b) (.error b')
  | ok {a : α} {b : β} : Q a b → Joint X Q (.ok a) (.ok b)

namespace Joint

variable {Q : α → β → Prop} {x : Except Breach α} {y : Except Breach β}

theorem bind {R : γ → ζ → Prop} {f : α → Except Breach γ} {g : β → Except Breach ζ}
    (h : Joint X Q x y) (hf : ∀ a b, x = .ok a → y = .ok b → Q a b → Joint X R (f a) (g b)) :
    Joint X R (x >>= f) (y >>= g) := by
  cases h with
  | breach hb => exact .breach hb
  | ok hab => exact hf _ _ rfl rfl hab

theorem imp {R : α → β → Prop} (h : Joint X Q x y)
    (hQ : ∀ a b, x = .ok a → y = .ok b → Q a b → R a b) : Joint X R x y := by
  cases h with
  | breach hb => exact .breach hb
  | ok hab => exact .ok (hQ _ _ rfl rfl hab)

theorem map {R : γ → ζ → Prop} {f : α → γ} {g : β → ζ} (h : Joint X Q x y)
    (hf : ∀ a b, Q a b → R (f a) (g b)) : Joint X R (x.map f) (y.map g) := by
  cases h with
  | breach hb => exact .breach hb
  | ok hab => exact .ok (hf _ _ hab)

theorem foldlM {ρ : γ → ζ} {f : α → γ → Except Breach α} {g : β → ζ → Except Breach β} :
    ∀ {cs : List γ} {a : α} {b : β}, Q a b →
      (∀ c ∈ cs, ∀ a b, Q a b → Joint X Q (f a c) (g b (ρ c))) →
      Joint X Q (cs.foldlM f a) ((cs.map ρ).foldlM g b)
  | [], _, _, h, _ => .ok h
  | c :: cs, a, b, h, hf => by
    rw [List.map_cons, List.foldlM_cons, List.foldlM_cons]
    exact (hf c List.mem_cons_self a b h).bind fun a' b' _ _ h' =>
      foldlM h' fun c hc => hf c (List.mem_cons_of_mem _ hc)

end Joint

namespace Action

variable {σ τ σ' τ' ε δ ε' δ' : Type}

inductive Paired (F : ε → δ → Prop) (Q : α → β → Prop) : Except ε α → Except δ β → Prop
  | error {e : ε} {e' : δ} : F e e' → Paired F Q (.error e) (.error e')
  | ok {a : α} {b : β} : Q a b → Paired F Q (.ok a) (.ok b)

/-- Two runs that end alike: in a breach, which is the same if `X` holds, or in answers that stand
for each other and in related states. -/
inductive Matched (X : Prop) (F : ε → δ → Prop) (Q : α → β → Prop) (R : σ → τ → Prop) :
    Except Breach (Except ε α × σ) → Except Breach (Except δ β × τ) → Prop
  | breach {b b' : Breach} : (X → b' = b) → Matched X F Q R (.error b) (.error b')
  | error {e : ε} {e' : δ} {s : σ} {t : τ} : F e e' → R s t →
      Matched X F Q R (.ok (.error e, s)) (.ok (.error e', t))
  | ok {a : α} {b : β} {s : σ} {t : τ} : Q a b → R s t →
      Matched X F Q R (.ok (.ok a, s)) (.ok (.ok b, t))

/-- The two runs fail alike or not at all, whatever values they return. -/
abbrev MatchedStates (X : Prop) (R : σ → τ → Prop) :
    Except Breach (Except ε α × σ) → Except Breach (Except ε β × τ) → Prop :=
  Matched X Eq (fun _ _ => True) R

section Rules

variable {F : ε → δ → Prop} {Q : α → β → Prop} {R S : σ → τ → Prop} {s : σ} {t : τ}
  {x : Action σ ε α} {y : Action τ δ β}

theorem Matched.mono {F' : ε → δ → Prop} {Q' : α → β → Prop} (h : Matched X F Q R (x s) (y t))
    (hF : ∀ e e' u v, x s = .ok (.error e, u) → y t = .ok (.error e', v) → F e e' → R u v →
      F' e e' ∧ S u v)
    (hQ : ∀ a b u v, x s = .ok (.ok a, u) → y t = .ok (.ok b, v) → Q a b → R u v →
      Q' a b ∧ S u v) : Matched X F' Q' S (x s) (y t) := by
  generalize x s = left at *
  generalize y t = right at *
  cases h with
  | breach hb => exact .breach hb
  | error he hR =>
    obtain ⟨he', hS⟩ := hF _ _ _ _ rfl rfl he hR
    exact .error he' hS
  | ok ha hR =>
    obtain ⟨ha', hS⟩ := hQ _ _ _ _ rfl rfl ha hR
    exact .ok ha' hS

theorem matched_self {Q : α → α → Prop} {R : σ → σ → Prop} (hQ : ∀ a, Q a a) (hR : ∀ s, R s s)
    (x : Action σ ε α) (s : σ) : Matched X Eq Q R (x s) (x s) := by
  rcases x s with b | ⟨e | a, t⟩
  · exact .breach fun _ => rfl
  · exact .error rfl (hR t)
  · exact .ok (hQ a) (hR t)

theorem matched_of_eq {a : α} {b : β} {u : σ} {v : τ} (hx : x s = .ok (.ok a, u))
    (hy : y t = .ok (.ok b, v)) (hQ : Q a b) (hR : R u v) : Matched X F Q R (x s) (y t) := by
  rw [hx, hy]
  exact .ok hQ hR

theorem matched_pure {a : α} {b : β} (hQ : Q a b) (hR : R s t) :
    Matched X F Q R ((pure a : Action σ ε α) s) ((pure b : Action τ δ β) t) :=
  .ok hQ hR

theorem matched_throw {e : ε} {e' : δ} (hF : F e e') (hR : R s t) :
    Matched X F Q R ((throw e : Action σ ε α) s) ((throw e' : Action τ δ β) t) :=
  .error hF hR

theorem Matched.bind {P : γ → ζ → Prop} {f : α → Action σ ε γ} {g : β → Action τ δ ζ}
    (h : Matched X F Q R (x s) (y t)) (hRS : ∀ e e' u v, x s = .ok (.error e, u) →
      y t = .ok (.error e', v) → F e e' → R u v → S u v)
    (hf : ∀ a b u v, x s = .ok (.ok a, u) → y t = .ok (.ok b, v) → Q a b → R u v →
      Matched X F P S (f a u) (g b v)) : Matched X F P S ((x >>= f) s) ((y >>= g) t) := by
  rw [run_bind, run_bind]
  generalize x s = left at *
  generalize y t = right at *
  cases h with
  | breach hb => exact .breach hb
  | error he hR => exact .error he (hRS _ _ _ _ rfl rfl he hR)
  | ok ha hR => exact hf _ _ _ _ rfl rfl ha hR

theorem Matched.seq {P : γ → ζ → Prop} {f : α → Action σ ε γ} {g : β → Action τ δ ζ}
    (h : Matched X F Q R (x s) (y t))
    (hf : ∀ a b u v, Q a b → R u v → Matched X F P R (f a u) (g b v)) :
    Matched X F P R ((x >>= f) s) ((y >>= g) t) :=
  h.bind (fun _ _ _ _ _ _ _ hR => hR) fun a b u v _ _ ha hR => hf a b u v ha hR

theorem matched_get {f : σ → Action σ ε α} {g : τ → Action τ δ β}
    (h : Matched X F Q R (f s s) (g t t)) :
    Matched X F Q R ((get >>= f : Action σ ε α) s) ((get >>= g : Action τ δ β) t) :=
  h

theorem matched_modify {Q : PUnit → PUnit → Prop} {f : σ → σ} {g : τ → τ} (hQ : Q ⟨⟩ ⟨⟩)
    (hR : R (f s) (g t)) :
    Matched X F Q R ((modify f : Action σ ε PUnit) s) ((modify g : Action τ δ PUnit) t) :=
  .ok hQ hR

theorem matched_write {f : σ → Except Breach (α × σ)} {g : τ → Except Breach (β × τ)}
    (h : Joint X (fun a b => Q a.1 b.1 ∧ R a.2 b.2) (f s) (g t)) :
    Matched X F Q R ((write f : Action σ ε α) s) ((write g : Action τ δ β) t) := by
  unfold write
  generalize f s = left at *
  generalize g t = right at *
  cases h with
  | breach hb => exact .breach hb
  | ok hab => exact .ok hab.1 hab.2

theorem Matched.discard (h : Matched X F Q R (x s) (y t)) :
    Matched X F (fun _ _ => True) R ((Functor.discard x : Action σ ε PUnit) s)
      ((Functor.discard y : Action τ δ PUnit) t) := by
  change Matched X F (fun _ _ => True) R ((x >>= fun _ => pure ⟨⟩ : Action σ ε PUnit) s)
    ((y >>= fun _ => pure ⟨⟩ : Action τ δ PUnit) t)
  exact h.seq fun _ _ _ _ _ hR => matched_pure trivial hR

theorem Matched.attempt {F' : ε' → δ' → Prop} (h : Matched X F Q R (x s) (y t)) :
    Matched X F' (Paired F Q) R ((x.attempt : Action σ ε' (Except ε α)) s)
      ((y.attempt : Action τ δ' (Except δ β)) t) := by
  unfold Action.attempt
  generalize x s = left at *
  generalize y t = right at *
  cases h with
  | breach hb => exact .breach hb
  | error he hR => exact .ok (.error he) hR
  | ok ha hR => exact .ok (.ok ha) hR

theorem Matched.within {F' : ε' → δ' → Prop} {R' : σ' → τ' → Prop} {part : σ' → σ}
    {put : σ → σ' → σ'} {part' : τ' → τ} {put' : τ → τ' → τ'} {cause : ε → ε'} {cause' : δ → δ'}
    {u : σ'} {v : τ'} (h : Matched X F Q R (x (part u)) (y (part' v)))
    (hF : ∀ e e', F e e' → F' (cause e) (cause' e')) (hR : ∀ s t, R s t → R' (put s u) (put' t v)) :
    Matched X F' Q R' (x.within part put cause u) (y.within part' put' cause' v) := by
  unfold Action.within
  generalize x (part u) = left at *
  generalize y (part' v) = right at *
  cases h with
  | breach hb => exact .breach hb
  | error he hst => exact .error (hF _ _ he) (hR _ _ hst)
  | ok ha hst => exact .ok ha (hR _ _ hst)

end Rules

section Loops

variable {F : ε → δ → Prop} {R : σ → τ → Prop} {ρ : γ → ζ}

theorem matched_forM {f : γ → Action σ ε PUnit} {g : ζ → Action τ δ PUnit} :
    ∀ {cs : List γ} {s : σ} {t : τ}, R s t →
      (∀ c ∈ cs, ∀ s t, R s t → Matched X F (fun _ _ => True) R (f c s) (g (ρ c) t)) →
      Matched X F (fun _ _ => True) R (cs.forM f s) ((cs.map ρ).forM g t)
  | [], _, _, hR, _ => matched_pure trivial hR
  | c :: _, s, t, hR, hf =>
    (hf c List.mem_cons_self s t hR).seq fun _ _ _ _ _ hR' =>
      matched_forM hR' fun c hc => hf c (List.mem_cons_of_mem _ hc)

theorem matched_forM_same {f : γ → Action σ ε PUnit} {g : γ → Action τ δ PUnit}
    {cs : List γ} {s : σ} {t : τ} (hR : R s t)
    (hf : ∀ c ∈ cs, ∀ s t, R s t → Matched X F (fun _ _ => True) R (f c s) (g c t)) :
    Matched X F (fun _ _ => True) R (cs.forM f s) (cs.forM g t) := by
  have h := matched_forM (ρ := fun c => c) hR hf
  rwa [List.map_id'] at h

theorem matched_mapM {Q : α → β → Prop} {f : γ → Action σ ε α} {g : ζ → Action τ δ β} :
    ∀ {cs : List γ} {s : σ} {t : τ}, R s t →
      (∀ c ∈ cs, ∀ s t, R s t → Matched X F Q R (f c s) (g (ρ c) t)) →
      Matched X F (List.Forall₂ Q) R (cs.mapM f s) ((cs.map ρ).mapM g t)
  | [], s, t, hR, _ => by
    rw [List.map_nil, List.mapM_nil, List.mapM_nil]
    exact matched_pure .nil hR
  | c :: cs, s, t, hR, hf => by
    rw [List.map_cons, List.mapM_cons, List.mapM_cons]
    exact (hf c List.mem_cons_self s t hR).seq fun _ _ _ _ ha hR' =>
      (matched_mapM hR' fun c hc => hf c (List.mem_cons_of_mem _ hc)).seq fun _ _ _ _ has hR'' =>
        matched_pure (.cons ha has) hR''

end Loops

end Action

end ModelCompiler
