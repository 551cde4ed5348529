import ModelCompiler.Proofs.Store.Requests

/-!
Refused requests. Whether a request is refused, and with which error, can be told from the graph as
it stands: all checks come before the first write. So a refused request leaves the graph as it was,
down to the stamps and the slots to be given out next.
-/
open ModelCompiler.Action

namespace ModelCompiler

namespace Action

variable {σ ε α β : Type}

def Gated (act : Action σ ε α) (s : σ) : Option ε → Prop
  | some e => act s = .ok (.error e, s)
  | none => ∀ e t, act s ≠ .ok (.error e, t)

variable {s : σ} {x : Action σ ε β} {f : β → Action σ ε α} {refusal : Option ε}

theorem Gated.error_iff {act : Action σ ε α} (h : Gated act s refusal) {e : ε} {t : σ} :
    act s = .ok (.error e, t) ↔ refusal = some e ∧ t = s := by
  cases refusal with
  | none => simpa using h e t
  | some d =>
    simp only [Gated] at h
    simp only [h, Except.ok.injEq, Prod.mk.injEq, Except.error.injEq, Option.some.injEq, eq_comm]

theorem gated_pure {a : α} : Gated (pure a : Action σ ε α) s none := by
  intro e t h
  simp [pure, ExceptT.pure, ExceptT.mk, StateT.pure, Except.pure] at h

theorem gated_throw {e : ε} : Gated (throw e : Action σ ε α) s (some e) := rfl

theorem gated_write {w : σ → Except Breach (α × σ)} : Gated (write w : Action σ ε α) s none := by
  intro e t h
  cases hw : w s with
  | error b | ok r => simp [write, hw, Except.map] at h

theorem gated_bind (hx : Gated x s refusal)
    (hf : ∀ b t, x s = .ok (.ok b, t) → Gated (f b) t none) : Gated (x >>= f) s refusal := by
  cases refusal with
  | some e =>
    show (x >>= f) s = _
    rw [run_bind, show x s = _ from hx]
  | none =>
    intro e t
    rw [run_bind]
    rcases hrun : x s with b | ⟨e' | b, t'⟩
    · simp
    · exact absurd hrun (hx e' t')
    · exact hf b t' hrun e t

theorem gated_check {b : β} {after : Option ε} (hx : x s = .ok (.ok b, s))
    (hf : Gated (f b) s after) : Gated (x >>= f) s after := by
  have hrun : (x >>= f) s = f b s := by rw [run_bind, hx]
  cases after with
  | some e => exact hrun.trans hf
  | none => exact fun e t => hrun ▸ hf e t

theorem gated_or {b : β} {after : Option ε} (hx : x s = .ok (refusal.elim (.ok b) .error, s))
    (hf : Gated (f b) s after) : Gated (x >>= f) s (refusal.or after) := by
  cases refusal with
  | some e =>
    show (x >>= f) s = _
    rw [run_bind, hx]
    rfl
  | none => exact gated_check hx hf

theorem gated_forM {f : β → Action σ ε PUnit} (hf : ∀ b t, Gated (f b) t none) :
    ∀ (bs : List β) (s : σ), Gated (bs.forM f) s none := by
  intro bs
  induction bs with
  | nil => exact fun s => gated_pure
  | cons b bs ih => exact fun s => gated_bind (hf b s) fun _ t _ => ih t

end Action

namespace Graph

variable (g : Graph)

def classifierRefusal? (classifier : Option NodeId) : Option GraphError :=
  (classifier.filter (!g.contains ·)).map .nodeNotFound

/-- Of the paths around an element, the innermost that is taken has to be that of a package. -/
def packageRefusal? (enclosing : List Path) : Option GraphError :=
  match enclosing.find? fun path => (g.lookup path).isSome with
  | none => none
  | some path =>
    ((g.lookup path).filter (!g.isPackage ·)).map fun id =>
      .invalidPath path.text s!"'{g.describe id}' is not a package"

def elementRefusal? (classifier : Option NodeId) (path : Path) : Option GraphError :=
  if (g.lookup path).isSome then some (.duplicatePath path.text)
  else (g.classifierRefusal? classifier).or (g.packageRefusal? path.packages)

/-- The error with which a request is refused. -/
def refusal? : Request → Option GraphError
  | .createBootstrap spec =>
    match spec.path with
    | some path => g.elementRefusal? spec.classifier path
    | none => some (.invalidPath "" "bootstrap nodes need a path")
  | .createPersistent _ spec =>
    match spec.path with
    | some path => g.elementRefusal? spec.classifier path
    | none => g.classifierRefusal? spec.classifier
  | .createEphemeral owner spec =>
    match spec.path with
    | some path => some (.invalidPath path.text "ephemeral nodes are anonymous")
    | none =>
      (g.classifierRefusal? spec.classifier).or
        (if g.contains owner then none else some (.nodeNotFound owner))
  | .declareClassifier path generals =>
    match g.lookup Metamodel.class_ with
    | none => some (.invalidPath Metamodel.class_.text "no such element")
    | some kind =>
      ((generals.find? (!g.contains ·)).map .nodeNotFound).or (g.elementRefusal? (some kind) path)
  | .removeNodes ids =>
    match g.removalOrder [] ids with
    | .error e => some e
    | .ok order => order.findSome? (g.holder? order)
  | _ => none

end Graph

/-- The request is refused with `e` and leaves `g'`. Requests that write values are not refused. -/
def Request.Refused (g : Graph) (e : GraphError) (g' : Graph) : Request → Prop
  | .createBootstrap spec => Graph.createBootstrap spec g = .ok (.error e, g')
  | .createPersistent source spec => Graph.createPersistent source spec g = .ok (.error e, g')
  | .createEphemeral owner spec => Graph.createEphemeral owner spec g = .ok (.error e, g')
  | .declareClassifier path generals =>
    Graph.declareClassifier path generals g = .ok (.error e, g')
  | .removeNodes ids => Graph.removeNodes ids g = .ok (.error e, g')
  | _ => False

namespace Graph

variable {g : Graph}

theorem checkClassifier_eq (classifier : Option NodeId) :
    checkClassifier classifier g =
      .ok ((g.classifierRefusal? classifier).elim (.ok ()) .error, g) := by
  cases classifier with
  | none => rfl
  | some c =>
    have hrun : checkClassifier (some c) g =
        (if !g.contains c then throw (.nodeNotFound c) else pure () : Action Graph _ _) g := rfl
    rw [hrun]
    cases hc : g.contains c <;> simp only [classifierRefusal?, Option.filter_some, hc] <;> rfl

theorem gated_insertNode (spec : NodeSpec) (lifetime : Lifetime) :
    Gated (insertNode spec lifetime) g none := by
  intro e t h
  simp [insertNode_eq] at h

theorem gated_modify {ε : Type} {f : Graph → Graph} :
    Gated (modify f : Action Graph ε PUnit) g none := by
  intro e t h
  cases h

theorem packageRefusal?_cons (path : Path) (outer : List Path) :
    g.packageRefusal? (path :: outer) =
      match g.lookup path with
      | some id =>
        if g.isPackage id then none
        else some (.invalidPath path.text s!"'{g.describe id}' is not a package")
      | none => g.packageRefusal? outer := by
  unfold packageRefusal?
  cases hl : g.lookup path with
  | none => simp [hl]
  | some id => cases hp : g.isPackage id <;> simp [hl, hp]

theorem gated_ensurePackage (lifetime : Lifetime) : ∀ paths : List Path,
    Gated (ensurePackage lifetime paths) g (g.packageRefusal? paths) := by
  intro paths
  induction paths with
  | nil => exact gated_pure
  | cons path outer ih =>
    rw [packageRefusal?_cons]
    unfold ensurePackage
    refine gated_check rfl ?_
    cases hl : g.lookup path with
    | some id =>
      dsimp only
      split
      · exact gated_pure
      · exact gated_throw
    | none =>
      exact gated_bind ih fun parent t _ => gated_check rfl (gated_bind (gated_insertNode _ _)
        fun id t _ => gated_bind gated_modify fun _ t _ => gated_pure)

theorem gated_createElement (spec : NodeSpec) (path : Path) (lifetime : Lifetime) :
    Gated (createElement spec path lifetime) g (g.elementRefusal? spec.classifier path) := by
  unfold createElement elementRefusal?
  refine gated_check rfl ?_
  dsimp only
  by_cases htaken : (g.lookup path).isSome = true
  · rw [if_pos htaken, if_pos htaken]
    exact gated_bind gated_throw fun _ _ h => by cases h
  · rw [if_neg htaken, if_neg htaken]
    exact gated_or (checkClassifier_eq _) (gated_bind (gated_ensurePackage _ _) fun package t _ =>
      gated_bind (gated_insertNode _ _) fun id t _ => gated_bind gated_modify
      fun _ _ _ => gated_pure)

theorem gated_createBootstrap (spec : NodeSpec) :
    Gated (createBootstrap spec) g (g.refusal? (.createBootstrap spec)) := by
  simp only [createBootstrap, refusal?]
  cases spec.path with
  | some path => exact gated_createElement spec path _
  | none => exact gated_throw

theorem gated_createPersistent (source : SourceId) (spec : NodeSpec) :
    Gated (createPersistent source spec) g (g.refusal? (.createPersistent source spec)) := by
  simp only [createPersistent, refusal?]
  cases spec.path with
  | some path =>
    exact gated_bind (gated_createElement spec path _) fun id t _ =>
      gated_bind gated_modify fun _ _ _ => gated_pure
  | none =>
    dsimp only
    rw [← Option.or_none (o := g.classifierRefusal? spec.classifier)]
    exact gated_or (checkClassifier_eq _) (gated_bind (gated_insertNode _ _) fun id t _ =>
      gated_bind gated_modify fun _ _ _ => gated_pure)

theorem gated_createEphemeral (owner : NodeId) (spec : NodeSpec) :
    Gated (createEphemeral owner spec) g (g.refusal? (.createEphemeral owner spec)) := by
  simp only [createEphemeral, refusal?]
  cases spec.path with
  | some path => exact gated_bind gated_throw fun _ _ h => by cases h
  | none =>
    refine gated_or (checkClassifier_eq _) (gated_check rfl ?_)
    cases hn : g.node? owner with
    | none =>
      simp only [ownerRoot?, contains, hn]
      exact gated_throw
    | some n =>
      simp only [ownerRoot?, contains, hn]
      exact gated_bind (gated_insertNode _ _) fun id t _ =>
        gated_bind gated_modify fun _ _ _ => gated_pure

theorem require_eq (path : Path) : require path g =
    .ok ((g.lookup path).elim (.error (.invalidPath path.text "no such element")) .ok, g) := by
  have hrun : require path g = orMissing path.text (g.lookup path) g := rfl
  rw [hrun]
  cases g.lookup path <;> rfl

theorem gated_declareClassifier (path : Path) (generals : List NodeId) :
    Gated (declareClassifier path generals) g (g.refusal? (.declareClassifier path generals)) := by
  have hrequire := require_eq (g := g) Metamodel.class_
  simp only [declareClassifier, refusal?]
  cases hk : g.lookup Metamodel.class_ with
  | none =>
    rw [hk] at hrequire
    exact gated_bind hrequire fun _ _ h => by simp [hrequire] at h
  | some kind =>
    rw [hk] at hrequire
    refine gated_check hrequire (gated_check rfl ?_)
    cases generals.find? (!g.contains ·) with
    | some missing => exact gated_throw
    | none =>
      exact gated_bind (gated_createBootstrap _) fun id t _ =>
        gated_bind (gated_forM (fun _ _ => gated_write) generals t) fun _ _ _ => gated_pure

theorem gated_removeNodes (ids : List NodeId) :
    Gated (removeNodes ids) g (g.refusal? (.removeNodes ids)) := by
  simp only [removeNodes, refusal?]
  refine gated_check rfl ?_
  cases g.removalOrder [] ids with
  | error e => exact gated_throw
  | ok order =>
    dsimp only
    cases order.findSome? (g.holder? order) with
    | some e => exact gated_throw
    | none => exact gated_write

end Graph

/-- A request is refused exactly if one of the checks on the graph as it stands fails, with the
error of that check, and a refused request leaves the graph as it was. -/
theorem Request.refused_iff (g g' : Graph) (r : Request) (e : GraphError) :
    r.Refused g e g' ↔ g.refusal? r = some e ∧ g' = g := by
  cases r with
  | createBootstrap spec => exact (Graph.gated_createBootstrap spec).error_iff
  | createPersistent source spec => exact (Graph.gated_createPersistent source spec).error_iff
  | createEphemeral owner spec => exact (Graph.gated_createEphemeral owner spec).error_iff
  | declareClassifier path generals =>
    exact (Graph.gated_declareClassifier path generals).error_iff
  | removeNodes ids => exact (Graph.gated_removeNodes ids).error_iff
  | declareBackReference property | addValue id property value => simp [Refused, Graph.refusal?]
  | setValues id property values | removeValue id property value => simp [Refused, Graph.refusal?]
  | clearProperty id property => simp [Refused, Graph.refusal?]

example : Graph.initial.refusal? (.createPersistent "s"
    { path := some (.ofValid "String::a::b::C".toList (by decide)) }) =
      some (.invalidPath "String" "'String' is not a package") := by
  rw [Graph.spelledOut.2]
  decide +kernel

end ModelCompiler
