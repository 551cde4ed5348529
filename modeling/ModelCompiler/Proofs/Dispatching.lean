import ModelCompiler.Registry
import ModelCompiler.Proofs.Store.Initial

/-!
Which handler a node has.
-/
open ModelCompiler.Action

namespace ModelCompiler

namespace Lineage

variable {α β : Type} {l : Lineage}

theorem run_bind_of_ok {q : Query α} {f : α → Query β} {a : α} (h : (q.run.run l).1 = .ok a) :
    ((q >>= f).run.run l).1 = ((f a).run.run (q.run.run l).2).1 := by
  have hrun : (q >>= f).run.run l =
      (ExceptT.bindCont f (q.run.run l).1).run (q.run.run l).2 := rfl
  rw [hrun, h]
  rfl

theorem run_bind_of_error {q : Query α} {f : α → Query β} {e : CompileError}
    (h : (q.run.run l).1 = .error e) : ((q >>= f).run.run l).1 = .error e := by
  have hrun : (q >>= f).run.run l =
      (ExceptT.bindCont f (q.run.run l).1).run (q.run.run l).2 := rfl
  rw [hrun, h]
  rfl

theorem run_map (q : Query α) (f : α → β) :
    ((do return f (← q) : Query β).run.run l).1 = (q.run.run l).1.map f := by
  cases hq : (q.run.run l).1 with
  | ok a => exact run_bind_of_ok hq
  | error e => exact run_bind_of_error hq

theorem run_ok_of_bind {q : Query α} {f : α → Query β} {b : β}
    (h : ((q >>= f).run.run l).1 = .ok b) : ∃ a, (q.run.run l).1 = .ok a := by
  cases hq : (q.run.run l).1 with
  | ok a => exact ⟨a, rfl⟩
  | error e =>
    rw [run_bind_of_error hq] at h
    cases h

end Lineage

namespace PhaseHandler

def default : Phase → PhaseHandler
  | .bind => .bind .idle
  | .process => .process .idle
  | .validate => .validate .idle
  | .unbind => .unbind .strip
  | .walk => .walk .users

end PhaseHandler

def Phase.isDemanding : Phase → Bool
  | .bind | .process => true
  | _ => false

namespace Dispatch

open Lineage (Query run_bind_of_ok run_map)

def registerAll (d : Dispatch) (entries : List (Path × PhaseHandler)) :
    Except CompileError Dispatch :=
  entries.foldlM (fun d e => d.register e.1 e.2) d

def handler? (d : Dispatch) : Phase → Path → Option PhaseHandler
  | .bind, p => (d.binders.find? p).map .bind
  | .process, p => (d.processors.find? p).map .process
  | .validate, p => (d.validators.find? p).map .validate
  | .unbind, p => (d.unbinders.find? p).map .unbind
  | .walk, p => (d.walkers.find? p).map .walk

def handlerOf (d : Dispatch) (g : Graph) (id : NodeId) : Phase → Query (PhaseHandler × Origin)
  | .bind => return (← d.binder g id).map .bind fun o => o
  | .process => return (← d.processor g id).map .process fun o => o
  | .validate => return (← d.validator g id).map .validate fun o => o
  | .unbind => return (← d.unbinder g id).map .unbind fun o => o
  | .walk => return (← d.walker g id).map .walk fun o => o

section Registering

variable {d d' : Dispatch} {p q : Path} {h k : PhaseHandler} {phase : Phase}

theorem isRegistered_iff : d.isRegistered phase p = true ↔ ∃ h, d.handler? phase p = some h := by
  rw [isRegistered, decide_eq_true_iff]
  cases phase <;> simp [registered, handler?, Table.mem_keys_iff]

theorem register_refused_iff {e : CompileError} : d.register p h = .error e ↔
    e = .duplicateRegistration h.phase.name p.text ∧ ∃ k, d.handler? h.phase p = some k := by
  unfold register
  split
  · rename_i hr
    have hk := isRegistered_iff.1 hr
    simp only [Except.error.injEq, hk, and_true]
    exact eq_comm
  · rename_i hr
    rw [isRegistered_iff] at hr
    simp [hr]

theorem handler?_register (hr : d.register p h = .ok d') : d'.handler? phase q =
    if h.phase = phase ∧ q = p then some h else d.handler? phase q := by
  unfold register at hr
  split at hr
  · cases hr
  · obtain rfl := Except.ok.inj hr
    cases h <;> cases phase <;>
      simp [handler?, PhaseHandler.phase, Table.find?_insert, apply_ite (Option.map _)]

theorem handler?_registerAll : ∀ {entries : List (Path × PhaseHandler)} {d : Dispatch},
    d.registerAll entries = .ok d' → ∀ {phase : Phase} {p : Path} {h : PhaseHandler},
      d'.handler? phase p = some h ↔
        d.handler? phase p = some h ∨ h.phase = phase ∧ (p, h) ∈ entries
  | [], d, hd, phase, p, h => by
    obtain rfl := Except.ok.inj hd
    simp
  | (q, k) :: entries, d, hd, phase, p, h => by
    rw [registerAll, List.foldlM_cons] at hd
    cases hr : d.register q k with
    | error e =>
      rw [hr] at hd
      cases hd
    | ok d₁ =>
      rw [hr] at hd
      rw [handler?_registerAll hd, handler?_register hr, List.mem_cons]
      have hnew : d.handler? k.phase q = none := by
        cases hk : d.handler? k.phase q with
        | none => rfl
        | some k' =>
          have := register_refused_iff.2 ⟨rfl, k', hk⟩
          rw [hr] at this
          cases this
      by_cases hp : k.phase = phase ∧ p = q
      · obtain ⟨rfl, rfl⟩ := hp
        rw [if_pos ⟨rfl, rfl⟩, hnew, Option.some.injEq, Prod.mk.injEq]
        constructor
        · rintro (rfl | h)
          · exact .inr ⟨rfl, .inl ⟨rfl, rfl⟩⟩
          · exact .inr ⟨h.1, .inr h.2⟩
        · rintro (h | ⟨hph, ⟨-, rfl⟩ | h⟩)
          · cases h
          · exact .inl rfl
          · exact .inr ⟨hph, h⟩
      · rw [if_neg hp, Prod.mk.injEq]
        constructor
        · exact Or.imp_right (And.imp_right .inr)
        · rintro (h | ⟨hph, ⟨rfl, rfl⟩ | h⟩)
          · exact .inl h
          · exact absurd ⟨hph, rfl⟩ hp
          · exact .inr ⟨hph, h⟩

end Registering

section Choice

variable {η θ : Type} {g : Graph} {id : NodeId} {l : Lineage} {order : List NodeId}

inductive Candidates (g : Graph) (l : Lineage) (id : NodeId) : List NodeId → Prop
  | unclassified : g.classifier? id = none → Candidates g l id []
  | classified {c : NodeId} {as : List NodeId} : g.classifier? id = some c →
      ((Lineage.ancestors g c).run.run l).1 = .ok as → Candidates g l id (c :: as)

def pick (f : Path → Option η) (g : Graph) (x : NodeId) : Option (η × Path) :=
  g.path? x >>= fun p => (f p).map (·, p)

def choice (f : Path → Option η) (g : Graph) : List NodeId → Option (η × Origin)
  | [] => none
  | c :: as =>
    match pick f g c with
    | some (h, p) => some (h, .exact p)
    | none => (as.findSome? (pick f g)).map fun (h, p) => (h, .ancestor p)

section Pick

variable {f f' : Path → Option η} {x : NodeId} {h : η} {o : Origin} {p : Path}

theorem pick_eq_some_iff : pick f g x = some (h, p) ↔ g.path? x = some p ∧ f p = some h := by
  unfold pick
  cases g.path? x with
  | none => simp
  | some q =>
    simp only [Option.bind_eq_bind, Option.bind_some, Option.map_eq_some_iff, Prod.mk.injEq,
      Option.some.injEq]
    constructor
    · rintro ⟨b, hb, rfl, rfl⟩
      exact ⟨rfl, hb⟩
    · rintro ⟨rfl, hh⟩
      exact ⟨h, hh, rfl, rfl⟩

theorem pick_eq_none_iff : pick f g x = none ↔ ∀ p, g.path? x = some p → f p = none := by
  unfold pick
  cases g.path? x <;> simp

theorem pick_congr (h : ∀ p, g.path? x = some p → f p = f' p) : pick f g x = pick f' g x := by
  unfold pick
  cases hp : g.path? x with
  | none => rfl
  | some p => simp [h p hp]

theorem handlerAt?_eq_pick (table : Table Path η) (x : NodeId) :
    handlerAt? table g x = pick table.find? g x := by
  unfold handlerAt? pick
  cases g.path? x with
  | none => rfl
  | some p => cases hf : table.find? p <;> simp [hf]

theorem choice_eq_some_iff : choice f g order = some (h, o) ↔ ∃ before x after p,
    order = before ++ x :: after ∧ (∀ y ∈ before, pick f g y = none) ∧ pick f g x = some (h, p) ∧
      o = if before = [] then .exact p else .ancestor p := by
  cases order with
  | nil => simp [choice]
  | cons c as =>
    simp only [choice]
    constructor
    · cases hc : pick f g c with
      | some r =>
        intro he
        obtain ⟨rfl, rfl⟩ := Prod.mk.inj (Option.some.inj he)
        exact ⟨[], c, as, r.2, rfl, by simp, hc, rfl⟩
      | none =>
        intro he
        obtain ⟨r, hr, he⟩ := Option.map_eq_some_iff.1 he
        obtain ⟨rfl, rfl⟩ := Prod.mk.inj he
        obtain ⟨before, x, after, rfl, hx, hbefore⟩ := List.findSome?_eq_some_iff.1 hr
        exact ⟨c :: before, x, after, r.2, rfl, List.forall_mem_cons.2 ⟨hc, hbefore⟩, hx, rfl⟩
    · rintro ⟨before, x, after, p, horder, hbefore, hx, rfl⟩
      cases before with
      | nil =>
        obtain ⟨rfl, rfl⟩ := List.cons.inj horder
        rw [hx]
        rfl
      | cons y before =>
        rw [List.cons_append] at horder
        obtain ⟨rfl, rfl⟩ := List.cons.inj horder
        obtain ⟨hy, hbefore⟩ := List.forall_mem_cons.1 hbefore
        have hfound := List.findSome?_eq_some_iff.2 ⟨before, x, after, rfl, hx, hbefore⟩
        simp only [hy, hfound]
        rfl

theorem choice_eq_none_iff : choice f g order = none ↔ ∀ x ∈ order, pick f g x = none := by
  cases order with
  | nil => simp [choice]
  | cons c as =>
    cases hc : pick f g c with
    | none | some r => simp [choice, hc]

theorem choice_congr (h : ∀ x ∈ order, ∀ p, g.path? x = some p → f p = f' p) :
    choice f g order = choice f' g order := by
  cases order with
  | nil => rfl
  | cons c as =>
    have hrest : as.findSome? (pick f g) = as.findSome? (pick f' g) := by
      have hpick := fun a ha => pick_congr (h a (List.mem_cons_of_mem c ha))
      clear h
      induction as with
      | nil => rfl
      | cons a as ih =>
        rw [List.findSome?_cons, List.findSome?_cons, hpick a List.mem_cons_self,
          ih fun b hb => hpick b (List.mem_cons_of_mem a hb)]
    simp only [choice, pick_congr (h c List.mem_cons_self), hrest]

theorem choice_map (f : Path → Option η) (k : η → θ) :
    choice (fun p => (f p).map k) g order = (choice f g order).map (Prod.map k fun o => o) := by
  have hpick (x : NodeId) : pick (fun p => (f p).map k) g x =
      (pick f g x).map (Prod.map k fun p => p) := by
    unfold pick
    cases g.path? x with
    | none => rfl
    | some p => cases hf : f p <;> simp [hf]
  cases order with
  | nil => rfl
  | cons c as =>
    have hrest : as.findSome? (pick (fun p => (f p).map k) g) =
        (as.findSome? (pick f g)).map (Prod.map k fun p => p) := by
      rw [List.map_findSome?]
      exact congrArg (as.findSome? ·) (funext hpick)
    simp only [choice, hpick, hrest]
    cases pick f g c with
    | some r => rfl
    | none => cases as.findSome? (pick f g) <;> rfl

end Pick

theorem find_eq_choice (table : Table Path η) (hc : Candidates g l id order) :
    ((find table g id).run.run l).1 = .ok (match choice table.find? g order with
      | some (h, o) => (some h, o)
      | none => (none, .default)) := by
  have hat : handlerAt? table g = pick table.find? g := funext fun x => handlerAt?_eq_pick table x
  unfold find
  cases hc with
  | unclassified hcl =>
    rw [hcl]
    rfl
  | @classified c as hcl has =>
    simp only [hcl, hat]
    split
    · rename_i hempty
      have hnone : choice table.find? g (c :: as) = none := by
        refine choice_eq_none_iff.2 fun x _ => pick_eq_none_iff.2 fun p _ => ?_
        rw [Table.find?, List.isEmpty_iff.1 hempty]
        rfl
      rw [hnone]
      rfl
    · cases hp : pick table.find? g c with
      | some r =>
        simp only [choice, hp]
        rfl
      | none =>
        simp only [choice, hp]
        rw [run_bind_of_ok has]
        cases as.findSome? (pick table.find? g) <;> rfl

/-- What a choice comes to: in a phase that demands a handler, an element of a source does not get
the default. -/
def settle (phase : Phase) (g : Graph) (id : NodeId) (default : η) :
    Option (η × Origin) → Except CompileError (η × Origin)
  | some r => .ok r
  | none =>
    if phase.isDemanding && (g.node? id).any (·.lifetime.isPersistent) then
      .error (unrecognized g phase id)
    else .ok (default, .default)

section Tables

variable (table : Table Path η) (k : η → PhaseHandler) (default : η)

theorem find_origin (hc : Candidates g l id order) :
    ((do return (← find table g id).2 : Query Origin).run.run l).1 =
      .ok (match choice (fun p => (table.find? p).map k) g order with
        | some (_, o) => o
        | none => .default) := by
  rw [run_bind_of_ok (find_eq_choice table hc), choice_map]
  cases choice table.find? g order <;> rfl

theorem find_or_default {phase : Phase} (hp : phase.isDemanding = false)
    (hc : Candidates g l id order) :
    ((do return orDefault default (← find table g id) : Query (η × Origin)).run.run l).1 =
      settle phase g id default (choice table.find? g order) := by
  rw [run_bind_of_ok (find_eq_choice table hc)]
  cases choice table.find? g order with
  | some r => rfl
  | none =>
    simp only [settle, hp, Bool.false_and, Bool.false_eq_true, if_false]
    rfl

theorem find_or_demand {phase : Phase} (hp : phase.isDemanding = true)
    (hc : Candidates g l id order) :
    ((do orDemand phase default g id (← find table g id) : Query (η × Origin)).run.run l).1 =
      settle phase g id default (choice table.find? g order) := by
  rw [run_bind_of_ok (find_eq_choice table hc)]
  cases choice table.find? g order with
  | some r => rfl
  | none =>
    simp only [settle, hp, Bool.true_and, orDemand]
    cases hn : g.node? id with
    | none => rfl
    | some n => cases hl : n.lifetime.isPersistent <;> simp [hl] <;> rfl

theorem settle_map {phase : Phase} {q : Query (η × Origin)}
    (hq : (q.run.run l).1 = settle phase g id default (choice table.find? g order)) :
    ((do return (← q).map k fun o => o : Query (PhaseHandler × Origin)).run.run l).1 =
      settle phase g id (k default) (choice (fun p => (table.find? p).map k) g order) := by
  refine (run_map _ _).trans ?_
  rw [hq, choice_map]
  cases choice table.find? g order with
  | some r => rfl
  | none =>
    simp only [settle, Option.map_none]
    split <;> rfl

end Tables

variable {d : Dispatch} {phase : Phase}

theorem origin_eq_choice (hc : Candidates g l id order) : ((d.origin phase g id).run.run l).1 =
    .ok (match choice (d.handler? phase) g order with
      | some (_, o) => o
      | none => .default) := by
  cases phase with
  | bind => exact find_origin d.binders .bind hc
  | process => exact find_origin d.processors .process hc
  | validate => exact find_origin d.validators .validate hc
  | unbind => exact find_origin d.unbinders .unbind hc
  | walk => exact find_origin d.walkers .walk hc

theorem handlerOf_eq_choice (hc : Candidates g l id order) :
    ((d.handlerOf g id phase).run.run l).1 =
      settle phase g id (.default phase) (choice (d.handler? phase) g order) := by
  cases phase with
  | bind => exact settle_map _ .bind _ (find_or_demand d.binders .idle rfl hc)
  | process => exact settle_map _ .process _ (find_or_demand d.processors .idle rfl hc)
  | validate => exact settle_map _ .validate _ (find_or_default d.validators .idle rfl hc)
  | unbind => exact settle_map _ .unbind _ (find_or_default d.unbinders .strip rfl hc)
  | walk => exact settle_map _ .walk _ (find_or_default d.walkers .users rfl hc)

end Choice

section Registrations

variable {entries entries' : List (Path × PhaseHandler)} {d d' : Dispatch} {g : Graph}
  {phase : Phase} {x : NodeId} {p : Path} {h : PhaseHandler}

def Handles (entries : List (Path × PhaseHandler)) (phase : Phase) (g : Graph) (x : NodeId)
    (p : Path) (h : PhaseHandler) : Prop :=
  g.path? x = some p ∧ h.phase = phase ∧ (p, h) ∈ entries

theorem handler?_eq_some_iff (hd : registerAll {} entries = .ok d) :
    d.handler? phase p = some h ↔ h.phase = phase ∧ (p, h) ∈ entries := by
  rw [handler?_registerAll hd]
  have : ({} : Dispatch).handler? phase p = none := by cases phase <;> rfl
  simp [this]

theorem pick_handler?_iff (hd : registerAll {} entries = .ok d) :
    pick (d.handler? phase) g x = some (h, p) ↔ Handles entries phase g x p h := by
  rw [pick_eq_some_iff, handler?_eq_some_iff hd]
  rfl

theorem pick_handler?_eq_none_iff (hd : registerAll {} entries = .ok d) :
    pick (d.handler? phase) g x = none ↔ ∀ p h, ¬ Handles entries phase g x p h := by
  simp only [← pick_handler?_iff hd]
  cases pick (d.handler? phase) g x with
  | none => simp
  | some r => simpa using ⟨r.2, r.1, rfl⟩

theorem registerHandler_refused {r r' : Registry} {classifier : String} {e : CompileError}
    (hr : Registry.registerHandler classifier h r = .ok (.error e, r')) : r' = r := by
  have h' : Ensures (Registry.registerHandler classifier h) r (fun _ _ => True)
      fun _ t => t = r := by
    unfold Registry.registerHandler Registry.readPath
    cases Path.parse classifier with
    | error e => exact ensures_bind (ensures_throw rfl)
    | ok p =>
      refine ensures_bind (ensures_pure (ensures_get_bind ?_))
      cases r.dispatch.register p h with
      | ok d => exact ensures_modify trivial
      | error e => exact ensures_throw rfl
  exact h'.error hr

/-- The outcome of dispatch depends on the registrations for the candidates alone, and the first
candidate that has one decides; a registration that is refused has no influence. -/
theorem dispatch_by_candidates (hd : registerAll {} entries = .ok d)
    (hd' : registerAll {} entries' = .ok d') {l l' : Lineage} {id : NodeId} {order : List NodeId}
    (hc : Candidates g l id order) (hc' : Candidates g l' id order) (phase : Phase)
    (hsame : ∀ x ∈ order, ∀ p h, Handles entries phase g x p h ↔ Handles entries' phase g x p h) :
    (((d.origin phase g id).run.run l).1 = ((d'.origin phase g id).run.run l').1 ∧
      ((d.handlerOf g id phase).run.run l).1 = ((d'.handlerOf g id phase).run.run l').1) ∧
    (∀ before x after p h, order = before ++ x :: after →
      (∀ y ∈ before, ∀ q k, ¬ Handles entries phase g y q k) → Handles entries phase g x p h →
      ((d.origin phase g id).run.run l).1 =
          .ok (if before = [] then .exact p else .ancestor p) ∧
        ((d.handlerOf g id phase).run.run l).1 =
          .ok (h, if before = [] then .exact p else .ancestor p)) ∧
    ((∀ x ∈ order, ∀ p h, ¬ Handles entries phase g x p h) →
      ((d.origin phase g id).run.run l).1 = .ok .default ∧
        ((d.handlerOf g id phase).run.run l).1 =
          if phase.isDemanding && (g.node? id).any (·.lifetime.isPersistent) then
            .error (unrecognized g phase id)
          else .ok (.default phase, .default)) ∧
    (∀ p h, (∃ e, d.register p h = .error e) ↔ ∃ k, k.phase = h.phase ∧ (p, k) ∈ entries) ∧
    ∀ (r r' : Registry) classifier handler e, r.dispatch = d →
      Registry.registerHandler classifier handler r = .ok (.error e, r') → r'.dispatch = d := by
  have hchoice : choice (d.handler? phase) g order = choice (d'.handler? phase) g order := by
    refine choice_congr fun x hx p hp => Option.ext fun h => ?_
    have := hsame x hx p h
    rw [Handles, Handles, and_iff_right hp, and_iff_right hp, ← handler?_eq_some_iff hd,
      ← handler?_eq_some_iff hd'] at this
    exact this
  refine ⟨⟨?_, ?_⟩, fun before x after p h horder hbefore hx => ?_, fun hnone => ?_, fun p h => ?_,
    fun r r' classifier handler e hr href => ?_⟩
  · rw [origin_eq_choice hc, origin_eq_choice hc', hchoice]
  · rw [handlerOf_eq_choice hc, handlerOf_eq_choice hc', hchoice]
  · have : choice (d.handler? phase) g order =
        some (h, if before = [] then .exact p else .ancestor p) :=
      choice_eq_some_iff.2 ⟨before, x, after, p, horder,
        fun y hy => (pick_handler?_eq_none_iff hd).2 (hbefore y hy),
        (pick_handler?_iff hd).2 hx, rfl⟩
    rw [origin_eq_choice hc, handlerOf_eq_choice hc, this]
    exact ⟨rfl, rfl⟩
  · have : choice (d.handler? phase) g order = none :=
      choice_eq_none_iff.2 fun x hx => (pick_handler?_eq_none_iff hd).2 (hnone x hx)
    rw [origin_eq_choice hc, handlerOf_eq_choice hc, this]
    exact ⟨rfl, rfl⟩
  · simp [register_refused_iff, handler?_eq_some_iff hd]
  · rw [registerHandler_refused href, hr]

/-- The handlers of the core for classes and elements, in one order, and in the other order with one
for stereotypes: the class `Class` is bound as a packageable element. -/
theorem dispatch_by_candidates_of_class : ∃ d d',
    registerAll {} [(Metamodel.class_, .process .class_),
      (Metamodel.packageableElement, .bind .element)] = .ok d ∧
    registerAll {} [(Metamodel.stereotype, .bind .idle),
      (Metamodel.packageableElement, .bind .element), (Metamodel.class_, .process .class_)] =
        .ok d' ∧
    Candidates Graph.initial ∅ 9 [9, 8, 6, 5] ∧
    ((d.handlerOf Graph.initial 9 .bind).run.run ∅).1 =
      ((d'.handlerOf Graph.initial 9 .bind).run.run ∅).1 ∧
    ((d.handlerOf Graph.initial 9 .bind).run.run ∅).1 =
      .ok (.bind .element, .ancestor Metamodel.packageableElement) := by
  obtain ⟨hclassifier, hancestors, hpaths, helement, hbefore⟩ :
      Graph.initial.classifier? 9 = some 9 ∧
      ((Lineage.ancestors Graph.initial 9).run.run ∅).1 = .ok [8, 6, 5] ∧
      (∀ x ∈ [9, 8, 6, 5], Graph.initial.path? x ≠ some Metamodel.stereotype) ∧
      Graph.initial.path? 6 = some Metamodel.packageableElement ∧
      ∀ x ∈ [9, 8], Graph.initial.path? x ≠ some Metamodel.packageableElement := by
    rw [Graph.spelledOut.2]
    decide +kernel
  have hc : Candidates Graph.initial ∅ 9 [9, 8, 6, 5] := .classified hclassifier hancestors
  have hok (es : List (Path × PhaseHandler)) (h : (registerAll {} es).isOk = true) :
      ∃ d, registerAll {} es = .ok d := by
    cases hr : registerAll {} es with
    | ok d => exact ⟨d, rfl⟩
    | error e => simp [hr, Except.isOk, Except.toBool] at h
  obtain ⟨d, hd⟩ := hok [(Metamodel.class_, .process .class_),
    (Metamodel.packageableElement, .bind .element)] (by decide +kernel)
  obtain ⟨d', hd'⟩ := hok [(Metamodel.stereotype, .bind .idle),
    (Metamodel.packageableElement, .bind .element), (Metamodel.class_, .process .class_)]
    (by decide +kernel)
  have hsame : ∀ x ∈ [9, 8, 6, 5], ∀ p h,
      Handles [(Metamodel.class_, .process .class_), (Metamodel.packageableElement, .bind .element)]
        .bind Graph.initial x p h ↔
      Handles [(Metamodel.stereotype, .bind .idle), (Metamodel.packageableElement, .bind .element),
        (Metamodel.class_, .process .class_)] .bind Graph.initial x p h := by
    refine fun x hx p h => and_congr_right fun hp => and_congr_right fun _ => ?_
    have hne : ¬ (p, h) = (Metamodel.stereotype, .bind .idle) := fun he =>
      hpaths x hx ((Prod.mk.inj he).1 ▸ hp)
    simp only [List.mem_cons, hne, false_or, List.not_mem_nil, or_false]
    exact or_comm
  have h := dispatch_by_candidates hd hd' hc hc .bind hsame
  refine ⟨d, d', hd, hd', hc, h.1.2, (h.2.1 [9, 8] 6 [5] Metamodel.packageableElement
    (.bind .element) rfl (fun y hy q k hk => ?_) ⟨helement, rfl, List.mem_cons_of_mem _
      List.mem_cons_self⟩).2⟩
  obtain ⟨hq, hk, hmem⟩ := hk
  rcases List.mem_cons.1 hmem with he | hmem
  · rw [(Prod.mk.inj he).2] at hk
    cases hk
  · rw [(Prod.mk.inj (List.mem_singleton.1 hmem)).1] at hq
    exact hbefore y hy hq

end Registrations

end Dispatch

end ModelCompiler
