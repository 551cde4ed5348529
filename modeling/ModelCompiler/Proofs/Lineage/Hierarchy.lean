import ModelCompiler.Proofs.Lineage.Memory

/-!
The hierarchy of a type: the type and all that it extends, directly or not.
-/
open ModelCompiler.Graph

namespace ModelCompiler

namespace Graph

/-- What a listed generalization leads to: a stub to the node that it is bound to, any other node to
itself. -/
def LeadsTo (g : Graph) (v x : NodeId) : Prop :=
  if g.isImportStub v = true then (g.values v "resolvedNode").head? = some x else v = x

def Extends (g : Graph) (a b : NodeId) : Prop :=
  ∃ v ∈ g.values a "generalizations", g.LeadsTo v b

def Unbound (g : Graph) (a : NodeId) : Prop :=
  ∃ v ∈ g.values a "generalizations", g.isImportStub v = true ∧ g.values v "resolvedNode" = []

def InHierarchy (g : Graph) (ty x : NodeId) : Prop :=
  Relation.ReflTransGen g.Extends ty x

structure Cycle (g : Graph) (ns : List NodeId) : Prop where
  long : 2 ≤ ns.length
  closed : ns.head? = ns.getLast?
  simple : ns.dropLast.Nodup
  steps : ns.IsChain g.Extends

section Relations

variable {g : Graph} {a b v x ty : NodeId} {as gs ns way : List NodeId}

theorem leadsTo_iff : g.LeadsTo v x ↔ g.referenced? v = some x := by
  unfold LeadsTo referenced?
  split <;> simp [value?]

theorem extends_iff : g.Extends a b ↔ some b ∈ g.generals a := by
  simp [Extends, generals, leadsTo_iff]

theorem unbound_iff : g.Unbound a ↔ none ∈ g.generals a := by
  simp only [Unbound, generals, List.mem_map]
  refine exists_congr fun v => and_congr_right fun _ => ?_
  unfold referenced?
  split <;> simp_all [value?]

theorem under_iff : Lineage.Under g a b ↔ Relation.TransGen g.Extends a b := by
  rw [Lineage.Under, show g.Extends = fun a b => some b ∈ g.generals a from
    funext fun a => funext fun b => propext extends_iff]

theorem forall₂_leadsTo {vs : List NodeId} (h : vs.map g.referenced? = gs.map some) :
    List.Forall₂ g.LeadsTo vs gs := by
  have : List.Forall₂ (· = ·) (vs.map g.referenced?) (gs.map some) := h ▸ List.forall₂_refl _
  rw [List.forall₂_map_left_iff, List.forall₂_map_right_iff] at this
  exact this.imp fun _ _ => leadsTo_iff.2

theorem Cycle.extends_self (h : g.Cycle ns) (hx : x ∈ ns.head?) :
    Relation.TransGen g.Extends x x := by
  obtain ⟨hlong, hclosed, -, hsteps⟩ := h
  match ns, hlong with
  | y :: z :: rest, _ =>
    obtain rfl : y = x := by simpa using hx
    have hyz := (List.isChain_cons_cons.1 hsteps).1
    have hlast : y ∈ z :: rest := by
      rw [List.head?_cons, List.getLast?_cons_cons] at hclosed
      exact List.mem_of_mem_getLast? hclosed.symm
    have hall := List.IsChain.induction (Relation.TransGen g.Extends y) _
      (List.isChain_cons_cons.1 hsteps).2 (fun _ _ hab h => h.tail hab) fun _ => .single hyz
    exact hall y hlast

theorem cycle_of_mem (hnodup : way.Nodup) (hsteps : (way ++ [ty]).IsChain g.Extends)
    (hty : ty ∈ way) : g.Cycle (way.dropWhile (· ≠ ty) ++ [ty]) ∧
      (way.dropWhile (· ≠ ty) ++ [ty]).head? = some ty := by
  obtain ⟨below, rest, rfl⟩ := List.append_of_mem hty
  have hbelow : ∀ y ∈ below, decide (y ≠ ty) = true := fun y hy => by
    have := List.disjoint_of_nodup_append hnodup hy
    simpa using fun h : y = ty => this (h ▸ List.mem_cons_self)
  have hdrop : (below ++ ty :: rest).dropWhile (· ≠ ty) = ty :: rest := by
    rw [List.dropWhile_append_of_pos hbelow]
    simp
  rw [hdrop]
  refine ⟨⟨by simp, ?_, ?_, ?_⟩, rfl⟩
  · rw [List.getLast?_concat]
    rfl
  · rw [List.dropLast_concat]
    exact (List.nodup_append.1 hnodup).2.1
  · rw [List.append_assoc] at hsteps
    exact hsteps.right_of_append

theorem nodup_eraseDups (l : List NodeId) : l.eraseDups.Nodup := by
  induction h : l.length using Nat.strong_induction_on generalizing l with
  | _ n ih =>
    cases l with
    | nil => simp
    | cons x l =>
      rw [List.eraseDups_cons, List.nodup_cons]
      refine ⟨by simp [List.mem_eraseDups], ih _ ?_ _ rfl⟩
      rw [← h, List.length_cons]
      exact Nat.lt_succ_of_le (List.length_filter_le _ _)

namespace Lineal

variable (h : g.Lineal ty as)
include h

theorem nodup : as.Nodup := by
  cases h
  exact nodup_eraseDups _

theorem mem_iff : x ∈ as ↔ g.InHierarchy ty x ∧ x ≠ ty := by
  constructor
  · intro hx
    refine ⟨?_, fun he => h.not_mem_self (he ▸ hx)⟩
    induction h generalizing x with
    | @intro ty gs ls hgs hls ih =>
      have hup {z : NodeId} (hz : z ∈ gs) : g.Extends ty z :=
        extends_iff.2 (hgs ▸ List.mem_map_of_mem hz)
      rw [List.mem_eraseDups, List.mem_append, List.mem_flatMap] at hx
      rcases hx with hx | ⟨z, hz, hx⟩
      · exact .single (hup hx)
      · exact (ih z hz hx).head (hup hz)
  · rintro ⟨hx, hne⟩
    rcases Relation.reflTransGen_iff_eq_or_transGen.1 hx with he | hx
    · exact absurd he hne
    · exact (under_iff.2 hx).mem h

theorem of_inHierarchy (hx : g.InHierarchy ty x) : ∃ l, g.Lineal x l := by
  by_cases he : x = ty
  · exact ⟨as, he ▸ h⟩
  · obtain ⟨l, hl, -⟩ := h.of_mem x (h.mem_iff.2 ⟨hx, he⟩)
    exact ⟨l, hl⟩

theorem not_unbound : ¬ g.Unbound ty := by
  rw [unbound_iff]
  cases h with
  | intro gs ls hgs => simp [hgs]

theorem not_extends_self : ¬ Relation.TransGen g.Extends ty ty := fun hc =>
  h.not_mem_self ((under_iff.2 hc).mem h)

end Lineal

end Relations

end Graph

namespace Lineage

variable {g : Graph} {ty : NodeId} {e : CompileError}

section Climb

theorem exists_error_of_mapM {α β : Type} {f : α → Except CompileError β} {xs : List α}
    (h : xs.mapM f = .error e) : ∃ x ∈ xs, f x = .error e := by
  induction xs with
  | nil => cases h
  | cons x xs ih =>
    rw [List.mapM_cons] at h
    cases hx : f x with
    | error e' =>
      rw [hx] at h
      exact ⟨x, List.mem_cons_self, by cases h; exact hx⟩
    | ok b =>
      cases hxs : xs.mapM f with
      | error e' =>
        rw [hx, hxs] at h
        obtain ⟨y, hy, hfy⟩ := ih (by cases h; exact hxs)
        exact ⟨y, List.mem_cons_of_mem _ hy, hfy⟩
      | ok bs =>
        rw [hx, hxs] at h
        cases h

theorem unbound_of_direct (hty : g.contains ty = true) (h : direct g ty = .error e) :
    g.Unbound ty ∧ ∃ span name, e = .unresolvedIdentifier span name [] := by
  rw [direct, if_pos hty] at h
  obtain ⟨v, hv, he⟩ := exists_error_of_mapM h
  unfold general at he
  split at he
  · cases he
  · rename_i hnone
    exact ⟨unbound_iff.2 (List.mem_map.2 ⟨v, hv, hnone⟩), _, _, (Except.error.inj he).symm⟩

/-- The error reports a cycle in the hierarchy of the type. -/
def ReportsCycle (g : Graph) (ty : NodeId) (e : CompileError) : Prop :=
  ∃ span ns, e = .cyclicGeneralization span (ns.map g.describe) ∧ g.Cycle ns ∧
    ∃ x ∈ ns.head?, g.InHierarchy ty x

/-- The error reports no cycle, and a name in the hierarchy of the type is not bound. -/
def ReportsName (g : Graph) (ty : NodeId) (e : CompileError) : Prop :=
  (∀ span cycle, e ≠ .cyclicGeneralization span cycle) ∧ ∃ x, g.InHierarchy ty x ∧ g.Unbound x

theorem localize_reports {stub x : NodeId} (hx : g.Extends ty x)
    (h : ReportsCycle g x e ∨ ReportsName g x e) :
    ReportsCycle g ty (localize g ty stub x e) ∨ ReportsName g ty (localize g ty stub x e) := by
  rcases h with ⟨span, ns, rfl, hns, y, hy, hxy⟩ | ⟨he, y, hxy, hy⟩
  · exact .inl ⟨span, ns, rfl, hns, y, hy, hxy.head hx⟩
  · refine .inr ⟨?_, y, hxy.head hx, hy⟩
    unfold localize
    split
    · split
      · simp
      · exact he
    · exact he

theorem climb_reports (hc : g.Closed) : ∀ {fuel : Nat} {way : List NodeId} {ty : NodeId}
    {e : CompileError}, Climbing g fuel way → (way ++ [ty]).IsChain g.Extends →
    g.contains ty = true → climb g fuel way ty = .error e →
    ReportsCycle g ty e ∨ ReportsName g ty e
  | 0, _, _, _, hway, _, _, _ => absurd rfl hway.fuel_ne_zero
  | fuel + 1, way, ty, e, hway, hsteps, hty, h => by
    by_cases hmem : ty ∈ way
    · rw [climb, if_pos hmem] at h
      obtain ⟨hcycle, hhead⟩ := cycle_of_mem hway.nodup hsteps hmem
      exact .inl ⟨_, _, (Except.error.inj h).symm, hcycle, ty, hhead, .refl⟩
    · rcases direct_cases hty with ⟨gs, hgs, hmap⟩ | ⟨e', he', -⟩
      · rw [climb_succ hmem hgs] at h
        obtain ⟨p, hp, hpe⟩ : ∃ p ∈ (g.values ty "generalizations").zip gs,
            (climb g fuel (way ++ [ty]) p.2).mapError (localize g ty p.1 p.2) = .error e := by
          refine exists_error_of_mapM ?_
          cases hm : ((g.values ty "generalizations").zip gs).mapM fun p =>
              (climb g fuel (way ++ [ty]) p.2).mapError (localize g ty p.1 p.2) with
          | ok ls => simp [hm, Except.map] at h
          | error e' => simpa [hm, Except.map] using h
        have hgen : some p.2 ∈ g.generals ty := hmap ▸ List.mem_map_of_mem (List.of_mem_zip hp).2
        cases hclimb : climb g fuel (way ++ [ty]) p.2 with
        | ok l => simp [hclimb, Except.mapError] at hpe
        | error e' =>
          rw [hclimb] at hpe
          rw [← Except.error.inj hpe]
          refine localize_reports (extends_iff.2 hgen) (climb_reports hc (hway.succ hmem hty) ?_
            (general_live hc hgen) hclimb)
          refine hsteps.append (List.isChain_singleton _) fun y hy z hz => ?_
          rw [List.getLast?_concat] at hy
          rw [← Option.some.inj hy, ← Option.some.inj hz]
          exact extends_iff.2 hgen
      · rw [climb, if_neg hmem, he'] at h
        obtain ⟨hub, span, name, rfl⟩ := unbound_of_direct hty he'
        cases h
        exact .inr ⟨by simp, ty, .refl, hub⟩

end Climb

section Memories

inductive Serves (g : Graph) : Lineage → Prop
  | new : Serves g ∅
  | kept {l : Lineage} : Interleaved g l → Serves g l
  | ask {l : Lineage} (q : Question) : Serves g l → Serves g (q.run g l)

theorem Serves.valid {l : Lineage} (hu : g.Upheld) (h : Serves g l) : l.Valid g := by
  induction h with
  | new => exact valid_empty g
  | kept h => exact h.valid.2.2
  | ask q _ ih => exact q.valid hu ih

variable {l : Lineage}

theorem ancestors_eq_ok_iff (hu : g.Upheld) (hl : l.Valid g) (hty : g.contains ty = true)
    {as : List NodeId} : ((ancestors g ty).run.run l).1 = .ok as ↔ g.Lineal ty as := by
  constructor
  · intro h
    have hg := ancestors_gives hu.toClosed hu.issued hty hl
    unfold Gives Recalls at hg
    rw [h] at hg
    exact hg.1
  · intro h
    exact ((ancestors_answers hu.toClosed hu.issued hty).1 l hl).1.trans
      (answer_ancestors_of_lineal hu.toClosed hu.issued hty h)

theorem ancestors_reports (hu : g.Upheld) (hl : l.Valid g) (hty : g.contains ty = true)
    (h : ((ancestors g ty).run.run l).1 = .error e) : ReportsCycle g ty e ∨ ReportsName g ty e := by
  obtain ⟨hs, ha⟩ := ancestors_answers hu.toClosed hu.issued hty
  refine climb_reports hu.toClosed (.start g) (List.isChain_singleton _) hty ?_
  rw [← ha, ← h]
  exact ((hs l hl).1).symm

theorem ancestors_absent (hl : l.Valid g) (hty : g.contains ty = false) :
    ((ancestors g ty).run.run l).1 = .error (.internal (.nodeNotFound ty)) := by
  have h : Gives (ancestors g ty) l (fun _ _ => False)
      fun e _ => e = .internal (.nodeNotFound ty) :=
    gives_bind ((search_absent hl hty _).mono (fun _ _ h => h.elim) fun _ _ h => h.1)
  unfold Gives Recalls at h
  cases hr : ((ancestors g ty).run.run l).1 with
  | ok as => simp [hr] at h
  | error e =>
    rw [hr] at h
    rw [h]

end Memories

/-- The ancestors of a type: when there are any, which, and in which order. -/
theorem ancestors_linearize (hg : Attained g) {l : Lineage} (hl : Serves g l)
    (hty : g.contains ty = true) :
    ((∃ as, ((ancestors g ty).run.run l).1 = .ok as) ↔ ∀ x, g.InHierarchy ty x →
      ¬ g.Unbound x ∧ ¬ Relation.TransGen g.Extends x x) ∧
    ∀ as, ((ancestors g ty).run.run l).1 = .ok as →
      (∀ x, g.InHierarchy ty x → x ≠ ty → as.count x = 1) ∧
      (∀ x ∈ as, g.InHierarchy ty x ∧ x ≠ ty) ∧
      ∃ gs ls, direct g ty = .ok gs ∧ List.Forall₂ g.LeadsTo (g.values ty "generalizations") gs ∧
        (∀ x ∈ gs, ((ancestors g x).run.run l).1 = .ok (ls x)) ∧
        as = (gs ++ gs.flatMap ls).eraseDups := by
  have hu := hg.upheld
  have hv := hl.valid hu
  have hok {x : NodeId} (hx : g.contains x = true) {as : List NodeId} :
      ((ancestors g x).run.run l).1 = .ok as ↔ _ := ancestors_eq_ok_iff hu hv hx
  refine ⟨⟨fun ⟨as, has⟩ x hx => ?_, fun h => ?_⟩, fun as has => ?_⟩
  · obtain ⟨m, hm⟩ := ((hok hty).1 has).of_inHierarchy hx
    exact ⟨hm.not_unbound, hm.not_extends_self⟩
  · cases hr : ((ancestors g ty).run.run l).1 with
    | ok as => exact ⟨as, rfl⟩
    | error e =>
      rcases ancestors_reports hu hv hty hr with ⟨_, ns, -, hns, x, hx, hin⟩ | ⟨-, x, hin, hx⟩
      · exact absurd (hns.extends_self hx) (h x hin).2
      · exact absurd hx (h x hin).1
  · have hlineal := (hok hty).1 has
    refine ⟨fun x hx hne => ?_, fun x hx => hlineal.mem_iff.1 hx, ?_⟩
    · exact List.count_eq_one_of_mem hlineal.nodup (hlineal.mem_iff.2 ⟨hx, hne⟩)
    · cases hlineal with
      | intro gs ls hgs hls =>
        refine ⟨gs, ls, direct_of_generals hty hgs, forall₂_leadsTo hgs, fun x hx => ?_, rfl⟩
        have hgen : some x ∈ g.generals ty := hgs ▸ List.mem_map_of_mem hx
        exact (hok (general_live hu.toClosed hgen)).2 (hls x hx)

/-- The metamodel with one more supertype for packageable elements, asked with a memory that is in
use. -/
theorem ancestors_linearize_second_supertype : ∃ g l, Attained g ∧ Serves g l ∧
    (l.find? 8).map (·.ancestors) = some [6, 5, 12] ∧
    (∃ as, ((ancestors g 9).run.run l).1 = .ok as ∧ as = [8, 6, 5, 12]) ∧
    ∀ x, g.InHierarchy 9 x → x ≠ 9 → [8, 6, 5, 12].count x = 1 := by
  obtain ⟨hlive, hvalue, hty, hknown, hanswer⟩ : initial.contains 6 = true ∧
      initial.contains 12 = true ∧ (initial.link 6 "generalizations" 12).contains 9 = true ∧
      (((Question.ancestors 8).run (initial.link 6 "generalizations" 12) ∅).find? 8).map
        (·.ancestors) = some [6, 5, 12] ∧
      ((ancestors (initial.link 6 "generalizations" 12) 9).run.run
        ((Question.ancestors 8).run (initial.link 6 "generalizations" 12) ∅)).1 =
          .ok [8, 6, 5, 12] := by
    rw [spelledOut.2]
    decide +kernel
  have hg : Attained (initial.link 6 "generalizations" 12) :=
    .step _ .initial (Request.run_addValue hlive hvalue _)
  have hl := Serves.ask (.ancestors 8) (.new (g := initial.link 6 "generalizations" 12))
  have h := ancestors_linearize hg hl hty
  exact ⟨_, _, hg, hl, hknown, ⟨_, hanswer, rfl⟩, (h.2 _ hanswer).1⟩

section Termination

def ahead (g : Graph) (way : List NodeId) : List NodeId :=
  g.ids.filter (· ∉ way)

theorem contains_of_direct {gs : List NodeId} (h : direct g ty = .ok gs) :
    g.contains ty = true := by
  by_contra hn
  rw [direct, if_neg hn] at h
  cases h

theorem length_ahead_lt {way : List NodeId} (hty : g.contains ty = true) (hn : ty ∉ way) :
    (ahead g (way ++ [ty])).length < (ahead g way).length := by
  have heq : ahead g (way ++ [ty]) = (ahead g way).filter (· ≠ ty) := by
    rw [ahead, ahead, List.filter_filter]
    refine List.filter_congr fun x _ => ?_
    simp [and_comm]
  rw [heq, List.length_filter_lt_length_iff_exists]
  exact ⟨ty, List.mem_filter.2 ⟨mem_ids_iff.2 hty, by simpa using hn⟩, by simp⟩

def seek (g : Graph) (way : List NodeId) (ty : NodeId) : Query Ancestry := do
  match (← get).fresh? g ty with
  | some known => return known
  | none =>
    if _hway : ty ∈ way then throw (cycleError g (way.dropWhile (· ≠ ty)) ty)
    else
      match _hdirect : direct g ty with
      | .error e => throw e
      | .ok generals =>
        let inherited ← ((g.values ty "generalizations").zip generals).mapM fun (stub, general) =>
          tryCatch (seek g (way ++ [ty]) general) fun e => throw (localize g ty stub general e)
        let found := merge g ty generals inherited
        modify (·.insert ty found)
        return found
termination_by (ahead g way).length
decreasing_by exact length_ahead_lt (contains_of_direct _hdirect) _hway

theorem search_eq_seek : ∀ {fuel : Nat} {way : List NodeId} {ty : NodeId},
    (ahead g way).length < fuel → search g fuel way ty = seek g way ty
  | fuel + 1, way, ty, h => by
    rw [search, seek]
    congr 1
    funext l
    cases hknown : l.fresh? g ty with
    | some known => rfl
    | none =>
      by_cases hway : ty ∈ way
      · simp only [hway, if_true, dif_pos]
      · simp only [hway, if_false, dif_neg, not_false_eq_true]
        cases hdirect : direct g ty with
        | error e => rfl
        | ok generals =>
          have hlt := length_ahead_lt (contains_of_direct hdirect) hway
          have ih (x : NodeId) : search g fuel (way ++ [ty]) x = seek g (way ++ [ty]) x :=
            search_eq_seek (by omega)
          simp only [ih]
          rfl

theorem length_ahead_le (way : List NodeId) : (ahead g way).length ≤ g.slots.size := by
  refine (List.length_filter_le _ _).trans ?_
  refine (List.length_filter_le _ _).trans_eq List.length_range

end Termination

theorem not_extends_of_absent {x : NodeId} (hty : g.contains ty = false) : ¬ g.Extends ty x := by
  rintro ⟨v, hv, -⟩
  simp [contains_of_mem_values hv] at hty

/-- The search for ancestors ends on every type: no bound on it is ever met. A cycle that it reports
is one, and begins in the hierarchy of the type; where all names are bound and there is a cycle, it
reports one. -/
theorem ancestors_cyclic (hg : Attained g) {l : Lineage} (hl : Serves g l) (ty : NodeId) :
    ((∀ fuel, g.slots.size < fuel → search g fuel [] ty = seek g [] ty) ∧
      ancestors g ty = do return (← seek g [] ty).ancestors) ∧
    (∀ span cycle, ((ancestors g ty).run.run l).1 = .error (.cyclicGeneralization span cycle) →
      ∃ ns, cycle = ns.map g.describe ∧ g.Cycle ns ∧ ∃ x ∈ ns.head?, g.InHierarchy ty x) ∧
    ((∀ x, g.InHierarchy ty x → ¬ g.Unbound x) →
      (∃ x, g.InHierarchy ty x ∧ Relation.TransGen g.Extends x x) →
      ∃ span cycle, ((ancestors g ty).run.run l).1 =
        .error (.cyclicGeneralization span cycle)) := by
  have hu := hg.upheld
  have hv := hl.valid hu
  have hseek (fuel : Nat) (h : g.slots.size < fuel) : search g fuel [] ty = seek g [] ty :=
    search_eq_seek ((length_ahead_le []).trans_lt h)
  refine ⟨⟨hseek, by rw [ancestors, hseek _ (by omega)]⟩, ?_⟩
  cases hty : g.contains ty with
  | true =>
    refine ⟨fun span cycle he => ?_, fun hbound ⟨x, hx, hcycle⟩ => ?_⟩
    · rcases ancestors_reports hu hv hty he with ⟨_, ns, h, hns⟩ | ⟨hne, -⟩
      · obtain ⟨-, rfl⟩ := CompileError.cyclicGeneralization.inj h
        exact ⟨ns, rfl, hns⟩
      · exact absurd rfl (hne span cycle)
    · cases hr : ((ancestors g ty).run.run l).1 with
      | ok as =>
        obtain ⟨m, hm⟩ := ((ancestors_eq_ok_iff hu hv hty).1 hr).of_inHierarchy hx
        exact absurd hcycle hm.not_extends_self
      | error e =>
        rcases ancestors_reports hu hv hty hr with ⟨span, ns, rfl, -⟩ | ⟨-, y, hy, hub⟩
        · exact ⟨span, _, rfl⟩
        · exact absurd hub (hbound y hy)
  | false =>
    refine ⟨fun span cycle he => ?_, fun _ ⟨x, hx, hcycle⟩ => ?_⟩
    · rw [ancestors_absent hv hty] at he
      cases he
    · obtain rfl | ⟨y, hy, -⟩ := hx.cases_head
      · obtain ⟨y, hy, -⟩ := Relation.TransGen.head'_iff.1 hcycle
        exact absurd hy (not_extends_of_absent hty)
      · exact absurd hy (not_extends_of_absent hty)

/-- With `Any` made to extend `Class`, primitive types are below a cycle. -/
theorem ancestors_cyclic_below_loop : ∃ g, Attained g ∧ ∃ span cycle,
    ((ancestors g 10).run.run ∅).1 = .error (.cyclicGeneralization span cycle) ∧
    cycle.length = 5 ∧ ∃ ns, cycle = ns.map g.describe ∧ g.Cycle ns ∧
      ∃ x ∈ ns.head?, g.InHierarchy 10 x := by
  obtain ⟨hlive, hvalue, hanswer⟩ : initial.contains 5 = true ∧ initial.contains 9 = true ∧
      ((ancestors (initial.link 5 "generalizations" 9) 10).run.run ∅).1 =
        .error (.cyclicGeneralization (.point "<bootstrap>" 0 0)
          ([Metamodel.type, Metamodel.packageableElement, Metamodel.any, Metamodel.class_,
            Metamodel.type].map (·.text))) := by
    rw [spelledOut.2]
    decide +kernel
  have hg : Attained (initial.link 5 "generalizations" 9) :=
    .step _ .initial (Request.run_addValue hlive hvalue _)
  exact ⟨_, hg, _, _, hanswer, rfl, (ancestors_cyclic hg .new 10).2.1 _ _ hanswer⟩

end Lineage

end ModelCompiler
