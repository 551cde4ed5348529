import ModelCompiler.Proofs.Lineage.Answers
import ModelCompiler.Proofs.Schema

/-!
A memory of lineages that is kept while the graph changes.
-/
open ModelCompiler.Graph

namespace ModelCompiler.Lineage

section Absent

variable {g : Graph} {l : Lineage} {ty : NodeId}

theorem Valid.fresh?_eq_none (hl : l.Valid g) (hty : g.contains ty = false) :
    l.fresh? g ty = none := by
  by_contra hne
  obtain ⟨a, ha⟩ := Option.ne_none_iff_exists'.1 hne
  have hh := hl.holds_of_fresh? ha
  obtain ⟨e, he, hkey⟩ := List.mem_map.1 (hh.stamped ty List.mem_cons_self)
  have hstamp := Ancestry.isFresh_iff.1 hh.fresh e he
  rw [hkey] at hstamp
  obtain ⟨n, hn, -⟩ := Option.map_eq_some_iff.1 hstamp
  have := contains_iff.2 ⟨n, hn⟩
  simp [hty] at this

theorem search_absent (hl : l.Valid g) (hty : g.contains ty = false) (fuel : Nat) :
    Gives (search g (fuel + 1) [] ty) l (fun _ _ => False)
      fun e l' => e = .internal (.nodeNotFound ty) ∧ l' = l := by
  unfold search
  refine gives_bind (gives_get ?_)
  rw [hl.fresh?_eq_none hty]
  simp only [List.not_mem_nil, if_false]
  refine gives_bind (gives_of_except ?_)
  simp [direct, hty]

theorem ancestors_steady (hu : g.Upheld) (ty : NodeId) : Steady g (ancestors g ty).run := by
  cases hty : g.contains ty with
  | true => exact (ancestors_answers hu.toClosed hu.issued hty).1
  | false =>
    refine (Steady.of_forall (.error (.internal (.nodeNotFound ty))) fun l hl => ?_).1
    have h : Gives (ancestors g ty) l (fun _ _ => False)
        fun e l' => e = .internal (.nodeNotFound ty) ∧ l' = l :=
      gives_bind ((search_absent hl hty _).imp fun _ _ h => h.elim)
    refine Recalls.mono h fun r l' hr => ?_
    cases r with
    | ok as => exact hr.elim
    | error e =>
      obtain ⟨rfl, rfl⟩ := hr
      exact ⟨rfl, hl⟩

end Absent

inductive Question where
  | ancestors (ty : NodeId)
  | resolutionOrder (ty : NodeId)
  | isSubtype (sub sup : NodeId)
  | isInstance (id sup : NodeId)
  | findProperty (ty : NodeId) (name : String)

namespace Question

def run (g : Graph) (l : Lineage) : Question → Lineage
  | .ancestors ty => ((Lineage.ancestors g ty).run.run l).2
  | .resolutionOrder ty => ((Lineage.resolutionOrder g ty).run.run l).2
  | .isSubtype sub sup => ((Lineage.isSubtype g sub sup).run.run l).2
  | .isInstance id sup => ((Lineage.isInstance g id sup).run.run l).2
  | .findProperty ty name => ((Lineage.findProperty g ty name).run.run l).2

theorem valid {g : Graph} (hu : g.Upheld) {l : Lineage} (hl : l.Valid g) (q : Question) :
    (q.run g l).Valid g := by
  have horder (ty : NodeId) : Steady g (Lineage.resolutionOrder g ty).run :=
    (query_bind_answers (ancestors_steady hu ty) fun _ _ => steady_pure _).1
  have hsub (sub sup : NodeId) : Steady g (Lineage.isSubtype g sub sup).run := by
    unfold Lineage.isSubtype
    split
    · exact steady_pure _
    · exact (query_bind_answers (ancestors_steady hu sub) fun _ _ => steady_pure _).1
  cases q with
  | ancestors ty => exact (ancestors_steady hu ty l hl).2
  | resolutionOrder ty => exact (horder ty l hl).2
  | isSubtype sub sup => exact (hsub sub sup l hl).2
  | isInstance id sup => exact (isInstance_steady hu.toClosed hu.issued id sup l hl).2
  | findProperty ty name =>
    exact ((query_bind_answers (horder ty) fun _ _ => steady_pure _).1 l hl).2

end Question

/-- A graph and a memory after requests, questions and the dropping of entries in any order. All the
time stubs belong to the types that list them, and neither `generalizations` nor `resolvedNode` is a
back-reference. -/
inductive Interleaved : Graph → Lineage → Prop
  | start : Interleaved Graph.initial ∅
  | request {g g' : Graph} {l : Lineage} (r : Request) : Interleaved g l → r.run g = .ok g' →
      g'.Tracked → Interleaved g' l
  | ask {g : Graph} {l : Lineage} (q : Question) : Interleaved g l → Interleaved g (q.run g l)
  | forget {g : Graph} {l : Lineage} (ty : NodeId) : Interleaved g l → Interleaved g (l.forget ty)
  | retainFresh {g : Graph} {l : Lineage} : Interleaved g l → Interleaved g (l.retainFresh g)
  | clear {g : Graph} {l : Lineage} : Interleaved g l → Interleaved g ∅

theorem tracked_initial : Graph.initial.Tracked :=
  (tidy_initial (K := fun _ => True) fun _ _ => trivial).tracked

theorem Interleaved.valid {g : Graph} {l : Lineage} (h : Interleaved g l) :
    g.Upheld ∧ g.Tracked ∧ l.Valid g := by
  induction h with
  | start => exact ⟨Attained.initial.upheld, tracked_initial, valid_empty _⟩
  | request r _ hr ht ih =>
    obtain ⟨hu, htg, hl⟩ := ih
    have hf := Request.follows hu hr
    exact ⟨hf.upheld, ht, hl.ages (hf.ages htg ht)⟩
  | ask q _ ih => exact ⟨ih.1, ih.2.1, q.valid ih.1 ih.2.2⟩
  | forget ty _ ih => exact ⟨ih.1, ih.2.1, ih.2.2.erase ty⟩
  | retainFresh _ ih => exact ⟨ih.1, ih.2.1, ih.2.2.retainFresh⟩
  | clear _ ih => exact ⟨ih.1, ih.2.1, valid_empty _⟩

/-- A memory that outlives changes of the graph answers like an empty one. -/
theorem ancestors_eq_of_interleaved {g : Graph} {l : Lineage} (h : Interleaved g l) (ty : NodeId) :
    ((ancestors g ty).run.run l).1 = ((ancestors g ty).run.run ∅).1 := by
  obtain ⟨hu, -, hl⟩ := h.valid
  exact (ancestors_steady hu ty l hl).1

/-- The ancestors of classes are asked for, and then one of them gets a supertype. -/
theorem ancestors_eq_after_new_supertype : ∃ g l, Interleaved g l ∧
    (l.find? 9).map (·.ancestors) = some [8, 6, 5] ∧
    ((ancestors g 9).run.run l).1 = ((ancestors g 9).run.run ∅).1 ∧
    ((ancestors g 9).run.run l).1.toOption = some [8, 6, 5, 12] := by
  obtain ⟨hlive, hvalue, hstub, hmemory, hanswer⟩ : initial.contains 6 = true ∧
      initial.contains 12 = true ∧ initial.isImportStub 12 = false ∧
      (((Question.ancestors 9).run initial ∅).find? 9).map (·.ancestors) = some [8, 6, 5] ∧
      ((ancestors (initial.link 6 "generalizations" 12) 9).run.run ∅).1.toOption =
        some [8, 6, 5, 12] := by
    rw [spelledOut.2]
    decide +kernel
  have hadd := Request.run_addValue hlive hvalue "generalizations"
  have e := frame_link initial 6 12 "generalizations"
  have ht : (initial.link 6 "generalizations" 12).Tracked := by
    refine ⟨fun j v hv hs => ?_, ?_, ?_⟩
    · rw [isImportStub_congr e] at hs
      rw [lifetime?_congr e]
      rcases (mem_values_link hlive).1 hv with hv | ⟨-, -, rfl⟩
      · exact tracked_initial.stub j v hv hs
      · simp [hstub] at hs
    · rw [isBackReference_congr e]
      exact tracked_initial.generalizations
    · rw [isBackReference_congr e]
      exact tracked_initial.resolvedNode
  have hi : Interleaved (initial.link 6 "generalizations" 12)
      ((Question.ancestors 9).run initial ∅) :=
    (Interleaved.start.ask (.ancestors 9)).request _ hadd ht
  have heq := ancestors_eq_of_interleaved hi 9
  exact ⟨_, _, hi, hmemory, heq, (congrArg Except.toOption heq).trans hanswer⟩

end ModelCompiler.Lineage
