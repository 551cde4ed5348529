import ModelCompiler.Source
import ModelCompiler.Proofs.Drafting.Parts
import ModelCompiler.Proofs.Lineage.Hosted

/-!
Drafts leave the metamodel in its place.
-/
open ModelCompiler.Action ModelCompiler.Graph

namespace ModelCompiler

namespace Draft

variable {α β : Type} {m : Graph} {P Q : α → Prop} {R : β → Prop}

/-- In any setting, the step leaves the metamodel in the graph of the draft, and what it returns is
as `Q` says. -/
def Hosting (m : Graph) (step : Drafting α) (Q : α → Prop := fun _ => True) : Prop :=
  ∀ set, Maintains (fun d : Draft => Hosts m d.graph) (step set) Q

section Rules

theorem hosting_pure {a : α} (h : Q a) : Hosting m (pure a : Drafting α) Q :=
  fun _ => maintains_pure h

theorem hosting_throw (e : CompileError) : Hosting m (throw e : Drafting α) Q :=
  fun _ => maintains_throw e

theorem hosting_read : Hosting m (read : Drafting Setting) :=
  fun _ => maintains_pure trivial

theorem hosting_get : Hosting m (get : Drafting Draft) :=
  fun _ => maintains_get fun _ _ => trivial

theorem hosting_bind {x : Drafting β} {f : β → Drafting α} (hx : Hosting m x R)
    (hf : ∀ b, R b → Hosting m (f b) Q) : Hosting m (x >>= f) Q :=
  fun set => maintains_bind (hx set) fun b hb => hf b hb set

theorem hosting_discard {x : Drafting α} (hx : Hosting m x P) : Hosting m (discard x) :=
  fun set => maintains_discard (hx set)

theorem hosting_forM {f : α → Drafting PUnit} {xs : List α} (hf : ∀ a, Hosting m (f a)) :
    Hosting m (xs.forM f) := fun set => by
  rw [run_forM]
  exact maintains_forM fun a _ => hf a set

theorem hosting_mapM {f : β → Drafting α} {xs : List β} (hf : ∀ b, Hosting m (f b) Q) :
    Hosting m (xs.mapM f) := fun set => by
  rw [run_mapM]
  exact (maintains_mapM fun b _ => hf b set).mono fun _ _ => trivial

theorem hosting_foldlM {f : α → β → Drafting α} {xs : List β} {a : α}
    (hf : ∀ a b, Hosting m (f a b)) : Hosting m (xs.foldlM f a) := fun set => by
  rw [run_foldlM]
  exact maintains_foldlM trivial fun a _ b _ => hf a b set

theorem hosting_onGraph {cause : GraphError → CompileError} {act : Action Graph GraphError α}
    (h : Maintains (Hosts m) act Q) : Hosting m (onGraph cause act) Q :=
  fun _ => maintains_within (fun _ hd => hd) (fun _ _ _ hg => hg) h

end Rules

section Parts

theorem hosting_orUnknown (path : String) (found : Option NodeId) :
    Hosting m (orUnknown path found) := by
  cases found with
  | some id => exact hosting_pure trivial
  | none => exact hosting_throw _

theorem hosting_known (path : Path) : Hosting m (known path) :=
  hosting_bind hosting_get fun _ _ => hosting_orUnknown _ _

variable (hm : m.Charted)
include hm

theorem hosting_addValue {id : NodeId} {p : String}
    (h : p ≠ "generalizations" ∨ m.contains id = false)
    (value : NodeId) : Hosting m (addValue id p value) := fun _ => by
  refine maintains_write fun d _ d' hd hrun => ?_
  cases hg : d.graph.addValue id p value with
  | error b => simp [hg, Except.map] at hrun
  | ok g =>
    rw [hg] at hrun
    obtain ⟨-, rfl⟩ := ok_mk_inj hrun
    exact Request.hosts (r := .addValue id p value) hm hd h hg

theorem hosting_element (kind : Path) (path : String) (span : Span) :
    Hosting m (element kind path span) fun id => m.contains id = false := by
  refine hosting_bind hosting_get fun d _ => ?_
  split
  · exact hosting_throw _
  · split
    · exact hosting_throw _
    · refine hosting_bind hosting_read fun set _ => hosting_bind hosting_read fun set' _ =>
        hosting_onGraph ?_
      unfold Factory.create
      split
      · exact maintains_createPersistent hm _ _
      · exact maintains_createPersistent hm _ _
      · exact maintains_createPersistent hm _ _
      · exact maintains_throw _

theorem hosting_namedPart (owner : NodeId) (kind : Path) (name : String) (span : Span) :
    Hosting m (namedPart owner kind name span) :=
  hosting_bind (hosting_known kind) fun _ _ =>
    hosting_onGraph (maintains_createEphemeral hm owner _)

theorem hosting_importGroup (span : Span) : Hosting m (importGroup span) :=
  hosting_bind hosting_get fun _ _ => hosting_bind hosting_read fun _ _ =>
    hosting_bind (hosting_element hm _ _ _) fun _ _ =>
      hosting_bind (fun _ => maintains_modify fun _ hd => hd) fun _ _ => hosting_pure trivial

theorem hosting_addImport (group : NodeId) (package : String) (span : Span) :
    Hosting m (addImport group package span) :=
  hosting_bind (hosting_namedPart hm _ _ _ _) fun _ _ =>
    hosting_bind (hosting_addValue hm (.inl (by decide)) _) fun _ _ => hosting_pure trivial

theorem hosting_importStub (owner group : NodeId) (identifier : String) (span : Span) :
    Hosting m (importStub owner group identifier span) :=
  hosting_bind (hosting_namedPart hm _ _ _ _) fun _ _ =>
    hosting_bind (hosting_addValue hm (.inl (by decide)) _) fun _ _ => hosting_pure trivial

theorem hosting_propertyStub (owner target : NodeId) (property : String) (span : Span) :
    Hosting m (propertyStub owner target property span) :=
  hosting_bind (hosting_namedPart hm _ _ _ _) fun _ _ =>
    hosting_bind (hosting_addValue hm (.inl (by decide)) _) fun _ _ => hosting_pure trivial

end Parts

end Draft

namespace Grammar

open Draft

variable {α : Type} {m : Graph} {l : Line}

section Places

theorem hosting_span : Hosting m l.span :=
  hosting_bind hosting_read fun _ _ => hosting_pure trivial

theorem hosting_spanOf (piece : Piece) : Hosting m (l.spanOf piece) := by
  unfold Line.spanOf
  split
  · exact hosting_bind hosting_read fun _ _ => hosting_pure trivial
  · exact hosting_span

theorem hosting_fail {Q : α → Prop} (message : String) : Hosting m (l.fail message) Q :=
  hosting_bind hosting_span fun _ _ => hosting_throw _

theorem hosting_demand (r : Except String α) : Hosting m (l.demand r) := by
  cases r with
  | ok a => exact hosting_pure trivial
  | error message => exact hosting_fail message

end Places

section Declarations

variable (hm : m.Charted)
include hm

theorem hosting_draftStereotype (id : NodeId) (stereotype : Piece) :
    Hosting m (draftStereotype l id stereotype) := by
  have hadd (path : Path) : Hosting m (do addValue id "stereotypes" (← known path)) :=
    hosting_bind (hosting_known path) fun _ _ => hosting_addValue hm (.inl (by decide)) _
  unfold draftStereotype
  split
  · exact hosting_bind (R := fun _ => True) (hosting_pure trivial) fun _ _ => hadd _
  · exact hosting_bind (R := fun _ => True) (hosting_pure trivial) fun _ _ => hadd _
  · exact hosting_bind (R := fun _ => True) (hosting_fail _) fun _ _ => hadd _

theorem hosting_draftGeneral {id : NodeId} (hid : m.contains id = false) (group : NodeId)
    (general : Piece) : Hosting m (draftGeneral l group id general) :=
  hosting_bind (hosting_spanOf _) fun _ _ => hosting_bind (hosting_importStub hm _ _ _ _) fun _ _ =>
    hosting_addValue hm (.inr hid) _

theorem hosting_draftProperty (group owner : NodeId) (member : Except String Member) :
    Hosting m (draftProperty l group owner member) :=
  hosting_bind (hosting_demand _) fun _ _ => hosting_bind (hosting_spanOf _) fun _ _ =>
    hosting_bind (hosting_namedPart hm _ _ _ _) fun _ _ =>
      hosting_bind (hosting_addValue hm (.inl (by decide)) _) fun _ _ =>
        hosting_bind (hosting_addValue hm (.inl (by decide)) _) fun _ _ =>
          hosting_bind (hosting_importStub hm _ _ _ _) fun _ _ =>
            hosting_addValue hm (.inl (by decide)) _

theorem hosting_draftValue (id : NodeId) (value : Piece) : Hosting m (draftValue l id value) :=
  hosting_bind (hosting_spanOf _) fun _ _ => hosting_bind (hosting_namedPart hm _ _ _ _) fun _ _ =>
    hosting_addValue hm (.inl (by decide)) _

theorem hosting_draftParameter (group function : NodeId) (member : Except String Member) :
    Hosting m (draftParameter l group function member) :=
  hosting_bind (hosting_demand _) fun _ _ => hosting_bind (hosting_spanOf _) fun _ _ =>
    hosting_bind (hosting_namedPart hm _ _ _ _) fun _ _ =>
      hosting_bind (hosting_importStub hm _ _ _ _) fun _ _ =>
        hosting_bind (hosting_addValue hm (.inl (by decide)) _) fun _ _ =>
          hosting_bind (hosting_addValue hm (.inl (by decide)) _) fun _ _ => hosting_pure trivial

theorem hosting_draftProjection (scope : List (Piece × NodeId)) (function : NodeId)
    (projection : Except String Projection) :
    Hosting m (draftProjection l scope function projection) := by
  refine hosting_bind (hosting_demand _) fun a _ => ?_
  split
  · exact hosting_fail _
  · exact hosting_bind (hosting_spanOf _) fun _ _ =>
      hosting_bind (hosting_propertyStub hm _ _ _ _) fun _ _ =>
        hosting_addValue hm (.inl (by decide)) _

theorem hosting_draftResult (group function : NodeId) (result : Piece) :
    Hosting m (draftResult l group function result) :=
  hosting_bind (hosting_spanOf _) fun _ _ => hosting_bind (hosting_importStub hm _ _ _ _) fun _ _ =>
    hosting_addValue hm (.inl (by decide)) _

theorem hosting_draftDeclaration (group : NodeId) (d : Declaration) :
    Hosting m (draftDeclaration l group d) := by
  have hmake (kind : Path) (path : String) {f : NodeId → Drafting Unit}
      (hf : ∀ id, m.contains id = false → Hosting m (f id)) :
      Hosting m (do let span ← l.span; let id ← element kind path span; f id) :=
    hosting_bind hosting_span fun _ _ => hosting_bind (hosting_element hm _ _ _) hf
  cases d with
  | imported package =>
    exact hosting_bind (hosting_spanOf _) fun _ _ => hosting_discard (hosting_addImport hm _ _ _)
  | class_ path stereotypes generals properties =>
    exact hmake _ _ fun id hid => hosting_bind (hosting_forM (hosting_draftStereotype hm id))
      fun _ _ => hosting_bind (hosting_forM (hosting_draftGeneral hm hid group)) fun _ _ =>
        hosting_forM (hosting_draftProperty hm group id)
  | association path properties =>
    exact hmake _ _ fun id _ => hosting_forM (hosting_draftProperty hm group id)
  | enumeration path values =>
    exact hmake _ _ fun id _ => hosting_forM (hosting_draftValue hm id)
  | function path parameters result body =>
    refine hmake _ _ fun id _ => hosting_bind (hosting_mapM (hosting_draftParameter hm group id))
      fun scope _ => hosting_bind (R := fun _ => True) ?_ fun _ _ =>
        hosting_forM (hosting_draftProjection hm scope id)
    cases result with
    | none => exact hosting_pure trivial
    | some result => exact hosting_draftResult hm group id result
  | element classifier path =>
    refine hosting_bind hosting_span fun span _ => hosting_discard (P := fun _ => True) ?_
    unfold elementNamed
    split
    · exact hosting_throw _
    · exact fun set => (hosting_element hm _ _ _ set).mono fun _ _ => trivial
  | malformed message => exact hosting_fail message

theorem hosting_draftLine (scope : Scope) (l : Line) : Hosting m (draftLine scope l) := by
  have hgroup (d : Declaration) : Hosting m (groupFor l scope d) := by
    have hopen : Hosting m (do importGroup (← l.span)) :=
      hosting_bind hosting_span fun _ _ => hosting_importGroup hm _
    unfold groupFor
    split
    · split
      · exact hopen
      · exact hosting_pure trivial
    · exact hopen
  unfold draftLine
  dsimp only
  split
  · exact hosting_pure trivial
  · exact hosting_bind (hgroup _) fun group _ =>
      hosting_bind (hosting_draftDeclaration hm group _) fun _ _ => hosting_pure trivial

theorem hosting_draft (content : String) : Hosting m (draft content) :=
  hosting_discard (hosting_foldlM (hosting_draftLine hm))

end Declarations

end Grammar

end ModelCompiler
