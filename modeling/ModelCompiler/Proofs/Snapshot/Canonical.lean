import Mathlib
import ModelCompiler.Snapshot

/-!
The text of a JSON value can be read in one way: an escape stands before the rest of its string, a
number ends where its digits end, and an item is followed by a comma or by the bracket that closes
its row. Main statement: snapshots with the same canonical bytes are the same.
-/
namespace ModelCompiler

namespace Json

variable {α : Type} {c d : Char} {s t : String} {v w : Json} {x y : List Char}

section Strings

theorem hexValue?_hexDigit : ∀ n < 16, hexValue? (hexDigit n) = some n := by decide

theorem hexUnit?_hexDigit {n : ℕ} (hn : n < 0x20) :
    hexUnit? '0' '0' (hexDigit (n / 16)) (hexDigit (n % 16)) = some n := by
  have hzero : hexValue? '0' = some 0 := by decide
  simp only [hexUnit?, hzero, hexValue?_hexDigit (n / 16) (by omega),
    hexValue?_hexDigit (n % 16) (by omega), Option.bind_eq_bind, Option.bind_some,
    Option.pure_def, Option.some.injEq]
  omega

theorem readUnits_escape (c : Char) (x : List Char) :
    readUnits (escape c ++ x) = (readUnits x).map fun p => (c.toNat :: p.1, p.2) := by
  have hmap : ∀ u, ((readUnits x).bind fun p => some (u :: p.1, p.2)) =
      (readUnits x).map fun p => (u :: p.1, p.2) := fun u => by cases readUnits x <;> rfl
  unfold escape
  split_ifs <;> simp_all [readUnits, simpleEscape?, hexUnit?_hexDigit]

theorem readUnits_flatMap_escape (cs x : List Char) :
    readUnits (cs.flatMap escape ++ '"' :: x) = some (cs.map Char.toNat, x) := by
  induction cs with
  | nil => simp [readUnits]
  | cons c cs ih => rw [List.flatMap_cons, List.append_assoc, readUnits_escape, ih]; rfl

theorem quote_append_inj (h : quote s ++ x = quote t ++ y) : s = t ∧ x = y := by
  simp only [quote, List.cons_append, List.append_assoc, List.cons.injEq, true_and,
    List.nil_append] at h
  have hread := congrArg readUnits h
  rw [readUnits_flatMap_escape, readUnits_flatMap_escape] at hread
  obtain ⟨hst, hxy⟩ := Prod.mk.inj (Option.some.inj hread)
  exact ⟨String.toList_inj.1 (List.map_injective_iff.2 (fun _ _ => Char.toNat_inj.1) hst), hxy⟩

end Strings

section Numbers

def Ended (x : List Char) : Prop :=
  ∀ c, x.head? = some c → c.isDigit = false

theorem ended_nil : Ended [] :=
  fun _ h => nomatch h

theorem ended_cons (hc : c.isDigit = false) : Ended (c :: x) :=
  fun _ h => Option.some.inj h ▸ hc

theorem takeWhile_isDigit (hx : Ended x) (n : ℕ) :
    (Nat.toDigits 10 n ++ x).takeWhile Char.isDigit = Nat.toDigits 10 n := by
  rw [List.takeWhile_append_of_pos
    fun c hc => Nat.isDigit_of_mem_toDigits (by decide) (by decide) hc]
  cases x with
  | nil => simp
  | cons c x => simp [hx c rfl]

theorem toDigits_append_inj {m n : ℕ} (hx : Ended x) (hy : Ended y)
    (h : Nat.toDigits 10 m ++ x = Nat.toDigits 10 n ++ y) : m = n ∧ x = y := by
  have hdigits : Nat.toDigits 10 m = Nat.toDigits 10 n := by
    rw [← takeWhile_isDigit hx m, h, takeWhile_isDigit hy]
  have hmn : m = n := by
    rw [← Nat.ofDigitChars_ten_toDigits (n := m), hdigits, Nat.ofDigitChars_ten_toDigits]
  subst hmn
  exact ⟨rfl, List.append_cancel_left h⟩

theorem exists_toDigits (n : ℕ) : ∃ c cs, Nat.toDigits 10 n = c :: cs ∧ c.isDigit = true := by
  obtain ⟨c, cs, h⟩ := List.exists_cons_of_ne_nil (Nat.toDigits_ne_nil (n := n) (b := 10))
  refine ⟨c, cs, h, Nat.isDigit_of_mem_toDigits (n := n) (b := 10) (by decide) (by decide) ?_⟩
  exact h ▸ List.mem_cons_self

end Numbers

section Rows

theorem itemChars_eq : ∀ vs : List Json, itemChars vs = [','].intercalate (vs.map chars)
  | [] => by simp [itemChars]
  | [v] => by simp [itemChars]
  | v :: w :: vs => by
    rw [itemChars, itemChars_eq (w :: vs)]
    · simp [List.intercalate_cons_cons]
    · simp

def fieldText (f : String × Json) : List Char :=
  quote f.1 ++ ':' :: f.2.chars

theorem fieldChars_eq : ∀ fs : List (String × Json),
    fieldChars fs = [','].intercalate (fs.map fieldText)
  | [] => by simp [fieldChars]
  | [f] => by simp [fieldChars, fieldText]
  | f :: g :: fs => by
    rw [fieldChars, fieldChars_eq (g :: fs)]
    · simp [List.intercalate_cons_cons, fieldText]
    · simp

def following (text : α → List Char) (close : Char) : List α → List Char → List Char
  | [], x => close :: x
  | as, x => ',' :: ([','].intercalate (as.map text) ++ close :: x)

theorem intercalate_cons_append (text : α → List Char) (close : Char) (a : α) (as : List α) :
    [','].intercalate ((a :: as).map text) ++ close :: x = text a ++ following text close as x := by
  cases as with
  | nil => simp [following]
  | cons b as => simp [following, List.intercalate_cons_cons]

theorem ended_following (text : α → List Char) {close : Char} (hclose : close.isDigit = false) :
    ∀ as : List α, Ended (following text close as x)
  | [] => ended_cons hclose
  | _ :: _ => ended_cons (by decide)

theorem row_inj {text : α → List Char} {close : Char} (hdigit : close.isDigit = false)
    (hcomma : close ≠ ',') {as bs : List α}
    (hstart : ∀ a ∈ as ++ bs, ∀ r s, text a ++ r ≠ close :: s)
    (hitem : ∀ a ∈ as, ∀ b ∈ bs, ∀ r s, Ended r → Ended s → text a ++ r = text b ++ s →
      a = b ∧ r = s)
    (h : [','].intercalate (as.map text) ++ close :: x =
      [','].intercalate (bs.map text) ++ close :: y) : as = bs ∧ x = y := by
  induction as generalizing bs with
  | nil =>
    cases bs with
    | nil => simpa using h
    | cons b bs =>
      rw [intercalate_cons_append] at h
      exact absurd (by simpa using h.symm) (hstart b (by simp) _ _)
  | cons a as ih =>
    cases bs with
    | nil =>
      rw [intercalate_cons_append] at h
      exact absurd (by simpa using h) (hstart a (by simp) _ _)
    | cons b bs =>
      rw [intercalate_cons_append, intercalate_cons_append] at h
      obtain ⟨rfl, hrest⟩ := hitem a (by simp) b (by simp) _ _ (ended_following text hdigit as)
        (ended_following text hdigit bs) h
      have hstart' : ∀ e ∈ as ++ bs, ∀ r s, text e ++ r ≠ close :: s := fun e he =>
        hstart e (by rcases List.mem_append.1 he with he | he <;> simp [he])
      have hitem' := fun e (he : e ∈ as) f (hf : f ∈ bs) =>
        hitem e (List.mem_cons_of_mem _ he) f (List.mem_cons_of_mem _ hf)
      have key : as = bs ∧ x = y := by
        match as, bs with
        | [], [] => exact ⟨rfl, (List.cons.inj hrest).2⟩
        | [], _ :: _ => exact absurd (List.cons.inj hrest).1 hcomma
        | _ :: _, [] => exact absurd (List.cons.inj hrest).1.symm hcomma
        | _ :: _, _ :: _ => exact ih hstart' hitem' (List.cons.inj hrest).2
      exact ⟨by rw [key.1], key.2⟩

end Rows

section Values

/-- Values without numbers other than the natural ones. -/
inductive Plain : Json → Prop where
  | null : Plain .null
  | bool (b : Bool) : Plain (.bool b)
  | nat (n : ℕ) : Plain (.nat n)
  | string (s : String) : Plain (.string s)
  | array {items : List Json} (h : ∀ v ∈ items, Plain v) : Plain (.array items)
  | object {fields : List (String × Json)} (h : ∀ f ∈ fields, Plain f.2) : Plain (.object fields)

def mark : Json → Char
  | .null | .unreadable => 'n'
  | .bool b => if b then 't' else 'f'
  | .nat _ | .decimal _ => '0'
  | .string _ => '"'
  | .array _ => '['
  | .object _ => '\x7b'

def markOf (c : Char) : Char :=
  if c.isDigit then '0' else c

theorem Plain.exists_chars (h : Plain v) : ∃ c cs, v.chars = c :: cs ∧ markOf c = v.mark := by
  cases h with
  | null => exact ⟨_, _, by rw [chars], by decide⟩
  | bool b => cases b <;> exact ⟨_, _, by rw [chars], by decide⟩
  | nat n =>
    obtain ⟨c, cs, hn, hc⟩ := exists_toDigits n
    exact ⟨c, cs, by rw [chars, hn], if_pos hc⟩
  | string s => exact ⟨_, _, by rw [chars, quote], rfl⟩
  | array h | object h => exact ⟨_, _, by rw [chars], rfl⟩

theorem Plain.mark_eq (hv : Plain v) (hw : Plain w) (h : v.chars ++ x = w.chars ++ y) :
    v.mark = w.mark := by
  obtain ⟨c, cs, hc, hmark⟩ := hv.exists_chars
  obtain ⟨d, ds, hd, hmark'⟩ := hw.exists_chars
  rw [hc, hd] at h
  rw [← hmark, ← hmark', (List.cons.inj h).1]

theorem mark_ne (v : Json) : v.mark ≠ ']' := by
  cases v with
  | bool b => cases b <;> decide
  | _ => simp [mark]

theorem Plain.chars_append_ne (h : Plain v) : v.chars ++ x ≠ ']' :: y := by
  obtain ⟨c, cs, hc, hmark⟩ := h.exists_chars
  rw [hc]
  intro heq
  refine mark_ne v ?_
  rw [← hmark, (List.cons.inj heq).1]
  decide

theorem Plain.chars_append_inj (hv : Plain v) (hw : Plain w) (hx : Ended x) (hy : Ended y)
    (h : v.chars ++ x = w.chars ++ y) : v = w ∧ x = y := by
  induction hv generalizing w x y with
  | null =>
    have hmark := Plain.mark_eq .null hw h
    cases hw with
    | null => exact ⟨rfl, List.append_cancel_left h⟩
    | bool b => cases b <;> simp [mark] at hmark
    | _ => simp [mark] at hmark
  | bool b =>
    have hmark := Plain.mark_eq (.bool b) hw h
    cases hw with
    | bool c =>
      obtain rfl : b = c := by cases b <;> cases c <;> simp_all [mark]
      exact ⟨rfl, List.append_cancel_left h⟩
    | _ => cases b <;> simp [mark] at hmark
  | nat m =>
    have hmark := Plain.mark_eq (.nat m) hw h
    cases hw with
    | nat n =>
      rw [chars, chars] at h
      obtain ⟨rfl, rfl⟩ := toDigits_append_inj hx hy h
      exact ⟨rfl, rfl⟩
    | bool b => cases b <;> simp [mark] at hmark
    | _ => simp [mark] at hmark
  | string s =>
    have hmark := Plain.mark_eq (.string s) hw h
    cases hw with
    | string t =>
      rw [chars, chars] at h
      obtain ⟨rfl, rfl⟩ := quote_append_inj h
      exact ⟨rfl, rfl⟩
    | bool b => cases b <;> simp [mark] at hmark
    | _ => simp [mark] at hmark
  | @array items hitems ih =>
    have hmark := Plain.mark_eq (.array hitems) hw h
    cases hw with
    | @array others hothers =>
      simp only [chars, itemChars_eq, List.cons_append, List.append_assoc, List.cons.injEq,
        true_and, List.nil_append] at h
      obtain ⟨rfl, rfl⟩ := row_inj (by decide) (by decide)
        (fun v hv r s => ((List.mem_append.1 hv).elim (hitems v) (hothers v)).chars_append_ne)
        (fun v hv w hw r s hr hs => ih v hv (hothers w hw) hr hs) h
      exact ⟨rfl, rfl⟩
    | bool b => cases b <;> simp [mark] at hmark
    | _ => simp [mark] at hmark
  | @object fields hfields ih =>
    have hmark := Plain.mark_eq (.object hfields) hw h
    cases hw with
    | @object others hothers =>
      simp only [chars, fieldChars_eq, List.cons_append, List.append_assoc, List.cons.injEq,
        true_and, List.nil_append] at h
      obtain ⟨rfl, rfl⟩ := row_inj (by decide) (by decide)
        (fun f _ r s => by simp [fieldText, quote])
        (fun f hf g hg r s hr hs hfg => by
          simp only [fieldText, List.append_assoc, List.cons_append] at hfg
          obtain ⟨hname, hvalue⟩ := quote_append_inj hfg
          obtain ⟨hvalue, hrest⟩ := ih f hf (hothers g hg) hr hs (List.cons.inj hvalue).2
          exact ⟨Prod.ext hname hvalue, hrest⟩) h
      exact ⟨rfl, rfl⟩
    | bool b => cases b <;> simp [mark] at hmark
    | _ => simp [mark] at hmark

theorem Plain.eq_of_text_eq (hv : Plain v) (hw : Plain w) (h : v.text = w.text) : v = w := by
  have hchars : v.chars = w.chars := String.ofList_injective h
  exact (hv.chars_append_inj hw ended_nil ended_nil (by rw [hchars])).1

end Values

end Json

namespace Snapshot

section Pictures

variable {α : Type}

theorem plain_nullable {f : α → Json} (hf : ∀ a, (f a).Plain) (o : Option α) :
    ((o.map f).getD .null).Plain := by
  cases o with
  | none => exact .null
  | some a => exact hf a

theorem nullable_injective {f : α → Json} (hf : Function.Injective f) (hnull : ∀ a, f a ≠ .null) :
    Function.Injective fun o : Option α => (o.map f).getD .null := by
  intro o p h
  match o, p with
  | none, none => rfl
  | none, some a => exact absurd h.symm (hnull a)
  | some a, none => exact absurd h (hnull a)
  | some a, some b => exact congrArg some (hf h)

theorem plain_span (s : Span) : s.toJson.Plain :=
  .object (by simp [Json.Plain.string, Json.Plain.nat])

theorem span_toJson_injective : Function.Injective Span.toJson := by
  rintro ⟨⟩ ⟨⟩ h
  simpa [Span.toJson] using h

theorem string_injective : Function.Injective Json.string :=
  fun _ _ h => Json.string.inj h

theorem plain_entry (e : Entry) : e.toJson.Plain := by
  refine .object ?_
  simp only [List.forall_mem_cons, List.not_mem_nil, false_imp_iff, implies_true, and_true]
  refine ⟨plain_nullable .string _, plain_nullable .string _, .string _,
    plain_nullable plain_span _, .object ?_⟩
  rintro f hf
  obtain ⟨p, -, rfl⟩ := List.mem_map.1 hf
  refine .array fun v hv => ?_
  obtain ⟨s, -, rfl⟩ := List.mem_map.1 hv
  exact .string s

theorem properties_injective : Function.Injective fun p : String × List String =>
    (p.1, Json.array (p.2.map .string)) := by
  rintro ⟨p, values⟩ ⟨q, others⟩ h
  obtain ⟨rfl, h⟩ := Prod.mk.inj h
  exact Prod.ext rfl (string_injective.list_map (Json.array.inj h))

theorem entry_toJson_injective : Function.Injective Entry.toJson := by
  rintro ⟨_, _, _, _, _⟩ ⟨_, _, _, _, _⟩ h
  simp only [Entry.toJson, Json.object.injEq, List.cons.injEq, Prod.mk.injEq, true_and, and_true,
    Json.string.injEq] at h
  obtain ⟨hclassifier, hname, rfl, hspan, hproperties⟩ := h
  rw [nullable_injective string_injective (by simp) hclassifier,
    nullable_injective string_injective (by simp) hname,
    nullable_injective span_toJson_injective (by simp [Span.toJson]) hspan,
    properties_injective.list_map hproperties]

theorem plain_toJson (s : Snapshot) : s.toJson.Plain := by
  refine .object fun f hf => ?_
  obtain ⟨e, -, rfl⟩ := List.mem_map.1 hf
  exact plain_entry e.2

theorem toJson_injective : Function.Injective Snapshot.toJson := by
  rintro ⟨entries⟩ ⟨entries'⟩ h
  have hentry : Function.Injective fun p : String × Entry => (p.1, p.2.toJson) := by
    rintro ⟨k, e⟩ ⟨l, f⟩ h
    obtain ⟨rfl, h⟩ := Prod.mk.inj h
    exact Prod.ext rfl (entry_toJson_injective h)
  exact congrArg _ (hentry.list_map (Json.object.inj h))

theorem toList_loop_eq (bytes : ByteArray) (i : ℕ) (r : List UInt8) :
    ByteArray.toList.loop bytes i r = r.reverse ++ bytes.data.toList.drop i := by
  fun_induction ByteArray.toList.loop bytes i r with
  | case1 i r h ih =>
    have hi : i < bytes.data.toList.length := h
    rw [ih, List.drop_eq_getElem_cons hi]
    simp [ByteArray.get!, getElem!_pos bytes.data i h]
  | case2 i r h =>
    have hi : bytes.data.toList.length ≤ i := Nat.le_of_not_lt h
    rw [List.drop_eq_nil_of_le hi, List.append_nil]

theorem toList_injective : Function.Injective ByteArray.toList := by
  intro a b h
  simp only [ByteArray.toList, toList_loop_eq, List.reverse_nil, List.nil_append,
    List.drop_zero] at h
  exact ByteArray.ext (Array.toList_inj.1 h)

end Pictures

/-- Equal canonical bytes are those of equal snapshots, whatever stands in keys, names and
properties. -/
theorem bytes_eq_bytes_iff (a b : Snapshot) : a.bytes = b.bytes ↔ a = b := by
  refine ⟨fun h => ?_, congrArg bytes⟩
  have htext : a.text = b.text := String.toByteArray_inj.1 (toList_injective h)
  exact toJson_injective ((plain_toJson a).eq_of_text_eq (plain_toJson b) htext)

end Snapshot

end ModelCompiler
