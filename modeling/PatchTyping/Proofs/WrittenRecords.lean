import Mathlib.Data.List.Basic
import PatchTyping.JsonDecoding
import PatchTyping.Proofs.JsonReadBack

/-!
# Records that are written down and read back

A record takes its fields back from the object that it was written as: each part finds its own fields
among those of the others, and a part that was left out takes its default. A union finds its variant by
the tag that stands first.
-/

namespace PatchTyping

theorem mapM_map_eq_ok {ε α β : Type} {f : β → Except ε α} {g : α → β} {as : List α}
    (h : ∀ a ∈ as, f (g a) = .ok a) : (as.map g).mapM f = .ok as := by
  induction as with
  | nil => rfl
  | cons a as ih =>
    obtain ⟨ha, has⟩ := List.forall_mem_cons.mp h
    rw [List.map_cons, List.mapM_cons, ha, ih has]
    rfl

variable {α β : Type} {depth : Nat}

/-- Steps on a part of a state are steps on the whole, field by field. -/
theorem foldlM_fieldsAt_map {ε S S' : Type} {step : S → Except JsonFault String × Document → Except ε S}
    {step' : S' → Except JsonFault String × Document → Except ε S'} (put : S → S')
    {fields : List (String × Json)} (h : ∀ f ∈ fields, ∀ s,
      step' (put s) (.ok f.1, f.2.documentAt depth) = put <$> step s (.ok f.1, f.2.documentAt depth))
    (s : S) : (Json.fieldsAt depth fields).foldlM step' (put s) =
      put <$> (Json.fieldsAt depth fields).foldlM step s := by
  induction fields generalizing s with
  | nil => rfl
  | cons f fields ih =>
    obtain ⟨hf, hfields⟩ := List.forall_mem_cons.mp h
    rw [Json.fieldsAt, List.foldlM_cons, List.foldlM_cons, hf]
    cases step s (.ok f.1, f.2.documentAt depth) with
    | error e => rfl
    | ok s' => exact ih hfields s'

namespace Record

theorem step_of_accept {r : Record α} {slots : r.Slots} {k : String} {d : Document}
    {result : Except DecodeError r.Slots} (h : r.accept slots k d = some result) :
    r.step slots (.ok k, d) = result := by
  simp only [step, Decoder.key, bind, Except.bind, h]

theorem step_of_unknown {r : Record α} {slots : r.Slots} {k : String} {d : Document}
    (h : r.accept slots k d = none) :
    r.step slots (.ok k, d) = (fun _ => slots) <$> Decoder.unlessFault d.cut? := by
  simp only [step, Decoder.key, bind, Except.bind, h]
  cases d.cut? <;> rfl

/-- The record knows fields of the given names only, and is complete with the given ones. -/
structure Reads (r : Record α) (depth : Nat) (names : List String) (fields : List (String × Json))
    (a : α) : Prop where
  unknown : ∀ slots k d, k ∉ names → r.accept slots k d = none
  named : ∀ f ∈ fields, f.1 ∈ names
  complete : ∃ slots, (Json.fieldsAt depth fields).foldlM r.step r.start = .ok slots ∧
    r.complete slots = .ok a

section Field

variable {name : String} {value : Decoder α} {a : α}

theorem field_unknown {default : Option α} (slot : Option α) (k : String) (d : Document)
    (hk : k ∉ [name]) : (field name value default).accept slot k d = none := by
  rw [List.mem_singleton] at hk
  simp only [field, if_neg hk]

theorem Reads.present {j : Json} (h : value (j.documentAt depth) = .ok a) (default : Option α) :
    (field name value default).Reads depth [name] [(name, j)] a where
  unknown := field_unknown
  named := by simp
  complete := by
    refine ⟨some a, ?_, rfl⟩
    have haccept : (field name value default).accept none name (j.documentAt depth) =
        some (.ok (some a)) := by
      simp only [field, if_true, h]
      rfl
    rw [Json.fieldsAt, List.foldlM_cons]
    change (field name value default).step none (.ok name, j.documentAt depth) >>= _ = _
    rw [step_of_accept haccept]
    rfl

theorem Reads.string (depth : Nat) (name s : String) :
    (required name Decoder.string).Reads depth [name] [(name, .str s)] s := by
  have hstring : Decoder.string ((Json.str s).documentAt depth) = .ok s := rfl
  exact Reads.present hstring none

theorem Reads.absent : (field name value (some a)).Reads depth [name] [] a where
  unknown := field_unknown
  named := by simp
  complete := ⟨none, rfl, rfl⟩

end Field

section And

variable {r : Record α} {q : Record β}

/-- What both records have seen so far. -/
def both (s : r.Slots) (t : q.Slots) : (r.and q).Slots := (s, t)

theorem accept_both (s : r.Slots) (t : q.Slots) (k : String) (d : Document) :
    (r.and q).accept (both s t) k d =
      match r.accept s k d with
      | some result => some ((both · t) <$> result)
      | none => (q.accept t k d).map fun result => (both s ·) <$> result := rfl

theorem step_both_left {k : String} {d : Document} (s : r.Slots) {t : q.Slots}
    (hq : q.accept t k d = none) :
    (r.and q).step (both s t) (.ok k, d) = (both · t) <$> r.step s (.ok k, d) := by
  have haccept := accept_both s t k d
  rw [hq] at haccept
  cases hr : r.accept s k d with
  | some result =>
    rw [hr] at haccept
    rw [step_of_accept hr, step_of_accept haccept]
  | none =>
    rw [hr] at haccept
    rw [step_of_unknown hr, step_of_unknown haccept]
    cases d.cut? <;> rfl

theorem step_both_right {k : String} {d : Document} {s : r.Slots} (t : q.Slots)
    (hr : r.accept s k d = none) :
    (r.and q).step (both s t) (.ok k, d) = (both s ·) <$> q.step t (.ok k, d) := by
  have haccept := accept_both s t k d
  rw [hr] at haccept
  cases hq : q.accept t k d with
  | some result =>
    rw [hq] at haccept
    rw [step_of_accept hq, step_of_accept haccept]
  | none =>
    rw [hq] at haccept
    rw [step_of_unknown hq, step_of_unknown haccept]
    cases d.cut? <;> rfl

theorem Reads.and {names names' : List String} {fields fields' : List (String × Json)} {a : α} {b : β}
    (hr : r.Reads depth names fields a) (hq : q.Reads depth names' fields' b)
    (hdisjoint : names.Disjoint names') :
    (r.and q).Reads depth (names ++ names') (fields ++ fields') (a, b) where
  unknown slots k d hk := by
    obtain ⟨hk, hk'⟩ := not_or.mp (mt List.mem_append.mpr hk)
    simp only [Record.and, hr.unknown _ k d hk, hq.unknown _ k d hk', Option.map_none]
  named f hf := List.mem_append.mpr ((List.mem_append.mp hf).imp (hr.named f) (hq.named f))
  complete := by
    obtain ⟨s, hs, ha⟩ := hr.complete
    obtain ⟨t, ht, hb⟩ := hq.complete
    have hleft : (Json.fieldsAt depth fields).foldlM (r.and q).step (both r.start q.start) =
        .ok (both s q.start) := by
      rw [foldlM_fieldsAt_map (both · q.start), hs]
      · rfl
      · exact fun f hf s' => step_both_left s' (hq.unknown _ _ _ (hdisjoint (hr.named f hf)))
    have hright : (Json.fieldsAt depth fields').foldlM (r.and q).step (both s q.start) =
        .ok (both s t) := by
      rw [foldlM_fieldsAt_map (both s ·), ht]
      · rfl
      · exact fun f hf t' =>
          step_both_right t' (hr.unknown _ _ _ fun hmem => hdisjoint hmem (hq.named f hf))
    refine ⟨both s t, ?_, ?_⟩
    · rw [Json.fieldsAt_append, List.foldlM_append]
      change (Json.fieldsAt depth fields).foldlM (r.and q).step (both r.start q.start) >>= _ = _
      rw [hleft]
      exact hright
    · simp only [Record.and, both, ha, hb]
      rfl

end And

theorem step_map {r : Record α} (f : α → β) (slots : r.Slots) (k : String) (d : Document) :
    (r.map f).step slots (.ok k, d) = r.step slots (.ok k, d) := by
  cases h : r.accept slots k d with
  | some result => exact (step_of_accept (r := r.map f) h).trans (step_of_accept h).symm
  | none => exact (step_of_unknown (r := r.map f) h).trans (step_of_unknown h).symm

theorem Reads.map {r : Record α} {names : List String} {fields : List (String × Json)} {a : α}
    (h : r.Reads depth names fields a) (f : α → β) : (r.map f).Reads depth names fields (f a) where
  unknown := h.unknown
  named := h.named
  complete := by
    obtain ⟨s, hs, ha⟩ := h.complete
    have hfold : (Json.fieldsAt depth fields).foldlM (r.map f).step r.start =
        (fun s => s) <$> (Json.fieldsAt depth fields).foldlM r.step r.start :=
      foldlM_fieldsAt_map (fun s : r.Slots => s)
        (fun g _ s => (step_map f s _ _).trans (id_map' _).symm) r.start
    refine ⟨s, hfold.trans ?_, ?_⟩
    · exact (id_map' _).trans hs
    · simp only [Record.map, ha]
      rfl

theorem Reads.ofFields {r : Record α} {names : List String} {fields : List (String × Json)} {a : α}
    (h : r.Reads depth names fields a) : r.ofFields (Json.fieldsAt depth fields) = .ok a := by
  obtain ⟨s, hs, ha⟩ := h.complete
  rw [Record.ofFields, hs]
  exact ha

theorem Reads.decode {r : Record α} {names : List String} {fields : List (String × Json)} {a : α}
    (h : r.Reads (depth + 1) names fields a) (hdepth : depth < Document.depthLimit) (title : String) :
    r.decode title ((Json.obj fields).documentAt depth) = .ok a := by
  simp only [Json.documentAt, Record.decode, Nat.not_le.mpr hdepth, decide_false]
  exact h.ofFields

end Record

namespace TaggedUnion

/-- Once the tag has been met, the other fields are kept as they are. -/
theorem foldlM_step_of_tagged {u : TaggedUnion α} (v : Variant α) {fields : List (String × Json)}
    (hfields : ∀ f ∈ fields, f.1 ≠ u.tagField ∧ (f.2.documentAt depth).fault? = none)
    (seen : List (Except JsonFault String × Document)) :
    (Json.fieldsAt depth fields).foldlM u.step ⟨some v, seen⟩ =
      .ok ⟨some v, (Json.fieldsAt depth fields).reverse ++ seen⟩ := by
  induction fields generalizing seen with
  | nil => rfl
  | cons f fields ih =>
    obtain ⟨⟨hname, hfault⟩, hfields⟩ := List.forall_mem_cons.mp hfields
    have hstep : u.step ⟨some v, seen⟩ (.ok f.1, f.2.documentAt depth) =
        .ok ⟨some v, (.ok f.1, f.2.documentAt depth) :: seen⟩ := by
      simp only [step, Decoder.key, bind, Except.bind, if_neg hname, hfault, Decoder.unlessFault]
      rfl
    rw [Json.fieldsAt, List.foldlM_cons, hstep]
    refine (ih hfields _).trans ?_
    rw [List.reverse_cons, List.append_assoc]
    rfl

/-- A union is read from its tag, written first, and the fields of the variant with that tag. -/
theorem decode_written {u : TaggedUnion α} {v : Variant α} {fields : List (String × Json)} {a : α}
    (htag : u.variants.find? (fun w => w.tag == v.tag) = some v)
    (hfields : ∀ f ∈ fields, f.1 ≠ u.tagField ∧ (f.2.documentAt (depth + 1)).fault? = none)
    (hread : v.ofFields (Json.fieldsAt (depth + 1) fields) = .ok a)
    (hdepth : depth < Document.depthLimit) :
    u.decode ((Json.obj ((u.tagField, .str v.tag) :: fields)).documentAt depth) = .ok a := by
  have hfirst : u.step ⟨none, []⟩ (.ok u.tagField, .string (.ok v.tag)) = .ok ⟨some v, []⟩ := by
    simp only [step, Decoder.key, bind, Except.bind, if_true, variant, htag]
    rfl
  simp only [Json.documentAt, decode, Nat.not_le.mpr hdepth, decide_false]
  change u.ofFields ((.ok u.tagField, .string (.ok v.tag)) :: Json.fieldsAt (depth + 1) fields) = _
  rw [ofFields, List.foldlM_cons, hfirst]
  change (Json.fieldsAt (depth + 1) fields).foldlM u.step ⟨some v, []⟩ >>= _ = _
  rw [foldlM_step_of_tagged v hfields, List.append_nil]
  change v.ofFields (Json.fieldsAt (depth + 1) fields).reverse.reverse = _
  rw [List.reverse_reverse, hread]

end TaggedUnion

end PatchTyping
