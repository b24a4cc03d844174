import Mathlib.Tactic.SplitIfs
import PatchTyping.JsonReading

/-!
# Reading back written JSON

The compact text of a value is read as the document of that value, with nothing left over. Strings come
back whatever characters they have. Numbers come back if their own text does, which is assumed, and
nesting may be of any depth: a part that is too deep is marked as such in the document.
-/

namespace PatchTyping

open JsonReading

namespace Json

mutual

/-- The document of a value inside `depth` lists and objects. -/
def documentAt (depth : Nat) : Json → Document
  | null => .null
  | bool b => .bool b
  | int n => .number (.ok (.int n))
  | float x => .number (.ok (.float x))
  | str s => .string (.ok s)
  | arr items => .list (Document.depthLimit ≤ depth) (itemsAt (depth + 1) items)
  | obj fields => .object (Document.depthLimit ≤ depth) (fieldsAt (depth + 1) fields)

def itemsAt (depth : Nat) : List Json → List Document
  | [] => []
  | x :: xs => documentAt depth x :: itemsAt depth xs

def fieldsAt (depth : Nat) : List (String × Json) → List (Except JsonFault String × Document)
  | [] => []
  | (k, x) :: fs => (.ok k, documentAt depth x) :: fieldsAt depth fs

end

theorem itemsAt_eq_map (depth : Nat) (xs : List Json) :
    itemsAt depth xs = xs.map (documentAt depth) := by
  induction xs with
  | nil => rfl
  | cons x xs ih => rw [itemsAt, ih, List.map_cons]

theorem fieldsAt_eq_map (depth : Nat) (fs : List (String × Json)) :
    fieldsAt depth fs = fs.map fun f => (.ok f.1, documentAt depth f.2) := by
  induction fs with
  | nil => rfl
  | cons f fs ih => rw [fieldsAt, ih, List.map_cons]

theorem fieldsAt_append (depth : Nat) (fs gs : List (String × Json)) :
    fieldsAt depth (fs ++ gs) = fieldsAt depth fs ++ fieldsAt depth gs := by
  rw [fieldsAt_eq_map, fieldsAt_eq_map, fieldsAt_eq_map, List.map_append]

/-- What may follow a value in a written text. -/
def Delimited (rest : List Char) : Prop := ∀ c ∈ rest.head?, c = ',' ∨ c = ']' ∨ c = '\x7d'

theorem delimited_cons {c : Char} (h : c = ',' ∨ c = ']' ∨ c = '\x7d') (rest : List Char) :
    Delimited (c :: rest) := by
  intro d hd
  cases hd
  exact h

/-- The characters are read as the number and not beyond. -/
structure Spells (cs : List Char) (n : Number) : Prop where
  starts : ∃ c ∈ cs.head?, c = '-' ∨ c.isDigit = true
  reads : ∀ rest, Delimited rest → ofNumber (cs ++ rest) = (.number (.ok n), some rest)

/-- Every number in the value is spelled so that it can be read. -/
inductive Legible : Json → Prop
  | null : Legible null
  | bool (b : Bool) : Legible (bool b)
  | int {n : Int} (h : Spells (scalarChars (int n)) (.int n)) : Legible (int n)
  | float {x : Float} (h : Spells (scalarChars (float x)) (.float x)) : Legible (float x)
  | str (s : String) : Legible (str s)
  | arr {items : List Json} (h : ∀ x ∈ items, Legible x) : Legible (arr items)
  | obj {fields : List (String × Json)} (h : ∀ f ∈ fields, Legible f.2) : Legible (obj fields)

/-! ### Strings -/

theorem hexCode?_control : ∀ n < 32,
    hexCode? '0' '0' (hexDigit (n / 16)) (hexDigit (n % 16)) = some n := by decide

theorem escapedChar_cases (c : Char) :
    (∃ e, escapedChar c = ['\\', e] ∧ e ≠ 'u' ∧ shortEscape? e = some c) ∨
      (c.toNat < 0x20 ∧ escapedChar c =
        ['\\', 'u', '0', '0', hexDigit (c.toNat / 16), hexDigit (c.toNat % 16)]) ∨
      (escapedChar c = [c] ∧ c ≠ '"' ∧ c ≠ '\\' ∧ ¬ c.toNat < 0x20) := by
  unfold escapedChar
  split_ifs with hquote hslash hb hf hn hr ht hcontrol
  · exact .inl ⟨'"', rfl, by decide, by rw [hquote]; rfl⟩
  · exact .inl ⟨'\\', rfl, by decide, by rw [hslash]; rfl⟩
  · exact .inl ⟨'b', rfl, by decide, by rw [hb]; rfl⟩
  · exact .inl ⟨'f', rfl, by decide, by rw [hf]; rfl⟩
  · exact .inl ⟨'n', rfl, by decide, by rw [hn]; rfl⟩
  · exact .inl ⟨'r', rfl, by decide, by rw [hr]; rfl⟩
  · exact .inl ⟨'t', rfl, by decide, by rw [ht]; rfl⟩
  · exact .inr (.inl ⟨hcontrol, rfl⟩)
  · exact .inr (.inr ⟨rfl, hquote, hslash, hcontrol⟩)

theorem readString_escapedChar (read : List Char) (c : Char) (rest : List Char) :
    readString ⟨.ok read, none⟩ (escapedChar c ++ rest) = readString ⟨.ok (c :: read), none⟩ rest := by
  rcases escapedChar_cases c with ⟨e, hc, hu, he⟩ | ⟨hcontrol, hc⟩ | ⟨hc, hquote, hslash, hplain⟩
  · rw [hc, List.cons_append, List.cons_append, List.nil_append, readString, he]
    · rfl
    · exact fun _ _ _ _ _ h => (hu h).elim
    · exact hu
  · have hunit : StringState.pushUnit ⟨.ok read, none⟩ c.toNat = ⟨.ok (c :: read), none⟩ := by
      have hlow : ¬ (0xDC00 ≤ c.toNat ∧ c.toNat ≤ 0xDFFF) := by omega
      have hhigh : ¬ (0xD800 ≤ c.toNat ∧ c.toNat ≤ 0xDBFF) := by omega
      simp only [StringState.pushUnit, if_neg hlow, if_neg hhigh, Char.ofNat_toNat]
      rfl
    simp only [hc, List.cons_append, List.nil_append, readString, hexCode?_control _ hcontrol, hunit]
  · rw [hc, List.cons_append, List.nil_append, readString, if_neg hplain]
    · rfl
    · exact hquote
    · exact fun _ _ _ _ _ h => (hslash h).elim
    · exact fun _ h => (hslash h).elim
    · exact fun _ _ h => (hslash h).elim
    · exact fun h => (hslash h).elim

theorem stringChars_append (s : String) (rest : List Char) :
    stringChars s ++ rest = '"' :: (s.toList.flatMap escapedChar ++ '"' :: rest) := by
  simp [stringChars]

theorem readString_stringChars (s : String) (rest : List Char) :
    readString .start (s.toList.flatMap escapedChar ++ '"' :: rest) = .ok (.ok s, rest) := by
  have hread : ∀ cs read : List Char,
      readString ⟨.ok read, none⟩ (cs.flatMap escapedChar ++ '"' :: rest) =
        .ok (.ok (String.ofList (cs.reverse ++ read).reverse), rest) := by
    intro cs
    induction cs with
    | nil => intro read; rfl
    | cons c cs ih =>
      intro read
      rw [List.flatMap_cons, List.append_assoc, readString_escapedChar, ih]
      simp
  rw [StringState.start, hread]
  simp

/-! ### Values -/

theorem skipBlanks_cons {c : Char} (h : isBlank c = false) (cs : List Char) :
    skipBlanks (c :: cs) = c :: cs := by
  rw [skipBlanks, List.dropWhile_cons_of_neg (by simp [h])]

/-- A character that starts a value inside a list. -/
def StartsItem (c : Char) : Prop := isBlank c = false ∧ c ≠ ']'

section Start

variable {c : Char} (hc : c = '-' ∨ c.isDigit = true)
include hc

theorem ne_of_startsNumber {d : Char} (hd : ¬ (d = '-' ∨ d.isDigit = true)) : c ≠ d := by
  rintro rfl
  exact hd hc

theorem startsItem_of_startsNumber : StartsItem c := by
  refine ⟨?_, ne_of_startsNumber hc (by decide)⟩
  simp only [isBlank, Bool.or_eq_false_iff, beq_eq_false_iff_ne]
  refine ⟨⟨⟨?_, ?_⟩, ?_⟩, ?_⟩ <;> exact ne_of_startsNumber hc (by decide)

theorem readValue_number (fuel depth : Nat) (cs : List Char) :
    readValue (fuel + 1) depth (c :: cs) = ofNumber (c :: cs) := by
  rw [readValue, skipBlanks_cons (startsItem_of_startsNumber hc).1]
  split <;> rename_i heq <;> cases heq
  case h_8.refl => rw [if_pos hc]
  all_goals exact absurd hc (by decide)

end Start

theorem Legible.head_compactChars {j : Json} (h : Legible j) :
    ∃ c cs, j.compactChars = c :: cs ∧ StartsItem c := by
  have hnumber : ∀ {cs : List Char} {n : Number}, Spells cs n →
      ∃ c cs', cs = c :: cs' ∧ StartsItem c := by
    intro cs n hspells
    obtain ⟨c, hc, hstart⟩ := hspells.starts
    obtain ⟨cs', rfl⟩ := List.head?_eq_some_iff.mp hc
    exact ⟨c, cs', rfl, startsItem_of_startsNumber hstart⟩
  cases h with
  | null => exact ⟨'n', _, rfl, by decide, by decide⟩
  | bool b => cases b <;> exact ⟨_, _, rfl, by decide, by decide⟩
  | int h => exact hnumber h
  | float h => exact hnumber h
  | str s => exact ⟨'"', _, rfl, by decide, by decide⟩
  | @arr items h => cases items <;> exact ⟨'[', _, rfl, by decide, by decide⟩
  | @obj fields h => cases fields <;> exact ⟨'\x7b', _, rfl, by decide, by decide⟩

section Steps

variable {fuel depth : Nat} {d : Document} {cs rest : List Char} {c : Char} {key : String}

theorem readValue_string (s : String) : readValue (fuel + 1) depth (stringChars s ++ rest) =
    (.string (.ok s), some rest) := by
  rw [stringChars_append, readValue, skipBlanks_cons (by decide)]
  simp only [readString_stringChars]

theorem readValue_list (hc : StartsItem c) : readValue (fuel + 1) depth ('[' :: c :: cs) =
    (.list (Document.depthLimit ≤ depth) (readItems fuel (depth + 1) (c :: cs)).1,
      (readItems fuel (depth + 1) (c :: cs)).2) := by
  rw [readValue, skipBlanks_cons (by decide)]
  simp only [skipBlanks_cons hc.1]
  split
  · next heq => cases heq
  · next heq =>
    cases heq
    exact absurd rfl hc.2
  · rfl

theorem readItems_last (h : readValue fuel depth cs = (d, some (']' :: rest))) :
    readItems (fuel + 1) depth cs = ([d], some rest) := by
  rw [readItems, h]
  rfl

theorem readItems_more (h : readValue fuel depth cs = (d, some (',' :: c :: rest)))
    (hc : StartsItem c) : readItems (fuel + 1) depth cs =
      (d :: (readItems fuel depth (c :: rest)).1, (readItems fuel depth (c :: rest)).2) := by
  rw [readItems, h]
  simp only [skipBlanks_cons (show isBlank ',' = false by decide), skipBlanks_cons hc.1]
  split
  · next heq => cases heq
  · next heq =>
    cases heq
    exact absurd rfl hc.2
  · rfl

theorem readValue_object : readValue (fuel + 1) depth ('\x7b' :: '"' :: cs) =
    (.object (Document.depthLimit ≤ depth) (readFields fuel (depth + 1) ('"' :: cs)).1,
      (readFields fuel (depth + 1) ('"' :: cs)).2) := rfl

theorem readFields_last (h : readValue fuel depth cs = (d, some ('\x7d' :: rest))) :
    readFields (fuel + 1) depth (stringChars key ++ ':' :: cs) = ([(.ok key, d)], some rest) := by
  rw [stringChars_append, readFields]
  simp only [readString_stringChars, skipBlanks_cons (show isBlank ':' = false by decide), h,
    skipBlanks_cons (show isBlank '\x7d' = false by decide)]

theorem readFields_more (h : readValue fuel depth cs = (d, some (',' :: '"' :: rest))) :
    readFields (fuel + 1) depth (stringChars key ++ ':' :: cs) =
      ((.ok key, d) :: (readFields fuel depth ('"' :: rest)).1,
        (readFields fuel depth ('"' :: rest)).2) := by
  rw [stringChars_append, readFields]
  simp only [readString_stringChars, skipBlanks_cons (show isBlank ':' = false by decide), h,
    skipBlanks_cons (show isBlank ',' = false by decide),
    skipBlanks_cons (show isBlank '"' = false by decide)]
  rfl

end Steps

/-- With enough fuel the value is read back, wherever it stands. -/
def ReadsBack (j : Json) : Prop := ∀ (fuel depth : Nat) (rest : List Char),
  2 * j.compactChars.length ≤ fuel → Delimited rest →
    readValue fuel depth (j.compactChars ++ rest) = (j.documentAt depth, some rest)

/-- Items that are read back one by one are read back as a list. -/
theorem readItems_compactItems {x : Json} {xs : List Json} (hlegible : ∀ y ∈ xs, Legible y)
    (hx : ReadsBack x) (hxs : ∀ y ∈ xs, ReadsBack y) (depth : Nat) (rest : List Char) {fuel : Nat}
    (hfuel : 2 * (x.compactChars.length + (compactItems xs).length) < fuel) :
    readItems fuel depth (x.compactChars ++ (compactItems xs ++ ']' :: rest)) =
      (itemsAt depth (x :: xs), some rest) := by
  obtain ⟨fuel, rfl⟩ := Nat.exists_eq_add_one_of_ne_zero (Nat.ne_zero_of_lt hfuel)
  induction xs generalizing x fuel with
  | nil => exact readItems_last (hx fuel depth _ (by omega) (delimited_cons (by simp) rest))
  | cons y ys ih =>
    obtain ⟨c, cs, hy, hc⟩ := (hlegible y List.mem_cons_self).head_compactChars
    have htext : compactItems (y :: ys) ++ ']' :: rest =
        ',' :: c :: (cs ++ (compactItems ys ++ ']' :: rest)) := by simp [compactItems, hy]
    have hlength : (compactItems (y :: ys)).length =
        y.compactChars.length + (compactItems ys).length + 1 := by simp [compactItems]
    have hfirst := hx fuel depth (',' :: c :: (cs ++ (compactItems ys ++ ']' :: rest))) (by omega)
      (delimited_cons (.inl rfl) _)
    obtain ⟨fuel, rfl⟩ : ∃ n, fuel = n + 1 := Nat.exists_eq_add_one_of_ne_zero (by omega)
    have hmore := ih (fun z hz => hlegible z (List.mem_cons_of_mem _ hz)) (hxs y List.mem_cons_self)
      (fun z hz => hxs z (List.mem_cons_of_mem _ hz)) fuel (by omega)
    rw [hy, List.cons_append] at hmore
    rw [htext, readItems_more hfirst hc, hmore]
    rfl

/-- Fields whose values are read back one by one are read back as an object. -/
theorem readFields_compactFields (key : String) {x : Json} {fs : List (String × Json)}
    (hx : ReadsBack x) (hfs : ∀ f ∈ fs, ReadsBack f.2) (depth : Nat) (rest : List Char) {fuel : Nat}
    (hfuel : 2 * (x.compactChars.length + (compactFields fs).length) < fuel) :
    readFields fuel depth (stringChars key ++ ':' ::
      (x.compactChars ++ (compactFields fs ++ '\x7d' :: rest))) =
        (fieldsAt depth ((key, x) :: fs), some rest) := by
  obtain ⟨fuel, rfl⟩ := Nat.exists_eq_add_one_of_ne_zero (Nat.ne_zero_of_lt hfuel)
  induction fs generalizing key x fuel with
  | nil => exact readFields_last (hx fuel depth _ (by omega) (delimited_cons (by simp) rest))
  | cons f fs ih =>
    obtain ⟨key', y⟩ := f
    have htext : compactFields ((key', y) :: fs) ++ '\x7d' :: rest = ',' :: (stringChars key' ++ ':' ::
        (y.compactChars ++ (compactFields fs ++ '\x7d' :: rest))) := by simp [compactFields]
    have hlength : (compactFields ((key', y) :: fs)).length =
        (stringChars key').length + y.compactChars.length + (compactFields fs).length + 2 := by
      simp [compactFields]
      omega
    have hfirst := hx fuel depth (',' :: (stringChars key' ++ ':' ::
      (y.compactChars ++ (compactFields fs ++ '\x7d' :: rest)))) (by omega)
        (delimited_cons (.inl rfl) _)
    obtain ⟨fuel, rfl⟩ : ∃ n, fuel = n + 1 := Nat.exists_eq_add_one_of_ne_zero (by omega)
    have hroom : 2 * (y.compactChars.length + (compactFields fs).length) < fuel + 1 := by omega
    have hmore := ih key' (hfs _ List.mem_cons_self) (fun g hg => hfs g (List.mem_cons_of_mem _ hg))
      fuel hroom
    rw [stringChars_append] at hfirst hmore
    rw [htext, stringChars_append key', readFields_more hfirst, hmore]
    rfl

theorem readsBack_of_fuel {j : Json} (h : Legible j)
    (hread : ∀ (fuel depth : Nat) (rest : List Char), 2 * j.compactChars.length ≤ fuel + 1 →
      Delimited rest →
        readValue (fuel + 1) depth (j.compactChars ++ rest) = (j.documentAt depth, some rest)) :
    ReadsBack j := by
  intro fuel depth rest hfuel hrest
  obtain ⟨c, cs, hhead, -⟩ := h.head_compactChars
  have hlength : j.compactChars.length = cs.length + 1 := by rw [hhead, List.length_cons]
  obtain ⟨fuel, rfl⟩ : ∃ n, fuel = n + 1 := Nat.exists_eq_add_one_of_ne_zero (by omega)
  exact hread fuel depth rest hfuel hrest

theorem readsBack_arr {items : List Json} (h : ∀ x ∈ items, Legible x)
    (ih : ∀ x ∈ items, ReadsBack x) : ReadsBack (arr items) := by
  refine readsBack_of_fuel (.arr h) fun fuel depth rest hfuel _ => ?_
  cases items with
  | nil => rfl
  | cons x xs =>
    obtain ⟨hx, hxs⟩ := List.forall_mem_cons.mp h
    obtain ⟨ihx, ihxs⟩ := List.forall_mem_cons.mp ih
    obtain ⟨c, cs, hhead, hc⟩ := hx.head_compactChars
    have htext : (arr (x :: xs)).compactChars ++ rest =
        '[' :: (x.compactChars ++ (compactItems xs ++ ']' :: rest)) := by simp [compactChars]
    have hlength : (arr (x :: xs)).compactChars.length =
        x.compactChars.length + (compactItems xs).length + 2 := by
      simp [compactChars]
      omega
    have hroom : 2 * (x.compactChars.length + (compactItems xs).length) < fuel := by omega
    have hitems := readItems_compactItems hxs ihx ihxs (depth + 1) rest hroom
    rw [hhead, List.cons_append] at hitems
    rw [htext, hhead, List.cons_append, readValue_list hc, hitems]
    rfl

theorem readsBack_obj {fields : List (String × Json)} (h : ∀ f ∈ fields, Legible f.2)
    (ih : ∀ f ∈ fields, ReadsBack f.2) : ReadsBack (obj fields) := by
  refine readsBack_of_fuel (.obj h) fun fuel depth rest hfuel _ => ?_
  cases fields with
  | nil => rfl
  | cons f fs =>
    obtain ⟨key, x⟩ := f
    obtain ⟨ihx, ihfs⟩ := List.forall_mem_cons.mp ih
    have htext : (obj ((key, x) :: fs)).compactChars ++ rest = '\x7b' :: (stringChars key ++ ':' ::
        (x.compactChars ++ (compactFields fs ++ '\x7d' :: rest))) := by simp [compactChars]
    have hlength : (obj ((key, x) :: fs)).compactChars.length = (stringChars key).length +
        x.compactChars.length + (compactFields fs).length + 3 := by
      simp [compactChars]
      omega
    have hroom : 2 * (x.compactChars.length + (compactFields fs).length) < fuel := by omega
    have hfields := readFields_compactFields key ihx ihfs (depth + 1) rest hroom
    rw [stringChars_append] at hfields
    rw [htext, stringChars_append, readValue_object, hfields]
    rfl

/-- Every legible value is read back, by induction on it. -/
theorem Legible.readsBack {j : Json} (h : Legible j) : ReadsBack j := by
  have hnumber : ∀ {cs : List Char} {n : Number}, Spells cs n → ∀ (fuel depth : Nat) (rest : List Char),
      Delimited rest → readValue (fuel + 1) depth (cs ++ rest) = (.number (.ok n), some rest) := by
    intro cs n hspells fuel depth rest hrest
    obtain ⟨c, hc, hstart⟩ := hspells.starts
    obtain ⟨cs', rfl⟩ := List.head?_eq_some_iff.mp hc
    rw [List.cons_append, readValue_number hstart, ← List.cons_append, hspells.reads rest hrest]
  induction h with
  | null => exact readsBack_of_fuel .null fun fuel depth rest _ _ => rfl
  | bool b => exact readsBack_of_fuel (.bool b) fun fuel depth rest _ _ => by cases b <;> rfl
  | int h => exact readsBack_of_fuel (.int h) fun fuel depth rest _ => hnumber h fuel depth rest
  | float h => exact readsBack_of_fuel (.float h) fun fuel depth rest _ => hnumber h fuel depth rest
  | str s => exact readsBack_of_fuel (.str s) fun fuel depth rest _ _ => readValue_string s
  | arr h ih => exact readsBack_arr h ih
  | obj h ih => exact readsBack_obj h ih

theorem readDocument_compact {j : Json} (h : Legible j) :
    readDocument j.compact = ⟨j.documentAt 0, none⟩ := by
  have hread := h.readsBack (2 * j.compactChars.length + 2) 0 [] (by omega) (by simp [Delimited])
  rw [List.append_nil] at hread
  simp only [readDocument, compact, String.toList_ofList, hread]
  rfl

end Json

end PatchTyping
