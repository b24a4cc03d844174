import PatchTyping.Proofs.JsonReadBack
import PatchTyping.Proofs.PatchAssembly

/-!
# Numbers that are written down and read back

The scanner of numbers stops at whatever follows a value in a written text, so a number that is read
from its text alone is also read inside a document. An integer that fits 64 bits is always read back.
The text of a floating point number has no blanks; whether it is read as the same number depends on the
rounding at both ends, and is assumed where it is needed.
-/

namespace PatchTyping

open JsonReading

namespace Json

/-! ### The scanner -/

theorem numberBreak_ne_ok {α : Type} (cs : List Char) (a : α) : numberBreak cs ≠ .ok a := by
  intro h
  cases cs <;> cases h

section Scanner

variable {cs more rest : List Char}

theorem span_append {p : Char → Bool} (h : ∀ c ∈ rest.head?, p c = false) (cs : List Char) :
    (cs ++ rest).takeWhile p = cs.takeWhile p ∧ (cs ++ rest).dropWhile p = cs.dropWhile p ++ rest := by
  induction cs with
  | nil =>
    cases rest with
    | nil => exact ⟨rfl, rfl⟩
    | cons c rest =>
      have hc : p c = false := h c rfl
      simp [hc]
  | cons c cs ih =>
    cases hc : p c with
    | true => simp [hc, ih.1, ih.2]
    | false => simp [hc]

theorem Delimited.not_digit (h : Delimited rest) : ∀ c ∈ rest.head?, c.isDigit = false := by
  intro c hc
  rcases h c hc with rfl | rfl | rfl <;> decide

variable (hrest : Delimited rest)
include hrest

theorem readWhole_append {digits : List Char} (h : readWhole cs = .ok (digits, more)) :
    readWhole (cs ++ rest) = .ok (digits, more ++ rest) := by
  obtain ⟨htake, hdrop⟩ := span_append hrest.not_digit cs
  simp only [readWhole, htake, hdrop] at h ⊢
  split at h
  · exact absurd h (numberBreak_ne_ok _ _)
  · cases h
  · cases h
    rfl

theorem readFraction_append {fraction : Option (List Char)} (h : readFraction cs = .ok (fraction, more)) :
    readFraction (cs ++ rest) = .ok (fraction, more ++ rest) := by
  unfold readFraction at h
  split at h
  · next cs =>
    obtain ⟨htake, hdrop⟩ := span_append hrest.not_digit cs
    simp only [List.cons_append, readFraction, htake, hdrop] at h ⊢
    split at h
    · exact absurd h (numberBreak_ne_ok _ _)
    · next hdigits =>
      cases h
      rw [if_neg hdigits]
  · next hpoint =>
    cases h
    unfold readFraction
    split
    · next cs' heq =>
      cases cs with
      | nil => simpa using hrest '.' (by rw [List.nil_append] at heq; rw [heq]; rfl)
      | cons c cs =>
        rw [List.cons_append] at heq
        cases heq
        exact absurd rfl (hpoint cs)
    · rfl

theorem readExponentSign_append (cs : List Char) :
    readExponentSign (cs ++ rest) = ((readExponentSign cs).1, (readExponentSign cs).2 ++ rest) := by
  have hplain : ∀ {c : Char} (cs : List Char), c ≠ '+' → c ≠ '-' →
      readExponentSign (c :: cs) = (false, c :: cs) := by
    intro c cs hplus hminus
    simp [readExponentSign, hplus, hminus]
  cases cs with
  | nil =>
    cases rest with
    | nil => rfl
    | cons c rest => rcases hrest c rfl with rfl | rfl | rfl <;> rfl
  | cons c cs =>
    by_cases hplus : c = '+'
    · rw [hplus]
      rfl
    · by_cases hminus : c = '-'
      · rw [hminus]
        rfl
      · rw [List.cons_append, hplain _ hplus hminus, hplain _ hplus hminus]
        rfl

theorem readExponent_append {exponent : Option (Bool × List Char)}
    (h : readExponent cs = .ok (exponent, more)) :
    readExponent (cs ++ rest) = .ok (exponent, more ++ rest) := by
  cases cs with
  | nil =>
    cases h
    cases rest with
    | nil => rfl
    | cons c rest =>
      have hc : ¬ (c = 'e' ∨ c = 'E') := by
        rcases hrest c rfl with rfl | rfl | rfl <;> decide
      simp only [List.nil_append, readExponent, if_neg hc]
  | cons c cs =>
    rw [List.cons_append]
    simp only [readExponent] at h ⊢
    by_cases hc : c = 'e' ∨ c = 'E'
    · rw [if_pos hc] at h ⊢
      obtain ⟨htake, hdrop⟩ := span_append hrest.not_digit (readExponentSign cs).2
      simp only [readExponentSign_append hrest, htake, hdrop] at h ⊢
      split at h
      · exact absurd h (numberBreak_ne_ok _ _)
      · next hdigits =>
        cases h
        rw [if_neg hdigits]
    · rw [if_neg hc] at h ⊢
      cases h
      rfl

end Scanner

/-- A number after its sign. -/
def readUnsigned (negative : Bool) (cs : List Char) : Except JsonFault (NumberLiteral × List Char) := do
  let (whole, cs) ← readWhole cs
  let (fraction, cs) ← readFraction cs
  let (exponent, cs) ← readExponent cs
  return (⟨negative, whole, fraction, exponent⟩, cs)

theorem readNumber_plain {c : Char} (hc : c ≠ '-') (cs : List Char) :
    readNumber (c :: cs) = readUnsigned false (c :: cs) := by
  unfold readNumber
  split
  · next negative cs' heq =>
    split at heq
    · next h =>
      cases h
      exact absurd rfl hc
    · cases heq
      rfl

theorem readUnsigned_append {negative : Bool} {cs more rest : List Char} {l : NumberLiteral}
    (h : readUnsigned negative cs = .ok (l, more)) (hrest : Delimited rest) :
    readUnsigned negative (cs ++ rest) = .ok (l, more ++ rest) := by
  obtain ⟨⟨whole, cs₁⟩, hwhole, h⟩ := exists_of_bind_eq_ok h
  obtain ⟨⟨fraction, cs₂⟩, hfraction, h⟩ := exists_of_bind_eq_ok h
  obtain ⟨⟨exponent, cs₃⟩, hexponent, h⟩ := exists_of_bind_eq_ok h
  cases h
  simp only [readUnsigned, readWhole_append hrest hwhole, readFraction_append hrest hfraction,
    readExponent_append hrest hexponent, bind, Except.bind]
  rfl

theorem readNumber_append {cs more rest : List Char} {l : NumberLiteral}
    (h : readNumber cs = .ok (l, more)) (hrest : Delimited rest) :
    readNumber (cs ++ rest) = .ok (l, more ++ rest) := by
  cases cs with
  | nil => cases h
  | cons c cs =>
    rw [List.cons_append]
    by_cases hc : c = '-'
    · subst hc
      exact readUnsigned_append h hrest
    · rw [readNumber_plain hc] at h ⊢
      exact readUnsigned_append h hrest

/-! ### What is left -/

section Suffix

variable {cs more : List Char}

theorem readWhole_suffix {digits : List Char} (h : readWhole cs = .ok (digits, more)) :
    more <:+ cs := by
  simp only [readWhole] at h
  split at h
  · exact absurd h (numberBreak_ne_ok _ _)
  · cases h
  · cases h
    exact List.dropWhile_suffix _

theorem readFraction_suffix {fraction : Option (List Char)}
    (h : readFraction cs = .ok (fraction, more)) : more <:+ cs := by
  unfold readFraction at h
  split at h
  · dsimp only at h
    split at h
    · exact absurd h (numberBreak_ne_ok _ _)
    · cases h
      exact (List.dropWhile_suffix _).trans (List.suffix_cons _ _)
  · cases h
    exact List.suffix_refl _

theorem readExponentSign_suffix (cs : List Char) : (readExponentSign cs).2 <:+ cs := by
  unfold readExponentSign
  split
  · exact List.suffix_cons _ _
  · exact List.suffix_cons _ _
  · exact List.suffix_refl _

theorem readExponent_suffix {exponent : Option (Bool × List Char)}
    (h : readExponent cs = .ok (exponent, more)) : more <:+ cs := by
  cases cs with
  | nil =>
    cases h
    exact List.suffix_refl _
  | cons c cs =>
    simp only [readExponent] at h
    split at h
    · split at h
      · exact absurd h (numberBreak_ne_ok _ _)
      · cases h
        exact ((List.dropWhile_suffix _).trans (readExponentSign_suffix cs)).trans
          (List.suffix_cons _ _)
    · cases h
      exact List.suffix_refl _

theorem readUnsigned_suffix {negative : Bool} {l : NumberLiteral}
    (h : readUnsigned negative cs = .ok (l, more)) : more <:+ cs := by
  obtain ⟨⟨whole, cs₁⟩, hwhole, h⟩ := exists_of_bind_eq_ok h
  obtain ⟨⟨fraction, cs₂⟩, hfraction, h⟩ := exists_of_bind_eq_ok h
  obtain ⟨⟨exponent, cs₃⟩, hexponent, h⟩ := exists_of_bind_eq_ok h
  cases h
  exact ((readExponent_suffix hexponent).trans (readFraction_suffix hfraction)).trans
    (readWhole_suffix hwhole)

theorem readNumber_suffix {l : NumberLiteral} (h : readNumber cs = .ok (l, more)) : more <:+ cs := by
  cases cs with
  | nil => cases h
  | cons c cs =>
    by_cases hc : c = '-'
    · subst hc
      exact (readUnsigned_suffix h).trans (List.suffix_cons _ _)
    · rw [readNumber_plain hc] at h
      exact readUnsigned_suffix h

end Suffix

/-! ### Numbers in documents -/

theorem ofNumber_eq_iff {cs rest : List Char} {n : Number} :
    ofNumber cs = (.number (.ok n), some rest) ↔ ∃ l, readNumber cs = .ok (l, rest) ∧ l.value = some n := by
  unfold ofNumber
  split
  · next l more hread =>
    rw [hread]
    split
    · next m hm => simp [hm, and_comm]
    · next hm => simp [hm]
  · next f hread => simp [hread]

theorem spells_of_ofNumber {c : Char} {cs : List Char} {n : Number} (hc : c = '-' ∨ c.isDigit = true)
    (h : ofNumber (c :: cs) = (.number (.ok n), some [])) : Spells (c :: cs) n where
  starts := ⟨c, rfl, hc⟩
  reads rest hrest := by
    obtain ⟨l, hread, hvalue⟩ := ofNumber_eq_iff.mp h
    exact ofNumber_eq_iff.mpr ⟨l, readNumber_append hread hrest, hvalue⟩

/-- Only the scanner of numbers makes numbers. -/
theorem ofNumber_of_readValue {fuel depth : Nat} {c : Char} {cs : List Char} {n : Except JsonFault Number}
    {rest : Rest} (hc : isBlank c = false)
    (h : readValue (fuel + 1) depth (c :: cs) = (.number n, rest)) :
    (c = '-' ∨ c.isDigit = true) ∧ ofNumber (c :: cs) = (.number n, rest) := by
  have hword : ∀ (word : List Char) (d : Document) (cs : List Char),
      (∀ n, d ≠ .number n) → ofWord word d cs ≠ (.number n, rest) := by
    intro word d cs hd h
    unfold ofWord at h
    split at h
    · exact hd n (Prod.mk.inj h).1
    · cases h
  rw [readValue, skipBlanks_cons hc] at h
  split at h
  · cases h
  · exact absurd h (hword _ _ _ (by simp))
  · exact absurd h (hword _ _ _ (by simp))
  · exact absurd h (hword _ _ _ (by simp))
  · split at h <;> cases h
  · split at h <;> cases h
  · split at h <;> cases h
  · next heq =>
    cases heq
    split at h
    · next hstart => exact ⟨hstart, h⟩
    · cases h

theorem number_of_value? {d : Document} {x : Float} (h : d.value? = some (.float x)) :
    d = .number (.ok (.float x)) := by
  unfold Document.value? at h
  split at h <;> first | (cases h; rfl) | (split at h <;> simp at h) | cases h

theorem ofNumber_ne_none (cs : List Char) (n : Except JsonFault Number) :
    ofNumber cs ≠ (.number n, none) := by
  intro h
  unfold ofNumber at h
  split at h
  · split at h <;> cases h
  · cases h

theorem spells_of_parse? {cs : List Char} (hblanks : ∀ c ∈ cs, isBlank c = false) {x : Float}
    (h : Json.parse? (String.ofList cs) = some (.float x)) : Spells cs (.float x) := by
  simp only [Json.parse?, readDocument, String.toList_ofList] at h
  cases cs with
  | nil => simp [readValue, skipBlanks, Document.value?] at h
  | cons c cs =>
    have hc : isBlank c = false := hblanks c List.mem_cons_self
    cases hread : readValue (2 * (c :: cs).length + 2) 0 (c :: cs) with
    | mk d rest =>
      rw [hread] at h
      cases rest with
      | none =>
        obtain rfl := number_of_value? h
        exact absurd (ofNumber_of_readValue hc hread).2 (ofNumber_ne_none _ _)
      | some more =>
        by_cases hmore : (skipBlanks more).isEmpty = true
        · simp only [hmore, if_true] at h
          obtain rfl := number_of_value? h
          obtain ⟨hstart, hnumber⟩ := ofNumber_of_readValue hc hread
          obtain ⟨l, hl, -⟩ := ofNumber_eq_iff.mp hnumber
          have hnil : more = [] := by
            cases more with
            | nil => rfl
            | cons b more =>
              have hb := hblanks b ((readNumber_suffix hl).subset List.mem_cons_self)
              simp [skipBlanks_cons hb] at hmore
          subst hnil
          exact spells_of_ofNumber hstart hnumber
        · simp [hmore] at h

/-! ### Integers -/

theorem readWhole_of_delimited {digits rest : List Char} (hdigits : ∀ c ∈ digits, c.isDigit = true)
    (hzero : ∀ c cs, digits ≠ '0' :: c :: cs) (hne : digits ≠ []) (hrest : Delimited rest) :
    readWhole (digits ++ rest) = .ok (digits, rest) := by
  obtain ⟨hstop, hstay⟩ := span_append hrest.not_digit []
  have htake : (digits ++ rest).takeWhile Char.isDigit = digits := by
    rw [List.takeWhile_append_of_pos hdigits]
    exact (congrArg (digits ++ ·) hstop).trans (List.append_nil digits)
  have hdrop : (digits ++ rest).dropWhile Char.isDigit = rest := by
    rw [List.dropWhile_append_of_pos hdigits]
    exact hstay
  simp only [readWhole, htake, hdrop]

/-- The digits of a number do not start with zero, unless it is zero. -/
theorem toDigits_head {n : Nat} (hn : 0 < n) : ∃ c cs, Nat.toDigits 10 n = c :: cs ∧ c ≠ '0' := by
  induction n using Nat.strongRecOn with
  | _ n ih =>
    by_cases hlt : n < 10
    · refine ⟨n.digitChar, [], Nat.toDigits_of_lt_base hlt, ?_⟩
      have hall : ∀ m < 10, 0 < m → m.digitChar ≠ '0' := by decide
      exact hall n hlt hn
    · obtain ⟨c, cs, hdigits, hc⟩ := ih (n / 10) (by omega) (by omega)
      exact ⟨c, cs ++ [(n % 10).digitChar], by
        rw [Nat.toDigits_of_base_le (by decide) (by omega), hdigits, List.cons_append], hc⟩

theorem toDigits_ne_zero_cons (n : Nat) (c : Char) (cs : List Char) :
    Nat.toDigits 10 n ≠ '0' :: c :: cs := by
  intro h
  rcases Nat.eq_zero_or_pos n with rfl | hn
  · cases h
  · obtain ⟨d, ds, hdigits, hd⟩ := toDigits_head hn
    rw [hdigits] at h
    cases h
    exact hd rfl

theorem foldl_pushWhole (cs : List Char) (n : Nat) (h : Nat.ofDigitChars 10 cs n < UInt64.size) :
    cs.foldl NumberLiteral.Digits.pushWhole ⟨n, 0, false⟩ = ⟨Nat.ofDigitChars 10 cs n, 0, false⟩ := by
  induction cs generalizing n with
  | nil => rfl
  | cons c cs ih =>
    rw [Nat.ofDigitChars_cons] at h ⊢
    have hfits : 10 * n + (c.toNat - '0'.toNat) < UInt64.size := by
      refine Nat.lt_of_le_of_lt ?_ h
      rw [Nat.ofDigitChars_eq_ofDigitChars_zero]
      exact Nat.le_add_right_of_le (Nat.le_mul_of_pos_left _ (Nat.pow_pos (by decide)))
    have hnext : NumberLiteral.Digits.next ⟨n, 0, false⟩ c = some (10 * n + (c.toNat - '0'.toNat)) :=
      if_neg fun hfull => Nat.not_le.mpr hfits (of_decide_eq_true hfull)
    have hpush : NumberLiteral.Digits.pushWhole ⟨n, 0, false⟩ c =
        ⟨10 * n + (c.toNat - '0'.toNat), 0, false⟩ := by
      simp only [NumberLiteral.Digits.pushWhole, hnext]
    rw [List.foldl_cons, hpush, ih _ h]

theorem spells_int {n : Nat} (h : n < UInt64.size) : Spells (scalarChars (.int n)) (.int n) := by
  have hchars : scalarChars (.int n) = Nat.toDigits 10 n := Nat.toList_repr
  have hdigits : ∀ c ∈ Nat.toDigits 10 n, c.isDigit = true :=
    fun c hc => Nat.isDigit_of_mem_toDigits (by decide) (by decide) hc
  obtain ⟨c, cs, hhead⟩ := List.exists_cons_of_ne_nil (Nat.toDigits_ne_nil (n := n) (b := 10))
  have hc : c.isDigit = true := hdigits c (hhead ▸ List.mem_cons_self)
  have hwhole : readWhole (c :: cs) = .ok (c :: cs, []) := by
    have hend : Delimited [] := by simp [Delimited]
    have hread := readWhole_of_delimited hdigits (toDigits_ne_zero_cons n) Nat.toDigits_ne_nil hend
    rwa [List.append_nil, hhead] at hread
  have hread : readNumber (c :: cs) = .ok (⟨false, c :: cs, none, none⟩, []) := by
    rw [readNumber_plain (by rintro rfl; exact absurd hc (by decide))]
    simp only [readUnsigned, hwhole]
    rfl
  have hvalue : NumberLiteral.value ⟨false, c :: cs, none, none⟩ = some (.int n) := by
    have hvalue : Nat.ofDigitChars 10 (c :: cs) 0 = n := by
      rw [← hhead]
      exact Nat.ofDigitChars_ten_toDigits
    have hfold := foldl_pushWhole (c :: cs) 0 (by rw [hvalue]; exact h)
    rw [hvalue] at hfold
    simp only [NumberLiteral.value, hfold]
    rfl
  rw [hchars, hhead]
  exact spells_of_ofNumber (.inr hc) (ofNumber_eq_iff.mpr ⟨_, hread, hvalue⟩)

/-! ### Floating point numbers -/

/-- A character that occurs in the text of a number. -/
def isNumberChar (c : Char) : Bool := c.isDigit || c == '.' || c == 'e' || c == '+' || c == '-'

theorem isBlank_of_isNumberChar {c : Char} (h : isNumberChar c = true) : isBlank c = false := by
  simp only [isNumberChar, Bool.or_eq_true, beq_iff_eq] at h
  rcases h with (((h | rfl) | rfl) | rfl) | rfl
  · exact (startsItem_of_startsNumber (.inr h)).1
  all_goals decide

/-- All characters of a text occur in numbers. -/
def IsNumberText (s : String) : Prop := ∀ c ∈ s.toList, isNumberChar c = true

namespace IsNumberText

theorem ofAll {s : String} (h : s.toList.all isNumberChar = true) : IsNumberText s :=
  List.all_eq_true.mp h

theorem ofDigit {c : Char} (h : c.isDigit = true) : isNumberChar c = true := by
  simp [isNumberChar, h]

theorem append {s t : String} (hs : IsNumberText s) (ht : IsNumberText t) : IsNumberText (s ++ t) := by
  intro c hc
  rw [String.toList_append, List.mem_append] at hc
  exact hc.elim (hs c) (ht c)

theorem ofDigits {cs : List Char} (h : ∀ c ∈ cs, c.isDigit = true) :
    IsNumberText (String.ofList cs) := by
  intro c hc
  rw [String.toList_ofList] at hc
  exact ofDigit (h c hc)

theorem ofPart {cs : List Char} {n : Nat} (h : cs ⊆ Nat.toDigits 10 n) :
    IsNumberText (String.ofList cs) :=
  ofDigits fun _ hc => Nat.isDigit_of_mem_toDigits (by decide) (by decide) (h hc)

theorem zeros (n : Nat) : IsNumberText (DecimalLayout.zeros n) :=
  ofDigits fun c hc => by
    rw [List.eq_of_mem_replicate hc]
    rfl

theorem plain (d : ShortDecimal) : IsNumberText (DecimalLayout.plain d) := by
  unfold DecimalLayout.plain
  dsimp only
  split
  · exact ((ofPart (List.Subset.refl _)).append (zeros _)).append (ofAll rfl)
  · split
    · exact ((ofPart (List.take_subset _ _)).append (ofAll rfl)).append (ofPart (List.drop_subset _ _))
    · exact ((ofAll rfl).append (zeros _)).append (ofPart (List.Subset.refl _))

theorem scientific (d : ShortDecimal) : IsNumberText (DecimalLayout.scientific d) := by
  have hplaces : ∀ n : Nat, IsNumberText (toString n) := by
    intro n c hc
    rw [show (toString n).toList = Nat.toDigits 10 n from Nat.toList_repr] at hc
    exact ofDigit (Nat.isDigit_of_mem_toDigits (by decide) (by decide) hc)
  unfold DecimalLayout.scientific
  refine (((append (ofPart (List.take_subset _ _)) ?_).append (ofAll rfl)).append ?_).append (hplaces _)
  · split
    · exact ofAll rfl
    · exact (ofAll rfl).append (ofPart (List.drop_subset _ _))
  · split <;> exact ofAll rfl

end IsNumberText

theorem isNumberText_text (x : Float) : IsNumberText (numberLayout.text x) := by
  have hsign : ∀ negative : Bool, IsNumberText (DecimalLayout.signText negative) := by
    intro negative
    cases negative <;> exact .ofAll rfl
  unfold DecimalLayout.text
  dsimp only
  split
  · exact (hsign _).append (.ofAll rfl)
  · refine (hsign _).append ?_
    split
    · exact .plain _
    · exact .scientific _

theorem legible_float {x : Float} (h : Json.parse? (Json.float x).compact = some (.float x)) :
    Legible (.float x) := by
  refine .float (spells_of_parse? (fun c hc => isBlank_of_isNumberChar (isNumberText_text x c hc)) ?_)
  exact h

end Json

end PatchTyping
