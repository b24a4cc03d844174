import PatchTyping.Proofs.TypeGrammar

/-!
# Types read back from their text

A type is written as a list of tokens in which no two words touch, so the scanner finds those tokens
again and the reader rebuilds the type. What can be read in this way is exactly what reading a text
can give: every name in it is a word, and its payload admits its unit when both are known.
-/

namespace PatchTyping

namespace TypeText

/-- The tokens can be told apart in print: words are words, and none follows another directly. -/
def Legible : List Token → Prop
  | [] => True
  | .word n :: ts => isWord n = true ∧ (∀ m, ts.head? ≠ some (.word m)) ∧ Legible ts
  | _ :: ts => Legible ts

/-! ## Scanning printed tokens -/

/-- A word that is being read goes on to the end of its letters and stops there. -/
theorem scanFrom_letters (cs rest : List Char) (hcs : cs.all isWordChar = true)
    (hrest : ∀ c ∈ rest.head?, isWordChar c = false) (w : OpenWord) (pos : Nat) :
    ∃ pos', (scanFrom (some w) pos (cs ++ rest)).map (·.val) =
      .token (.word (String.ofList (w.letters.reverse ++ cs))) ::
        (scanFrom none pos' rest).map (·.val) := by
  induction cs generalizing w pos with
  | nil =>
    cases rest with
    | nil => exact ⟨pos, by simp [scanFrom, OpenWord.close]⟩
    | cons c rest =>
      have hc : isWordChar c = false := hrest c rfl
      have hstart : ¬ isWordStart c = true := fun h => by
        simp [isWordChar_of_isWordStart h] at hc
      exact ⟨pos, by simp [scanFrom, OpenWord.close, hc, hstart]⟩
  | cons c cs ih =>
    simp only [List.all_cons, Bool.and_eq_true] at hcs
    obtain ⟨pos', h⟩ := ih hcs.2 { w with letters := c :: w.letters } (pos + c.utf8Size)
    refine ⟨pos', ?_⟩
    simpa [scanFrom, hcs.1] using h

theorem scanFrom_word {n : String} (hn : isWord n = true) (rest : List Char)
    (hrest : ∀ c ∈ rest.head?, isWordChar c = false) (pos : Nat) :
    ∃ pos', (scanFrom none pos (n.toList ++ rest)).map (·.val) =
      .token (.word n) :: (scanFrom none pos' rest).map (·.val) := by
  unfold isWord at hn
  cases hl : n.toList with
  | nil => simp [hl] at hn
  | cons c cs =>
    simp only [hl, Bool.and_eq_true] at hn
    obtain ⟨pos', h⟩ := scanFrom_letters cs rest hn.2 hrest ⟨pos, [c]⟩ (pos + c.utf8Size)
    refine ⟨pos', ?_⟩
    have hname : String.ofList (c :: cs) = n := by rw [← hl, String.ofList_toList]
    simpa [scanFrom, hn.1, hname] using h

/-- The characters of a symbol are of no word, so a word ends before it. -/
theorem head?_spelling {ts : List Token} (h : ∀ m, ts.head? ≠ some (.word m)) :
    ∀ c ∈ (ts.flatMap Token.spelling).head?, isWordChar c = false := by
  cases ts with
  | nil => simp
  | cons t ts =>
    intro c hc
    cases t with
    | word m => exact absurd rfl (h m)
    | _ =>
      simp only [Token.spelling, List.flatMap_cons, List.cons_append, List.head?_cons,
        Option.mem_def, Option.some.injEq] at hc
      subst hc
      decide

/-- Legible tokens are found again in their spelling. -/
theorem scanFrom_spelling {ts : List Token} (h : Legible ts) (pos : Nat) :
    (scanFrom none pos (ts.flatMap Token.spelling)).map (·.val) = ts.map Piece.token := by
  induction ts generalizing pos with
  | nil => simp [scanFrom]
  | cons t ts ih =>
    cases t with
    | word n =>
      obtain ⟨hn, hhead, hts⟩ := h
      obtain ⟨pos', hpos'⟩ := scanFrom_word hn _ (head?_spelling hhead) pos
      rw [List.flatMap_cons, Token.spelling, hpos', ih hts, List.map_cons]
    | _ =>
      simp [Token.spelling, scanFrom, isWordStart, single, isBlank, Token.ofSymbol?, ih h]

theorem strays_eq_nil {ps : List (Placed Piece)} {ts : List Token}
    (h : ps.map (·.val) = ts.map Piece.token) : strays ps = [] := by
  refine List.filterMap_eq_nil_iff.mpr fun p hp => ?_
  have hmem : p.val ∈ ts.map Piece.token := h ▸ List.mem_map_of_mem hp
  obtain ⟨t, -, ht⟩ := List.mem_map.mp hmem
  simp [← ht]

theorem map_val_tokens {ps : List (Placed Piece)} {ts : List Token}
    (h : ps.map (·.val) = ts.map Piece.token) : (tokens ps).map (·.val) = ts := by
  induction ps generalizing ts with
  | nil => cases ts <;> simp_all [tokens]
  | cons p ps ih =>
    cases ts with
    | nil => simp at h
    | cons t ts =>
      simp only [List.map_cons, List.cons.injEq] at h
      rw [tokens, List.filterMap_cons_some (by simp [h.1]; rfl), List.map_cons]
      exact congrArg _ (ih h.2)

end TypeText

/-! ## Writing a type -/

namespace Axis

variable {α : Type}

/-- The tokens of an axis whose values are written as `spell` says. -/
def tokens (spell : α → List Token) : Axis α → List Token
  | inst a => spell a
  | var n => [.question, .word n]

end Axis

namespace Cardinality

def tokens : Cardinality → List Token
  | zero => [.word "zero"]
  | one => [.word "one"]
  | many d => [.word "many", .leftParen, .word d, .rightParen]

end Cardinality

namespace Temporality

def tokens : Temporality → List Token
  | continuous => []
  | discrete => [.bang, .word "discrete"]

end Temporality

namespace PortType

/-- The tokens of the written form. -/
def tokens (t : PortType) : List Token :=
  t.payload.tokens (fun p => [.word p.name]) ++ .colon :: t.unit.tokens (fun u => [.word u.name])
    ++ (if t.cardinality = .inst .one then [] else .atSign :: t.cardinality.tokens Cardinality.tokens)
    ++ t.temporality.tokens

/-- The variables of the type and the domain it counts over. -/
def names (t : PortType) : List String :=
  t.payload.name?.toList ++ t.unit.name?.toList ++ t.cardinality.name?.toList
    ++ (t.cardinality.value?.bind Cardinality.domain?).toList

theorem toList_text (t : PortType) : t.text.toList = t.tokens.flatMap Token.spelling := by
  obtain ⟨p, u, c, m⟩ := t
  cases p <;> cases u <;> cases m <;> rcases c with (_ | _ | d) | v <;>
    simp [text, tokens, Axis.text, Axis.tokens, Cardinality.text, Cardinality.tokens,
      Temporality.tokens, Token.spelling, Temporality.name]

end PortType

namespace TypeText

theorem isWord_payloadName (p : Payload) : isWord p.name = true := by
  cases p <;> decide +kernel

theorem isWord_unitName (u : UnitTag) : isWord u.name = true := by
  cases u <;> decide +kernel

theorem legible_tokens {t : PortType} (h : ∀ n ∈ t.names, isWord n = true) : Legible t.tokens := by
  obtain ⟨p, u, c, m⟩ := t
  cases p <;> cases u <;> cases m <;> rcases c with (_ | _ | d) | v <;>
    simp_all [PortType.names, PortType.tokens, Axis.name?, Axis.value?, Cardinality.domain?,
      Axis.tokens, Cardinality.tokens, Temporality.tokens, Legible, isWord_payloadName, isWord_unitName] <;>
    decide +kernel

/-! ## Names in phrases -/

theorem AxisPhrase.word_mem {α : Type} {name : α → String} {ws : List Token} {a : Axis α}
    (h : AxisPhrase name ws a) {n : String} (hn : n ∈ a.name?) : .word n ∈ ws := by
  cases h with
  | inst => cases hn
  | var =>
    cases hn
    simp

theorem cardinalitySuffix_word_mem {ws : List Token} {c : Axis Cardinality}
    (h : CardinalitySuffix ws c) {n : String}
    (hn : n ∈ c.name? ∨ n ∈ c.value?.bind Cardinality.domain?) : .word n ∈ ws := by
  cases h with
  | absent => simp [Axis.name?, Axis.value?, Cardinality.domain?] at hn
  | present h =>
    cases h <;> simp_all [Axis.name?, Axis.value?, Cardinality.domain?]

theorem TypePhrase.word_mem {ws : List Token} {t : PortType} (h : TypePhrase ws t) {n : String}
    (hn : n ∈ t.names) : .word n ∈ ws := by
  cases h with
  | mk hp hu hc hm =>
    simp only [PortType.names, List.mem_append, Option.mem_toList, or_assoc] at hn
    simp only [List.mem_append, List.mem_cons]
    rcases hn with hn | hn | hn
    · exact .inl (.inl (.inl (hp.word_mem hn)))
    · exact .inl (.inl (.inr (.inr (hu.word_mem hn))))
    · exact .inl (.inr (cardinalitySuffix_word_mem hc hn))

theorem isWord_of_mem_tokens {s n : String}
    (h : .word n ∈ (tokens (scan s)).map (·.val)) : isWord n = true := by
  obtain ⟨t, ht, hval⟩ := List.mem_map.mp h
  have hproper := ((laidOut_scan s).exists_split (mem_tokens_iff.mp ht)).1
  rwa [hval] at hproper

end TypeText

/-! ## Reading a type back -/

theorem Axis.axisPhrase {α : Type} (name : α → String) (a : Axis α) :
    TypeText.AxisPhrase name (a.tokens fun v => [.word (name v)]) a := by
  cases a with
  | inst v => exact .inst v
  | var n => exact .var n

theorem Cardinality.cardinalitySuffix (c : Axis Cardinality) :
    TypeText.CardinalitySuffix
      (if c = .inst .one then [] else .atSign :: c.tokens Cardinality.tokens) c := by
  rcases c with (_ | _ | d) | v
  · exact .present .zero
  · exact .absent
  · exact .present (.many d)
  · exact .present (.var v)

theorem Temporality.temporalitySuffix (m : Temporality) : TypeText.TemporalitySuffix m.tokens m := by
  cases m with
  | continuous => exact .absent
  | discrete => exact .present .discrete

theorem PortType.typePhrase (t : PortType) : TypeText.TypePhrase t.tokens t :=
  .mk (t.payload.axisPhrase _) (t.unit.axisPhrase _) (Cardinality.cardinalitySuffix _)
    t.temporality.temporalitySuffix

/-- A type with proper names and an admitted pair is read back from its text. -/
theorem parsePortType_text {t : PortType} (hnames : ∀ n ∈ t.names, TypeText.isWord n = true)
    (hpair : t.disallowedPair? = none) : parsePortType t.text = .ok t := by
  have hscan : (TypeText.scan t.text).map (·.val) = t.tokens.map Piece.token := by
    rw [TypeText.scan, t.toList_text]
    exact TypeText.scanFrom_spelling (TypeText.legible_tokens hnames) 0
  refine parsePortType_eq_ok_iff.mpr ⟨TypeText.strays_eq_nil hscan, ?_, hpair⟩
  rw [TypeText.map_val_tokens hscan]
  exact t.typePhrase

theorem isWord_of_parsePortType {s : String} {t : PortType} (h : parsePortType s = .ok t) :
    (∀ n ∈ t.names, TypeText.isWord n = true) ∧ t.disallowedPair? = none := by
  obtain ⟨-, hphrase, hpair⟩ := parsePortType_eq_ok_iff.mp h
  exact ⟨fun n hn => TypeText.isWord_of_mem_tokens (hphrase.word_mem hn), hpair⟩

/-- Printing and reading a type gives the type back exactly when its names are words and its payload
admits its unit as far as both are known; every type that was read from some text is of this kind. -/
theorem parsePortType_text_iff (t : PortType) :
    (parsePortType t.text = .ok t ↔
      (∀ n ∈ t.names, TypeText.isWord n = true) ∧
        ∀ p u, t.payload = .inst p → t.unit = .inst u → p.admits u = true) ∧
      ∀ s, parsePortType s = .ok t → parsePortType t.text = .ok t := by
  rw [← PortType.disallowedPair?_eq_none_iff]
  refine ⟨⟨isWord_of_parsePortType, fun h => parsePortType_text h.1 h.2⟩, fun s hs => ?_⟩
  obtain ⟨hnames, hpair⟩ := isWord_of_parsePortType hs
  exact parsePortType_text hnames hpair

theorem parsePortType_text_leds :
    let t : PortType := ⟨.inst .vec2, .var "space", .inst (.many "leds-1"), .discrete⟩
    t.text = "vec2:?space@many(leds-1)!discrete" ∧ parsePortType t.text = .ok t :=
  ⟨by decide +kernel, (parsePortType_text_iff _).1.mpr ⟨by decide +kernel, by simp⟩⟩

end PatchTyping
