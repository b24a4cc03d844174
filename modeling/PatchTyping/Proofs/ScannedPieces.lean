import Mathlib.Data.String.Basic
import PatchTyping.TypeTextTokens

/-!
# Where the pieces of a text lie

The scanner lays the pieces out over the text, from left to right and with nothing but blanks between them.
A word stretches as far as it can. All that is said of the bytes of a piece follows from this.
-/

namespace PatchTyping

open String (utf8Len)

namespace Token

/-- The characters of a token. -/
def spelling : Token → List Char
  | colon => [':'] | atSign => ['@'] | question => ['?'] | bang => ['!']
  | leftParen => ['('] | rightParen => [')'] | word n => n.toList

theorem spelling_of_symbol {c : Char} {t : Token} (h : ofSymbol? c = some t) : t.spelling = [c] := by
  unfold ofSymbol? at h
  split at h <;> cases h <;> rfl

end Token

namespace Piece

open TypeText

/-- The characters of a piece. -/
def spelling : Piece → List Char
  | token t => t.spelling
  | stray c => [c]

/-- The scanner may find the piece: a word is a word, and a stray character fits nowhere. -/
def Proper : Piece → Prop
  | token (.word n) => isWord n = true
  | token _ => True
  | stray c => isBlank c = false ∧ Token.ofSymbol? c = none ∧ isWordStart c = false

/-- The piece does not go on with the characters that follow it. -/
def EndsBefore : Piece → List Char → Prop
  | token (.word _), rest => ∀ c ∈ rest.head?, isWordChar c = false
  | _, _ => True

end Piece

namespace TypeText

theorem isWordChar_of_isWordStart {c : Char} (h : isWordStart c = true) : isWordChar c = true := by
  simp only [isWordStart, isWordChar, Char.isAlphanum, Bool.or_eq_true] at h ⊢
  rcases h with h | h
  · exact .inl (.inl (.inl (.inl h)))
  · exact .inl (.inl (.inr h))

/-- The pieces are what the characters from byte `pos` on consist of, blanks left out. -/
inductive LaidOut : Nat → List Char → List (Placed Piece) → Prop
  | done {pos : Nat} : LaidOut pos [] []
  | blank {pos : Nat} {c : Char} {cs : List Char} {ps : List (Placed Piece)} :
      isBlank c = true → LaidOut (pos + c.utf8Size) cs ps → LaidOut pos (c :: cs) ps
  | piece {pos : Nat} {p : Piece} {cs : List Char} {ps : List (Placed Piece)} :
      p.Proper → p.EndsBefore cs → LaidOut (pos + utf8Len p.spelling) cs ps →
      LaidOut pos (p.spelling ++ cs) (⟨p, ⟨pos, pos + utf8Len p.spelling⟩⟩ :: ps)

/-! ## The scanner lays pieces out -/

/-- The letters read so far make up a word. -/
def OpenWord.Sound (w : OpenWord) : Prop := isWord (String.ofList w.letters.reverse) = true

theorem OpenWord.sound_start {c : Char} (h : isWordStart c = true) (pos : Nat) :
    OpenWord.Sound ⟨pos, [c]⟩ := by
  simp [OpenWord.Sound, isWord, h]

theorem OpenWord.Sound.letter {w : OpenWord} (hw : w.Sound) {c : Char} (hc : isWordChar c = true) :
    OpenWord.Sound { w with letters := c :: w.letters } := by
  simp only [OpenWord.Sound, isWord, String.toList_ofList, List.reverse_cons] at hw ⊢
  cases hl : w.letters.reverse with
  | nil => simp [hl] at hw
  | cons d ds =>
    simp only [hl, Bool.and_eq_true] at hw
    simp [hw.1, hw.2, hc]

variable {pos : Nat} {cs : List Char} {ps : List (Placed Piece)}

theorem LaidOut.cons (p : Piece) {letters : List Char} {stop : Nat} (hletters : p.spelling = letters)
    (hstop : stop = pos + utf8Len letters) (hp : p.Proper) (hends : p.EndsBefore cs)
    (h : LaidOut stop cs ps) : LaidOut pos (letters ++ cs) (⟨p, ⟨pos, stop⟩⟩ :: ps) := by
  subst hletters hstop
  exact .piece hp hends h

theorem LaidOut.close {w : OpenWord} (hw : w.Sound) (hpos : pos = w.start + utf8Len w.letters.reverse)
    (hcs : ∀ c ∈ cs.head?, isWordChar c = false) (h : LaidOut pos cs ps) :
    LaidOut w.start (w.letters.reverse ++ cs) (w.close pos :: ps) := by
  refine LaidOut.cons (.token (.word (String.ofList w.letters.reverse))) ?_ hpos hw hcs h
  simp [Piece.spelling, Token.spelling]

theorem LaidOut.single {c : Char} (hc : isWordStart c = false) (h : LaidOut (pos + c.utf8Size) cs ps) :
    LaidOut pos (c :: cs) (single c pos ++ ps) := by
  have hstop : pos + c.utf8Size = pos + utf8Len [c] := by simp
  unfold TypeText.single
  split
  case isTrue hblank => exact .blank hblank h
  case isFalse hblank =>
    split
    case h_1 t ht =>
      have hproper : (Piece.token t).Proper ∧ (Piece.token t).EndsBefore cs := by
        unfold Token.ofSymbol? at ht
        split at ht <;> cases ht <;> exact ⟨trivial, trivial⟩
      exact .cons (.token t) (Token.spelling_of_symbol ht) hstop hproper.1 hproper.2 h
    case h_2 hnone =>
      exact .cons (.stray c) rfl hstop ⟨Bool.eq_false_iff.mpr hblank, hnone, hc⟩ trivial h

theorem laidOut_scanFrom (cs : List Char) (pos : Nat) :
    LaidOut pos cs (scanFrom none pos cs) ∧
      ∀ w : OpenWord, w.Sound → pos = w.start + utf8Len w.letters.reverse →
        LaidOut w.start (w.letters.reverse ++ cs) (scanFrom (some w) pos cs) := by
  induction cs generalizing pos with
  | nil => exact ⟨.done, fun w hw hpos => .close hw hpos (by simp) .done⟩
  | cons c cs ih =>
    obtain ⟨hoff, hin⟩ := ih (pos + c.utf8Size)
    have hsingle : isWordStart c = false → LaidOut pos (c :: cs)
        (TypeText.single c pos ++ scanFrom none (pos + c.utf8Size) cs) := fun hc => hoff.single hc
    refine ⟨?_, fun w hw hpos => ?_⟩
    · by_cases hc : isWordStart c = true
      · simp only [scanFrom, hc, if_true]
        exact hin ⟨pos, [c]⟩ (OpenWord.sound_start hc pos) (by simp)
      · rw [scanFrom, if_neg hc]
        exact hsingle (Bool.eq_false_iff.mpr hc)
    · by_cases hc : isWordChar c = true
      · have hletters := hin { w with letters := c :: w.letters } (hw.letter hc)
          (by simp [hpos, String.utf8Len_append, Nat.add_assoc])
        simpa [scanFrom, hc] using hletters
      · have hstart : isWordStart c = false :=
          Bool.eq_false_iff.mpr fun h => hc (isWordChar_of_isWordStart h)
        rw [scanFrom, if_neg hc, List.cons_append]
        exact .close hw hpos (by simpa using hc) (hsingle hstart)

theorem laidOut_scan (text : String) : LaidOut 0 text.toList (scan text) :=
  (laidOut_scanFrom text.toList 0).1

/-! ## The bytes of a piece -/

/-- A piece lies where its characters are. -/
theorem LaidOut.exists_split (h : LaidOut pos cs ps) {p : Placed Piece} (hp : p ∈ ps) :
    p.val.Proper ∧ ∃ before after, cs = before ++ p.val.spelling ++ after ∧ p.val.EndsBefore after ∧
      p.span = ⟨pos + utf8Len before, pos + utf8Len (before ++ p.val.spelling)⟩ := by
  induction h with
  | done => cases hp
  | @blank pos c cs ps _ _ ih =>
    obtain ⟨hproper, before, after, rfl, hends, hspan⟩ := ih hp
    exact ⟨hproper, c :: before, after, rfl, hends,
      by simp [hspan, Nat.add_assoc, Nat.add_comm c.utf8Size]⟩
  | @piece pos q cs ps hq hqends _ ih =>
    rcases List.mem_cons.mp hp with rfl | hp
    · exact ⟨hq, [], cs, rfl, hqends, by simp⟩
    · obtain ⟨hproper, before, after, rfl, hends, hspan⟩ := ih hp
      refine ⟨hproper, q.spelling ++ before, after, by simp, hends, ?_⟩
      simp [hspan, String.utf8Len_append, Nat.add_assoc]

theorem LaidOut.ordered (h : LaidOut pos cs ps) :
    ps.Pairwise fun p q => p.span.stop ≤ q.span.start := by
  induction h with
  | done => exact .nil
  | blank _ _ ih => exact ih
  | piece _ _ hrest ih =>
    refine List.pairwise_cons.mpr ⟨fun q hq => ?_, ih⟩
    obtain ⟨-, before, after, -, -, hspan⟩ := hrest.exists_split hq
    rw [hspan]
    exact Nat.le_add_right _ _

end TypeText

/-- The span is a stretch of whole characters of the text. -/
structure Span.Within (text : String) (s : Span) : Prop where
  start_le : s.start ≤ s.stop
  stop_le : s.stop ≤ text.utf8ByteSize
  start_valid : String.Pos.Raw.IsValid text ⟨s.start⟩
  stop_valid : String.Pos.Raw.IsValid text ⟨s.stop⟩

theorem isValid_of_split {text : String} {before after : List Char}
    (h : text.toList = before ++ after) : String.Pos.Raw.IsValid text ⟨utf8Len before⟩ := by
  refine String.Pos.Raw.isValid_iff_exists_append.mpr
    ⟨String.ofList before, String.ofList after, ?_, ?_⟩
  · rw [← String.ofList_append, ← h, String.ofList_toList]
  · simp

namespace TypeText

theorem within_of_mem_scan {text : String} {p : Placed Piece} (hp : p ∈ scan text) :
    p.span.Within text := by
  obtain ⟨-, before, after, hsplit, -, hspan⟩ := (laidOut_scan text).exists_split hp
  have hstop : String.Pos.Raw.IsValid text ⟨utf8Len (before ++ p.val.spelling)⟩ :=
    isValid_of_split hsplit
  rw [hspan]
  simp only [Nat.zero_add]
  refine ⟨?_, hstop.le_rawEndPos, ?_, hstop⟩
  · simp [String.utf8Len_append]
  · exact isValid_of_split (by rw [hsplit, List.append_assoc])

theorem within_end (text : String) : Span.Within text ⟨text.utf8ByteSize, text.utf8ByteSize⟩ := by
  have hvalid : String.Pos.Raw.IsValid text ⟨text.utf8ByteSize⟩ := by
    have h := isValid_of_split (List.append_nil text.toList).symm
    rwa [← String.utf8ByteSize_ofList, String.ofList_toList] at h
  exact ⟨Nat.le_refl _, Nat.le_refl _, hvalid, hvalid⟩

end TypeText

end PatchTyping
